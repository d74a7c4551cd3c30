import Xv6.ProcPids
import Xv6.ProcSched
import Xv6.ProcWait

/-!
# Exit statuses

`St.log` records what `exit` and `wait` do.  Every zombie has its `exit` in it with the status that the
slot still carries; a process that is in the table has not been waited for.  So every `wait` reports an
`exit` that no other has reported.
-/

namespace Xv6.ProcExits

open Xv6.LabelledRuns Xv6.ProcMachine Xv6.ProcMoves Xv6.ProcPlaces Xv6.ProcMoved Xv6.ProcInv
open Xv6.ProcFamily Xv6.ProcSched Xv6.ProcWait Xv6.ProcPids

variable {n m : ℕ} {initproc : Fin n} {s t : St n m} {c d : Fin m} {p q : Fin n} {a : Act n}
  {mv : Move n}

/-! ### The record -/

def exitPid : Event n → Option Int32
  | .exit pid _ => some pid
  | .wait _ _ _ => none

def waitPid : Event n → Option Int32
  | .exit _ _ => none
  | .wait _ pid _ => some pid

def exitPids (log : List (Event n)) : List Int32 := log.filterMap exitPid

def waitPids (log : List (Event n)) : List Int32 := log.filterMap waitPid

def waitBy (p : Fin n) : Event n → Option Int32
  | .exit _ _ => none
  | .wait q pid _ => if q = p then some pid else none

def lastWait (log : List (Event n)) (p : Fin n) : Option Int32 := log.findSome? (waitBy p)

inductive Logged (s : St n m) (x : Mode n) (pc : Pc n) (e : Effect n) : List (Event n) → Prop
  | same : Logged s x pc e s.log
  | exited (q : Fin n) (mode : x = .proc q) (st : Int32) (op : Fin n) (i : ℕ)
      (place : pc = .reparent st op i) (effect : e = .zombie q op st) :
      Logged s x pc e (.exit (s.proc q).pid st :: s.log)
  | waited (p : Fin n) (mode : x = .proc p) (addr : ℕ) (i : Fin n) (place : pc = .waitZombie addr i)
      (effect : e = .reap p i addr) :
      Logged s x pc e
        (.wait p (s.proc i).pid (if addr = 0 then none else some (s.proc i).xstate) :: s.log)

theorem logged_of_moves {x : Mode n} {pc : Pc n} (hmv : Moves initproc s.proc x pc a mv) :
    Logged s x pc mv.effect (s.effect initproc c mv.effect).log := by
  cases hmv <;> try exact .same
  case exitZombie p st op i _ => exact .exited p rfl st op i rfl rfl
  case waitReap p addr i => exact .waited p rfl addr i rfl rfl

theorem logged_moved (hm : Moved initproc s c a mv t) :
    Logged s (modeOf s (s.active c)) (s.ctl (s.active c)).pc mv.effect t.log := by
  rw [hm.log]
  exact logged_of_moves hm.moves

theorem mem_log_moved {e : Event n} (hm : Moved initproc s c a mv t) (he : e ∈ s.log) : e ∈ t.log := by
  have hlog := logged_moved hm
  generalize t.log = l at hlog
  cases hlog with
  | same => exact he
  | exited _ _ _ _ _ _ _ | waited _ _ _ _ _ _ => exact List.mem_cons_of_mem _ he

/-! ### The invariant -/

def ExitAt (s : St n m) (p : Fin n) : Pc n → Prop
  | .trapframe i | .pagetable i | .uvmcopy i => (s.proc i).pid ∉ exitPids s.log
  | .waitRelease _ r | .waitEnd r => r = -1 ∨ lastWait s.log p = some r
  | _ => True

theorem exitAt_congr {pc : Pc n} (hproc : t.proc = s.proc) (hlog : t.log = s.log)
    (hat : ExitAt s p pc) : ExitAt t p pc := by
  unfold ExitAt at *
  rw [hproc, hlog]
  exact hat

structure Recorded (s : St n m) : Prop where
  exits : ∀ q, (s.proc q).state = .zombie → .exit (s.proc q).pid (s.proc q).xstate ∈ s.log
  alive : ∀ q, (s.proc q).state ≠ .unused → (s.proc q).state ≠ .zombie →
    (s.proc q).pid ∉ exitPids s.log
  unreported : ∀ q, (s.proc q).state ≠ .unused → (s.proc q).pid ∉ waitPids s.log
  bounded : ∀ pid ∈ exitPids s.log, pid.toInt ≤ s.calls
  waited : ∀ pid ∈ waitPids s.log, pid ∈ exitPids s.log
  exitOnce : (exitPids s.log).Nodup
  waitOnce : (waitPids s.log).Nodup
  place : ∀ p, (s.proc p).state ≠ .unused → ExitAt s p (base s p)

theorem mem_exitPids {log : List (Event n)} {pid st : Int32} (he : .exit pid st ∈ log) : pid ∈ exitPids log :=
  List.mem_filterMap.mpr ⟨_, he, rfl⟩

section Moved

variable (h : Inv initproc s) (hfam : Family initproc s) (hnum : Numbered initproc s)
  (hcalls : s.calls < 2 ^ 31 - 1) (hrec : Recorded s) (hm : Moved initproc s c a mv t)

include h hm

theorem exit_moved {st : Int32} {op : Fin n} {i : ℕ} (hx : modeOf s (s.active c) = .proc q)
    (hpc : (s.ctl (s.active c)).pc = .reparent st op i) (he : mv.effect = .zombie q op st) :
    (s.proc q).state = .running ∧ t.proc q = { s.proc q with xstate := st, state := .zombie } := by
  have hon := on_of_own (by rw [hx]; rfl)
  have hst := (h.state_of_on hon).1
  rw [← active_proc.mpr hon, hpc] at hst
  refine ⟨hst, ?_⟩
  rw [hm.proc, he]
  exact Function.update_self _ _ _

theorem reap_moved {addr : ℕ} {i : Fin n} (hpc : (s.ctl (s.active c)).pc = .waitZombie addr i)
    (he : mv.effect = .reap p i addr) : (s.proc i).state = .zombie ∧ t.proc i = freeproc n := by
  have hf := h.found c
  rw [hpc] at hf
  refine ⟨hf, ?_⟩
  rw [hm.proc, he]
  exact Function.update_self _ _ _

include hrec in
theorem exits_moved (hz : (t.proc q).state = .zombie) : .exit (t.proc q).pid (t.proc q).xstate ∈ t.log := by
  have hw := wrote_moved h hm q
  have hlog := hm.log
  have hf := h.found c
  have hkeep : (s.proc q).state = .zombie → .exit (s.proc q).pid (s.proc q).xstate ∈ t.log :=
    fun hs => mem_log_moved hm (hrec.exits q hs)
  generalize t.proc q = y at hw hz
  cases hw with
  | same | tidied _ | adopted _ _ _ _ _ => exact hkeep hz
  | slain _ _ _ =>
    refine hkeep ?_
    unfold slay at hz
    simp only at hz
    split at hz
    case isTrue => cases hz
    case isFalse => exact hz
  | numbered _ _ hpc =>
    rw [hpc] at hf
    have hu : (s.proc q).state = .zombie := hz
    rw [hf] at hu
    cases hu
  | exited hx st op i hpc hi =>
    rw [hlog, zombie_effect hm.moves hx hpc hi]
    exact List.mem_cons_self
  | woken _ | yielded _ _ | slept _ _ _ | freed _ | born _ _ _ | reaped _ _ _ _ _ | dispatched _ _ => cases hz

theorem zombie_moved (hz : (s.proc q).state = .zombie) : (t.proc q).state = .zombie ∨ (t.proc q).state = .unused := by
  have hplace : (modeOf s (s.active c)).own = some q → stateAt (s.ctl (s.active c)).pc = .zombie := by
    intro hx
    have hon := on_of_own hx
    rw [active_proc.mpr hon, ← (h.state_of_on hon).1]
    exact hz
  have hchange := change_moved h hm q
  generalize (t.proc q).state = st at hchange
  cases hchange with
  | same => exact Or.inl hz
  | freed _ => exact Or.inr rfl
  | exited _ _ _ _ _ _ => exact Or.inl rfl
  | woken hsl => rw [hz] at hsl; cases hsl
  | dispatched _ hr => rw [hz] at hr; cases hr
  | born p _ hpc =>
    have hf := h.found c
    rw [hpc] at hf
    have hu := hf.1
    rw [hz] at hu
    cases hu
  | yielded hx hpc =>
    rw [hx, hpc] at hplace
    cases hplace rfl
  | slept hx hpc =>
    obtain ⟨ch, l, hpc⟩ | ⟨addr, i, k, hpc, -⟩ := hpc
    · rw [hx, hpc] at hplace
      cases hplace rfl
    · rw [hx, hpc] at hplace
      cases hplace rfl

include hrec in
theorem new_moved (hs : (s.proc q).state = .unused) (hu : (t.proc q).state ≠ .unused) :
    (t.proc q).pid ∉ exitPids s.log ∧ t.log = s.log := by
  obtain ⟨⟨p, hx⟩, hpc, hpid, -⟩ := born_moved h hm hs hu
  have hat := hrec.place p (alive_of_on h (on_of_own (by rw [hx]; rfl)))
  rw [← pc_of_mode hx, hpc] at hat
  refine ⟨by rw [hpid]; exact hat, ?_⟩
  have hlog := logged_moved hm
  generalize t.log = l at hlog
  cases hlog with
  | same => rfl
  | exited _ _ _ _ _ hpc' _ | waited _ _ _ _ hpc' _ => rw [hpc] at hpc'; cases hpc'

include hfam hnum hcalls hrec

theorem alive_moved (hu : (t.proc q).state ≠ .unused) (hz : (t.proc q).state ≠ .zombie) :
    (t.proc q).pid ∉ exitPids t.log := by
  by_cases hs : (s.proc q).state = .unused
  · obtain ⟨hnew, hlog⟩ := new_moved h hrec hm hs hu
    rwa [hlog]
  · have hz' : (s.proc q).state ≠ .zombie := fun hc => (zombie_moved h hm hc).elim hz hu
    rw [pid_alive h hm hs hu]
    have hold := hrec.alive q hs hz'
    have hlog := logged_moved hm
    generalize t.log = l at hlog
    cases hlog with
    | same | waited _ _ _ _ _ _ => exact hold
    | exited q' hx st op i hpc he =>
      obtain ⟨hrun, hexit⟩ := exit_moved h hm hx hpc he
      refine List.not_mem_cons_of_ne_of_not_mem (fun heq => ?_) hold
      obtain rfl := pid_inj hfam hnum hcalls hs (by rw [hrun]; exact nofun) heq
      rw [hexit] at hz
      exact hz rfl

theorem unreported_moved (hu : (t.proc q).state ≠ .unused) : (t.proc q).pid ∉ waitPids t.log := by
  by_cases hs : (s.proc q).state = .unused
  · obtain ⟨hnew, hlog⟩ := new_moved h hrec hm hs hu
    rw [hlog]
    exact fun hin => hnew (hrec.waited _ hin)
  · rw [pid_alive h hm hs hu]
    have hold := hrec.unreported q hs
    have hlog := logged_moved hm
    generalize t.log = l at hlog
    cases hlog with
    | same | exited _ _ _ _ _ _ _ => exact hold
    | waited p hx addr i hpc he =>
      obtain ⟨hz, hfree⟩ := reap_moved h hm hpc he
      refine List.not_mem_cons_of_ne_of_not_mem (fun heq => ?_) hold
      obtain rfl := pid_inj hfam hnum hcalls hs (by rw [hz]; exact nofun) heq
      rw [hfree] at hu
      exact hu rfl

omit hcalls in
theorem bounded_moved (hcalls' : t.calls < 2 ^ 31 - 1) : ∀ pid ∈ exitPids t.log, pid.toInt ≤ t.calls := by
  have hle := (birth_moved hm initproc).1
  have hold : ∀ pid ∈ exitPids s.log, pid.toInt ≤ t.calls :=
    fun pid hin => le_trans (hrec.bounded pid hin) (by exact_mod_cast hle)
  have hlog := logged_moved hm
  generalize t.log = l at hlog
  cases hlog with
  | same | waited _ _ _ _ _ _ => exact hold
  | exited q hx st op i hpc he =>
    obtain ⟨hrun, -⟩ := exit_moved h hm hx hpc he
    intro pid hin
    obtain rfl | hin := List.mem_cons.mp hin
    · have hb := hfam.young q
      rw [hnum.pid q (by rw [hrun]; exact nofun), toInt_number hfam (by omega)]
      omega
    · exact hold pid hin

omit hfam hnum hcalls in
theorem waited_moved : ∀ pid ∈ waitPids t.log, pid ∈ exitPids t.log := by
  have hlog := logged_moved hm
  generalize t.log = l at hlog
  cases hlog with
  | same => exact hrec.waited
  | exited _ _ _ _ _ _ _ => exact fun pid hin => List.mem_cons_of_mem _ (hrec.waited pid hin)
  | waited p hx addr i hpc he =>
    obtain ⟨hz, -⟩ := reap_moved h hm hpc he
    intro pid hin
    obtain rfl | hin := List.mem_cons.mp hin
    · exact mem_exitPids (List.mem_cons_of_mem _ (hrec.exits i hz))
    · exact hrec.waited pid hin

omit hfam hnum hcalls in
theorem once_moved : (exitPids t.log).Nodup ∧ (waitPids t.log).Nodup := by
  have hlog := logged_moved hm
  generalize t.log = l at hlog
  cases hlog with
  | same => exact ⟨hrec.exitOnce, hrec.waitOnce⟩
  | exited q hx st op i hpc he =>
    obtain ⟨hrun, -⟩ := exit_moved h hm hx hpc he
    have hnew := hrec.alive q (by rw [hrun]; exact nofun) (by rw [hrun]; exact nofun)
    exact ⟨List.nodup_cons.mpr ⟨hnew, hrec.exitOnce⟩, hrec.waitOnce⟩
  | waited p hx addr i hpc he =>
    obtain ⟨hz, -⟩ := reap_moved h hm hpc he
    have hnew := hrec.unreported i (by rw [hz]; exact nofun)
    exact ⟨hrec.exitOnce, List.nodup_cons.mpr ⟨hnew, hrec.waitOnce⟩⟩

omit h hfam hnum hcalls hrec in
theorem lastWait_other (hx : modeOf s (s.active c) ≠ .proc p) : lastWait t.log p = lastWait s.log p := by
  have hlog := logged_moved hm
  generalize t.log = l at hlog
  cases hlog with
  | same | exited _ _ _ _ _ _ _ => rfl
  | waited p' hx' addr i _ _ =>
    have hne : p' ≠ p := by
      rintro rfl
      exact hx hx'
    simp only [lastWait, List.findSome?_cons, waitBy, if_neg hne]

omit hrec in
theorem prepared_other {i : Fin n} (hx : modeOf s (s.active c) ≠ .proc p)
    (hmode : modeOf s (s.active d) = .proc p) (hlock : s.lock i = some d)
    (hbirth : s.birth p < s.birth i) (hpid : (s.proc i).pid = number s i)
    (hu : (s.proc i).state = .unused) (hnew : (s.proc i).pid ∉ exitPids s.log) : (t.proc i).pid ∉ exitPids t.log := by
  have hdc : d ≠ c := by
    rintro rfl
    exact hx hmode
  rw [(proc_of_heldBy h hm hdc ((h.locks d i).mp hlock)).1]
  have hlog := logged_moved hm
  generalize t.log = l at hlog
  cases hlog with
  | same | waited _ _ _ _ _ _ => exact hnew
  | exited q hx' st op j hpc he =>
    obtain ⟨hrun, -⟩ := exit_moved h hm hx' hpc he
    refine List.not_mem_cons_of_ne_of_not_mem (fun heq => ?_) hnew
    rw [hpid, hnum.pid q (by rw [hrun]; exact nofun)] at heq
    obtain rfl | hz := hnum.uniq i q (birth_of_number hfam hcalls heq)
    · rw [hu] at hrun
      cases hrun
    · exact Nat.ne_of_gt (Nat.zero_lt_of_lt hbirth) hz

theorem exitAt_other (hx : modeOf s (s.active c) ≠ .proc p) (hu : (s.proc p).state ≠ .unused) :
    ExitAt t p (base s p) := by
  have hat := hrec.place p hu
  have hslot : ∀ {i}, (∀ k, base s p ≠ .resumed k) → i ∈ held initproc (some p) (base s p) →
      s.birth p < s.birth i → (s.proc i).pid = number s i →
      (Found s (base s p) → (s.proc i).state = .unused) →
      (s.proc i).pid ∉ exitPids s.log → (t.proc i).pid ∉ exitPids t.log := by
    intro i hne hi hbirth hpid hfound hnew
    obtain ⟨d, hd, hlock⟩ := on_of_base h hu hne hi
    have hf := h.found d
    rw [pc_of_mode hd] at hf
    exact prepared_other h hfam hnum hcalls hm hx hd hlock hbirth hpid (hfound hf) hnew
  have hreturn : ∀ {r : Int32}, r = -1 ∨ lastWait s.log p = some r →
      r = -1 ∨ lastWait t.log p = some r := by
    intro r hr
    rwa [lastWait_other hm hx]
  have hkin := hfam.kin p hu
  have hnumber := hnum.place p hu
  generalize base s p = pc at *
  cases pc <;> try trivial
  case trapframe i | pagetable i => exact hslot nofun (List.mem_singleton.mpr rfl) hkin hnumber id hat
  case uvmcopy i => exact hslot nofun (List.mem_singleton.mpr rfl) hkin hnumber And.left hat
  case waitRelease i r | waitEnd r => exact hreturn hat

omit h hfam in
theorem exitAt_self (hmv : Moves initproc s.proc (.proc p) (base s p) a mv)
    (hu : (s.proc p).state ≠ .unused) : ExitAt t p mv.next := by
  have hat := hrec.place p hu
  refine exitAt_congr hm.proc hm.log ?_
  generalize base s p = pc at hmv hat
  cases hmv <;> try trivial
  case allocpid i =>
    change (Function.update s.proc i _ i).pid ∉ exitPids s.log
    rw [Function.update_self]
    intro hin
    have hle := hrec.bounded _ hin
    rw [hnum.next, Int32.toInt_ofNat_of_lt (by omega)] at hle
    omega
  case waitNone addr i _ k _ | waitFault addr _ i => exact Or.inl rfl
  case waitReap addr i =>
    right
    simp only [lastWait, St.effect, List.findSome?_cons, waitBy, if_true]

end Moved

/-- **Step lemma.** -/
theorem recorded_step (h : Inv initproc s) (hfam : Family initproc s) (hnum : Numbered initproc s)
    (hrec : s.calls < 2 ^ 31 - 1 → Recorded s) (hs : St.step initproc s (c, a) = some t)
    (hcalls' : t.calls < 2 ^ 31 - 1) : Recorded t := by
  have hle : s.calls ≤ t.calls := by
    obtain ⟨mv, hm⟩ | ⟨hsame, -⟩ := moved_or_same hs
    · exact (birth_moved hm initproc).1
    · rw [hsame.calls]
  have hcalls : s.calls < 2 ^ 31 - 1 := Nat.lt_of_le_of_lt hle hcalls'
  replace hrec := hrec hcalls
  have hplace : ∀ p, (t.proc p).state ≠ .unused → ExitAt t p (base t p) := by
    intro p hu
    cases based_step h hs hu with
    | fresh hp => rw [hp]; trivial
    | self hu' mv hm hx hmv hp =>
      rw [hp]
      exact exitAt_self hnum hcalls hrec hm hmv hu'
    | other hu' mv hm hx hp =>
      rw [hp]
      exact exitAt_other h hfam hnum hcalls hrec hm hx hu'
    | still hu' hsame hp =>
      refine exitAt_congr hsame.proc hsame.log ?_
      obtain hp | ⟨k, -, hp⟩ := hp
      · rw [hp]
        exact hrec.place p hu'
      · rw [hp]
        trivial
  obtain ⟨mv, hm⟩ | ⟨hsame, -⟩ := moved_or_same hs
  · obtain ⟨hexit, hwait⟩ := once_moved h hrec hm
    exact ⟨fun q => exits_moved h hrec hm, fun q => alive_moved h hfam hnum hcalls hrec hm,
      fun q => unreported_moved h hfam hnum hcalls hrec hm, bounded_moved h hfam hnum hrec hm hcalls',
      waited_moved h hrec hm, hexit, hwait, hplace⟩
  · refine ⟨?_, ?_, ?_, ?_, ?_, ?_, ?_, hplace⟩ <;> rw [hsame.log]
    · rw [hsame.proc]
      exact hrec.exits
    · rw [hsame.proc]
      exact hrec.alive
    · rw [hsame.proc]
      exact hrec.unreported
    · rw [hsame.calls]
      exact hrec.bounded
    · exact hrec.waited
    · exact hrec.exitOnce
    · exact hrec.waitOnce

theorem recorded_boot (initproc : Fin n) : Recorded (St.boot initproc : St n m) := by
  have hstate : ∀ q, ((St.boot initproc : St n m).proc q).state ≠ .zombie := by
    intro q
    simp only [St.boot]
    split <;> exact fun h => by cases h
  exact ⟨fun q hz => absurd hz (hstate q), fun _ _ _ => List.not_mem_nil, fun _ _ => List.not_mem_nil,
    (fun _ h => by cases h), (fun _ h => by cases h), List.nodup_nil, List.nodup_nil, fun _ _ => trivial⟩

/-- **Run lemma.** -/
theorem recorded_run (hrun : Reachable (St.step initproc) (St.boot initproc) s)
    (hcalls : s.calls < 2 ^ 31 - 1) : Recorded s := by
  have hall := run_rule (P := fun s => Numbered initproc s ∧ (s.calls < 2 ^ 31 - 1 → Recorded s))
    ⟨numbered_boot initproc, fun _ => recorded_boot initproc⟩
    (fun s c a t h hfam hp hs => ⟨numbered_step h hfam hp.1 hs, recorded_step h hfam hp.1 hp.2 hs⟩) hrun
  exact hall.2 hcalls

/-! ### What `wait` does -/

theorem moved_of_step {pc : Pc n} (hs : St.step initproc s (c, a) = some t) (hon : s.on c = some p)
    (hctl : s.ctl (.proc p) = ⟨pc, none⟩) (hsw : ∀ k, pc ≠ .sched k) (hact : a ≠ .interrupt) :
    ∃ mv, Moved initproc s c a mv t ∧ Moves initproc s.proc (.proc p) pc a mv := by
  have hpc : (s.ctl (.proc p)).pc = pc := by rw [hctl]; rfl
  have hmode : modeOf s (.proc p) = .proc p := if_pos (by rw [hctl])
  cases steps_of_step hs with
  | move mv hm =>
    have hmoves := hm.moves
    rw [active_proc.mpr hon, hmode, hpc] at hmoves
    exact ⟨mv, hm, hmoves⟩
  | interrupt _ _ => exact absurd rfl hact
  | iret _ ht =>
    rw [active_proc.mpr hon, hctl] at ht
    cases ht
  | switchOut q k hq hpc' _ =>
    obtain rfl := Option.some.inj (hon.symm.trans hq)
    exact absurd (hpc.symm.trans hpc') (hsw k)
  | switchIn q hq _ =>
    rw [hon] at hq
    cases hq

theorem free_step (h : Inv initproc s) (hs : St.step initproc s (c, a) = some t)
    (hu : (s.proc q).state ≠ .unused) (hu' : (t.proc q).state = .unused) (d : Fin m) :
    s.cproc d ≠ some q ∧ s.on d ≠ some q := by
  have hnone : ∀ d, (phase s d).proc ≠ some q := by
    cases steps_of_step hs with
    | move mv hm =>
      have hkin := kinship_moved h hm q
      cases hkin with
      | same _ hsame => exact absurd (hsame hu') hu
      | born _ _ _ _ hst => rw [hst] at hu'; cases hu'
      | adopted _ _ _ _ _ _ hst => rw [hst] at hu'; exact absurd hu' hu
      | freed hd _ => exact absurd hd hu
      | reaped p hx addr hpc _ =>
        have hz := h.found c
        rw [hpc] at hz
        have hlock : s.lock q = some c := by
          rw [h.locks, heldBy, hpc]
          exact List.mem_cons_self
        have hon := on_of_own (by rw [hx]; rfl)
        have hrun := (h.state_of_on hon).1
        rw [← active_proc.mpr hon, hpc] at hrun
        -- the caller of `wait` runs, and it is not a zombie
        have hother : ∀ d, (phase s d).proc = some q → s.lock q ≠ some d := by
          intro d hd hl
          rw [hlock] at hl
          obtain rfl := Option.some.inj hl
          rw [phase_ran hon] at hd
          obtain rfl := Option.some.inj hd
          rw [hz] at hrun
          cases hrun
        obtain ⟨k, -, -, -, hn⟩ := h.switched_out (by rw [hz]; exact fun h => by cases h) hu hother
        exact hn
    | interrupt _ _ | iret _ _ | switchOut _ _ _ _ _ | switchIn _ _ _ => exact absurd hu' hu
  refine ⟨by rw [h.cproc]; exact hnone d, fun hon => hnone d ?_⟩
  rw [phase_ran hon]
  rfl

theorem report_step (h : Inv initproc s) (hfam : Family initproc s) (hrec : Recorded s)
    (hs : St.step initproc s (c, a) = some t) {pid : Int32} {copied : Option Int32}
    (hlog : t.log = .wait p pid copied :: s.log) :
    ∃ addr i st, s.on c = some p ∧ base s p = .waitZombie addr i ∧ (s.proc i).state = .zombie ∧
      (s.proc i).parent = some p ∧ (s.proc i).pid = pid ∧ .exit pid st ∈ s.log ∧
      copied = (if addr = 0 then none else some st) ∧ base t p = .waitRelease i pid := by
  have hgrown : t.log ≠ s.log := by
    rw [hlog]
    exact List.cons_ne_self _ _
  cases steps_of_step hs with
  | move mv hm =>
    have hlogged := logged_moved hm
    rw [hlog] at hlogged
    generalize hl : Event.wait p pid copied :: s.log = l at hlogged
    cases hlogged with
    | same => exact absurd (hlog.trans hl) hgrown
    | exited _ _ _ _ _ _ _ => cases hl
    | waited p' hx addr i hpc he =>
      obtain ⟨rfl, rfl, rfl⟩ := Event.wait.inj (List.cons.inj hl).1
      obtain ⟨hz, -⟩ := reap_moved h hm hpc he
      have hkin := kin_of_mode h hfam hx
      rw [hpc] at hkin
      obtain ⟨hmv, hnext⟩ := base_moved_self h hm hx
      have hbase : base s p = .waitZombie addr i := by rw [← pc_of_mode hx, hpc]
      refine ⟨addr, i, (s.proc i).xstate, on_of_own (by rw [hx]; rfl), hbase, hz, hkin, rfl,
        hrec.exits i hz, rfl, ?_⟩
      rw [hnext]
      rw [hbase] at hmv
      cases hmv with
      | waitReap => rfl
      | waitFault _ => cases he
  | interrupt _ _ | iret _ _ | switchOut _ _ _ _ _ | switchIn _ _ _ => exact absurd rfl hgrown

theorem return_step (h : Inv initproc s) (hrec : Recorded s) {r : Int32} (hon : s.on c = some p)
    (hctl : s.ctl (.proc p) = ⟨.waitEnd r, none⟩) (hs : St.step initproc s (c, .go) = some t) :
    t.a0 p = r ∧ (r = -1 ∨ lastWait s.log p = some r) := by
  have hat := hrec.place p (alive_of_on h hon)
  rw [base, hctl] at hat
  refine ⟨?_, hat⟩
  obtain ⟨mv, hm, hmv⟩ := moved_of_step hs hon hctl (fun _ h => by cases h) fun h => by cases h
  cases hmv
  rw [hm.a0]
  exact Function.update_self _ _ _

theorem fault_step (h : Inv initproc s) {addr : ℕ} {i : Fin n} (hon : s.on c = some p)
    (hctl : s.ctl (.proc p) = ⟨.waitZombie addr i, none⟩) (hs : St.step initproc s (c, .fail) = some t) :
    t.proc = s.proc ∧ t.log = s.log ∧ (t.proc i).state = .zombie ∧ base t p = .waitRelease i (-1) := by
  obtain ⟨mv, hm, hmv⟩ := moved_of_step hs hon hctl (fun _ => nofun) nofun
  have hf := h.found c
  have hself := ctl_self h hm
  rw [active_proc.mpr hon] at hf hself
  rw [hctl] at hf hself
  cases hmv
  have hproc : t.proc = s.proc := hm.proc
  refine ⟨hproc, hm.log, ?_, ?_⟩
  · rw [hproc]
    exact hf
  · rw [base, hself]
    rfl

/-- **Exit statuses are delivered once.** -/
theorem exit_statuses (initproc : Fin n) (s : St n m)
    (hrun : Reachable (St.step initproc) (St.boot initproc) s) (hcalls : s.calls < 2 ^ 31 - 1) :
    (∀ p, (s.proc p).state ≠ .unused → 0 < (s.proc p).pid) ∧
    (∀ p q, (s.proc p).state ≠ .unused → (s.proc q).state ≠ .unused →
      (s.proc p).pid = (s.proc q).pid → p = q) ∧
    (∀ c a t p pid copied, St.step initproc s (c, a) = some t →
      t.log = .wait p pid copied :: s.log →
      ∃ addr i st, s.on c = some p ∧ base s p = .waitZombie addr i ∧ (s.proc i).state = .zombie ∧
        (s.proc i).parent = some p ∧ (s.proc i).pid = pid ∧ .exit pid st ∈ s.log ∧
        copied = (if addr = 0 then none else some st) ∧ base t p = .waitRelease i pid) ∧
    (∀ c t p r, s.on c = some p → s.ctl (.proc p) = ⟨.waitEnd r, none⟩ →
      St.step initproc s (c, .go) = some t → t.a0 p = r ∧ (r = -1 ∨ lastWait s.log p = some r)) ∧
    (exitPids s.log).Nodup ∧ (waitPids s.log).Nodup ∧
    (∀ c t p addr i, s.on c = some p → s.ctl (.proc p) = ⟨.waitZombie addr i, none⟩ →
      St.step initproc s (c, .fail) = some t →
      t.proc = s.proc ∧ t.log = s.log ∧ (t.proc i).state = .zombie ∧
        base t p = .waitRelease i (-1)) ∧
    ∀ c a t q, St.step initproc s (c, a) = some t → (s.proc q).state ≠ .unused →
      (t.proc q).state = .unused → ∀ d, s.cproc d ≠ some q ∧ s.on d ≠ some q := by
  have h := inv_run hrun
  have hfam := family_run hrun
  have hnum := numbered_run hrun
  have hrec := recorded_run hrun hcalls
  refine ⟨?_, ?_, ?_, ?_, hrec.exitOnce, hrec.waitOnce, ?_, ?_⟩
  · intro p hu
    rw [hnum.pid p hu]
    exact number_pos hfam hcalls p
  · exact fun p q hp hq heq => pid_inj hfam hnum hcalls hp hq heq
  · exact fun c a t p pid copied hs hlog => report_step h hfam hrec hs hlog
  · exact fun c t p r hon hctl hs => return_step h hrec hon hctl hs
  · exact fun c t p addr i hon hctl hs => fault_step h hon hctl hs
  · exact fun c a t q hs hu hu' d => free_step h hs hu hu' d

/-- The child of the first process exits with 7 and is waited for. -/
def childExits : List (Fin 2 × Act 2) :=
  does 0 .go 2 ++ does 0 .fork 8 ++ does 1 .go 4 ++ does 1 (.exit 7) 13 ++ does 0 (.wait 64) 7

theorem exit_statuses_childExits : ∃ s : St 2 2, exec (St.step 0) (St.boot 0) childExits = some s ∧
    s.a0 0 = 2 ∧ exitPids s.log = [2] ∧ (waitPids s.log).Nodup ∧ 0 < (s.proc 0).pid := by
  have hend : (exec (St.step 0) (St.boot 0 : St 2 2) childExits).any (fun s =>
      s.a0 0 = 2 ∧ exitPids s.log = [2] ∧ s.calls < 2 ^ 31 - 1 ∧ (s.proc 0).state ≠ .unused) = true := by
    decide +kernel
  obtain ⟨s, hs, hall⟩ := (Option.any_eq_true _ _).mp hend
  obtain ⟨hret, hexit, hcalls, hu⟩ := of_decide_eq_true hall
  have hspec := exit_statuses 0 s ⟨childExits, hs⟩ hcalls
  exact ⟨s, hs, hret, hexit, hspec.2.2.2.2.2.1, hspec.1 0 hu⟩

end Xv6.ProcExits
