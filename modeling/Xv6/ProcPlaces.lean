import Xv6.ProcMoves

/-!
# Where processes are

The invariant behind the locks and the scheduler.  A CPU holds exactly the process locks that its place
in the code says (`Inv.locks`), and every process is in one of five situations (`Placed`): its slot is
unused, it is switched out, a scheduler has chosen it and is about to switch to it, it runs, or it has
switched out and its CPU has not yet returned its lock.
-/

namespace Xv6.ProcPlaces

open Xv6.LabelledRuns Xv6.ProcMachine Xv6.ProcMoves
open Function (update_self update_of_ne)

variable {n m : ℕ} {initproc : Fin n} {s t : St n m} {c d : Fin m} {p q : Fin n} {a : Act n}
  {mv : Move n}

/-! ### Situations -/

def own : Thread n m → Option (Fin n)
  | .proc p => some p
  | .sched _ => none

theorem own_modeOf (s : St n m) (th : Thread n m) : (modeOf s th).own = own th := by
  cases th with
  | proc p | sched c => simp only [modeOf]; split <;> rfl

/-- The locks that CPU `c` has, from where it is. -/
def heldBy (initproc : Fin n) (s : St n m) (c : Fin m) : List (Fin n) :=
  held initproc (own (s.active c)) (s.ctl (s.active c)).pc

inductive Phase (n : ℕ) where
  | idle
  | chosen (p : Fin n)
  | ran (p : Fin n)
  | left (p : Fin n)

/-- `c->proc`, from the phase. -/
def Phase.proc : Phase n → Option (Fin n)
  | .idle => none
  | .chosen p | .ran p | .left p => some p

/-- The phase from the place of the scheduler thread. -/
def Phase.at : Pc n → Phase n
  | .swtch p => .chosen p
  | .back p => .left p
  | _ => .idle

def phase (s : St n m) (c : Fin m) : Phase n :=
  match s.on c with
  | some p => .ran p
  | none => .at (s.ctl (.sched c)).base

/-- The state in which a process switches out. -/
def stateOf : After → ProcState
  | .yield | .forkret => .runnable
  | .sleep _ | .wait _ => .sleeping
  | .exit => .zombie

/-- The state of a process that runs. -/
def stateAt : Pc n → ProcState
  | .sched k => stateOf k
  | .exitZombie _ => .zombie
  | _ => .running

/-- The states of a process that is switched out. -/
def OutState (k : After) (st : ProcState) : Prop :=
  st = stateOf k ∨ (stateOf k = .sleeping ∧ st = .runnable)

inductive Placed (ph : Fin m → Phase n) (q : Fin n) : ProcState → Bool → Pc n → Prop
  | unused {sv : Bool} {pc : Pc n} (none : ∀ c, (ph c).proc ≠ some q) : Placed ph q .unused sv pc
  | out {st : ProcState} {k : After} (none : ∀ c, (ph c).proc ≠ some q) (out : OutState k st) :
      Placed ph q st true (.resumed k)
  | chosen {k : After} (c : Fin m) (at_ : ph c = .chosen q) (alive : k ≠ .exit) :
      Placed ph q .running true (.resumed k)
  | ran {pc : Pc n} (c : Fin m) (at_ : ph c = .ran q) : Placed ph q (stateAt pc) false pc
  | left {k : After} (c : Fin m) (at_ : ph c = .left q) : Placed ph q (stateOf k) true (.resumed k)

/-- What is known about slots whose lock is held. -/
def Found (s : St n m) : Pc n → Prop
  | .allocpid i | .trapframe i | .pagetable i => (s.proc i).state = .unused
  | .uvmcopy i => (s.proc i).state = .unused ∧ s.saved i = true ∧
      s.ctl (.proc i) = ⟨.resumed .forkret, none⟩
  | .waitZombie _ i => (s.proc i).state = .zombie
  | _ => True

structure Inv (initproc : Fin n) (s : St n m) : Prop where
  cproc : ∀ c, s.cproc c = (phase s c).proc
  back : ∀ c p, s.on c = some p → s.ctl (.sched c) = ⟨.back p, none⟩
  inj : ∀ c d p, (phase s c).proc = some p → (phase s d).proc = some p → c = d
  placed : ∀ q, Placed (phase s) q (s.proc q).state (s.saved q) (s.ctl (.proc q)).pc
  nodup : ∀ c, (heldBy initproc s c).Nodup
  locks : ∀ c q, s.lock q = some c ↔ q ∈ heldBy initproc s c
  quiet : ∀ th, (s.ctl th).trap ≠ none → held initproc (own th) (s.ctl th).base = []
  found : ∀ c, Found s (s.ctl (s.active c)).pc

/-! ### Reading the invariant -/

theorem phase_ran (h : s.on c = some p) : phase s c = .ran p := by
  unfold phase
  rw [h]

theorem phase_of_on_none (h : s.on c = none) : phase s c = .at (s.ctl (.sched c)).base := by
  unfold phase
  rw [h]

theorem on_of_ran (h : phase s c = .ran p) : s.on c = some p := by
  unfold phase at h
  split at h
  case h_1 q hq =>
    obtain rfl := Phase.ran.inj h
    exact hq
  case h_2 =>
    unfold Phase.at at h
    split at h <;> cases h

theorem chosen_inv (h : phase s c = .chosen p) : s.on c = none ∧ (s.ctl (.sched c)).base = .swtch p := by
  unfold phase at h
  split at h
  case h_1 => cases h
  case h_2 hon =>
    unfold Phase.at at h
    split at h
    case h_1 q hq =>
      obtain rfl := Phase.chosen.inj h
      exact ⟨hon, hq⟩
    all_goals cases h

theorem left_inv (h : phase s c = .left p) : s.on c = none ∧ (s.ctl (.sched c)).base = .back p := by
  unfold phase at h
  split at h
  case h_1 => cases h
  case h_2 hon =>
    unfold Phase.at at h
    split at h
    case h_2 q hq =>
      obtain rfl := Phase.left.inj h
      exact ⟨hon, hq⟩
    all_goals cases h

theorem heldBy_ran (hon : s.on c = some p) : heldBy initproc s c = held initproc (some p) (s.ctl (.proc p)).pc := by
  unfold heldBy
  rw [active_proc.mpr hon]
  rfl

theorem mem_held_of_stateAt {pc : Pc n} (h : stateAt pc ≠ .running) : q ∈ held initproc (some q) pc := by
  unfold stateAt at h
  split at h
  case h_1 => exact List.mem_singleton.mpr rfl
  case h_2 => exact List.mem_cons_self
  case h_3 => exact absurd rfl h

theorem stateAt_ne_unused (pc : Pc n) : stateAt pc ≠ .unused := by
  unfold stateAt
  split
  case h_1 k => cases k <;> exact ProcState.noConfusion
  all_goals exact ProcState.noConfusion

theorem stateOf_ne_unused (k : After) : stateOf k ≠ .unused := by
  cases k <;> exact ProcState.noConfusion

theorem stateOf_ne_running (k : After) : stateOf k ≠ .running := by
  cases k <;> exact ProcState.noConfusion

namespace Inv

variable (h : Inv initproc s)

include h

theorem sched_ctl {pc : Pc n} (hb : (s.ctl (.sched c)).base = pc) (hh : held initproc none pc ≠ []) :
    s.ctl (.sched c) = ⟨pc, none⟩ := by
  have ht : (s.ctl (.sched c)).trap = none := by
    by_contra ht
    have hq := h.quiet (.sched c) ht
    rw [hb] at hq
    exact hh hq
  rw [← hb, ← ht]

theorem heldBy_sched {pc : Pc n} (hon : s.on c = none) (hb : (s.ctl (.sched c)).base = pc)
    (hh : held initproc none pc ≠ []) : heldBy initproc s c = held initproc none pc := by
  have hact : s.active c = .sched c := active_sched.mpr ⟨hon, rfl⟩
  unfold heldBy
  rw [hact, h.sched_ctl hb hh]
  rfl

theorem lock_of_chosen (hp : phase s c = .chosen p) : s.lock p = some c := by
  obtain ⟨hon, hb⟩ := chosen_inv hp
  rw [h.locks, h.heldBy_sched hon hb (List.cons_ne_nil _ _)]
  exact List.mem_singleton.mpr rfl

theorem lock_of_left (hp : phase s c = .left p) : s.lock p = some c := by
  obtain ⟨hon, hb⟩ := left_inv hp
  rw [h.locks, h.heldBy_sched hon hb (List.cons_ne_nil _ _)]
  exact List.mem_singleton.mpr rfl

theorem lock_of_stateAt (hon : s.on c = some p) (hst : stateAt (s.ctl (.proc p)).pc ≠ .running) :
    s.lock p = some c := by
  rw [h.locks, heldBy_ran hon]
  exact mem_held_of_stateAt hst

theorem active_ne (hne : d ≠ c) : s.active d ≠ s.active c := by
  intro he
  cases hd : s.on d with
  | some p =>
    rw [active_proc.mpr hd] at he
    have hc := active_proc.mp he.symm
    exact hne (h.inj d c p (by rw [phase_ran hd]; rfl) (by rw [phase_ran hc]; rfl))
  | none =>
    rw [active_sched.mpr ⟨hd, rfl⟩] at he
    exact hne (active_sched.mp he.symm).2

theorem state_of_on (hon : s.on c = some p) :
    (s.proc p).state = stateAt (s.ctl (.proc p)).pc ∧ s.saved p = false := by
  have hproc : (phase s c).proc = some p := by rw [phase_ran hon]; rfl
  generalize hst : (s.proc p).state = st
  generalize hsv : s.saved p = sv
  generalize hpc : (s.ctl (.proc p)).pc = pc
  have hp := h.placed p
  rw [hst, hsv, hpc] at hp
  cases hp with
  | unused hn | out hn _ => exact absurd hproc (hn c)
  | chosen d hd _ | left d hd =>
    obtain rfl := h.inj c d p hproc (by rw [hd]; rfl)
    rw [phase_ran hon] at hd
    cases hd
  | ran d hd => exact ⟨rfl, rfl⟩

theorem chosen_state (hph : phase s c = .chosen p) :
    ∃ k, (s.ctl (.proc p)).pc = .resumed k ∧ (s.proc p).state = .running := by
  have hproc : (phase s c).proc = some p := by rw [hph]; rfl
  generalize hst : (s.proc p).state = st
  generalize hsv : s.saved p = sv
  generalize hpc : (s.ctl (.proc p)).pc = pc
  have hp := h.placed p
  rw [hst, hsv, hpc] at hp
  cases hp with
  | unused hn | out hn _ => exact absurd hproc (hn c)
  | chosen d _ _ => exact ⟨_, rfl, rfl⟩
  | ran d hd | left d hd =>
    obtain rfl := h.inj c d p hproc (by rw [hd]; rfl)
    rw [hph] at hd
    cases hd

theorem not_proc_of_unused (hu : (s.proc q).state = .unused) : ∀ c, (phase s c).proc ≠ some q := by
  generalize hsv : s.saved q = sv
  generalize hpc : (s.ctl (.proc q)).pc = pc
  have hp := h.placed q
  rw [hu, hsv, hpc] at hp
  generalize hst : ProcState.unused = st at hp
  cases hp with
  | unused hn | out hn _ => exact hn
  | chosen d _ _ => cases hst
  | ran d _ => exact absurd hst.symm (stateAt_ne_unused pc)
  | left d _ => exact absurd hst.symm (stateOf_ne_unused _)

theorem switched_out (hst : (s.proc q).state ≠ .running)
    (hu : (s.proc q).state ≠ .unused) (hl : ∀ d, (phase s d).proc = some q → s.lock q ≠ some d) :
    ∃ k, (s.ctl (.proc q)).pc = .resumed k ∧ OutState k (s.proc q).state ∧ s.saved q = true ∧
      ∀ d, (phase s d).proc ≠ some q := by
  generalize hsv : s.saved q = sv
  generalize hpc : (s.ctl (.proc q)).pc = pc
  generalize hstq : (s.proc q).state = st at hst hu
  have hp := h.placed q
  rw [hsv, hpc, hstq] at hp
  cases hp with
  | unused _ => exact absurd rfl hu
  | out hn ho => exact ⟨_, rfl, ho, rfl, hn⟩
  | chosen d _ _ => exact absurd rfl hst
  | ran d hd =>
    have hlock := h.lock_of_stateAt (on_of_ran hd) (by rw [hpc]; exact hst)
    exact absurd hlock (hl d (by rw [hd]; rfl))
  | left d hd => exact absurd (h.lock_of_left hd) (hl d (by rw [hd]; rfl))

theorem heldBy_of_free (hfree : s.Free c) : heldBy initproc s c = [] := by
  apply List.eq_nil_iff_forall_not_mem.mpr
  intro q hq
  exact hfree.1 q ((h.locks c q).mpr hq)

end Inv

/-! ### Effects -/

theorem effect_proc_of_not_mem {e : Effect n} (hq : q ∉ touches e) : (s.effect initproc c e).proc q = s.proc q := by
  cases e <;> simp [touches] at hq <;> simp [St.effect, St.setProc, St.setCtl, hq]

theorem effect_saved_of_ne {e : Effect n} (hne : e ≠ .context q) : (s.effect initproc c e).saved q = s.saved q := by
  cases e <;> simp [St.effect, St.setProc, St.setCtl]
  case context i =>
    exact update_of_ne (fun hc => hne (congrArg Effect.context hc.symm)) _ _

theorem effect_ctl_of_ne {e : Effect n} {th : Thread n m} (hne : ∀ i, e = .context i → th ≠ .proc i) :
    (s.effect initproc c e).ctl th = s.ctl th := by
  cases e <;> simp [St.effect, St.setProc, St.setCtl]
  case context i =>
    exact update_of_ne (hne i rfl) _ _

theorem update_state {T : Table n} {i : Fin n} {x : Proc n} {st : ProcState}
    (hp : (T p).state = st) (hx : i = p → x.state = st) : (Function.update T i x p).state = st := by
  by_cases hi : i = p
  · rw [hi, update_self]
    exact hx hi
  · rw [update_of_ne fun hc => hi hc.symm]
    exact hp

theorem goto_pc (x : Ctl n) (pc : Pc n) : (x.goto pc).pc = pc := by
  unfold Ctl.goto Ctl.pc
  split <;> rfl

theorem goto_trap (x : Ctl n) (pc : Pc n) : (x.goto pc).trap = none ↔ x.trap = none := by
  unfold Ctl.goto
  split <;> simp [*]

theorem goto_base {x : Ctl n} (h : x.trap ≠ none) (pc : Pc n) : (x.goto pc).base = x.base := by
  unfold Ctl.goto
  split
  case h_1 ht => exact absurd ht h
  case h_2 => rfl

theorem goto_of_none {x : Ctl n} (h : x.trap = none) (pc : Pc n) : x.goto pc = ⟨pc, none⟩ := by
  unfold Ctl.goto
  rw [h]

/-! ### Moves -/

section Moves

variable {x : Mode n} {pc : Pc n} (hmv : Moves initproc s.proc x pc a mv)

include hmv

theorem context_inv {i : Fin n} (he : mv.effect = .context i) : pc = .pagetable i := by
  cases hmv <;> cases he
  rfl

theorem effect_cproc (hx : x ≠ .sched) : (s.effect initproc c mv.effect).cproc = s.cproc := by
  cases hmv <;> first | rfl | exact absurd rfl hx

theorem state_self (hx : x = .proc p ∨ x = .trap p) (hst : (s.proc p).state = stateAt pc)
    (hf : Found s pc) : ((s.effect initproc c mv.effect).proc p).state = stateAt mv.next := by
  obtain rfl | rfl := hx <;> cases hmv <;>
    simp [St.effect, St.setProc, St.setCtl, stateAt, stateOf, Found] at hst hf ⊢ <;>
    try exact hst
  -- the other writes go to another slot or keep the state
  all_goals
    refine update_state hst ?_
    rintro rfl
    simp_all [wake, slay]

end Moves

inductive Wrote (initproc : Fin n) (s : St n m) (x : Mode n) (pc : Pc n) (q : Fin n) : Proc n → Prop
  | same : Wrote initproc s x pc q (s.proc q)
  | woken (sleeping : (s.proc q).state = .sleeping) :
      Wrote initproc s x pc q { s.proc q with state := .runnable }
  | slain (p : Fin n) (mode : x = .proc p) (place : pc = .kill (s.proc q).pid q) :
      Wrote initproc s x pc q (slay (s.proc q))
  | yielded (mode : x = .trap q) (place : pc = .yield) :
      Wrote initproc s x pc q { s.proc q with state := .runnable }
  | slept (mode : x = .proc q) (ch : Chan n)
      (place : (∃ l, pc = .sleepUnlocked ch l) ∨ ∃ addr i k, pc = .waitScan addr i k ∧ n ≤ i) :
      Wrote initproc s x pc q { s.proc q with chan := some ch, state := .sleeping }
  | tidied (mode : x = .proc q) : Wrote initproc s x pc q { s.proc q with chan := none }
  | numbered (p : Fin n) (mode : x = .proc p) (place : pc = .allocpid q) :
      Wrote initproc s x pc q { s.proc q with pid := s.nextpid }
  | freed (unused : (s.proc q).state = .unused) : Wrote initproc s x pc q (freeproc n)
  | born (p : Fin n) (mode : x = .proc p) (place : pc = .uvmcopy q) :
      Wrote initproc s x pc q { s.proc q with parent := some p, state := .runnable }
  | adopted (p : Fin n) (mode : x = .proc p) (st : Int32) (op : Fin n)
      (place : pc = .reparentChild st op q) :
      Wrote initproc s x pc q { s.proc q with parent := some initproc }
  | exited (mode : x = .proc q) (st : Int32) (op : Fin n) (i : ℕ) (place : pc = .reparent st op i)
      (last : n ≤ i) : Wrote initproc s x pc q { s.proc q with xstate := st, state := .zombie }
  | reaped (p : Fin n) (mode : x = .proc p) (addr : ℕ) (place : pc = .waitZombie addr q)
      (zombie : (s.proc q).state = .zombie) : Wrote initproc s x pc q (freeproc n)
  | dispatched (mode : x = .sched) (runnable : (s.proc q).state = .runnable) :
      Wrote initproc s x pc q { s.proc q with state := .running }

section Wrote

variable {x : Mode n} {pc : Pc n}

theorem wrote_wake (s : St n m) (ch : Chan n) : Wrote initproc s x pc q (wake ch (s.proc q)) := by
  unfold wake
  split
  case isTrue hc => exact .woken hc.1
  case isFalse => exact .same

theorem wrote_update {i : Fin n} {y : Proc n} (h : i = q → Wrote initproc s x pc q y) :
    Wrote initproc s x pc q (Function.update s.proc i y q) := by
  by_cases hi : i = q
  · rw [hi, update_self]
    exact h hi
  · rw [update_of_ne fun hc => hi hc.symm]
    exact .same

theorem wrote_of_moves (hmv : Moves initproc s.proc x pc a mv) (hf : Found s pc) (q : Fin n) :
    Wrote initproc s x pc q ((s.effect initproc c mv.effect).proc q) := by
  cases hmv <;> try exact .same
  case wakeup ch i _ => exact wrote_update fun hi => hi ▸ wrote_wake s ch
  case exitInit p st => exact wrote_update fun hi => hi ▸ wrote_wake s _
  case killFound p pid i hpid =>
    refine wrote_update fun hi => ?_
    subst hi hpid
    exact .slain p rfl rfl
  case yield p => exact wrote_update fun hi => hi ▸ .yielded rfl rfl
  case sleepUnlocked p ch l => exact wrote_update fun hi => hi ▸ .slept rfl ch (Or.inl ⟨l, rfl⟩)
  case waitSleep p addr i hi k _ =>
    exact wrote_update fun hp => hp ▸ .slept rfl _ (Or.inr ⟨addr, i, k, rfl, hi⟩)
  case sleepWoken p l | waitWoken p addr => exact wrote_update fun hi => hi ▸ .tidied rfl
  case allocpid p i => exact wrote_update fun hi => hi ▸ .numbered p rfl rfl
  case reparentChild p st op i => exact wrote_update fun hi => hi ▸ .adopted p rfl st op rfl
  case pagetableFail p i => exact wrote_update fun hi => .freed (hi ▸ hf)
  case uvmcopyFail p i => exact wrote_update fun hi => .freed (hi ▸ hf.1)
  case uvmcopy p i => exact wrote_update fun hi => hi ▸ .born p rfl rfl
  case waitReap p addr i =>
    exact wrote_update fun hi => .reaped p rfl addr (congrArg (Pc.waitZombie addr) hi) (hi ▸ hf)
  case dispatch i hr => exact wrote_update fun hi => hi ▸ .dispatched rfl hr
  case exitZombie p st op i hi =>
    change Wrote initproc s _ _ q (Function.update (Function.update s.proc op _) p _ q)
    by_cases hq : q = p
    · rw [hq, update_self]
      exact .exited rfl st op i rfl hi
    · rw [update_of_ne hq]
      exact wrote_update fun hi => hi ▸ wrote_wake s _

end Wrote

inductive Change (s : St n m) (x : Mode n) (pc : Pc n) (q : Fin n) : ProcState → Prop
  | same : Change s x pc q (s.proc q).state
  | woken (sleeping : (s.proc q).state = .sleeping) : Change s x pc q .runnable
  | born (p : Fin n) (mode : x = .proc p) (place : pc = .uvmcopy q) : Change s x pc q .runnable
  | freed (dead : (s.proc q).state = .unused ∨ (s.proc q).state = .zombie) : Change s x pc q .unused
  | yielded (mode : x = .trap q) (place : pc = .yield) : Change s x pc q .runnable
  | slept (mode : x = .proc q)
      (place : (∃ ch l, pc = .sleepUnlocked ch l) ∨ ∃ addr i k, pc = .waitScan addr i k ∧ n ≤ i) :
      Change s x pc q .sleeping
  | exited (mode : x = .proc q) (st : Int32) (op : Fin n) (i : ℕ) (place : pc = .reparent st op i)
      (last : n ≤ i) : Change s x pc q .zombie
  | dispatched (mode : x = .sched) (runnable : (s.proc q).state = .runnable) : Change s x pc q .running

theorem change_slay {x : Mode n} {pc : Pc n} (s : St n m) : Change s x pc q (slay (s.proc q)).state := by
  unfold slay
  simp only
  split
  case isTrue hc => exact .woken hc
  case isFalse => exact .same

theorem change_of_wrote {x : Mode n} {pc : Pc n} {y : Proc n} (hw : Wrote initproc s x pc q y) :
    Change s x pc q y.state := by
  cases hw with
  | same | tidied _ | numbered _ _ _ | adopted _ _ _ _ _ => exact .same
  | woken hsl => exact .woken hsl
  | slain p _ _ => exact change_slay s
  | yielded hx hpc => exact .yielded hx hpc
  | slept hx ch hpc =>
    refine .slept hx ?_
    obtain ⟨l, hpc⟩ | hpc := hpc
    · exact Or.inl ⟨ch, l, hpc⟩
    · exact Or.inr hpc
  | freed hu => exact .freed (Or.inl hu)
  | born p hx hpc => exact .born p hx hpc
  | exited hx st op i hpc hi => exact .exited hx st op i hpc hi
  | reaped _ _ _ _ hz => exact .freed (Or.inr hz)
  | dispatched hx hr => exact .dispatched hx hr

end Xv6.ProcPlaces
