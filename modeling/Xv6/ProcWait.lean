import Xv6.ProcFamily
import Xv6.ProcSched

/-!
# No lost exit

`wait` looks at its children one after the other and then sleeps, with `p->lock` all the time.  A child
that exits takes the lock of its parent first, so it becomes a zombie before the scan, or when the parent
is asleep, and then it wakes the parent up.
-/

namespace Xv6.ProcWait

open Xv6.LabelledRuns Xv6.ProcMachine Xv6.ProcMoves Xv6.ProcPlaces Xv6.ProcMoved Xv6.ProcInv
open Xv6.ProcFamily Xv6.ProcSched

variable {n m : ℕ} {initproc : Fin n} {s t : St n m} {c d : Fin m} {p q : Fin n} {a : Act n}
  {mv : Move n}

/-! ### `p->chan` -/

theorem chan_moved (h : Inv initproc s) (hm : Moved initproc s c a mv t)
    (hx : modeOf s (s.active c) ≠ .proc p) (hu : (s.proc p).state ≠ .unused)
    (hu' : (t.proc p).state ≠ .unused) : (t.proc p).chan = (s.proc p).chan := by
  have hw := wrote_moved h hm p
  generalize t.proc p = y at hw hu'
  cases hw with
  | slept hx' _ _ | tidied hx' => exact absurd hx' hx
  | freed hd => exact absurd hd hu
  | reaped _ _ _ _ _ => exact absurd rfl hu'
  | same | woken _ | slain _ _ _ | yielded _ _ | numbered _ _ _ | born _ _ _ | adopted _ _ _ _ _
  | exited _ _ _ _ _ _ | dispatched _ _ => rfl

theorem sleeping_other (h : Inv initproc s) (hm : Moved initproc s c a mv t)
    (hx : modeOf s (s.active c) ≠ .proc p) (hst : (t.proc p).state = .sleeping) : (s.proc p).state = .sleeping := by
  have hchange := change_moved h hm p
  rw [hst] at hchange
  generalize hsl : ProcState.sleeping = st' at hchange
  cases hchange with
  | same => rfl
  | slept hx' _ => exact absurd hx' hx
  | woken _ | born _ _ _ | freed _ | yielded _ _ | exited _ _ _ _ _ _ | dispatched _ _ => cases hsl

/-! ### The scan -/

/-- No zombies among the children in the slots below `i`. -/
def Scanned (s : St n m) (p : Fin n) (i : ℕ) : Prop :=
  ∀ j : Fin n, j.val < i → (s.proc j).parent = some p → (s.proc j).state ≠ .zombie

def WaitAt (s : St n m) (p : Fin n) : Pc n → Prop
  | .waitScan _ i _ => Scanned s p i
  | .waitChild _ i => Scanned s p i
  | .waitNext _ i => Scanned s p (i + 1)
  | .sched (.wait _) | .resumed (.wait _) => (s.proc p).state = .sleeping →
      (s.proc p).chan = some (.proc p) ∧ Scanned s p n
  | _ => True

theorem waitAt_congr {pc : Pc n} (hproc : t.proc = s.proc) (hw : WaitAt s p pc) : WaitAt t p pc := by
  unfold WaitAt Scanned at *
  rw [hproc]
  exact hw

theorem Scanned.succ {i : Fin n} (hs : Scanned s p i)
    (hi : (s.proc i).parent = some p → (s.proc i).state ≠ .zombie) : Scanned s p (i + 1) := by
  intro j hj
  obtain hlt | heq := Nat.lt_succ_iff_lt_or_eq.mp hj
  · exact hs j hlt
  · rwa [Fin.ext heq]

theorem zombie_effect {x : Mode n} {pc : Pc n} {st : Int32} {op : Fin n} {i : ℕ}
    (hmv : Moves initproc s.proc x pc a mv) (hx : x = .proc q) (hpc : pc = .reparent st op i)
    (hi : n ≤ i) : mv.effect = .zombie q op st := by
  subst hx
  cases hmv <;> cases hpc
  case reparentFound j _ | reparentOther j _ => exact absurd j.isLt (Nat.not_lt.mpr hi)
  case exitZombie => rfl

theorem exit_locks_parent (h : Inv initproc s) (hfam : Family initproc s)
    (hm : Moved initproc s c a mv t) (hp : p ≠ initproc) (hq : (s.proc q).parent = some p)
    (hs : (s.proc q).state ≠ .zombie) (ht : (t.proc q).state = .zombie) :
    modeOf s (s.active c) = .proc q ∧ s.lock p = some c ∧ ∃ st, mv.effect = .zombie q p st := by
  have hchange := change_moved h hm q
  rw [ht] at hchange
  generalize hz : ProcState.zombie = st' at hchange
  cases hchange with
  | same => exact absurd hz.symm hs
  | exited hx st op i hpc hi =>
    have hkin := kin_of_mode h hfam hx
    rw [hpc] at hkin
    have hop : op = p := by
      obtain ho | ho := hkin.2.1
      · exact Option.some.inj (ho.symm.trans hq)
      · exact absurd (Option.some.inj (hq.symm.trans ho)) hp
    subst hop
    refine ⟨hx, ?_, st, zombie_effect hm.moves hx hpc hi⟩
    rw [h.locks, heldBy, hpc, held]
    exact List.mem_append_right _ (List.mem_singleton.mpr rfl)
  | woken _ | born _ _ _ | freed _ | yielded _ _ | slept _ _ | dispatched _ _ => cases hz

section Wait

variable (h : Inv initproc s) (hfam : Family initproc s) (hm : Moved initproc s c a mv t)
  (hp : p ≠ initproc)

include h hfam hm hp

theorem scanned_other {i : ℕ} (hx : modeOf s (s.active c) ≠ .proc p) (hl : s.lock p ≠ some c)
    (hs : Scanned s p i) : Scanned t p i := by
  intro j hj hpar hz
  have hpar' : (s.proc j).parent = some p := by
    by_contra hno
    exact no_child_moved h hm hp hx hno hpar
  exact hl (exit_locks_parent h hfam hm hp hpar' (hs j hj hpar') hz).2.1

theorem waitAt_other (hx : modeOf s (s.active c) ≠ .proc p) (hu : (s.proc p).state ≠ .unused)
    (hu' : (t.proc p).state ≠ .unused) (hw : WaitAt s p (base s p)) : WaitAt t p (base s p) := by
  have hscan : ∀ {i}, (∀ k, base s p ≠ .resumed k) → p ∈ held initproc (some p) (base s p) →
      Scanned s p i → Scanned t p i := by
    intro i hne hin
    obtain ⟨d, hd, hlock⟩ := on_of_base h hu hne hin
    refine scanned_other h hfam hm hp hx ?_
    rw [hlock]
    rintro heq
    exact hx (Option.some.inj heq ▸ hd)
  have hasleep : ((s.proc p).state = .sleeping → (s.proc p).chan = some (.proc p) ∧ Scanned s p n) →
      (t.proc p).state = .sleeping → (t.proc p).chan = some (.proc p) ∧ Scanned t p n := by
    intro hw hst
    have hold := sleeping_other h hm hx hst
    obtain ⟨hchan, hnone⟩ := hw hold
    refine ⟨by rw [chan_moved h hm hx hu hu', hchan], ?_⟩
    intro j hj hpar hz
    have hpar' : (s.proc j).parent = some p := by
      by_contra hno
      exact no_child_moved h hm hp hx hno hpar
    obtain ⟨hmode, -, st, he⟩ := exit_locks_parent h hfam hm hp hpar' (hnone j hj hpar') hz
    -- and it wakes its parent
    have hne : p ≠ j := by
      rintro rfl
      exact hx hmode
    have hwoken : (t.proc p).state = .runnable := by
      rw [hm.proc, he]
      change (Function.update (Function.update s.proc p _) j _ p).state = _
      rw [Function.update_of_ne hne, Function.update_self, wake, if_pos ⟨hold, hchan⟩]
    rw [hwoken] at hst
    cases hst
  generalize base s p = pc at hw hscan
  cases pc <;> try trivial
  case waitScan addr i k | waitChild addr i => exact hscan (fun _ h => by cases h) (List.mem_singleton.mpr rfl) hw
  case waitNext addr i => exact hscan (fun _ h => by cases h) (List.mem_cons_of_mem _ (List.mem_singleton.mpr rfl)) hw
  case sched k | resumed k =>
    cases k <;> try trivial
    case wait addr => exact hasleep hw

omit h hfam hp in
theorem waitAt_self (hmv : Moves initproc s.proc (.proc p) (base s p) a mv)
    (hw : WaitAt s p (base s p)) : WaitAt t p mv.next := by
  refine waitAt_congr hm.proc ?_
  generalize base s p = pc at hmv hw
  cases hmv <;> try trivial
  case waitStart addr | waitWoken addr => exact fun j hj => absurd hj (Nat.not_lt_zero _)
  case waitOther addr i k hno => exact hw.succ fun hpar => absurd hpar hno
  case waitAlive addr i hz => exact hw.succ fun _ => hz
  case waitSleep addr i hi k _ =>
    intro _
    have hself : Function.update s.proc p { s.proc p with chan := some (.proc p), state := .sleeping } p =
        { s.proc p with chan := some (.proc p), state := .sleeping } := Function.update_self _ _ _
    refine ⟨congrArg Proc.chan hself, ?_⟩
    intro j hj
    change (Function.update s.proc p _ j).parent = _ → (Function.update s.proc p _ j).state ≠ _
    by_cases hjp : j = p
    · rw [hjp, hself]
      exact fun _ => nofun
    · rw [Function.update_of_ne hjp]
      exact hw j (Nat.lt_of_lt_of_le hj hi)

end Wait

theorem waitAt_step (h : Inv initproc s) (hfam : Family initproc s)
    (hw : ∀ p, p ≠ initproc → (s.proc p).state ≠ .unused → WaitAt s p (base s p))
    (hs : St.step initproc s (c, a) = some t) (p : Fin n) (hp : p ≠ initproc)
    (hu : (t.proc p).state ≠ .unused) : WaitAt t p (base t p) := by
  cases based_step h hs hu with
  | fresh hplace => rw [hplace]; trivial
  | self hu' mv hm hx hmv hplace =>
    rw [hplace]
    exact waitAt_self hm hmv (hw p hp hu')
  | other hu' mv hm hx hplace =>
    rw [hplace]
    exact waitAt_other h hfam hm hp hx hu' hu (hw p hp hu')
  | still hu' hsame hplace =>
    refine waitAt_congr hsame.proc ?_
    have hold := hw p hp hu'
    obtain hplace | ⟨k, hk, hplace⟩ := hplace
    · rw [hplace]
      exact hold
    · rw [hk] at hold
      rw [hplace]
      cases k <;> exact hold

def inWait : Pc n → Bool
  | .sched (.wait _) | .resumed (.wait _) => true
  | _ => false

/-- **No lost exit.** -/
theorem no_lost_exit (initproc : Fin n) (s : St n m)
    (hrun : Reachable (St.step initproc) (St.boot initproc) s) (p : Fin n) (hp : p ≠ initproc)
    (hst : (s.proc p).state = .sleeping) (hwait : inWait (base s p)) :
    (s.proc p).chan = some (.proc p) ∧
      ∀ q, (s.proc q).parent = some p → (s.proc q).state ≠ .zombie := by
  have hinv := run_rule (P := fun s => ∀ p, p ≠ initproc → (s.proc p).state ≠ .unused →
    WaitAt s p (base s p)) (fun _ _ _ => trivial)
    (fun s c a t h hfam hw hs => waitAt_step h hfam hw hs) hrun
  have hw := hinv p hp (by rw [hst]; exact nofun)
  unfold inWait at hwait
  split at hwait
  case h_1 addr hpc | h_2 addr hpc =>
    rw [hpc] at hw
    exact ⟨(hw hst).1, fun q => (hw hst).2 q q.isLt⟩
  case h_3 => cases hwait

/-- The first process forks, its child forks and waits. -/
def childWaits : List (Fin 2 × Act 3) :=
  does 0 .go 2 ++ does 0 .fork 8 ++ does 1 .go 4 ++ does 1 .fork 10 ++ does 1 (.wait 0) 8

theorem no_lost_exit_childWaits : ∃ s : St 3 2, exec (St.step 0) (St.boot 0) childWaits = some s ∧
    (s.proc 1).state = .sleeping ∧ inWait (base s 1) ∧ (s.proc 2).parent = some 1 ∧
    (s.proc 2).state ≠ .zombie := by
  have hend : (exec (St.step 0) (St.boot 0 : St 3 2) childWaits).any (fun s =>
      (s.proc 1).state = .sleeping ∧ inWait (base s 1) ∧ (s.proc 2).parent = some 1) = true := by
    decide +kernel
  obtain ⟨s, hs, hall⟩ := (Option.any_eq_true _ _).mp hend
  obtain ⟨hst, hwait, hpar⟩ := of_decide_eq_true hall
  refine ⟨s, hs, hst, hwait, hpar, ?_⟩
  exact (no_lost_exit 0 s ⟨childWaits, hs⟩ 1 (by decide) hst hwait).2 2 hpar

end Xv6.ProcWait
