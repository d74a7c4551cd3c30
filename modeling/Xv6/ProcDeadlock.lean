import Xv6.LockOrder
import Xv6.ProcFamily
import Xv6.ProcSched

/-!
# Process locks and deadlock

`exit`, `reparent` and `wait` hold a process lock while they wait for another one: the lock of the parent
before their own, their own before that of a child.  By age that is an order, parents first.

`exit` reads `p->parent` and locks what it has read a little later.  In between the parent may exit and
its slot be given to a younger process; then the order is the wrong way round.
-/

namespace Xv6.ProcDeadlock

open Relation
open Xv6.Params Xv6.LabelledRuns Xv6.LockOrder
open Xv6.ProcMachine Xv6.ProcMoves Xv6.ProcPlaces Xv6.ProcMoved Xv6.ProcInv Xv6.ProcFamily Xv6.ProcSched

variable {n m : ℕ} {initproc : Fin n} {s t : St n m} {c d : Fin m} {p q : Fin n} {a : Act n}
  {mv : Move n}

/-- The process lock that a CPU spins on. -/
def spins (initproc : Fin n) (s : St n m) (c : Fin m) : Option (Fin n) :=
  wants initproc (own (s.active c)) (s.ctl (s.active c)).pc

/-- `original_parent` in `exit`. -/
def originalParent : Pc n → Option (Fin n)
  | .exitRead _ op | .exitParent _ op | .exitOwn _ op => some op
  | .reparent _ op _ | .reparentChild _ op _ | .reparentNext _ op _ | .exitZombie op => some op
  | _ => none

/-- `allocproc` does not give out a slot that somebody in `exit` still has in `original_parent`. -/
def NotSaved (s : St n m) (x : Fin m × Act n) : Prop :=
  ∀ i, (s.ctl (s.active x.1)).pc = .allocpid i →
    ∀ p, (s.proc p).state ≠ .unused → originalParent (base s p) ≠ some i

/-- The parent that a process in `exit` remembers is older. -/
def Senior (s : St n m) : Prop :=
  ∀ p op, (s.proc p).state ≠ .unused → originalParent (base s p) = some op → s.birth op < s.birth p

theorem senior_self (hfam : Family initproc s) (hm : Moved initproc s c a mv t)
    (hmv : Moves initproc s.proc (.proc p) (base s p) a mv) {op : Fin n}
    (hs : ∀ op, originalParent (base s p) = some op → s.birth op < s.birth p)
    (hop : originalParent mv.next = some op) : t.birth op < t.birth p := by
  rw [hm.birth]
  generalize base s p = pc at hmv hs
  cases hmv <;> try cases hop
  case exitSelf st hp => exact hfam.older op p hp
  all_goals exact hs op rfl

theorem senior_step (h : Inv initproc s) (hfam : Family initproc s) (hsen : Senior s)
    (hok : NotSaved s (c, a)) (hs : St.step initproc s (c, a) = some t) : Senior t := by
  intro p op hu hop
  cases based_step h hs hu with
  | fresh hp =>
    rw [hp] at hop
    cases hop
  | self hu' mv hm hx hmv hp =>
    rw [hp] at hop
    exact senior_self hfam hm hmv (fun op => hsen p op hu') hop
  | other hu' mv hm hx hp =>
    rw [hp] at hop
    rw [birth_alive h hm hu']
    obtain ⟨-, hb | ⟨hpc, -, -⟩⟩ := birth_moved hm op
    · rw [hb]
      exact hsen p op hu' hop
    · exact absurd hop (hok op hpc p hu')
  | still hu' hsame hp =>
    rw [hsame.birth]
    obtain hp | ⟨k, -, hp⟩ := hp
    · rw [hp] at hop
      exact hsen p op hu' hop
    · rw [hp] at hop
      cases hop

theorem nested {o : Option (Fin n)} {pc : Pc n} (hq : wants initproc o pc = some q) (hp : p ∈ held initproc o pc) :
    (∃ st op, pc = .exitOwn st op) ∨ (∃ st op i, pc = .reparentChild st op i) ∨ ∃ addr i, pc = .waitChild addr i := by
  unfold wants at hq
  split at hq <;> simp [held] at hp hq ⊢

theorem birth_lt (h : Inv initproc s) (hprop : Proper s) (hfam : Family initproc s) (hsen : Senior s)
    (hq : spins initproc s c = some q) (hp : s.lock p = some c) : s.birth p < s.birth q := by
  rw [h.locks] at hp
  unfold spins at hq
  unfold heldBy at hp
  have hplace := nested hq hp
  have hmode : ∃ r, modeOf s (s.active c) = .proc r := by
    apply mode_of_pc hprop <;>
      obtain ⟨st, op, hpc⟩ | ⟨st, op, i, hpc⟩ | ⟨addr, i, hpc⟩ := hplace <;> rw [hpc] <;> exact id
  obtain ⟨r, hr⟩ := hmode
  have hon := on_of_own (by rw [hr]; rfl)
  have hkin := kin_of_mode h hfam hr
  have hsr := hsen r
  rw [← pc_of_mode hr] at hsr
  replace hsr := fun op => hsr op (alive_of_on h hon)
  rw [active_proc.mpr hon] at hq hp hplace hkin hsr
  generalize (s.ctl (.proc r)).pc = pc at hq hp hplace hkin hsr
  obtain ⟨st, op, rfl⟩ | ⟨st, op, i, rfl⟩ | ⟨addr, i, rfl⟩ := hplace
  · -- the parent, then its own
    obtain rfl := Option.some.inj hq
    obtain rfl := List.mem_singleton.mp hp
    exact hsr p rfl
  · -- the parent and its own, then a child
    obtain rfl := Option.some.inj hq
    have hchild := hfam.older r i hkin.2.2.2
    obtain rfl | hp := List.mem_cons.mp hp
    · exact hchild
    · obtain rfl := List.mem_singleton.mp hp
      exact (hsr p rfl).trans hchild
  · -- its own, then a child
    obtain rfl := Option.some.inj hq
    obtain rfl := List.mem_singleton.mp hp
    exact hfam.older p i hkin

/-- **No deadlock** on the process locks, as long as no slot is given out that an exiting process still
takes for its parent. -/
theorem proc_locks_acyclic (initproc : Fin n) (ls : List (Fin m × Act n)) (s : St n m)
    (hok : Meets (St.step initproc) NotSaved (St.boot initproc) ls)
    (hrun : exec (St.step initproc) (St.boot initproc) ls = some s) (c : Fin m) :
    ¬ TransGen (WaitsFor (spins initproc s) s.lock) c c := by
  have hreach : Reachable (St.step initproc) (St.boot initproc) s := ⟨ls, hrun⟩
  have hsen : Senior s := by
    refine exec_rule ?_ ?_ hok hrun
    · intro p op _ hop
      cases hop
    · intro s c a t h hfam hsen hx hs
      exact senior_step h hfam hsen hx hs
  apply acyclic_of_rank s.birth
  intro d q r hq hr
  exact birth_lt (inv_run hreach) (proper_run hreach) (family_run hreach) hsen hq hr

def slot (i : ℕ) : Fin NPROC := ⟨i % NPROC, Nat.mod_lt _ (by decide)⟩

def cpu (i : ℕ) : Fin NCPU := ⟨i % NCPU, Nat.mod_lt _ (by decide)⟩

/-- CPU 0 has the lock of the first process, and CPU 1 waits for it. -/
theorem proc_locks_acyclic_scan : ∃ s : St NPROC NCPU,
    exec (St.step (slot 0)) (St.boot (slot 0)) [(cpu 0, .go)] = some s ∧
    WaitsFor (spins (slot 0) s) s.lock (cpu 1) (cpu 0) ∧
    ¬ TransGen (WaitsFor (spins (slot 0) s) s.lock) (cpu 1) (cpu 1) := by
  have hrun := exec_final (St.step (slot 0)) (s := (St.boot (slot 0) : St NPROC NCPU))
    (l := [(cpu 0, .go)]) (by decide +kernel)
  have hok : Meets (St.step (slot 0)) NotSaved (St.boot (slot 0) : St NPROC NCPU) [(cpu 0, .go)] := by
    refine ⟨?_, fun _ _ => trivial⟩
    intro i hi
    cases hi
  refine ⟨_, hrun, ?_, proc_locks_acyclic (slot 0) _ _ hok hrun (cpu 1)⟩
  exact ⟨slot 0, by decide +kernel, by decide +kernel⟩

/-! ### The slot of the parent is used again -/

theorem step_reparent {st : Int32} {op : Fin n} {i : ℕ} (hon : s.on c = some p)
    (hctl : s.ctl (.proc p) = ⟨.reparent st op i, none⟩) (hi : i < n) (hno : (s.proc ⟨i, hi⟩).parent ≠ some p) :
    St.step initproc s (c, .go) = some (s.setCtl (.proc p) ⟨.reparent st op (i + 1), none⟩) := by
  have heq : code initproc s.proc p (.reparent st op i) .go =
      if h : i < n then
        if (s.proc ⟨i, h⟩).parent = some p then some { next := .reparentChild st op ⟨i, h⟩ }
        else some { next := .reparent st op (i + 1) }
      else some { effect := .zombie p op st, next := .exitZombie op } := rfl
  have hcode : code initproc s.proc p (.reparent st op i) .go =
      some { next := .reparent st op (i + 1) } := by
    rw [heq, dif_pos hi, if_neg hno]
  rw [step_go_eq_move hon hctl (fun _ => nofun) hcode]
  simp only [St.move, St.lockOp, Option.map_some, St.effect, hctl, Ctl.goto]

theorem exec_reparent {st : Int32} {op : Fin n} {i k : ℕ} (hon : s.on c = some p)
    (hctl : s.ctl (.proc p) = ⟨.reparent st op i, none⟩) (hk : i + k ≤ n)
    (hno : ∀ j : Fin n, i ≤ j → (s.proc j).parent ≠ some p) : exec (St.step initproc) s (List.replicate k (c, .go)) =
      some (s.setCtl (.proc p) ⟨.reparent st op (i + k), none⟩) := by
  induction k generalizing s i with
  | zero =>
    rw [List.replicate_zero, exec_nil, Nat.add_zero, ← hctl, St.setCtl, Function.update_eq_self]
  | succ k ih =>
    have hi : i < n := by omega
    have hrest := ih (s := s.setCtl (.proc p) ⟨.reparent st op (i + 1), none⟩) (i := i + 1) hon
      (setCtl_self s _ _) (by omega) fun j hj => hno j (by omega)
    rw [List.replicate_succ, exec_cons, step_reparent hon hctl hi (hno ⟨i, hi⟩ (Nat.le_refl i)),
      Option.bind_some, hrest]
    simp only [St.setCtl, Function.update_idem, Nat.add_assoc, Nat.add_comm k 1]

/-- An idle CPU `c` finds slot `i` and runs it. -/
def dispatched (c i : ℕ) : List (Fin NCPU × Act NPROC) := does (cpu c) .go (2 * i + 2)

/-- The process on CPU `c` forks and gets slot `i`. -/
def forked (c i : ℕ) : List (Fin NCPU × Act NPROC) := does (cpu c) .fork (2 * i + 6)

/-- CPU 0 has the first process, CPU 1 its child `P`, CPU 2 the child `Q` of `P` and CPU 3 the child `R`
of `Q`.  `Q` begins to exit and has read `P` as its parent; `P` exits and has handed `Q` over. -/
def parentExits : List (Fin NCPU × Act NPROC) :=
  dispatched 0 0 ++ forked 0 1 ++ dispatched 1 1 ++ forked 1 2 ++ dispatched 2 2 ++ forked 2 3 ++
  dispatched 3 3 ++ does (cpu 2) (.exit 0) 4 ++ does (cpu 1) (.exit 0) 11

/-- The first process waits for `P`; `R` forks and gets the slot of `P`; `R` and `Q` go on with `exit`. -/
def slotReused : List (Fin NCPU × Act NPROC) :=
  does (cpu 1) .go 4 ++ does (cpu 0) (.wait 0) 7 ++ forked 3 1 ++ does (cpu 3) (.exit 0) 8 ++
  does (cpu 2) .go 0

/-- `P` has looked at every slot. -/
def parentDone : St NPROC NCPU :=
  (final (St.step (slot 0)) (St.boot (slot 0)) parentExits).setCtl (.proc (slot 1))
    ⟨.reparent 0 (slot 0) (3 + 61), none⟩

theorem parentDone_reachable : Reachable (St.step (slot 0)) (St.boot (slot 0)) parentDone := by
  have hend : (exec (St.step (slot 0)) (St.boot (slot 0) : St NPROC NCPU) parentExits).any (fun s =>
      s.on (cpu 1) = some (slot 1) ∧
      s.ctl (.proc (slot 1)) = ⟨.reparent 0 (slot 0) 3, none⟩ ∧
      ∀ j : Fin NPROC, 3 ≤ j.val → (s.proc j).parent ≠ some (slot 1)) = true := by
    decide +kernel
  obtain ⟨s, hs, hall⟩ := (Option.any_eq_true _ _).mp hend
  have hdone : parentDone = s.setCtl (.proc (slot 1)) ⟨.reparent 0 (slot 0) (3 + 61), none⟩ := by
    rw [parentDone, final, hs, Option.getD_some]
  obtain ⟨hon, hctl, hno⟩ := of_decide_eq_true hall
  refine ⟨parentExits ++ List.replicate 61 (cpu 1, .go), ?_⟩
  rw [exec_append, hs, Option.bind_some, hdone]
  exact exec_reparent hon hctl (by decide) hno

/-- `Q` has the lock of the slot that was its parent's and waits for its own; `R` has the lock of `Q`, its
parent, and waits for that of its child. -/
theorem original_parent_reused : ∃ s : St NPROC NCPU,
    Reachable (St.step (slot 0)) (St.boot (slot 0)) s ∧
    TransGen (WaitsFor (spins (slot 0) s) s.lock) (cpu 2) (cpu 2) := by
  have hend : (exec (St.step (slot 0)) parentDone slotReused).any (fun s =>
      spins (slot 0) s (cpu 2) = some (slot 2) ∧ s.lock (slot 2) = some (cpu 3) ∧
      spins (slot 0) s (cpu 3) = some (slot 1) ∧ s.lock (slot 1) = some (cpu 2)) = true := by
    decide +kernel
  obtain ⟨s, hs, hall⟩ := (Option.any_eq_true _ _).mp hend
  obtain ⟨hq, hr, hr', hq'⟩ := of_decide_eq_true hall
  obtain ⟨ls, hls⟩ := parentDone_reachable
  refine ⟨s, ⟨ls ++ slotReused, ?_⟩, cycle_of_pair hq hr hr' hq'⟩
  rw [exec_append, hls, Option.bind_some, hs]

end Xv6.ProcDeadlock
