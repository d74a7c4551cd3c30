import Xv6.PipeSteps

/-!
# What is true of a pipe at all times

`Inv` says who holds `pi->lock` and the process locks, who may be asleep, that the reference counts of
the two ends count descriptors, that an end is closed only when nobody refers to it, and that a process
on its way to `sleep` has a reason (`Pc.Knows`).  It holds in every reachable state (`inv_run`).
-/

namespace Xv6.PipeMachine

open LabelledRuns RingBuffer
open Function (update_self update_of_ne)

variable {n : ℕ} {s t : St n} {p : Fin n}

/-! ### Places -/

/-- The places behind `acquire(&pi->lock)`. -/
def Pc.holds : Pc → Bool
  | .write _ _ | .full _ _ | .fullCheck _ _ | .empty _ | .emptyCheck _ | .read _ _ | .wakeup _ _
  | .leave _ _ | .sleep _ | .sleepLocked _ | .close _ | .closeCheck => true
  | _ => false

/-- The places of `sleep` behind `acquire(&p->lock)`. -/
def Pc.dozes : Pc → Bool
  | .sleepLocked _ | .sleepUnlocked _ | .sched _ => true
  | _ => false

def Call.uses : Call → Option End
  | .write _ => some .write
  | .read _ => some .read
  | .close _ => none

def Loop.uses : Loop → Option End
  | .write _ _ => some .write
  | .read _ => some .read

def After.uses : After → Option End
  | .sleep _ _ | .writeEnd _ _ => some .write
  | .readEnd _ _ => some .read
  | .close _ => none

/-- The end that the call in progress was made through. -/
def Pc.uses : Pc → Option End
  | .enter c | .leave c _ => c.uses
  | .again k | .sleep k | .sleepLocked k | .sleepUnlocked k | .sched k | .resume k => k.uses
  | .write _ _ | .full _ _ | .fullCheck _ _ => some .write
  | .empty _ | .emptyCheck _ | .read _ _ => some .read
  | .wakeup a _ => a.uses
  | _ => none

/-- The end that is about to be shut. -/
def Pc.shuts : Pc → Option End
  | .enter (.close e) => some e
  | .close e => some e
  | _ => none

/-- The condition under which one sleeps on a channel. -/
def Pipe.blocks (q : Pipe) : Chan → Bool
  | .nread => q.isEmpty && q.writeopen
  | .nwrite => q.isFull && q.readopen

/-- What the tests before a place have shown. -/
def Pc.Knows (q : Pipe) : Pc → Prop
  | .fullCheck _ _ => q.isFull = true
  | .emptyCheck _ => q.blocks .nread = true
  | .wakeup (.sleep _ _) _ => q.blocks .nwrite = true
  | .sleep k | .sleepLocked k => q.blocks k.chan = true
  | _ => True

structure Inv (s : St n) : Prop where
  lock : ∀ p, s.lock = some p ↔ (s.proc p).pc.holds = true
  locked : ∀ p, (s.proc p).locked = (s.proc p).pc.dozes
  asleep : ∀ p, (s.proc p).sleeping = true →
    ∃ k, ((s.proc p).pc = .sched k ∨ (s.proc p).pc = .resume k) ∧ (s.proc p).chan = some k.chan
  uses : ∀ p e, (s.proc p).pc.uses = some e → 0 < (s.proc p).fds e
  refs : ∀ e, s.ref e = ∑ p, (s.proc p).fds e
  shut : ∀ e, s.pipe.isOpen e = false → s.ref e = 0
  shuts : ∀ p e, (s.proc p).pc.shuts = some e → s.ref e = 0
  knows : ∀ p, (s.proc p).pc.Knows s.pipe
  size : size s.pipe.nread s.pipe.nwrite ≤ PIPESIZE

/-! ### What a step of the code leaves alone -/

/-- A step of `p` changes other processes only by waking them up, and the pipe only under its lock. -/
structure Frame (s t : St n) (p : Fin n) : Prop where
  ref : t.ref = s.ref
  fds : ∀ q, (t.proc q).fds = (s.proc q).fds
  pc : ∀ q, q ≠ p → (t.proc q).pc = (s.proc q).pc
  locked : ∀ q, q ≠ p → (t.proc q).locked = (s.proc q).locked
  chan : ∀ q, q ≠ p → (t.proc q).chan = (s.proc q).chan
  sleeping : ∀ q, q ≠ p → (t.proc q).sleeping = true → (s.proc q).sleeping = true
  pipe : (s.proc p).pc.holds = true ∨ t.pipe = s.pipe

theorem frame_setProc {x : Proc} (ht : t.proc = Function.update s.proc p x)
    (hfds : x.fds = (s.proc p).fds) (href : t.ref = s.ref)
    (hpipe : (s.proc p).pc.holds = true ∨ t.pipe = s.pipe) : Frame s t p := by
  have hother : ∀ q, q ≠ p → t.proc q = s.proc q := by
    intro q hq
    rw [ht, update_of_ne hq]
  refine ⟨href, ?_, ?_, ?_, ?_, ?_, hpipe⟩
  · intro q
    by_cases hq : q = p
    · rw [hq, ht, update_self, hfds]
    · rw [hother q hq]
  · intro q hq
    rw [hother q hq]
  · intro q hq
    rw [hother q hq]
  · intro q hq
    rw [hother q hq]
  · intro q hq
    rw [hother q hq]
    exact id

theorem wake_fields (ch : Chan) (x : Proc) : (wake ch x).pc = x.pc ∧ (wake ch x).fds = x.fds ∧
    (wake ch x).locked = x.locked ∧ (wake ch x).chan = x.chan ∧
    ((wake ch x).sleeping = true → x.sleeping = true) := by
  unfold wake
  split
  · exact ⟨rfl, rfl, rfl, rfl, fun h => by cases h⟩
  · exact ⟨rfl, rfl, rfl, rfl, id⟩

theorem frame_wake (a : After) (j : Fin n) (hpc : (s.proc p).pc.holds = true) :
    Frame s ((s.setProc j (wake a.chan (s.proc j))).setPc p (.wakeup a (j + 1))) p := by
  obtain ⟨hwpc, hwfds, hwlocked, hwchan, hwsleep⟩ := wake_fields a.chan (s.proc j)
  have hother : ∀ q, q ≠ p →
      ((s.setProc j (wake a.chan (s.proc j))).setPc p (.wakeup a (j + 1))).proc q =
        if q = j then wake a.chan (s.proc j) else s.proc q := by
    intro q hq
    rw [proc_setPc_of_ne hq]
    split
    · rename_i hj
      rw [hj, proc_setProc_self]
    · rename_i hj
      rw [proc_setProc_of_ne hj]
  refine ⟨rfl, ?_, ?_, ?_, ?_, ?_, .inl hpc⟩
  · intro q
    by_cases hq : q = p
    · subst hq
      rw [proc_setPc_self]
      by_cases hj : q = j
      · subst hj
        rw [proc_setProc_self]
        exact hwfds
      · rw [proc_setProc_of_ne hj]
    · rw [hother q hq]
      split
      · rename_i hj
        rw [hwfds, hj]
      · rfl
  all_goals
    intro q hq
    rw [hother q hq]
    split
    · rename_i hj
      subst hj
      assumption
    · first | rfl | exact id

theorem goes_frame (hgo : Goes s p t) : Frame s t p := by
  cases hgo with
  | wake a j hpc _ => exact frame_wake a j (by rw [hpc]; rfl)
  | store b i ch hpc | copyoutFault b i hpc | deliver b i hpc | close e hpc =>
    exact frame_setProc rfl rfl rfl (.inl (by rw [hpc]; rfl))
  | _ => exact frame_setProc rfl rfl rfl (.inr rfl)

/-! ### The lock of the pipe -/

/-- A step keeps `pi->lock`, takes it or gives it back. -/
inductive LockStep (s t : St n) (p : Fin n) : Prop where
  | keep : t.lock = s.lock → (t.proc p).pc.holds = (s.proc p).pc.holds → LockStep s t p
  | take : s.lock = none → t.lock = some p → (t.proc p).pc.holds = true → LockStep s t p
  | give : (s.proc p).pc.holds = true → t.lock = none → (t.proc p).pc.holds = false → LockStep s t p

theorem Call.pc_holds (c : Call) : c.pc.holds = true := by
  cases c <;> rfl

theorem Loop.pc_holds (k : Loop) : k.pc.holds = true := by
  cases k <;> rfl

theorem After.pc_holds (a : After) : a.pc.holds = true := by
  cases a <;> rfl

theorem goes_lockStep (hgo : Goes s p t) : LockStep s t p := by
  cases hgo with
  | enter c _ hlock => exact .take hlock rfl (by simp [c.pc_holds])
  | again k _ hlock => exact .take hlock rfl (by simp [k.pc_holds])
  | leave c r hpc | unlock k hpc | lastOut hpc | closed hpc => exact .give (by rw [hpc]; rfl) rfl (by simp [Pc.holds])
  | woken a j hpc =>
    refine .keep rfl ?_
    rw [proc_setPc_self, hpc]
    exact a.pc_holds
  | _ => exact .keep rfl (by simp_all [Pc.holds])

theorem lock_goes (h : Inv s) (hgo : Goes s p t) (q : Fin n) : t.lock = some q ↔ (t.proc q).pc.holds = true := by
  by_cases hq : q = p
  · subst hq
    cases goes_lockStep hgo with
    | keep hl hpc =>
      rw [hl, hpc]
      exact h.lock q
    | take _ hl hpc | give _ hl hpc => simp [hl, hpc]
  · rw [(goes_frame hgo).pc q hq, ← h.lock q]
    cases goes_lockStep hgo with
    | keep hl _ => rw [hl]
    | take hnone hl _ => simp [hl, hnone, Ne.symm hq]
    | give hp hl _ => simp [hl, (h.lock p).mpr hp, Ne.symm hq]

/-! ### The other locks, and who is asleep -/

theorem Call.pc_dozes (c : Call) : c.pc.dozes = false := by
  cases c <;> rfl

theorem Loop.pc_dozes (k : Loop) : k.pc.dozes = false := by
  cases k <;> rfl

theorem After.pc_dozes (a : After) : a.pc.dozes = false := by
  cases a <;> rfl

theorem locked_goes (h : Inv s) (hgo : Goes s p t) (q : Fin n) : (t.proc q).locked = (t.proc q).pc.dozes := by
  by_cases hq : q = p
  · subst hq
    have hown := h.locked q
    cases hgo with
    | enter c hpc =>
      rw [proc_acquire_self, c.pc_dozes]
      exact hown.trans (by rw [hpc]; rfl)
    | again k hpc =>
      rw [proc_acquire_self, k.pc_dozes]
      exact hown.trans (by rw [hpc]; rfl)
    | woken a j hpc =>
      rw [proc_setPc_self, a.pc_dozes]
      exact hown.trans (by rw [hpc]; rfl)
    | wake a j hpc =>
      rw [proc_setPc_self]
      by_cases hj : q = j
      · subst hj
        rw [proc_setProc_self]
        exact (wake_fields _ _).2.2.1.trans (hown.trans (by rw [hpc]; rfl))
      · rw [proc_setProc_of_ne hj]
        exact hown.trans (by rw [hpc]; rfl)
    | _ => simp_all [Pc.dozes]
  · rw [(goes_frame hgo).pc q hq, (goes_frame hgo).locked q hq]
    exact h.locked q

theorem asleep_goes (h : Inv s) (hgo : Goes s p t) (q : Fin n) (hs : (t.proc q).sleeping = true) :
    ∃ k, ((t.proc q).pc = .sched k ∨ (t.proc q).pc = .resume k) ∧ (t.proc q).chan = some k.chan := by
  by_cases hq : q = p
  · subst hq
    have hown := h.asleep q
    cases hgo with
    | wake a j hpc =>
      rw [proc_setPc_self] at hs
      by_cases hj : q = j
      · subst hj
        rw [proc_setProc_self] at hs
        have hs : (wake a.chan (s.proc q)).sleeping = true := hs
        obtain ⟨k, hk, -⟩ := hown ((wake_fields _ _).2.2.2.2 hs)
        simp_all
      · rw [proc_setProc_of_ne hj] at hs
        obtain ⟨k, hk, -⟩ := hown hs
        simp_all
    | _ => simp_all
  · rw [(goes_frame hgo).pc q hq, (goes_frame hgo).chan q hq]
    exact h.asleep q ((goes_frame hgo).sleeping q hq hs)

/-! ### Descriptors -/

theorem Call.pc_uses (c : Call) : c.pc.uses = c.uses := by
  cases c <;> rfl

theorem Loop.pc_uses (k : Loop) : k.pc.uses = k.uses := by
  cases k <;> rfl

theorem After.pc_uses (a : After) : a.pc.uses = a.uses := by
  cases a <;> rfl

theorem goes_uses {e : End} (hgo : Goes s p t) (hu : (t.proc p).pc.uses = some e) : (s.proc p).pc.uses = some e := by
  cases hgo with
  | enter c hpc =>
    rw [proc_acquire_self, c.pc_uses] at hu
    rw [hpc]
    exact hu
  | again k hpc =>
    rw [proc_acquire_self, k.pc_uses] at hu
    rw [hpc]
    exact hu
  | woken a j hpc =>
    rw [proc_setPc_self, a.pc_uses] at hu
    rw [hpc]
    exact hu
  | _ => simp_all [Pc.uses, Call.uses, Loop.uses, After.uses]

theorem goes_shuts {e : End} (hgo : Goes s p t) (hu : (t.proc p).pc.shuts = some e) :
    (s.proc p).pc.shuts = some e := by
  cases hgo with
  | enter c hpc =>
    rw [proc_acquire_self] at hu
    rw [hpc]
    cases c with
    | close e => exact hu
    | _ => cases hu
  | again k hpc =>
    rw [proc_acquire_self] at hu
    cases k <;> cases hu
  | woken a j hpc =>
    rw [proc_setPc_self] at hu
    cases a <;> cases hu
  | _ => simp_all [Pc.shuts]

theorem goes_isOpen {e : End} (hgo : Goes s p t) (ho : t.pipe.isOpen e = false) :
    s.pipe.isOpen e = false ∨ (s.proc p).pc.shuts = some e := by
  cases hgo with
  | close e' hpc =>
    rw [hpc]
    cases e <;> cases e' <;> first | exact .inl ho | exact .inr rfl
  | store b i ch hpc | copyoutFault b i hpc | deliver b i hpc => cases e <;> exact .inl ho
  | _ => exact .inl ho

/-! ### What has been tested -/

theorem knows_of_not_holds {pc : Pc} (q : Pipe) (h : pc.holds = false) : pc.Knows q := by
  cases pc with
  | fullCheck _ _ | emptyCheck _ | wakeup _ _ | sleep _ | sleepLocked _ => cases h
  | _ => trivial

theorem Call.pc_knows (c : Call) (q : Pipe) : c.pc.Knows q := by
  cases c <;> trivial

theorem Loop.pc_knows (k : Loop) (q : Pipe) : k.pc.Knows q := by
  cases k <;> trivial

theorem knows_goes_self (hown : (s.proc p).pc.Knows s.pipe) (hgo : Goes s p t) : (t.proc p).pc.Knows t.pipe := by
  cases hgo with
  | enter c hpc =>
    rw [proc_acquire_self]
    exact c.pc_knows _
  | again k hpc =>
    rw [proc_acquire_self]
    exact k.pc_knows _
  | woken a j hpc | wake a j hpc =>
    rw [hpc] at hown
    rw [proc_setPc_self]
    cases a with
    | sleep b i => exact hown
    | _ => trivial
  | full b i hpc hfull =>
    rw [proc_setPc_self]
    exact hfull
  | announce b i hpc hopen =>
    rw [hpc] at hown
    rw [proc_setPc_self]
    exact Bool.and_eq_true_iff.mpr ⟨hown, hopen⟩
  | empty b hpc hempty hopen =>
    rw [proc_setPc_self]
    exact Bool.and_eq_true_iff.mpr ⟨hempty, hopen⟩
  | await b hpc =>
    rw [hpc] at hown
    rw [proc_setPc_self]
    exact hown
  | sleep k hpc =>
    rw [hpc] at hown
    rw [proc_setProc_self]
    exact hown
  | _ => simp [Pc.Knows]

theorem place_goes {K : Pipe → Pc → Prop} (hfree : ∀ q pc, pc.holds = false → K q pc)
    (h : Inv s) (hgo : Goes s p t) (hself : K t.pipe (t.proc p).pc)
    (hall : ∀ q, K s.pipe (s.proc q).pc) (q : Fin n) : K t.pipe (t.proc q).pc := by
  by_cases hq : q = p
  · subst hq
    exact hself
  · rw [(goes_frame hgo).pc q hq]
    cases hh : (s.proc q).pc.holds with
    | false => exact hfree _ _ hh
    | true =>
      -- `q` has the lock, so `p` does not
      obtain hp | hpipe := (goes_frame hgo).pipe
      · have hlp := (h.lock p).mpr hp
        rw [(h.lock q).mpr hh, Option.some.injEq] at hlp
        exact absurd hlp hq
      · rw [hpipe]
        exact hall q

/-! ### How many bytes are in the pipe -/

theorem not_full_iff {q : Pipe} (hle : size q.nread q.nwrite ≤ PIPESIZE) :
    q.isFull = false ↔ size q.nread q.nwrite < PIPESIZE := by
  have hfull : q.isFull = true ↔ size q.nread q.nwrite = PIPESIZE := by
    rw [Pipe.isFull, beq_iff_eq]
    constructor
    · intro heq
      have hsub : q.nread + BitVec.ofNat 32 PIPESIZE - q.nread = BitVec.ofNat 32 PIPESIZE := by grind
      rw [heq, size, hsub]
      rfl
    · intro heq
      rw [← heq, add_size]
  rw [← Bool.not_eq_true, hfull]
  omega

theorem not_empty_iff {q : Pipe} : q.isEmpty = false ↔ q.nread ≠ q.nwrite := by
  rw [Pipe.isEmpty, beq_eq_false_iff_ne]

theorem size_goes (h : Inv s) (hgo : Goes s p t) : size t.pipe.nread t.pipe.nwrite ≤ PIPESIZE := by
  have hle := h.size
  have hskip : s.pipe.isEmpty = false → size (s.pipe.nread + 1) s.pipe.nwrite ≤ PIPESIZE := by
    intro hdata
    have := size_pop (not_empty_iff.mp hdata)
    omega
  cases hgo with
  | store b i ch hpc hfull =>
    have hlt := (not_full_iff hle).mp hfull
    have hpush : size s.pipe.nread (s.pipe.nwrite + 1) = size s.pipe.nread s.pipe.nwrite + 1 :=
      size_push (by have : PIPESIZE < 2 ^ 32 := by decide
                    omega)
    change size s.pipe.nread (s.pipe.nwrite + 1) ≤ _
    omega
  | copyoutFault b i hpc _ hdata | deliver b i hpc _ hdata => exact hskip hdata
  | close e hpc => cases e <;> exact hle
  | _ => exact hle

theorem inv_goes (h : Inv s) (hgo : Goes s p t) : Inv t where
  lock := lock_goes h hgo
  locked := locked_goes h hgo
  asleep := asleep_goes h hgo
  uses := by
    intro q e hu
    rw [(goes_frame hgo).fds q]
    by_cases hq : q = p
    · subst hq
      exact h.uses q e (goes_uses hgo hu)
    · rw [(goes_frame hgo).pc q hq] at hu
      exact h.uses q e hu
  refs := by
    intro e
    rw [(goes_frame hgo).ref, h.refs e]
    apply Finset.sum_congr rfl
    intro q _
    rw [(goes_frame hgo).fds q]
  shut := by
    intro e ho
    rw [(goes_frame hgo).ref]
    obtain ho | hu := goes_isOpen hgo ho
    · exact h.shut e ho
    · exact h.shuts p e hu
  shuts := by
    intro q e hu
    rw [(goes_frame hgo).ref]
    by_cases hq : q = p
    · subst hq
      exact h.shuts q e (goes_shuts hgo hu)
    · rw [(goes_frame hgo).pc q hq] at hu
      exact h.shuts q e hu
  knows := place_goes (K := fun q pc => pc.Knows q) (fun q _ => knows_of_not_holds q) h hgo
    (knows_goes_self (h.knows p) hgo) h.knows
  size := size_goes h hgo

/-! ### Calls and descriptors -/

theorem sum_fds {q : Fin n} {x : Proc} (ht : t.proc = Function.update s.proc q x) (e : End) :
    (∑ p, (t.proc p).fds e) + (s.proc q).fds e = (∑ p, (s.proc p).fds e) + x.fds e := by
  have hrest : ∑ p ∈ Finset.univ.erase q, (t.proc p).fds e =
      ∑ p ∈ Finset.univ.erase q, (s.proc p).fds e := by
    apply Finset.sum_congr rfl
    intro p hp
    rw [ht, update_of_ne (Finset.ne_of_mem_erase hp)]
  have hself : (t.proc q).fds e = x.fds e := by
    rw [ht, update_self]
  rw [← Finset.add_sum_erase _ _ (Finset.mem_univ q), hrest, hself,
    ← Finset.add_sum_erase _ (fun p => (s.proc p).fds e) (Finset.mem_univ q)]
  omega

theorem Inv.fds_le (h : Inv s) (p : Fin n) (e : End) : (s.proc p).fds e ≤ s.ref e := by
  rw [h.refs e]
  exact Finset.single_le_sum (f := fun q => (s.proc q).fds e) (fun _ _ => Nat.zero_le _)
    (Finset.mem_univ p)

theorem inv_update (h : Inv s) {q : Fin n} {x : Proc} (ht : t.proc = Function.update s.proc q x)
    (hpipe : t.pipe = s.pipe) (hlock : t.lock = s.lock) (hholds : x.pc.holds = (s.proc q).pc.holds)
    (hlocked : x.locked = x.pc.dozes)
    (hasleep : x.sleeping = true → ∃ k, (x.pc = .sched k ∨ x.pc = .resume k) ∧ x.chan = some k.chan)
    (huses : ∀ e, x.pc.uses = some e → 0 < x.fds e) (hrefs : ∀ e, t.ref e + (s.proc q).fds e = s.ref e + x.fds e)
    (hzero : ∀ e, s.ref e = 0 → t.ref e = 0) (hshuts : ∀ e, x.pc.shuts = some e → t.ref e = 0)
    (hknows : x.pc.Knows s.pipe) : Inv t := by
  have hproc : ∀ P : Proc → Prop, P x → ∀ p, (p ≠ q → P (s.proc p)) → P (t.proc p) := by
    intro P hx p hp
    by_cases hpq : p = q
    · rw [hpq, ht, update_self]
      exact hx
    · rw [ht, update_of_ne hpq]
      exact hp hpq
  refine ⟨?_, ?_, ?_, ?_, ?_, ?_, ?_, ?_, ?_⟩
  · intro p
    have hsame : (t.proc p).pc.holds = (s.proc p).pc.holds := by
      by_cases hpq : p = q
      · rw [hpq, ht, update_self, hholds]
      · rw [ht, update_of_ne hpq]
    rw [hlock, hsame]
    exact h.lock p
  · intro p
    exact hproc (fun y => y.locked = y.pc.dozes) hlocked p fun _ => h.locked p
  · intro p
    exact hproc (fun y => y.sleeping = true → ∃ k, (y.pc = .sched k ∨ y.pc = .resume k) ∧
      y.chan = some k.chan) hasleep p fun _ => h.asleep p
  · intro p
    exact hproc (fun y => ∀ e, y.pc.uses = some e → 0 < y.fds e) huses p fun _ => h.uses p
  · intro e
    have hsum := sum_fds ht e
    have := hrefs e
    have := h.refs e
    omega
  · intro e ho
    rw [hpipe] at ho
    exact hzero e (h.shut e ho)
  · intro p
    refine hproc (fun y => ∀ e, y.pc.shuts = some e → t.ref e = 0) hshuts p ?_
    intro _ e hu
    exact hzero e (h.shuts p e hu)
  · intro p
    rw [hpipe]
    exact hproc (fun y => y.pc.Knows s.pipe) hknows p fun _ => h.knows p
  · rw [hpipe]
    exact h.size

theorem Inv.awake (h : Inv s) (hpc : (s.proc p).pc = .user) : (s.proc p).sleeping = false := by
  rw [← Bool.not_eq_true]
  intro hs
  obtain ⟨k, hk, -⟩ := h.asleep p hs
  rw [hpc] at hk
  obtain hk | hk := hk <;> cases hk

theorem inv_idle (h : Inv s) {q : Fin n} (huser : (s.proc q).pc = .user) {x : Proc}
    (ht : t.proc = Function.update s.proc q x) (hpipe : t.pipe = s.pipe) (hlock : t.lock = s.lock)
    (hpc : x.pc = .user ∨ ∃ c, x.pc = .enter c) (hsleep : x.sleeping = (s.proc q).sleeping)
    (hlocked : x.locked = (s.proc q).locked) (huses : ∀ e, x.pc.uses = some e → 0 < x.fds e)
    (hrefs : ∀ e, t.ref e + (s.proc q).fds e = s.ref e + x.fds e)
    (hzero : ∀ e, s.ref e = 0 → t.ref e = 0) (hshuts : ∀ e, x.pc.shuts = some e → t.ref e = 0) : Inv t := by
  have hholds : x.pc.holds = false := by
    obtain hpc | ⟨c, hpc⟩ := hpc <;> rw [hpc] <;> rfl
  have hdozes : x.pc.dozes = false := by
    obtain hpc | ⟨c, hpc⟩ := hpc <;> rw [hpc] <;> rfl
  refine inv_update h ht hpipe hlock ?_ ?_ ?_ huses hrefs hzero hshuts (knows_of_not_holds _ hholds)
  · rw [hholds, huser]
    rfl
  · rw [hdozes, hlocked, h.locked q, huser]
    rfl
  · intro hs
    rw [hsleep, h.awake huser] at hs
    cases hs

theorem inv_does (h : Inv s) (huser : (s.proc p).pc = .user) (hdo : Does s p t) : Inv t := by
  cases hdo with
  | write b hfd | read b hfd =>
    refine inv_idle h huser rfl rfl rfl (.inr ⟨_, rfl⟩) rfl rfl ?_ (fun _ => rfl) (fun _ => id) ?_
    · intro e he
      cases he
      exact hfd
    · intro e he
      cases he
  | close e hfd =>
    have hle := h.fds_le p e
    have hnext : (if 0 < s.ref e - 1 then Pc.user else .enter (.close e)) = .user ∨
        s.ref e - 1 = 0 ∧ (if 0 < s.ref e - 1 then Pc.user else .enter (.close e)) = .enter (.close e) := by
      split
      · exact .inl rfl
      · exact .inr ⟨by omega, rfl⟩
    refine inv_idle h huser rfl rfl rfl ?_ rfl rfl ?_ ?_ ?_ ?_
    · obtain hpc | ⟨-, hpc⟩ := hnext
      · exact .inl hpc
      · exact .inr ⟨_, hpc⟩
    · intro e' he
      obtain hpc | ⟨-, hpc⟩ := hnext
      · rw [hpc] at he
        cases he
      · rw [hpc] at he
        cases he
    · intro e'
      by_cases hee : e' = e
      · subst hee
        simp only [St.drop, St.setProc, update_self]
        omega
      · simp only [St.drop, St.setProc, update_of_ne hee]
    · intro e' hz
      by_cases hee : e' = e
      · subst hee
        simp only [St.drop, St.setProc, update_self]
        omega
      · simp only [St.drop, St.setProc, update_of_ne hee]
        exact hz
    · intro e' he
      obtain hpc | ⟨hz, hpc⟩ := hnext
      · rw [hpc] at he
        cases he
      · rw [hpc] at he
        cases he
        simp only [St.drop, St.setProc, update_self]
        exact hz
  | dup e hfd =>
    have hle := h.fds_le p e
    refine inv_idle h huser rfl rfl rfl (.inl huser) rfl rfl ?_ ?_ ?_ ?_
    · intro e' he
      change (s.proc p).pc.uses = some e' at he
      rw [huser] at he
      cases he
    · intro e'
      by_cases hee : e' = e
      · subst hee
        simp only [St.dup, St.setProc, update_self]
        omega
      · simp only [St.dup, St.setProc, update_of_ne hee]
    · intro e' hz
      by_cases hee : e' = e
      · subst hee
        omega
      · simp only [St.dup, St.setProc, update_of_ne hee]
        exact hz
    · intro e' he
      change (s.proc p).pc.shuts = some e' at he
      rw [huser] at he
      cases he
  | fork c hc hnone =>
    refine inv_idle h hc rfl rfl rfl (.inl hc) rfl rfl ?_ ?_ ?_ ?_
    · intro e he
      change (s.proc c).pc.uses = some e at he
      rw [hc] at he
      cases he
    · intro e
      change s.ref e + (s.proc p).fds e + (s.proc c).fds e = s.ref e + (s.proc p).fds e
      rw [hnone e, Nat.add_zero]
    · intro e hz
      change s.ref e + (s.proc p).fds e = 0
      have := h.fds_le p e
      omega
    · intro e he
      change (s.proc c).pc.shuts = some e at he
      rw [hc] at he
      cases he
  | kill q hlocked =>
    exact inv_update h rfl rfl rfl rfl (h.locked q) (fun hs => by cases hs) (h.uses q)
      (fun _ => rfl) (fun _ => id) (h.shuts q) (h.knows q)
  | run mem =>
    exact inv_idle h huser rfl rfl rfl (.inl huser) rfl rfl (h.uses p) (fun _ => rfl)
      (fun _ => id) (h.shuts p)

theorem does_frame (hdo : Does s p t) :
    t.pipe = s.pipe ∧ t.lock = s.lock ∧ t.accepted = s.accepted ∧ t.delivered = s.delivered ∧
      t.fresh = s.fresh ∧ ∀ q, (t.proc q).pc = (s.proc q).pc ∨
        (t.proc q).pc = .user ∨ ∃ c, (t.proc q).pc = .enter c := by
  have hproc : ∀ {q : Fin n} {x : Proc}, t.proc = Function.update s.proc q x →
      (x.pc = (s.proc q).pc ∨ x.pc = .user ∨ ∃ c, x.pc = .enter c) →
      ∀ r, (t.proc r).pc = (s.proc r).pc ∨ (t.proc r).pc = .user ∨ ∃ c, (t.proc r).pc = .enter c := by
    intro q x ht hx r
    by_cases hr : r = q
    · rw [hr, ht, update_self]
      exact hx
    · rw [ht, update_of_ne hr]
      exact .inl rfl
  refine ⟨?_, ?_, ?_, ?_, ?_, ?_⟩
  case refine_6 =>
    cases hdo with
    | write b | read b => exact hproc rfl (.inr (.inr ⟨_, rfl⟩))
    | close e =>
      refine hproc rfl (.inr ?_)
      by_cases hmore : 0 < s.ref e - 1
      · exact .inl (if_pos hmore)
      · exact .inr ⟨_, if_neg hmore⟩
    | dup e | fork c | kill q | run mem => exact hproc rfl (.inl rfl)
  all_goals cases hdo <;> rfl

/-! ### Runs -/

theorem inv_step {l : Fin n × Act n} (h : Inv s) (hs : s.step l = some t) : Inv t := by
  obtain hgo | ⟨huser, hdo⟩ := steps_of_step hs
  · exact inv_goes h hgo
  · exact inv_does h huser hdo

theorem inv_boot (page : Fin PIPESIZE → UInt8) (p : Fin n) : Inv (St.boot page p) where
  lock := by
    intro q
    simp [St.boot, Pc.holds]
  locked := fun _ => rfl
  asleep := by
    intro q hs
    cases hs
  uses := by
    intro q e hu
    cases hu
  refs := by
    intro e
    change 1 = ∑ q, if q = p then 1 else 0
    rw [Finset.sum_ite_eq' Finset.univ p, if_pos (Finset.mem_univ p)]
  shut := by
    intro e ho
    cases e <;> cases ho
  shuts := by
    intro q e hu
    cases hu
  knows := fun _ => trivial
  size := by
    change size (0 : BitVec 32) 0 ≤ PIPESIZE
    rw [size_self]
    exact Nat.zero_le _

theorem inv_run {page : Fin PIPESIZE → UInt8} (hrun : Reachable St.step (St.boot page p) s) : Inv s :=
  reachable_invariant (fun _ _ _ h hs => inv_step h hs) (inv_boot page p) hrun

end Xv6.PipeMachine
