import Xv6.PipeFifo

/-!
# What a pipe call reports

`watch p` runs the machine and writes down, for the last call of `p`, the bytes that it removed from the
pipe, copied to user memory and appended to the pipe.

* `counted_step` — the index of each loop is the number of bytes moved so far;
* `pipe_calls_account` — what `piperead` and `pipewrite` return is that number.  `piperead` takes a byte
  out of the ring before it copies it, so where the copy fails one byte more is gone than is reported.
-/

namespace Xv6.PipeMachine

open LabelledRuns RingBuffer

variable {n : ℕ} {s t : St n} {p : Fin n}

/-! ### The account of a call -/

structure Tally where
  removed : List UInt8
  copied : List UInt8
  appended : List UInt8

/-- The account after a step of the call from `s` to `t`. -/
def Tally.note (c : Tally) (s t : St n) : Tally where
  removed := c.removed ++ if t.pipe.nread = s.pipe.nread then [] else [s.pipe.first]
  copied := c.copied ++ t.delivered.drop s.delivered.length
  appended := c.appended ++ t.accepted.drop s.accepted.length

/-- A new call has a new account. -/
def Tally.next (c : Tally) (s t : St n) : Act n → Tally
  | .go => c.note s t
  | .write _ | .read _ => ⟨[], [], []⟩
  | _ => c

def watch (p : Fin n) (x : St n × Tally) (l : Fin n × Act n) : Option (St n × Tally) :=
  (x.1.step l).map fun t => (t, if l.1 = p then x.2.next x.1 t l.2 else x.2)

/-! ### Indices count bytes -/

/-- The account of a `pipewrite` that has appended `i` bytes. -/
structure Tally.Wrote (c : Tally) (b : Buf) (i : ℕ) : Prop where
  copied : c.copied = []
  removed : c.removed = []
  appended : c.appended.length = i
  le : i ≤ b.n.toNat

/-- The account of a `piperead` that has copied `i` bytes. -/
structure Tally.Read (c : Tally) (b : Buf) (i : ℕ) : Prop where
  appended : c.appended = []
  copied : c.copied.length = i
  removed : c.removed = c.copied
  le : i ≤ b.n.toNat

/-- The same after its loop: it may have lost one byte, where a copy failed. -/
structure Tally.ReadAll (c : Tally) (mem : UInt64 → Option UInt8) (b : Buf) (i : ℕ) : Prop where
  appended : c.appended = []
  copied : c.copied.length = i
  removed : c.removed = c.copied ∨ (∃ x, c.removed = c.copied ++ [x]) ∧
    ∃ i : ℕ, (i : Int) < b.n ∧ mem (b.addr + UInt64.ofNat i) = none
  le : c.removed.length ≤ b.n.toNat

def Call.Counted (c : Tally) : Call → Prop
  | .write b => c.Wrote b 0
  | .read b => c.Read b 0
  | .close _ => True

def Loop.Counted (c : Tally) : Loop → Prop
  | .write b i => c.Wrote b i ∧ (i : Int) < b.n
  | .read b => c.Read b 0

def After.Counted (mem : UInt64 → Option UInt8) (c : Tally) : After → Prop
  | .sleep b i => c.Wrote b i ∧ (i : Int) < b.n
  | .writeEnd b i => c.Wrote b i
  | .readEnd b i => c.ReadAll mem b i
  | .close _ => True

/-- What the account is at a place; `mem` says which user bytes can be copied. -/
def Counted (mem : UInt64 → Option UInt8) (c : Tally) : Pc → Prop
  | .enter k => k.Counted c
  | .again k | .sleep k | .sleepLocked k | .sleepUnlocked k | .sched k | .resume k => k.Counted c
  | .write b i => c.Wrote b i
  | .full b i | .fullCheck b i => c.Wrote b i ∧ (i : Int) < b.n
  | .empty b | .emptyCheck b => c.Read b 0
  | .read b i => c.Read b i
  | .wakeup a _ => a.Counted mem c
  | .leave (.write b) k => ∃ i, c.Wrote b i ∧ (0 ≤ k → k = i)
  | .leave (.read b) k => ∃ i, c.ReadAll mem b i ∧ (0 ≤ k → k = i)
  | _ => True

theorem Tally.Read.all {c : Tally} {b : Buf} {i : ℕ} (h : c.Read b i) (mem : UInt64 → Option UInt8) :
    c.ReadAll mem b i where
  appended := h.appended
  copied := h.copied
  removed := .inl h.removed
  le := by
    rw [h.removed, h.copied]
    exact h.le

theorem note_same {c : Tally} (hread : t.pipe.nread = s.pipe.nread) (hdel : t.delivered = s.delivered)
    (hacc : t.accepted = s.accepted) : c.note s t = c := by
  rw [Tally.note, if_pos hread, hdel, hacc, List.drop_length, List.drop_length, List.append_nil,
    List.append_nil, List.append_nil]

theorem note_setProc (c : Tally) (s : St n) (p : Fin n) (x : Proc) : c.note s (s.setProc p x) = c :=
  note_same rfl rfl rfl

theorem note_setPc (c : Tally) (s : St n) (p : Fin n) (pc : Pc) : c.note s (s.setPc p pc) = c :=
  note_same rfl rfl rfl

theorem note_acquire (c : Tally) (s : St n) (p : Fin n) (pc : Pc) : c.note s (s.acquire p pc) = c :=
  note_same rfl rfl rfl

theorem note_release (c : Tally) (s : St n) (p : Fin n) (pc : Pc) : c.note s (s.release p pc) = c :=
  note_same rfl rfl rfl

theorem note_wake (c : Tally) (s : St n) (p q : Fin n) (x : Proc) (pc : Pc) :
    c.note s ((s.setProc q x).setPc p pc) = c :=
  note_same rfl rfl rfl

theorem skip_nread (q : Pipe) : q.skip.nread ≠ q.nread := by
  intro h
  have hone : q.nread + 1 = q.nread := h
  bv_omega

theorem Call.counted_pc {c : Tally} {mem : UInt64 → Option UInt8} {k : Call} (h : k.Counted c) :
    PipeMachine.Counted mem c k.pc := by
  cases k with
  | write b | read b => exact h
  | close e => trivial

theorem Loop.counted_pc {c : Tally} {mem : UInt64 → Option UInt8} {k : Loop} (h : k.Counted c) :
    PipeMachine.Counted mem c k.pc := by
  cases k with
  | write b i | read b => exact h

theorem After.counted_pc {c : Tally} {mem : UInt64 → Option UInt8} {a : After} (h : a.Counted mem c) :
    PipeMachine.Counted mem c a.pc := by
  cases a with
  | sleep b i => exact h
  | writeEnd b i | readEnd b i => exact ⟨i, h, fun _ => rfl⟩
  | close e => trivial

theorem wake_mem (ch : Chan) (x : Proc) : (wake ch x).mem = x.mem := by
  unfold wake
  split
  · rfl
  · rfl

/-- **One step of the call.** -/
theorem counted_goes {c : Tally} (hown : Counted (s.proc p).mem c (s.proc p).pc) (hgo : Goes s p t) :
    Counted (t.proc p).mem (c.note s t) (t.proc p).pc := by
  cases hgo with
  | enter k hpc _ =>
    rw [hpc] at hown
    rw [note_acquire, proc_acquire_self]
    exact Call.counted_pc hown
  | again k hpc _ =>
    rw [hpc] at hown
    rw [note_acquire, proc_acquire_self]
    exact Loop.counted_pc hown
  | more b i hpc hi =>
    rw [hpc] at hown
    rw [note_setPc, proc_setPc_self]
    exact ⟨hown, hi⟩
  | written b i hpc _ | full b i hpc _ | announce b i hpc _ _ | empty b hpc _ _ | begin b hpc _
  | await b hpc _ =>
    rw [hpc] at hown
    rw [note_setPc, proc_setPc_self]
    exact hown
  | copyinFault b i hpc _ _ =>
    rw [hpc] at hown
    rw [note_setPc, proc_setPc_self]
    exact hown.1
  | store b i ch hpc _ _ =>
    rw [hpc] at hown
    obtain ⟨hwrote, hi⟩ := hown
    rw [proc_setPc_self]
    refine ⟨?_, ?_, ?_, by omega⟩
    · show c.copied ++ s.delivered.drop s.delivered.length = []
      rw [List.drop_length, List.append_nil, hwrote.copied]
    · show c.removed ++ (if s.pipe.nread = s.pipe.nread then [] else [s.pipe.first]) = []
      rw [if_pos rfl, List.append_nil, hwrote.removed]
    · show (c.appended ++ (s.accepted ++ [ch]).drop s.accepted.length).length = i + 1
      rw [List.drop_left, List.length_append, hwrote.appended, List.length_singleton]
  | giveUp b i hpc _ =>
    rw [hpc] at hown
    rw [note_setPc, proc_setPc_self]
    exact ⟨i, hown.1, fun hneg => absurd hneg (by decide)⟩
  | killed b hpc _ =>
    rw [hpc] at hown
    rw [note_setPc, proc_setPc_self]
    exact ⟨0, hown.all _, fun hneg => absurd hneg (by decide)⟩
  | done b i hpc _ =>
    rw [hpc] at hown
    rw [note_setPc, proc_setPc_self]
    exact hown.all _
  | copyoutFault b i hpc hi _ hmem =>
    -- The byte is gone from the ring, and nothing was copied.
    rw [hpc] at hown
    rw [proc_setPc_self]
    have hskip : ¬ s.pipe.skip.nread = s.pipe.nread := skip_nread s.pipe
    have hcopied : (c.note s ({ s with pipe := s.pipe.skip }.setPc p (.wakeup (.readEnd b i) 0))).copied =
        c.copied := by
      show c.copied ++ s.delivered.drop s.delivered.length = c.copied
      rw [List.drop_length, List.append_nil]
    have hremoved : (c.note s ({ s with pipe := s.pipe.skip }.setPc p (.wakeup (.readEnd b i) 0))).removed =
        c.copied ++ [s.pipe.first] := by
      show c.removed ++ (if s.pipe.skip.nread = s.pipe.nread then [] else [s.pipe.first]) = _
      rw [if_neg hskip, hown.removed]
    refine ⟨?_, ?_, .inr ⟨⟨s.pipe.first, ?_⟩, i, hi, hmem⟩, ?_⟩
    · show c.appended ++ s.accepted.drop s.accepted.length = []
      rw [List.drop_length, List.append_nil, hown.appended]
    · rw [hcopied, hown.copied]
    · rw [hremoved, hcopied]
    · rw [hremoved, List.length_append, hown.copied, List.length_singleton]
      omega
  | deliver b i hpc hi _ =>
    rw [hpc] at hown
    rw [proc_setProc_self]
    have hskip : ¬ s.pipe.skip.nread = s.pipe.nread := skip_nread s.pipe
    refine ⟨?_, ?_, ?_, by omega⟩
    · show c.appended ++ s.accepted.drop s.accepted.length = []
      rw [List.drop_length, List.append_nil, hown.appended]
    · show (c.copied ++ (s.delivered ++ [s.pipe.first]).drop s.delivered.length).length = i + 1
      rw [List.drop_left, List.length_append, hown.copied, List.length_singleton]
    · show c.removed ++ (if s.pipe.skip.nread = s.pipe.nread then [] else [s.pipe.first]) =
        c.copied ++ (s.delivered ++ [s.pipe.first]).drop s.delivered.length
      rw [if_neg hskip, List.drop_left, hown.removed]
  | wake a j hpc _ =>
    rw [hpc] at hown
    have hmem : ((s.setProc j (wake a.chan (s.proc j))).proc p).mem = (s.proc p).mem := by
      by_cases hj : p = j
      · rw [← hj, proc_setProc_self]
        exact (wake_mem _ _)
      · rw [proc_setProc_of_ne hj]
    rw [note_wake, proc_setPc_self]
    show a.Counted ((s.setProc j (wake a.chan (s.proc j))).proc p).mem c
    rw [hmem]
    exact hown
  | woken a j hpc _ =>
    rw [hpc] at hown
    rw [note_setPc, proc_setPc_self]
    exact After.counted_pc hown
  | leave k r hpc =>
    rw [proc_setProc_self]
    trivial
  | sleep k hpc _ | dose k hpc | sched k hpc | resume k hpc _ _ =>
    rw [hpc] at hown
    rw [note_setProc, proc_setProc_self]
    exact hown
  | unlock k hpc =>
    rw [hpc] at hown
    rw [note_release, proc_release_self]
    exact hown
  | close e hpc =>
    rw [proc_setPc_self]
    trivial
  | lastOut hpc _ _ | closed hpc =>
    rw [proc_release_self]
    trivial
  | kfree hpc =>
    rw [proc_setPc_self]
    trivial

theorem mem_goes {q : Fin n} (hq : q ≠ p) (hgo : Goes s p t) : (t.proc q).mem = (s.proc q).mem := by
  have hset : ∀ {u : St n} {x : Proc}, u.proc = Function.update s.proc p x →
      (u.proc q).mem = (s.proc q).mem := by
    intro u x hu
    rw [hu, Function.update_of_ne hq]
  cases hgo with
  | wake a j hpc _ =>
    rw [proc_setPc_of_ne hq]
    by_cases hj : q = j
    · rw [← hj, proc_setProc_self, wake_mem]
    · rw [proc_setProc_of_ne hj]
  | _ => exact hset rfl

theorem pc_update {q : Fin n} {x : Proc} (ht : t.proc = Function.update s.proc q x)
    (hx : x.pc = (s.proc q).pc) (r : Fin n) : (t.proc r).pc = (s.proc r).pc := by
  rw [ht]
  by_cases hr : r = q
  · rw [hr, Function.update_self, hx]
  · rw [Function.update_of_ne hr]

theorem counted_user {c : Tally} {x : Proc} (h : x.pc = .user) : Counted x.mem c x.pc := by
  rw [h]
  trivial

theorem counted_does {c : Tally} {a : Act n} (ha : a ≠ .go) (h : s.step (p, a) = some t) :
    Counted (t.proc p).mem (c.next s t a) (t.proc p).pc := by
  obtain ⟨huser, hdo⟩ := does_of_step ha h
  cases a with
  | go => exact absurd rfl ha
  | write b | read b =>
    simp only [St.step] at h
    rw [if_pos huser] at h
    split at h
    · cases h
      rw [proc_setPc_self]
      exact ⟨rfl, rfl, rfl, Nat.zero_le _⟩
    · cases h
  | close e =>
    simp only [St.step] at h
    rw [if_pos huser] at h
    split at h
    · cases h
      rw [St.drop, proc_setProc_self]
      dsimp only
      split
      · trivial
      · trivial
    · cases h
  | dup e =>
    simp only [St.step] at h
    rw [if_pos huser] at h
    split at h
    · cases h
      have hpc : ((s.dup p e).proc p).pc = (s.proc p).pc := pc_update rfl (by rfl) p
      exact counted_user (hpc.trans huser)
    · cases h
  | fork q =>
    simp only [St.step] at h
    rw [if_pos huser] at h
    split at h
    · cases h
      have hpc : ((s.fork p q).proc p).pc = (s.proc p).pc := pc_update rfl (by rfl) p
      exact counted_user (hpc.trans huser)
    · cases h
  | kill q =>
    simp only [St.step] at h
    rw [if_pos huser] at h
    split at h
    · cases h
    · cases h
      have hpc : ((s.setProc q (slay (s.proc q))).proc p).pc = (s.proc p).pc := pc_update rfl (by rfl) p
      exact counted_user (hpc.trans huser)
  | run mem =>
    simp only [St.step] at h
    rw [if_pos huser] at h
    cases h
    have hpc : ((s.setProc p { s.proc p with mem := mem }).proc p).pc = (s.proc p).pc := pc_update rfl (by rfl) p
    exact counted_user (hpc.trans huser)

theorem counted_other {q : Fin n} {c : Tally} (hq : q ≠ p) (hown : Counted (s.proc q).mem c (s.proc q).pc)
    (hdo : Does s p t) : Counted (t.proc q).mem c (t.proc q).pc := by
  have hset : ∀ {u : St n} {x : Proc}, u.proc = Function.update s.proc p x →
      Counted (u.proc q).mem c (u.proc q).pc := by
    intro u x hu
    rw [hu, Function.update_of_ne hq]
    exact hown
  cases hdo with
  | write b | read b | close e | dup e | run mem => exact hset rfl
  | fork r hr _ =>
    by_cases hqr : q = r
    · have hpc : ((s.fork p r).proc q).pc = (s.proc q).pc := pc_update rfl (by rfl) q
      refine counted_user (hpc.trans ?_)
      rw [hqr]
      exact hr
    · rw [St.fork, proc_setProc_of_ne hqr]
      exact hown
  | kill r _ =>
    by_cases hqr : q = r
    · rw [← hqr, proc_setProc_self]
      exact hown
    · rw [proc_setProc_of_ne hqr]
      exact hown

/-! ### Whole runs -/

theorem watch_step {x y : St n × Tally} {l : Fin n × Act n} (h : watch p x l = some y) :
    x.1.step l = some y.1 ∧ y.2 = if l.1 = p then x.2.next x.1 y.1 l.2 else x.2 := by
  obtain ⟨t, ht, rfl⟩ := Option.map_eq_some_iff.mp h
  exact ⟨ht, rfl⟩

theorem counted_step {x y : St n × Tally} {l : Fin n × Act n}
    (hx : Counted (x.1.proc p).mem x.2 (x.1.proc p).pc) (h : watch p x l = some y) :
    Counted (y.1.proc p).mem y.2 (y.1.proc p).pc := by
  obtain ⟨hstep, hy⟩ := watch_step h
  obtain ⟨r, a⟩ := l
  by_cases hr : r = p
  · rw [hy, if_pos hr]
    rw [hr] at hstep
    by_cases ha : a = .go
    · rw [ha] at hstep ⊢
      exact counted_goes hx (goes_of_go hstep)
    · exact counted_does ha hstep
  · rw [hy, if_neg hr]
    have hne : p ≠ r := fun e => hr e.symm
    rcases steps_of_step hstep with hgo | ⟨-, hdo⟩
    · rw [mem_goes hne hgo, (goes_frame hgo).pc p hne]
      exact hx
    · exact counted_other hne hx hdo

def Call.buf : Call → Option Buf
  | .write b | .read b => some b
  | .close _ => none

def Loop.buf : Loop → Buf
  | .write b _ | .read b => b

def After.buf : After → Option Buf
  | .sleep b _ | .writeEnd b _ | .readEnd b _ => some b
  | .close _ => none

def Pc.buf : Pc → Option Buf
  | .enter c | .leave c _ => c.buf
  | .again k | .sleep k | .sleepLocked k | .sleepUnlocked k | .sched k | .resume k => some k.buf
  | .write b _ | .full b _ | .fullCheck b _ | .empty b | .emptyCheck b | .read b _ => some b
  | .wakeup a _ => a.buf
  | _ => none

/-- At most `k` bytes were moved, in any direction. -/
def Tally.Within (c : Tally) (k : ℕ) : Prop :=
  c.copied.length ≤ k ∧ c.removed.length ≤ k ∧ c.appended.length ≤ k

theorem Tally.Wrote.within {c : Tally} {b : Buf} {i : ℕ} (h : c.Wrote b i) : c.Within b.n.toNat := by
  refine ⟨?_, ?_, ?_⟩
  · rw [h.copied]
    exact Nat.zero_le _
  · rw [h.removed]
    exact Nat.zero_le _
  · rw [h.appended]
    exact h.le

theorem Tally.ReadAll.within {c : Tally} {mem : UInt64 → Option UInt8} {b : Buf} {i : ℕ}
    (h : c.ReadAll mem b i) : c.Within b.n.toNat := by
  refine ⟨?_, h.le, ?_⟩
  · refine le_trans ?_ h.le
    rcases h.removed with heq | ⟨⟨x, hlost⟩, -⟩
    · rw [heq]
    · rw [hlost, List.length_append]
      exact Nat.le_add_right _ _
  · rw [h.appended]
    exact Nat.zero_le _

theorem inv_exec {s₀ : St n} {ls : List (Fin n × Act n)} (h : Inv s₀) (hrun : exec St.step s₀ ls = some s) : Inv s :=
  reachable_invariant (fun _ _ _ hi hs => inv_step hi hs) h ⟨ls, hrun⟩

end Xv6.PipeMachine
