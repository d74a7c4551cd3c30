import Xv6.PipeInv

/-!
# A pipe is a queue

As long as no copy to or from user memory fails, what readers got followed by what is in the ring is what
writers gave (`Fifo.queue`), for any number of bytes: the counters wrap, their slots do not move.  A
`piperead` that returns 0 has found the pipe empty and its write end closed (`Fifo.ends`).
-/

namespace Xv6.PipeMachine

open LabelledRuns RingBuffer

variable {n : ℕ} {s t : St n} {p : Fin n}

def Pipe.buffered (q : Pipe) : List UInt8 := contents q.data q.nread q.nwrite

/-- The user address that the next step of `p` copies from or to. -/
def St.copies (s : St n) (p : Fin n) : Option UInt64 :=
  match (s.proc p).pc with
  | .full b i => if s.pipe.isFull then none else some (b.addr + UInt64.ofNat i)
  | .read b i =>
    if (i : Int) < b.n ∧ !s.pipe.isEmpty then some (b.addr + UInt64.ofNat i) else none
  | _ => none

/-- The copy that the step makes, if it makes one, does not fail. -/
def NoFault (s : St n) (l : Fin n × Act n) : Prop :=
  ∀ a ∈ s.copies l.1, ((s.proc l.1).mem a).isSome = true

instance (s : St n) (l : Fin n × Act n) : Decidable (NoFault s l) :=
  Option.decidableForallMem (s.copies l.1)

/-- Why a `piperead` has read nothing. -/
def Pc.Ends (q : Pipe) : Pc → Prop
  | .read _ i => i = 0 → q.isEmpty = true → q.writeopen = false
  | .wakeup (.readEnd b i) _ => i = 0 → 0 < b.n → q.isEmpty = true ∧ q.writeopen = false
  | .leave (.read b) r => r = 0 → 0 < b.n → q.isEmpty = true ∧ q.writeopen = false
  | _ => True

structure Fifo (s : St n) : Prop where
  queue : s.accepted = s.delivered ++ s.pipe.buffered
  ends : ∀ p, (s.proc p).pc.Ends s.pipe

/-! ### One step -/

theorem ends_of_not_holds {pc : Pc} (q : Pipe) (h : pc.holds = false) : pc.Ends q := by
  cases pc with
  | read _ _ | wakeup _ _ | leave _ _ => cases h
  | _ => trivial

theorem no_copyout_fault {a : Act n} {b : Buf} {i : ℕ} (hok : NoFault s (p, a))
    (hpc : (s.proc p).pc = .read b i) (hi : (i : Int) < b.n) (hdata : s.pipe.isEmpty = false)
    (hmem : (s.proc p).mem (b.addr + UInt64.ofNat i) = none) : False := by
  have hcopy : s.copies p = some (b.addr + UInt64.ofNat i) := by
    rw [St.copies, hpc]
    simp [hi, hdata]
  have := hok _ hcopy
  rw [hmem] at this
  cases this

theorem buffered_store {q : Pipe} (hle : size q.nread q.nwrite ≤ PIPESIZE) (hfull : q.isFull = false)
    (ch : UInt8) : (q.store ch).buffered = q.buffered ++ [ch] := by
  have hroom := (not_full_iff hle).mp hfull
  exact contents_push (by decide) hroom (lt_of_le_of_lt hroom (by decide)) q.data ch

theorem buffered_skip {q : Pipe} (hdata : q.isEmpty = false) : q.buffered = q.first :: q.skip.buffered :=
  contents_pop (not_empty_iff.mp hdata) q.data

theorem queue_goes (h : Inv s) (hqueue : s.accepted = s.delivered ++ s.pipe.buffered)
    (hok : ∀ (b : Buf) (i : ℕ), (s.proc p).pc = .read b i → (i : Int) < b.n → s.pipe.isEmpty = false →
      (s.proc p).mem (b.addr + UInt64.ofNat i) = none → False) (hgo : Goes s p t) :
    t.accepted = t.delivered ++ t.pipe.buffered := by
  cases hgo with
  | store b i ch hpc hfull =>
    change s.accepted ++ [ch] = s.delivered ++ (s.pipe.store ch).buffered
    rw [buffered_store h.size hfull, hqueue, List.append_assoc]
  | copyoutFault b i hpc hi hdata hmem => exact (hok b i hpc hi hdata hmem).elim
  | deliver b i hpc hi hdata =>
    change s.accepted = s.delivered ++ [s.pipe.first] ++ s.pipe.skip.buffered
    rw [hqueue, buffered_skip hdata, List.append_assoc, List.singleton_append]
  | close e hpc => cases e <;> exact hqueue
  | _ => exact hqueue

theorem ends_goes_self {a : Act n} (hown : (s.proc p).pc.Ends s.pipe) (hok : NoFault s (p, a))
    (hgo : Goes s p t) : (t.proc p).pc.Ends t.pipe := by
  cases hgo with
  | enter c hpc =>
    rw [proc_acquire_self]
    cases c <;> trivial
  | again k hpc =>
    rw [proc_acquire_self]
    cases k <;> trivial
  | begin b hpc hends =>
    rw [proc_setPc_self]
    exact fun _ => hends
  | done b i hpc hstop =>
    rw [hpc] at hown
    rw [proc_setPc_self]
    intro hi hn
    have hempty : s.pipe.isEmpty = true := hstop (by rw [hi]; exact hn)
    exact ⟨hempty, hown hi hempty⟩
  | copyoutFault b i hpc hi hdata hmem => exact (no_copyout_fault hok hpc hi hdata hmem).elim
  | deliver b i hpc =>
    rw [proc_setProc_self]
    intro hi
    cases hi
  | wake a j hpc =>
    rw [hpc] at hown
    rw [proc_setPc_self]
    cases a with
    | readEnd b i => exact hown
    | _ => trivial
  | woken a j hpc =>
    rw [hpc] at hown
    rw [proc_setPc_self]
    cases a with
    | readEnd b i =>
      intro hi hn
      exact hown (by exact_mod_cast hi) hn
    | _ => trivial
  | killed b hpc =>
    rw [proc_setPc_self]
    intro hr
    cases hr
  | _ => simp [Pc.Ends]

theorem fifo_does (hq : Fifo s) (hdo : Does s p t) : Fifo t := by
  obtain ⟨hpipe, -, hacc, hdel, -, hpc⟩ := does_frame hdo
  refine ⟨?_, ?_⟩
  · rw [hacc, hdel, hpipe]
    exact hq.queue
  · intro q
    rw [hpipe]
    obtain heq | heq | ⟨c, heq⟩ := hpc q
    · rw [heq]
      exact hq.ends q
    · rw [heq]
      trivial
    · rw [heq]
      trivial

theorem fifo_step {l : Fin n × Act n} (h : Inv s) (hq : Fifo s) (hok : NoFault s l)
    (hs : s.step l = some t) : Fifo t := by
  obtain hgo | ⟨-, hdo⟩ := steps_of_step hs
  · refine ⟨queue_goes h hq.queue (fun _ _ => no_copyout_fault hok) hgo, ?_⟩
    exact place_goes (K := fun q pc => pc.Ends q) (fun q _ => ends_of_not_holds q) h hgo
      (ends_goes_self (hq.ends l.1) hok hgo) hq.ends
  · exact fifo_does hq hdo

theorem fifo_boot (page : Fin PIPESIZE → UInt8) (p : Fin n) : Fifo (St.boot page p) where
  queue := by simp [St.boot, Pipe.buffered, Pipe.alloc, contents_self]
  ends := fun _ => trivial

/-! ### Runs -/

/-- **A pipe is a queue.** -/
theorem pipe_fifo (page : Fin PIPESIZE → UInt8) (p₀ : Fin n) (ls : List (Fin n × Act n)) (s : St n)
    (hok : Meets St.step NoFault (St.boot page p₀) ls) (hrun : exec St.step (St.boot page p₀) ls = some s) :
    (s.pipe.nwrite - s.pipe.nread).toNat ≤ PIPESIZE ∧
    s.accepted = s.delivered ++ s.pipe.buffered ∧
    ∀ p b, (s.proc p).pc = .leave (.read b) 0 → 0 < b.n →
      s.pipe.nread = s.pipe.nwrite ∧ s.pipe.writeopen = false := by
  have hfifo : Fifo s := by
    refine exec_history (P := fun _ s => Fifo s) (fifo_boot page p₀) ?_ hok hrun
    intro ks u l v hks hq hl hs
    exact fifo_step (inv_run ⟨ks, hks⟩) hq hl hs
  refine ⟨(inv_run ⟨ls, hrun⟩).size, hfifo.queue, ?_⟩
  intro p b hpc hn
  have hends := hfifo.ends p
  rw [hpc] at hends
  obtain ⟨hempty, hclosed⟩ := hends rfl hn
  exact ⟨beq_iff_eq.mp hempty, hclosed⟩

/-- One process writes two bytes and closes the write end, then reads one byte, the other one, and finds
the end. -/
def writeRead : List (Fin 1 × Act 1) :=
  (0, .run fun a => some a.toUInt8) :: (0, .write ⟨72, 2⟩) :: goes 0 9 ++ (0, .close .write) :: goes 0 5 ++
    (0, .read ⟨0, 1⟩) :: goes 0 7 ++ (0, .read ⟨0, 5⟩) :: goes 0 7 ++ (0, .read ⟨0, 5⟩) :: goes 0 5

theorem pipe_fifo_writeRead : ∃ s : St 1,
    exec St.step (St.boot (fun _ => 0) 0) writeRead = some s ∧
    s.delivered = [72, 73] ∧ (s.proc 0).pc = .leave (.read ⟨0, 5⟩) 0 ∧
    s.accepted = s.delivered ++ s.pipe.buffered ∧ s.pipe.nread = s.pipe.nwrite ∧
    s.pipe.writeopen = false := by
  have hok : Meets St.step NoFault (St.boot (fun _ => 0) 0) writeRead := by decide +kernel
  have hrun : (exec St.step (St.boot (fun _ => 0) 0) writeRead).any (fun s =>
      s.delivered = [72, 73] ∧ (s.proc 0).pc = .leave (.read ⟨0, 5⟩) 0) = true := by decide +kernel
  obtain ⟨s, hs, hat⟩ := (Option.any_eq_true _ _).mp hrun
  obtain ⟨hdel, hpc⟩ := of_decide_eq_true hat
  obtain ⟨-, hqueue, hends⟩ := pipe_fifo (fun _ => 0) 0 writeRead s hok hs
  exact ⟨s, hs, hdel, hpc, hqueue, hends 0 ⟨0, 5⟩ hpc (by decide)⟩

end Xv6.PipeMachine
