import Xv6.ConsoleSteps

/-!
# Sleeping with one spinlock

`Pc.locks` are the spinlocks a thread holds at a place, and `noff` counts them (`Inv`).  `consoleread`
calls `sleep` with `cons.lock` alone.  `uartputc` calls it with `uart_tx_lock` while its caller
`consolewrite` holds `cons.lock`, so that `sched` panics: `Room` leaves out the runs in which a process
finds the transmit ring full, and `long_write_panics` is such a run.
-/

namespace Xv6.ConsoleMachine

open LabelledRuns RingBuffer

variable {n : ℕ} {s t : St n} {p : Fin n} {ok : Bool} {a : Act n}

/-- The spinlocks held at a place, in the order in which they were acquired. -/
def Pc.locks : Pc → List Lock
  | .writeNext _ _ | .writeEnd _ | .put _ _ _ => [.cons]
  | .putLoop _ _ _ | .putEnd _ _ | .start (.put _ _) => [.cons, .uart]
  | .start .intr | .intrTxEnd => [.uart]
  | .readNext _ _ | .readWait _ _ | .readEnd _ => [.cons]
  | .sleep (.read _ _) => [.cons]
  | .sleep (.put _ _ _) => [.cons, .uart]
  | .asleep (.put _ _ _) | .again (.put _ _ _) => [.cons]
  | .consoleintrBody _ | .consoleintrEnd => [.cons]
  | _ => []

/-- `sleep` has put `uartputc` to sleep. -/
def Pc.sleepsInPut : Pc → Bool
  | .asleep (.put _ _ _) | .again (.put _ _ _) => true
  | _ => false

structure Inv (s : St n) : Prop where
  holder : ∀ lk p, s.holder lk = some p ↔ lk ∈ (s.thread p).pc.locks
  noff : ∀ p, (s.thread p).noff = (s.thread p).pc.locks.length
  awake : ∀ p, (s.thread p).pc.sleepsInPut = false

/-! ### One step -/

/-- A step keeps the locks of its thread, takes one or gives the last one back. -/
inductive LockStep (s t : St n) (p : Fin n) : Prop where
  | keep : t.holder = s.holder → (t.thread p).noff = (s.thread p).noff →
      (t.thread p).pc.locks = (s.thread p).pc.locks → LockStep s t p
  | take (lk : Lock) : s.holder lk = none → t.holder = Function.update s.holder lk (some p) →
      (t.thread p).noff = (s.thread p).noff + 1 →
      (t.thread p).pc.locks = (s.thread p).pc.locks ++ [lk] → LockStep s t p
  | give (lk : Lock) : t.holder = Function.update s.holder lk none →
      (t.thread p).noff = (s.thread p).noff - 1 →
      (s.thread p).pc.locks = (t.thread p).pc.locks ++ [lk] → LockStep s t p

theorem uart_not_mem : Lock.uart ∉ [Lock.cons] := by decide

theorem locks_acquires {pc pc' : Pc} {lk : Lock} (h : pc.acquires = some (lk, pc')) :
    pc'.locks = pc.locks ++ [lk] ∧ lk ∉ pc.locks ∧ pc'.sleepsInPut = false := by
  cases pc with
  | again k =>
    cases k with
    | put m i c => cases h; exact ⟨rfl, uart_not_mem, rfl⟩
    | read target m => cases h; exact ⟨rfl, List.not_mem_nil, rfl⟩
  | write m | read m | consoleintr c | intrTx => cases h; exact ⟨rfl, List.not_mem_nil, rfl⟩
  | put m i c => cases h; exact ⟨rfl, uart_not_mem, rfl⟩
  | _ => cases h

theorem locks_releases {pc pc' : Pc} {lk : Lock} (h : pc.releases = some (lk, pc')) :
    pc.locks = pc'.locks ++ [lk] ∧ pc'.sleepsInPut = false := by
  cases pc with
  | putEnd m i | consoleintrEnd | intrTxEnd => cases h; exact ⟨rfl, rfl⟩
  | _ => cases h

theorem goes_lockStep (h : Inv s) (hgo : Goes s p ok t) (hpanic : t.panic = none) :
    LockStep s t p ∧ (t.thread p).pc.sleepsInPut = false := by
  have hnoff := h.noff p
  cases hgo with
  | acquirePanic | sleepPanic => cases hpanic
  | acquire lk pc hpc hnone =>
    obtain ⟨hlocks, -, hawake⟩ := locks_acquires hpc
    refine ⟨.take lk hnone rfl ?_ ?_, ?_⟩ <;> rw [thread_setThread_self]
    · exact hlocks
    · exact hawake
  | release lk pc hpc =>
    obtain ⟨hlocks, hawake⟩ := locks_releases hpc
    refine ⟨.give lk rfl ?_ ?_, ?_⟩ <;> rw [St.release, thread_setThread_self]
    · exact hlocks
    · exact hawake
  | writeEnd i hpc | readEnd r hpc =>
    refine ⟨.give .cons rfl ?_ ?_, ?_⟩ <;> rw [St.ret, thread_setThread_self]
    · rw [hpc]
      rfl
    · rfl
  | sleep k hpc hone =>
    rw [hpc, hone] at hnoff
    cases k with
    | put m i c => cases hnoff
    | read target m =>
      refine ⟨.give .cons rfl ?_ ?_, ?_⟩ <;> rw [thread_setThread_self]
      · rw [hone]
      · rw [hpc]
        rfl
      · rfl
  | woken k hpc =>
    have hawake := h.awake p
    rw [hpc] at hawake
    cases k with
    | put m i c => cases hawake
    | read target m =>
      refine ⟨.keep rfl ?_ ?_, ?_⟩ <;> rw [thread_setPc_self]
      · rw [hpc]
        rfl
      · rfl
  | startEnd k hpc =>
    refine ⟨.keep rfl ?_ ?_, ?_⟩ <;> rw [thread_setPc_self]
    · rw [hpc]
      cases k <;> rfl
    · cases k <;> rfl
  | startSend k hpc =>
    refine ⟨.keep rfl ?_ ?_, ?_⟩ <;> rw [thread_setPc_self]
    · exact (thread_wakeup _ .uart p).2.1
    · rw [hpc]
    · rfl
  | input c hpc =>
    obtain heq | heq := goInput_eq s p c
    · rw [heq]
      refine ⟨.keep rfl ?_ ?_, ?_⟩ <;> rw [thread_setPc_self]
      · rw [hpc]
        rfl
      · rfl
    · rw [heq]
      refine ⟨.keep rfl ?_ ?_, ?_⟩ <;> rw [thread_setPc_self]
      · exact (thread_wakeup _ .cons p).2.1
      · rw [hpc]
        rfl
      · rfl
  | readByte target m hpc =>
    refine ⟨.keep rfl ?_ ?_, ?_⟩ <;> rw [thread_setPc_self]
    · rw [hpc]
      split <;> rfl
    · split <;> rfl
  | _ =>
    refine ⟨.keep rfl ?_ ?_, ?_⟩ <;> rw [thread_setPc_self]
    · rw [‹(s.thread p).pc = _›]
      rfl
    · rfl

theorem nodup_both : [Lock.cons, Lock.uart].Nodup := by decide

theorem nodup_locks (pc : Pc) : pc.locks.Nodup := by
  cases pc with
  | start k =>
    cases k with
    | put m i => exact nodup_both
    | intr => exact List.nodup_singleton _
  | sleep k =>
    cases k with
    | put m i c => exact nodup_both
    | read target m => exact List.nodup_singleton _
  | asleep k | again k =>
    cases k with
    | put m i c => exact List.nodup_singleton _
    | read target m => exact List.nodup_nil
  | _ => first | exact List.nodup_nil | exact List.nodup_singleton _ | exact nodup_both

theorem inv_goes (h : Inv s) (hgo : Goes s p ok t) (hpanic : t.panic = none) : Inv t := by
  obtain ⟨hlock, hawake⟩ := goes_lockStep h hgo hpanic
  refine ⟨?_, ?_, ?_⟩
  · intro lk q
    have hold := h.holder lk q
    by_cases hq : q = p
    · subst hq
      cases hlock with
      | keep hholder _ hlocks => rw [hholder, hlocks, hold]
      | take lk' hnone hholder _ hlocks =>
        rw [hholder, hlocks, List.mem_append, List.mem_singleton]
        by_cases hlk : lk = lk'
        · simp [hlk]
        · rw [Function.update_of_ne hlk, hold]
          simp [hlk]
      | give lk' hholder _ hlocks =>
        have hnodup := nodup_locks (s.thread q).pc
        rw [hlocks, List.nodup_append] at hnodup
        rw [hlocks, List.mem_append, List.mem_singleton] at hold
        rw [hholder]
        by_cases hlk : lk = lk'
        · subst hlk
          rw [Function.update_self]
          constructor
          · intro hx
            cases hx
          · intro hx
            exact absurd rfl (hnodup.2.2 lk hx lk (List.mem_singleton_self lk))
        · rw [Function.update_of_ne hlk, hold]
          simp [hlk]
    · rw [(goes_other hgo hq).1, ← hold]
      cases hlock with
      | keep hholder _ _ => rw [hholder]
      | take lk' hnone hholder _ _ =>
        rw [hholder]
        by_cases hlk : lk = lk'
        · subst hlk
          simp [hnone, Ne.symm hq]
        · rw [Function.update_of_ne hlk]
      | give lk' hholder _ hlocks =>
        rw [hholder]
        by_cases hlk : lk = lk'
        · subst hlk
          have hp : s.holder lk = some p := by
            rw [h.holder lk p, hlocks]
            simp
          simp [hp, Ne.symm hq]
        · rw [Function.update_of_ne hlk]
  · intro q
    by_cases hq : q = p
    · subst hq
      have hold := h.noff q
      cases hlock with
      | keep _ hnoff hlocks => rw [hnoff, hlocks, hold]
      | take lk _ _ hnoff hlocks => rw [hnoff, hlocks, hold, List.length_append, List.length_singleton]
      | give lk _ hnoff hlocks =>
        rw [hlocks, List.length_append, List.length_singleton] at hold
        omega
    · rw [(goes_other hgo hq).1, (goes_other hgo hq).2]
      exact h.noff q
  · intro q
    by_cases hq : q = p
    · subst hq
      exact hawake
    · rw [(goes_other hgo hq).1]
      exact h.awake q

theorem does_frame (hdo : Does s p a t) (q : Fin n) :
    t.holder = s.holder ∧ t.panic = s.panic ∧ (t.thread q).noff = (s.thread q).noff ∧
      ((t.thread q).pc = (s.thread q).pc ∨
        (s.thread q).pc = .user ∧ (t.thread q).pc.locks = [] ∧ (t.thread q).pc.sleepsInPut = false ∧
          ∀ k, (t.thread q).pc ≠ .sleep k) := by
  have hset : ∀ {r : Fin n} {x : Thread}, x.noff = (s.thread r).noff →
      (x.pc = (s.thread r).pc ∨ (s.thread r).pc = .user ∧ x.pc.locks = [] ∧ x.pc.sleepsInPut = false ∧
        ∀ k, x.pc ≠ .sleep k) →
      ((s.setThread r x).thread q).noff = (s.thread q).noff ∧
      (((s.setThread r x).thread q).pc = (s.thread q).pc ∨
        (s.thread q).pc = .user ∧ ((s.setThread r x).thread q).pc.locks = [] ∧
          ((s.setThread r x).thread q).pc.sleepsInPut = false ∧
          ∀ k, ((s.setThread r x).thread q).pc ≠ .sleep k) := by
    intro r x hnoff hpc
    by_cases hq : q = r
    · subst hq
      rw [thread_setThread_self]
      exact ⟨hnoff, hpc⟩
    · rw [thread_setThread_of_ne hq]
      exact ⟨rfl, .inl rfl⟩
  cases hdo with
  | write m huser | read m huser | interrupt huser =>
    exact ⟨rfl, rfl, hset rfl (.inr ⟨huser, rfl, rfl, fun k hk => by cases hk⟩)⟩
  | kill r => exact ⟨rfl, rfl, hset rfl (.inl rfl)⟩

theorem inv_does (h : Inv s) (hdo : Does s p a t) : Inv t := by
  have hlocks : ∀ q, (t.thread q).pc.locks = (s.thread q).pc.locks := by
    intro q
    obtain ⟨-, -, -, heq | ⟨huser, hnil, -⟩⟩ := does_frame hdo q
    · rw [heq]
    · rw [hnil, huser]
      rfl
  refine ⟨?_, ?_, ?_⟩
  · intro lk q
    rw [(does_frame hdo q).1, hlocks q]
    exact h.holder lk q
  · intro q
    rw [(does_frame hdo q).2.2.1, hlocks q]
    exact h.noff q
  · intro q
    obtain ⟨-, -, -, heq | ⟨-, -, hawake, -⟩⟩ := does_frame hdo q
    · rw [heq]
      exact h.awake q
    · exact hawake

/-! ### Runs -/

/-- The places where `uartputc` tests the ring. -/
def Pc.puts : Pc → Bool
  | .putLoop _ _ _ => true
  | _ => false

/-- A process in `uartputc` does not find the ring full. -/
def Room (s : St n) (l : Fin n × Act n) : Prop :=
  (s.thread l.1).pc.puts = true → s.uart.isFull = false

instance (s : St n) (l : Fin n × Act n) : Decidable (Room s l) := by
  unfold Room
  infer_instance

/-- Nobody has panicked, and only `consoleread` is about to sleep. -/
structure Calm (s : St n) : Prop where
  inv : Inv s
  panic : s.panic = none
  sleep : ∀ p k, (s.thread p).pc = .sleep k → k.lock = .cons

theorem panic_goes (h : Calm s) (hgo : Goes s p ok t) : t.panic = none := by
  have hpanic := h.panic
  cases hgo with
  | acquirePanic lk pc hpc hown =>
    rw [h.inv.holder lk p] at hown
    exact absurd hown (locks_acquires hpc).2.1
  | sleepPanic k hpc hoff =>
    rw [h.inv.noff p, hpc] at hoff
    have hk := h.sleep p k hpc
    cases k with
    | read target m => exact absurd rfl hoff
    | put m i c => cases hk
  | input c hpc =>
    obtain heq | heq := goInput_eq s p c
    · rw [heq]
      exact hpanic
    · rw [heq]
      exact hpanic
  | _ => exact hpanic

theorem calm_goes (h : Calm s) (hok : Room s (p, a)) (hgo : Goes s p ok t) : Calm t := by
  have hpanic := panic_goes h hgo
  refine ⟨inv_goes h.inv hgo hpanic, hpanic, ?_⟩
  intro q k hk
  by_cases hq : q = p
  · subst hq
    cases hgo with
    | putFull m i c hpc hfull =>
      have hroom := hok (by rw [hpc]; rfl)
      rw [hfull] at hroom
      cases hroom
    | readSleep target m hpc hempty =>
      rw [thread_setPc_self] at hk
      cases hk
      rfl
    | acquire lk pc hpc _ =>
      rw [thread_setThread_self] at hk
      have hk : pc = .sleep k := hk
      subst hk
      cases hat : (s.thread q).pc with
      | again k' => rw [hat] at hpc; cases k' <;> cases hpc
      | _ => rw [hat] at hpc; cases hpc
    | release lk pc hpc =>
      rw [St.release, thread_setThread_self] at hk
      have hk : pc = .sleep k := hk
      subst hk
      cases hat : (s.thread q).pc <;> rw [hat] at hpc <;> cases hpc
    | startEnd k' hpc =>
      rw [thread_setPc_self] at hk
      cases k' <;> cases hk
    | readByte target m hpc =>
      rw [thread_setPc_self] at hk
      have hk : (if s.cons.first = newline then Pc.readEnd (target - (m - 1))
        else .readNext target (m - 1)) = .sleep k := hk
      split at hk <;> cases hk
    | input c hpc =>
      obtain heq | heq := goInput_eq s q c <;> rw [heq, thread_setPc_self] at hk <;> cases hk
    | sleepPanic k' hpc hoff | acquirePanic => cases hpanic
    | _ => simp_all [St.ret]
  · rw [(goes_other hgo hq).1] at hk
    exact h.sleep q k hk

theorem calm_does (h : Calm s) (hdo : Does s p a t) : Calm t := by
  refine ⟨inv_does h.inv hdo, (does_frame hdo p).2.1.trans h.panic, ?_⟩
  intro q k hk
  obtain ⟨-, -, -, heq | ⟨-, -, -, hne⟩⟩ := does_frame hdo q
  · rw [heq] at hk
    exact h.sleep q k hk
  · exact absurd hk (hne k)

theorem calm_boot : Calm (St.boot n) where
  inv := ⟨fun lk p => iff_of_false (by simp [St.boot]) List.not_mem_nil, fun _ => rfl, fun _ => rfl⟩
  panic := rfl
  sleep := by
    intro p k hk
    cases hk

/-- **`sleep` has one spinlock**, as long as no process finds the transmit ring full. -/
theorem sleeps_with_one_lock (ls : List (Fin n × Act n)) (s : St n)
    (hok : Meets St.step Room (St.boot n) ls) (hrun : exec St.step (St.boot n) ls = some s) :
    s.panic = none ∧
    ∀ p k, (s.thread p).pc = .sleep k →
      (s.thread p).noff = 1 ∧ ∀ lk, s.holder lk = some p ↔ lk = k.lock := by
  have hcalm : Calm s := by
    refine exec_invariant ?_ calm_boot hok hrun
    intro u l v h hl hs
    obtain ⟨-, ⟨ok, c, -, hgo⟩ | hdo⟩ := steps_of_step hs
    · exact calm_goes h hl hgo
    · exact calm_does h hdo
  refine ⟨hcalm.panic, ?_⟩
  intro p k hk
  have hnoff := hcalm.inv.noff p
  have hlock := hcalm.sleep p k hk
  cases k with
  | put m i c => cases hlock
  | read target m =>
    rw [hk] at hnoff
    refine ⟨hnoff, ?_⟩
    intro lk
    rw [hcalm.inv.holder lk p, hk]
    exact List.mem_singleton

/-- A reader that is about to sleep, and a writer of one byte. -/
def readAndWrite : List (Fin 2 × Act 2) :=
  (1, .write 1) :: goes 1 true 65 9 ++ (0, .read 5) :: goes 0 true 0 3

theorem sleeps_with_one_lock_readAndWrite : ∃ s : St 2,
    exec St.step (St.boot 2) readAndWrite = some s ∧ (s.thread 0).pc = .sleep (.read 5 5) ∧
    (s.thread 0).noff = 1 ∧ s.holder .cons = some 0 ∧ s.holder .uart ≠ some 0 := by
  have hok : Meets St.step Room (St.boot 2) readAndWrite := by decide +kernel
  have hrun : (exec St.step (St.boot 2) readAndWrite).any (fun s =>
      (s.thread 0).pc = .sleep (.read 5 5)) = true := by decide +kernel
  obtain ⟨s, hs, hat⟩ := (Option.any_eq_true _ _).mp hrun
  have hpc := of_decide_eq_true hat
  obtain ⟨hnoff, hlocks⟩ := (sleeps_with_one_lock readAndWrite s hok hs).2 0 _ hpc
  refine ⟨s, hs, hpc, hnoff, (hlocks .cons).mpr rfl, ?_⟩
  intro huart
  cases (hlocks .uart).mp huart

/-- A write of 32 bytes to a UART that is never ready. -/
def longWrite : List (Fin 1 × Act 1) :=
  (0, .write 32) :: goes 0 true 0 1 ++ (List.replicate 31 (goes 0 true 65 3 ++ goes 0 false 0 2)).flatten ++
    goes 0 true 65 4

/-- **A long write panics.**  The process of the 32nd byte waits for room with two spinlocks. -/
theorem long_write_panics : ∃ s : St 1,
    exec St.step (St.boot 1) longWrite = some s ∧ s.panic = some .schedLocks ∧
    (s.thread 0).pc = .sleep (.put 32 31 65) ∧ s.holder .cons = some 0 ∧ s.holder .uart = some 0 := by
  have hrun : (exec St.step (St.boot 1) longWrite).any (fun s =>
      s.panic = some .schedLocks ∧ (s.thread 0).pc = .sleep (.put 32 31 65) ∧
      s.holder .cons = some 0 ∧ s.holder .uart = some 0) = true := by decide +kernel
  obtain ⟨s, hs, hat⟩ := (Option.any_eq_true _ _).mp hrun
  exact ⟨s, hs, of_decide_eq_true hat⟩

end Xv6.ConsoleMachine
