import Xv6.ConsoleMachine

/-!
# What one step of the console does

`Goes s p ok t` lists the branches of the code, where `ok` is what the environment answers, and
`Does s p a t` what begins outside of it: a system call, an interrupt, `kill`.  `steps_of_step` says that there are no other steps.
-/

namespace Xv6.ConsoleMachine

open LabelledRuns RingBuffer

variable {n : ℕ} {s t : St n} {p : Fin n}

@[simp] theorem thread_setThread_self (s : St n) (p : Fin n) (x : Thread) : (s.setThread p x).thread p = x := by
  simp only [St.setThread, Function.update_self]

theorem thread_setThread_of_ne {q : Fin n} (h : q ≠ p) (s : St n) (x : Thread) :
    (s.setThread p x).thread q = s.thread q := by
  simp only [St.setThread, Function.update_of_ne h]

@[simp] theorem thread_setPc_self (s : St n) (p : Fin n) (pc : Pc) :
    (s.setPc p pc).thread p = { s.thread p with pc := pc } :=
  thread_setThread_self s p _

theorem thread_setPc_of_ne {q : Fin n} (h : q ≠ p) (s : St n) (pc : Pc) : (s.setPc p pc).thread q = s.thread q :=
  thread_setThread_of_ne h s _

theorem thread_wakeup (s : St n) (lk : Lock) (q : Fin n) :
    ((s.wakeup lk).thread q).pc = (s.thread q).pc ∧ ((s.wakeup lk).thread q).noff = (s.thread q).noff ∧
      ((s.wakeup lk).thread q).ret = (s.thread q).ret := by
  simp only [St.wakeup]
  split
  · exact ⟨rfl, rfl, rfl⟩
  · exact ⟨rfl, rfl, rfl⟩

theorem goInput_eq (s : St n) (p : Fin n) (c : UInt8) :
    s.goInput p c = { s with cons := (s.cons.intr c).1 }.setPc p .consoleintrEnd ∨
    s.goInput p c = ({ s with cons := (s.cons.intr c).1 }.wakeup .cons).setPc p .consoleintrEnd := by
  simp only [St.goInput]
  split
  · exact .inr rfl
  · exact .inl rfl

/-- About to acquire a lock, and where to go on with it. -/
def Pc.acquires : Pc → Option (Lock × Pc)
  | .write m => some (.cons, .writeNext m 0)
  | .put m i c => some (.uart, .putLoop m i c)
  | .read m => some (.cons, .readNext m m)
  | .again k => some (k.lock, k.pc)
  | .consoleintr c => some (.cons, .consoleintrBody c)
  | .intrTx => some (.uart, .start .intr)
  | _ => none

/-- About to release a lock inside of a function. -/
def Pc.releases : Pc → Option (Lock × Pc)
  | .putEnd m i => some (.uart, .writeNext m (i + 1))
  | .consoleintrEnd => some (.cons, .intr)
  | .intrTxEnd => some (.uart, .user)
  | _ => none

inductive Goes (s : St n) (p : Fin n) (ok : Bool) : St n → Prop where
  | acquirePanic (lk : Lock) (pc : Pc) : (s.thread p).pc.acquires = some (lk, pc) →
      s.holder lk = some p → Goes s p ok { s with panic := some .acquire }
  | acquire (lk : Lock) (pc : Pc) : (s.thread p).pc.acquires = some (lk, pc) → s.holder lk = none →
      Goes s p ok ({ s with holder := Function.update s.holder lk (some p) }.setThread p
        { s.thread p with pc := pc, noff := (s.thread p).noff + 1 })
  | release (lk : Lock) (pc : Pc) : (s.thread p).pc.releases = some (lk, pc) →
      Goes s p ok (s.release p lk pc)
  | copyin (m : Int) (i : ℕ) (c : UInt8) : (s.thread p).pc = .writeNext m i → (i : Int) < m →
      Goes s p ok (s.setPc p (.put m i c))
  | written (m : Int) (i : ℕ) : (s.thread p).pc = .writeNext m i →
      Goes s p ok (s.setPc p (.writeEnd i))
  | writeEnd (i : ℕ) : (s.thread p).pc = .writeEnd i → Goes s p ok (s.ret p .cons i)
  | putFull (m : Int) (i : ℕ) (c : UInt8) : (s.thread p).pc = .putLoop m i c →
      s.uart.isFull = true → Goes s p ok (s.setPc p (.sleep (.put m i c)))
  | putStore (m : Int) (i : ℕ) (c : UInt8) : (s.thread p).pc = .putLoop m i c →
      s.uart.isFull = false →
      Goes s p ok ({ s with uart := s.uart.store c }.setPc p (.start (.put m i)))
  | startEnd (k : Caller) : (s.thread p).pc = .start k → Goes s p ok (s.setPc p k.pc)
  | startSend (k : Caller) : (s.thread p).pc = .start k →
      Goes s p ok (({ s with uart := { s.uart with r := s.uart.r + 1 } }.wakeup .uart).setPc p (.start k))
  | readMore (target m : Int) : (s.thread p).pc = .readNext target m → 0 < m →
      Goes s p ok (s.setPc p (.readWait target m))
  | readFull (target m : Int) : (s.thread p).pc = .readNext target m → ¬ 0 < m →
      Goes s p ok (s.setPc p (.readEnd (target - m)))
  | readKilled (target m : Int) : (s.thread p).pc = .readWait target m → s.cons.r = s.cons.w →
      (s.thread p).killed = true → Goes s p ok (s.setPc p (.readEnd (-1)))
  | readSleep (target m : Int) : (s.thread p).pc = .readWait target m → s.cons.r = s.cons.w →
      (s.thread p).killed = false → Goes s p ok (s.setPc p (.sleep (.read target m)))
  | readEof (target m : Int) : (s.thread p).pc = .readWait target m → s.cons.r ≠ s.cons.w →
      s.cons.first = ctrlD →
      Goes s p ok ({ s with cons := if m < target then s.cons else s.cons.skip }.setPc p
        (.readEnd (target - m)))
  | readByte (target m : Int) : (s.thread p).pc = .readWait target m → s.cons.r ≠ s.cons.w →
      s.cons.first ≠ ctrlD →
      Goes s p ok ({ s with
        cons := s.cons.skip
        got := Function.update s.got p (s.got p ++ [s.cons.first]) }.setPc p
        (if s.cons.first = newline then .readEnd (target - (m - 1)) else .readNext target (m - 1)))
  | readFault (target m : Int) : (s.thread p).pc = .readWait target m → s.cons.r ≠ s.cons.w →
      s.cons.first ≠ ctrlD → ok = false →
      Goes s p ok ({ s with cons := s.cons.skip }.setPc p (.readEnd (target - m)))
  | readEnd (r : Int) : (s.thread p).pc = .readEnd r → Goes s p ok (s.ret p .cons r)
  | sleepPanic (k : Loop) : (s.thread p).pc = .sleep k → (s.thread p).noff ≠ 1 →
      Goes s p ok { s with panic := some .schedLocks }
  | sleep (k : Loop) : (s.thread p).pc = .sleep k → (s.thread p).noff = 1 →
      Goes s p ok ({ s with holder := Function.update s.holder k.lock none }.setThread p
        { s.thread p with pc := .asleep k, noff := 0, sleeping := true })
  | woken (k : Loop) : (s.thread p).pc = .asleep k → Goes s p ok (s.setPc p (.again k))
  | getc (c : UInt8) : (s.thread p).pc = .intr → Goes s p ok (s.setPc p (.consoleintr c))
  | noChar : (s.thread p).pc = .intr → Goes s p ok (s.setPc p .intrTx)
  | input (c : UInt8) : (s.thread p).pc = .consoleintrBody c → Goes s p ok (s.goInput p c)

inductive Does (s : St n) (p : Fin n) : Act n → St n → Prop where
  | write (m : Int) : (s.thread p).pc = .user → Does s p (.write m) (s.setPc p (.write m))
  | read (m : Int) : (s.thread p).pc = .user → Does s p (.read m) (s.setPc p (.read m))
  | interrupt : (s.thread p).pc = .user → Does s p .interrupt (s.setPc p .intr)
  | kill (q : Fin n) :
      Does s p (.kill q) (s.setThread q { s.thread q with killed := true, sleeping := false })

theorem goes_acquire {lk : Lock} {pc : Pc} (hpc : (s.thread p).pc.acquires = some (lk, pc))
    (h : s.acquire p lk pc = some t) (ok : Bool) : Goes s p ok t := by
  unfold St.acquire at h
  split at h
  · cases h
    exact .acquirePanic lk pc hpc ‹_›
  · split at h
    · cases h
      exact .acquire lk pc hpc ‹_›
    · cases h

theorem goes_read {target m : Int} (hpc : (s.thread p).pc = .readWait target m) (ok : Bool) :
    Goes s p ok (s.goRead p target m ok) := by
  unfold St.goRead
  split
  · rename_i hempty
    split
    · exact .readKilled target m hpc hempty ‹_›
    · exact .readSleep target m hpc hempty (Bool.eq_false_iff.mpr ‹_›)
  · rename_i hdata
    split
    · exact .readEof target m hpc hdata ‹_›
    · split
      · exact .readByte target m hpc hdata ‹_›
      · exact .readFault target m hpc hdata ‹_› (Bool.eq_false_iff.mpr ‹_›)

theorem goes_of_go {ok : Bool} {c : UInt8} (h : s.go p ok c = some t) : Goes s p ok t := by
  unfold St.go at h
  split at h
  case h_1 => cases h
  case h_2 m hpc | h_5 m i c hpc | h_9 m hpc | h_15 k hpc | h_17 c hpc | h_20 hpc =>
    exact goes_acquire (by rw [hpc]; rfl) h ok
  case h_3 m i hpc =>
    cases h
    split
    · rename_i hgo
      exact .copyin m i c hpc hgo.1
    · exact .written m i hpc
  case h_4 i hpc =>
    cases h
    exact .writeEnd i hpc
  case h_6 m i c hpc =>
    split at h
    · cases h
      exact .putFull m i c hpc ‹_›
    · cases h
      exact .putStore m i c hpc (Bool.eq_false_iff.mpr ‹_›)
  case h_7 m i hpc | h_21 hpc =>
    cases h
    exact .release .uart _ (by rw [hpc]; rfl)
  case h_8 k hpc =>
    cases h
    unfold St.goStart
    split
    · exact .startEnd k hpc
    · exact .startSend k hpc
  case h_10 target m hpc =>
    cases h
    split
    · exact .readMore target m hpc ‹_›
    · exact .readFull target m hpc ‹_›
  case h_11 target m hpc =>
    cases h
    exact goes_read hpc ok
  case h_12 r hpc =>
    cases h
    exact .readEnd r hpc
  case h_13 k hpc =>
    cases h
    unfold St.sleep
    split
    · exact .sleepPanic k hpc ‹_›
    · rename_i hoff
      rw [ne_eq, not_not] at hoff
      exact .sleep k hpc hoff
  case h_14 k hpc =>
    split at h
    · cases h
    · cases h
      exact .woken k hpc
  case h_16 hpc =>
    cases h
    split
    · exact .getc c hpc
    · exact .noChar hpc
  case h_18 c hpc =>
    cases h
    exact .input c hpc
  case h_19 hpc =>
    cases h
    exact .release .cons _ (by rw [hpc]; rfl)

/-- **Every step.** -/
theorem steps_of_step {l : Fin n × Act n} (h : s.step l = some t) :
    s.panic = none ∧ ((∃ ok c, l.2 = .go ok c ∧ Goes s l.1 ok t) ∨ Does s l.1 l.2 t) := by
  obtain ⟨p, a⟩ := l
  have hcall : ∀ {x : St n}, (if (s.thread p).pc = .user then some x else none) = some t →
      (s.thread p).pc = .user ∧ x = t := by
    intro x hx
    split at hx
    · exact ⟨‹_›, Option.some.inj hx⟩
    · cases hx
  unfold St.step at h
  split at h
  · cases h
  · rename_i hpanic
    refine ⟨Option.not_isSome_iff_eq_none.mp hpanic, ?_⟩
    cases a with
    | go ok c => exact .inl ⟨ok, c, rfl, goes_of_go h⟩
    | kill q =>
      cases h
      exact .inr (.kill q)
    | write m =>
      obtain ⟨huser, rfl⟩ := hcall h
      exact .inr (.write m huser)
    | read m =>
      obtain ⟨huser, rfl⟩ := hcall h
      exact .inr (.read m huser)
    | interrupt =>
      obtain ⟨huser, rfl⟩ := hcall h
      exact .inr (.interrupt huser)

theorem goes_other {q : Fin n} {ok : Bool} (hgo : Goes s p ok t) (hq : q ≠ p) :
    (t.thread q).pc = (s.thread q).pc ∧ (t.thread q).noff = (s.thread q).noff := by
  have hset : ∀ {u : St n} {x : Thread}, u.thread = s.thread →
      ((u.setThread p x).thread q).pc = (s.thread q).pc ∧
        ((u.setThread p x).thread q).noff = (s.thread q).noff := by
    intro u x hu
    rw [thread_setThread_of_ne hq, hu]
    exact ⟨rfl, rfl⟩
  cases hgo with
  | acquirePanic | sleepPanic => exact ⟨rfl, rfl⟩
  | startSend k hpc =>
    rw [thread_setPc_of_ne hq]
    obtain ⟨hpc, hnoff, -⟩ := thread_wakeup { s with uart := { s.uart with r := s.uart.r + 1 } } .uart q
    exact ⟨hpc, hnoff⟩
  | input c hpc =>
    obtain heq | heq := goInput_eq s p c
    · rw [heq]
      exact hset rfl
    · rw [heq, thread_setPc_of_ne hq]
      obtain ⟨hpc, hnoff, -⟩ := thread_wakeup { s with cons := (s.cons.intr c).1 } .cons q
      exact ⟨hpc, hnoff⟩
  | _ => exact hset rfl

end Xv6.ConsoleMachine
