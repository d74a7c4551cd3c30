import Xv6.PipeMachine

/-!
# What one step of a pipe operation does

`Goes s p t` lists the steps of the code, one rule for each branch, and `Does s p t` those in which a
process begins a call or changes who refers to the pipe.  Every step is one of them (`steps_of_step`), so
an invariant is proved once for each rule.
-/

namespace Xv6.PipeMachine

open LabelledRuns RingBuffer

variable {n : ℕ} {s t : St n} {p : Fin n}

/-! ### Fields of updated states -/

@[simp] theorem proc_setProc_self (s : St n) (p : Fin n) (x : Proc) : (s.setProc p x).proc p = x := by
  simp only [St.setProc, Function.update_self]

theorem proc_setProc_of_ne {q : Fin n} (h : q ≠ p) (s : St n) (x : Proc) : (s.setProc p x).proc q = s.proc q := by
  simp only [St.setProc, Function.update_of_ne h]

@[simp] theorem proc_setPc_self (s : St n) (p : Fin n) (pc : Pc) :
    (s.setPc p pc).proc p = { s.proc p with pc := pc } :=
  proc_setProc_self s p _

theorem proc_setPc_of_ne {q : Fin n} (h : q ≠ p) (s : St n) (pc : Pc) : (s.setPc p pc).proc q = s.proc q :=
  proc_setProc_of_ne h s _

theorem setPc_setPc (s : St n) (p : Fin n) (a b : Pc) : (s.setPc p a).setPc p b = s.setPc p b := by
  simp only [St.setPc, St.setProc, Function.update_self, Function.update_idem]

@[simp] theorem proc_acquire_self (s : St n) (p : Fin n) (pc : Pc) :
    (s.acquire p pc).proc p = { s.proc p with pc := pc } :=
  proc_setProc_self _ p _

@[simp] theorem proc_release_self (s : St n) (p : Fin n) (pc : Pc) :
    (s.release p pc).proc p = { s.proc p with pc := pc } :=
  proc_setProc_self _ p _

inductive Goes (s : St n) (p : Fin n) : St n → Prop where
  | enter (c : Call) : (s.proc p).pc = .enter c → s.lock = none → Goes s p (s.acquire p c.pc)
  | again (k : Loop) : (s.proc p).pc = .again k → s.lock = none → Goes s p (s.acquire p k.pc)
  | more (b : Buf) (i : ℕ) : (s.proc p).pc = .write b i → (i : Int) < b.n →
      Goes s p (s.setPc p (.full b i))
  | written (b : Buf) (i : ℕ) : (s.proc p).pc = .write b i → ¬ (i : Int) < b.n →
      Goes s p (s.setPc p (.wakeup (.writeEnd b i) 0))
  | full (b : Buf) (i : ℕ) : (s.proc p).pc = .full b i → s.pipe.isFull = true →
      Goes s p (s.setPc p (.fullCheck b i))
  | copyinFault (b : Buf) (i : ℕ) : (s.proc p).pc = .full b i → s.pipe.isFull = false →
      (s.proc p).mem (b.addr + UInt64.ofNat i) = none →
      Goes s p (s.setPc p (.wakeup (.writeEnd b i) 0))
  | store (b : Buf) (i : ℕ) (ch : UInt8) : (s.proc p).pc = .full b i → s.pipe.isFull = false →
      (s.proc p).mem (b.addr + UInt64.ofNat i) = some ch →
      Goes s p ({ s with pipe := s.pipe.store ch, accepted := s.accepted ++ [ch], fresh := true }.setPc p
        (.write b (i + 1)))
  | giveUp (b : Buf) (i : ℕ) : (s.proc p).pc = .fullCheck b i →
      (s.pipe.readopen = false ∨ (s.proc p).killed = true) →
      Goes s p (s.setPc p (.leave (.write b) (-1)))
  | announce (b : Buf) (i : ℕ) : (s.proc p).pc = .fullCheck b i → s.pipe.readopen = true →
      (s.proc p).killed = false → Goes s p (s.setPc p (.wakeup (.sleep b i) 0))
  | empty (b : Buf) : (s.proc p).pc = .empty b → s.pipe.isEmpty = true → s.pipe.writeopen = true →
      Goes s p (s.setPc p (.emptyCheck b))
  | begin (b : Buf) : (s.proc p).pc = .empty b → (s.pipe.isEmpty = true → s.pipe.writeopen = false) →
      Goes s p (s.setPc p (.read b 0))
  | killed (b : Buf) : (s.proc p).pc = .emptyCheck b → (s.proc p).killed = true →
      Goes s p (s.setPc p (.leave (.read b) (-1)))
  | await (b : Buf) : (s.proc p).pc = .emptyCheck b → (s.proc p).killed = false →
      Goes s p (s.setPc p (.sleep (.read b)))
  | done (b : Buf) (i : ℕ) : (s.proc p).pc = .read b i →
      ((i : Int) < b.n → s.pipe.isEmpty = true) → Goes s p (s.setPc p (.wakeup (.readEnd b i) 0))
  | copyoutFault (b : Buf) (i : ℕ) : (s.proc p).pc = .read b i → (i : Int) < b.n →
      s.pipe.isEmpty = false →
      (s.proc p).mem (b.addr + UInt64.ofNat i) = none →
      Goes s p ({ s with pipe := s.pipe.skip }.setPc p (.wakeup (.readEnd b i) 0))
  | deliver (b : Buf) (i : ℕ) : (s.proc p).pc = .read b i → (i : Int) < b.n →
      s.pipe.isEmpty = false →
      Goes s p ({ s with pipe := s.pipe.skip, delivered := s.delivered ++ [s.pipe.first] }.setProc p
        { s.proc p with
          pc := .read b (i + 1)
          mem := Function.update (s.proc p).mem (b.addr + UInt64.ofNat i) (some s.pipe.first) })
  | wake (a : After) (j : Fin n) : (s.proc p).pc = .wakeup a j → (s.proc j).locked = false →
      Goes s p ((s.setProc j (wake a.chan (s.proc j))).setPc p (.wakeup a (j + 1)))
  | woken (a : After) (j : ℕ) : (s.proc p).pc = .wakeup a j → n ≤ j → Goes s p (s.setPc p a.pc)
  | leave (c : Call) (r : Int) : (s.proc p).pc = .leave c r →
      Goes s p ({ s with lock := none }.setProc p { s.proc p with pc := .user, ret := some r })
  | sleep (k : Loop) : (s.proc p).pc = .sleep k → (s.proc p).locked = false →
      Goes s p (s.setProc p { s.proc p with pc := .sleepLocked k, locked := true })
  | unlock (k : Loop) : (s.proc p).pc = .sleepLocked k → Goes s p (s.release p (.sleepUnlocked k))
  | dose (k : Loop) : (s.proc p).pc = .sleepUnlocked k →
      Goes s p (s.setProc p { s.proc p with pc := .sched k, sleeping := true, chan := some k.chan })
  | sched (k : Loop) : (s.proc p).pc = .sched k →
      Goes s p (s.setProc p { s.proc p with pc := .resume k, locked := false })
  | resume (k : Loop) : (s.proc p).pc = .resume k → (s.proc p).sleeping = false →
      (s.proc p).locked = false →
      Goes s p (s.setProc p { s.proc p with pc := .again k, chan := none })
  | close (e : End) : (s.proc p).pc = .close e →
      Goes s p ({ s with pipe := s.pipe.shut e }.setPc p (.wakeup (.close e) 0))
  | lastOut : (s.proc p).pc = .closeCheck → s.pipe.readopen = false → s.pipe.writeopen = false →
      Goes s p (s.release p .kfree)
  | closed : (s.proc p).pc = .closeCheck → Goes s p (s.release p .user)
  | kfree : (s.proc p).pc = .kfree → Goes s p ({ s with freed := true }.setPc p .user)

inductive Does (s : St n) (p : Fin n) : St n → Prop where
  | write (b : Buf) : 0 < (s.proc p).fds .write → Does s p (s.setPc p (.enter (.write b)))
  | read (b : Buf) : 0 < (s.proc p).fds .read → Does s p (s.setPc p (.enter (.read b)))
  | close (e : End) : 0 < (s.proc p).fds e → Does s p (s.drop p e)
  | dup (e : End) : 0 < (s.proc p).fds e → Does s p (s.dup p e)
  | fork (c : Fin n) : (s.proc c).pc = .user → (∀ e, (s.proc c).fds e = 0) → Does s p (s.fork p c)
  | kill (q : Fin n) : (s.proc q).locked = false → Does s p (s.setProc q (slay (s.proc q)))
  | run (mem : UInt64 → Option UInt8) : Does s p (s.setProc p { s.proc p with mem := mem })

theorem goes_full {b : Buf} {i : ℕ} (hpc : (s.proc p).pc = .full b i) : Goes s p (s.goFull p b i) := by
  unfold St.goFull
  split
  · rename_i hfull
    exact .full b i hpc hfull
  · rename_i hfull
    have hfull : s.pipe.isFull = false := Bool.eq_false_iff.mpr hfull
    split
    · rename_i hmem
      exact .copyinFault b i hpc hfull hmem
    · rename_i ch hmem
      exact .store b i ch hpc hfull hmem

theorem goes_read {b : Buf} {i : ℕ} (hpc : (s.proc p).pc = .read b i) : Goes s p (s.goRead p b i) := by
  unfold St.goRead
  split
  · rename_i hgo
    have hdata : s.pipe.isEmpty = false := by
      have := hgo.2
      rwa [Bool.not_eq_true'] at this
    split
    · rename_i hmem
      exact .copyoutFault b i hpc hgo.1 hdata hmem
    · exact .deliver b i hpc hgo.1 hdata
  · rename_i hstop
    refine .done b i hpc ?_
    intro hi
    by_contra hdata
    rw [Bool.not_eq_true] at hdata
    exact hstop ⟨hi, by rw [hdata]; rfl⟩

theorem goes_wakeup {a : After} {j : ℕ} (hpc : (s.proc p).pc = .wakeup a j)
    (h : s.goWakeup p a j = some t) : Goes s p t := by
  unfold St.goWakeup at h
  split at h
  · rename_i hj
    split at h
    · cases h
    · rename_i hlocked
      cases h
      exact .wake a ⟨j, hj⟩ hpc (Bool.eq_false_iff.mpr hlocked)
  · rename_i hj
    cases h
    exact .woken a j hpc (Nat.le_of_not_lt hj)

theorem goes_of_go (h : s.go p = some t) : Goes s p t := by
  unfold St.go at h
  split at h
  case h_1 => cases h
  case h_2 c hpc =>
    split at h
    · rename_i hlock
      cases h
      exact .enter c hpc hlock
    · cases h
  case h_3 k hpc =>
    split at h
    · rename_i hlock
      cases h
      exact .again k hpc hlock
    · cases h
  case h_4 b i hpc =>
    cases h
    split
    · exact .more b i hpc ‹_›
    · exact .written b i hpc ‹_›
  case h_5 b i hpc =>
    cases h
    exact goes_full hpc
  case h_6 b i hpc =>
    cases h
    split
    · rename_i hstop
      rw [Bool.or_eq_true, Bool.not_eq_true'] at hstop
      exact .giveUp b i hpc hstop
    · rename_i hstop
      rw [Bool.not_eq_true, Bool.or_eq_false_iff, Bool.not_eq_false'] at hstop
      exact .announce b i hpc hstop.1 hstop.2
  case h_7 b hpc =>
    cases h
    split
    · rename_i hwait
      rw [Bool.and_eq_true] at hwait
      exact .empty b hpc hwait.1 hwait.2
    · rename_i hwait
      refine .begin b hpc ?_
      intro hempty
      rw [hempty, Bool.true_and] at hwait
      exact Bool.eq_false_iff.mpr hwait
  case h_8 b hpc =>
    cases h
    split
    · exact .killed b hpc ‹_›
    · exact .await b hpc (Bool.eq_false_iff.mpr ‹_›)
  case h_9 b i hpc =>
    cases h
    exact goes_read hpc
  case h_10 a j hpc => exact goes_wakeup hpc h
  case h_11 c r hpc =>
    cases h
    exact .leave c r hpc
  case h_12 k hpc =>
    split at h
    · cases h
    · cases h
      exact .sleep k hpc (Bool.eq_false_iff.mpr ‹_›)
  case h_13 k hpc =>
    cases h
    exact .unlock k hpc
  case h_14 k hpc =>
    cases h
    exact .dose k hpc
  case h_15 k hpc =>
    cases h
    exact .sched k hpc
  case h_16 k hpc =>
    split at h
    · cases h
    · rename_i hready
      cases h
      rw [not_or] at hready
      exact .resume k hpc (Bool.eq_false_iff.mpr hready.1) (Bool.eq_false_iff.mpr hready.2)
  case h_17 e hpc =>
    cases h
    exact .close e hpc
  case h_18 hpc =>
    cases h
    split
    · rename_i hboth
      rw [Bool.and_eq_true, Bool.not_eq_true', Bool.not_eq_true'] at hboth
      exact .lastOut hpc hboth.1 hboth.2
    · exact .closed hpc
  case h_19 hpc =>
    cases h
    exact .kfree hpc

theorem does_of_step {a : Act n} (ha : a ≠ .go) (h : s.step (p, a) = some t) :
    (s.proc p).pc = .user ∧ Does s p t := by
  have hstep : ∀ {c : Prop} [Decidable c] {x : St n}, (if (s.proc p).pc = .user then
      (if c then some x else none) else none) = some t → (s.proc p).pc = .user ∧ c ∧ x = t := by
    intro c _ x hx
    split at hx
    · split at hx
      · exact ⟨‹_›, ‹_›, Option.some.inj hx⟩
      · cases hx
    · cases hx
  cases a with
  | go => exact absurd rfl ha
  | write b =>
    obtain ⟨huser, hfd, rfl⟩ := hstep h
    exact ⟨huser, .write b hfd⟩
  | read b =>
    obtain ⟨huser, hfd, rfl⟩ := hstep h
    exact ⟨huser, .read b hfd⟩
  | close e =>
    obtain ⟨huser, hfd, rfl⟩ := hstep h
    exact ⟨huser, .close e hfd⟩
  | dup e =>
    obtain ⟨huser, hfd, rfl⟩ := hstep h
    exact ⟨huser, .dup e hfd⟩
  | fork c =>
    obtain ⟨huser, ⟨hc, hread, hwrite⟩, rfl⟩ := hstep h
    refine ⟨huser, .fork c hc ?_⟩
    intro e
    cases e with
    | read => exact hread
    | write => exact hwrite
  | kill q =>
    simp only [St.step] at h
    split at h
    · split at h
      · cases h
      · cases h
        exact ⟨‹_›, .kill q (Bool.eq_false_iff.mpr ‹_›)⟩
    · cases h
  | run mem =>
    simp only [St.step] at h
    split at h
    · cases h
      exact ⟨‹_›, .run mem⟩
    · cases h

/-- **Every step.** -/
theorem steps_of_step {l : Fin n × Act n} (h : s.step l = some t) :
    Goes s l.1 t ∨ (s.proc l.1).pc = .user ∧ Does s l.1 t := by
  obtain ⟨p, a⟩ := l
  by_cases ha : a = .go
  · subst ha
    exact .inl (goes_of_go h)
  · exact .inr (does_of_step ha h)

end Xv6.PipeMachine
