import Xv6.LabelledRuns

/-!
# Monitors with `sleep` and `wakeup`

Threads work on shared values, each under a lock of its own.  The code of a monitor is a function `code`: what a
thread does at a place `k`, with the lock held, when the shared value is `x`.  It goes on at another place, it
wakes the sleepers up first, it goes to sleep, or it leaves.

`sleep` and `wakeup` are not atomic.  A thread that goes to sleep takes the lock of its own record, gives up the
lock of the monitor, marks itself and switches away; whoever calls `wakeup` takes the lock of one record after
the other.  A sleeper may also be woken up for no reason (`Act.kill`).

* `asserts_exec` — assertions at the places of the code hold along every run, if every move of the code keeps them;
* `no_sleeper_left` — if the code sleeps only where a condition fails, and calls `wakeup` whenever it makes it
  true, then nobody sleeps while the lock is free and the condition holds.
-/

namespace Xv6.Monitors

open LabelledRuns
open Function (update_self update_of_ne)

/-- What the code does next, with the lock held. -/
inductive Move (κ σ : Type) where
  | goto (k : κ) (x : σ)
  /-- The shared value changes, then `wakeup` is called. -/
  | wakeup (k : κ) (x : σ)
  | sleep (k : κ)
  | leave

inductive Phase where
  /-- About to acquire the lock. -/
  | enter
  | inside
  /-- In `wakeup`, at record `j`. -/
  | wakeup (j : ℕ)
  /-- `sleep`: about to lock its record, to release the lock of the monitor, to mark itself, to switch away, to
  be switched back in, to unlock its record. -/
  | sleep
  | sleepLocked
  | sleepUnlocked
  | sched
  | resume
  | woken
deriving DecidableEq

/-- The lock of the monitor is held. -/
def Phase.holds : Phase → Bool
  | .inside | .wakeup _ | .sleep | .sleepLocked => true
  | _ => false

def Phase.locks : Phase → Bool
  | .sleepLocked | .sleepUnlocked | .sched | .woken => true
  | _ => false

/-- A thread is outside, or in monitor `i`: it is at place `k`, or will go on there. -/
inductive Pc (ι κ : Type) where
  | user
  | on (i : ι) (k : κ) (ph : Phase)
deriving DecidableEq

structure Thread (ι κ : Type) where
  pc : Pc ι κ
  sleeping : Bool
  chan : Option ι
  locked : Bool

structure St (ι κ σ : Type) (n : ℕ) where
  shared : ι → σ
  lock : ι → Option (Fin n)
  thread : Fin n → Thread ι κ

variable {ι κ σ ε : Type} [DecidableEq ι] {n : ℕ}

def St.set (s : St ι κ σ n) (p : Fin n) (x : Thread ι κ) : St ι κ σ n :=
  { s with thread := Function.update s.thread p x }

def St.setPc (s : St ι κ σ n) (p : Fin n) (pc : Pc ι κ) : St ι κ σ n :=
  s.set p { s.thread p with pc := pc }

def St.put (s : St ι κ σ n) (i : ι) (x : σ) : St ι κ σ n :=
  { s with shared := Function.update s.shared i x }

def St.setLock (s : St ι κ σ n) (i : ι) (h : Option (Fin n)) : St ι κ σ n :=
  { s with lock := Function.update s.lock i h }

def wake (i : ι) (x : Thread ι κ) : Thread ι κ :=
  if x.sleeping ∧ x.chan = some i then { x with sleeping := false } else x

def St.move (s : St ι κ σ n) (p : Fin n) (i : ι) : Move κ σ → St ι κ σ n
  | .goto k x => (s.put i x).setPc p (.on i k .inside)
  | .wakeup k x => (s.put i x).setPc p (.on i k (.wakeup 0))
  | .sleep k => s.setPc p (.on i k .sleep)
  | .leave => (s.setLock i none).setPc p .user

section
variable (code : Fin n → ε → κ → σ → Option (Move κ σ))

def St.go (s : St ι κ σ n) (p : Fin n) (e : ε) : Option (St ι κ σ n) :=
  match (s.thread p).pc with
  | .user => none
  | .on i k .enter =>
    if s.lock i = none then some ((s.setLock i (some p)).setPc p (.on i k .inside)) else none
  | .on i k .inside => (code p e k (s.shared i)).map (s.move p i)
  | .on i k (.wakeup j) =>
    if h : j < n then
      if (s.thread ⟨j, h⟩).locked then none
      else some ((s.set ⟨j, h⟩ (wake i (s.thread ⟨j, h⟩))).setPc p (.on i k (.wakeup (j + 1))))
    else some (s.setPc p (.on i k .inside))
  | .on i k .sleep =>
    if (s.thread p).locked then none
    else some (s.set p { s.thread p with pc := .on i k .sleepLocked, locked := true })
  | .on i k .sleepLocked => some ((s.setLock i none).setPc p (.on i k .sleepUnlocked))
  | .on i k .sleepUnlocked =>
    some (s.set p { s.thread p with pc := .on i k .sched, sleeping := true, chan := some i })
  | .on i k .sched => some (s.set p { s.thread p with pc := .on i k .resume, locked := false })
  | .on i k .resume =>
    if (s.thread p).sleeping ∨ (s.thread p).locked then none
    else some (s.set p { s.thread p with pc := .on i k .woken, locked := true })
  | .on i k .woken =>
    some (s.set p { s.thread p with pc := .on i k .enter, chan := none, locked := false })

inductive Act (ι κ ε : Type) (n : ℕ) where
  | go (e : ε)
  /-- A call of a function of monitor `i`, which begins at place `k`. -/
  | call (i : ι) (k : κ)
  | kill (q : Fin n)

def St.step (s : St ι κ σ n) : Fin n × Act ι κ ε n → Option (St ι κ σ n)
  | (p, .go e) => s.go code p e
  | (p, .call i k) =>
    match (s.thread p).pc with
    | .user => some (s.setPc p (.on i k .enter))
    | .on _ _ _ => none
  | (_, .kill q) =>
    if (s.thread q).locked then none else some (s.set q { s.thread q with sleeping := false })

/-- Nobody is inside. -/
def St.boot (shared : ι → σ) : St ι κ σ n where
  shared := shared
  lock := fun _ => none
  thread := fun _ => { pc := .user, sleeping := false, chan := none, locked := false }

/-! ### Steps -/

/-- The steps of a thread under the lock, at a place of the code. -/
inductive Goes (s : St ι κ σ n) (p : Fin n) (e : ε) : St ι κ σ n → Prop where
  | enter (i : ι) (k : κ) : (s.thread p).pc = .on i k .enter → s.lock i = none →
      Goes s p e ((s.setLock i (some p)).setPc p (.on i k .inside))
  | goto (i : ι) (k k' : κ) (x : σ) : (s.thread p).pc = .on i k .inside →
      code p e k (s.shared i) = some (.goto k' x) → Goes s p e ((s.put i x).setPc p (.on i k' .inside))
  | tell (i : ι) (k k' : κ) (x : σ) : (s.thread p).pc = .on i k .inside →
      code p e k (s.shared i) = some (.wakeup k' x) →
      Goes s p e ((s.put i x).setPc p (.on i k' (.wakeup 0)))
  | sleep (i : ι) (k k' : κ) : (s.thread p).pc = .on i k .inside →
      code p e k (s.shared i) = some (.sleep k') → Goes s p e (s.setPc p (.on i k' .sleep))
  | leave (i : ι) (k : κ) : (s.thread p).pc = .on i k .inside →
      code p e k (s.shared i) = some .leave → Goes s p e ((s.setLock i none).setPc p .user)
  | wake (i : ι) (k : κ) (q : Fin n) : (s.thread p).pc = .on i k (.wakeup q.val) →
      (s.thread q).locked = false →
      Goes s p e ((s.set q (wake i (s.thread q))).setPc p (.on i k (.wakeup (q.val + 1))))
  | told (i : ι) (k : κ) (j : ℕ) : (s.thread p).pc = .on i k (.wakeup j) → n ≤ j →
      Goes s p e (s.setPc p (.on i k .inside))
  | sleepLock (i : ι) (k : κ) : (s.thread p).pc = .on i k .sleep →
      Goes s p e (s.set p { s.thread p with pc := .on i k .sleepLocked, locked := true })
  | sleepUnlock (i : ι) (k : κ) : (s.thread p).pc = .on i k .sleepLocked →
      Goes s p e ((s.setLock i none).setPc p (.on i k .sleepUnlocked))
  | mark (i : ι) (k : κ) : (s.thread p).pc = .on i k .sleepUnlocked →
      Goes s p e (s.set p { s.thread p with pc := .on i k .sched, sleeping := true, chan := some i })
  | sched (i : ι) (k : κ) : (s.thread p).pc = .on i k .sched →
      Goes s p e (s.set p { s.thread p with pc := .on i k .resume, locked := false })
  | resume (i : ι) (k : κ) : (s.thread p).pc = .on i k .resume → (s.thread p).sleeping = false →
      Goes s p e (s.set p { s.thread p with pc := .on i k .woken, locked := true })
  | woken (i : ι) (k : κ) : (s.thread p).pc = .on i k .woken →
      Goes s p e (s.set p { s.thread p with pc := .on i k .enter, chan := none, locked := false })

variable {code} {s t : St ι κ σ n} {p : Fin n} {e : ε}

theorem goes_of_move {i : ι} {k : κ} {m : Move κ σ} (hpc : (s.thread p).pc = .on i k .inside)
    (h : code p e k (s.shared i) = some m) : Goes code s p e (s.move p i m) := by
  cases m with
  | goto k' x => exact .goto i k k' x hpc h
  | wakeup k' x => exact .tell i k k' x hpc h
  | sleep k' => exact .sleep i k k' hpc h
  | leave => exact .leave i k hpc h

theorem goes_of_go (h : s.go code p e = some t) : Goes code s p e t := by
  unfold St.go at h
  split at h
  case h_1 => cases h
  case h_2 i k hpc =>
    split at h
    · cases h
      exact .enter i k hpc ‹_›
    · cases h
  case h_3 i k hpc =>
    obtain ⟨m, hm, rfl⟩ := Option.map_eq_some_iff.mp h
    exact goes_of_move hpc hm
  case h_4 i k j hpc =>
    split at h
    · rename_i hj
      split at h
      · cases h
      · cases h
        exact .wake i k ⟨j, hj⟩ hpc (Bool.eq_false_iff.mpr ‹_›)
    · cases h
      exact .told i k j hpc (Nat.le_of_not_lt ‹_›)
  case h_5 i k hpc =>
    split at h
    · cases h
    · cases h
      exact .sleepLock i k hpc
  case h_6 i k hpc =>
    cases h
    exact .sleepUnlock i k hpc
  case h_7 i k hpc =>
    cases h
    exact .mark i k hpc
  case h_8 i k hpc =>
    cases h
    exact .sched i k hpc
  case h_9 i k hpc =>
    split at h
    · cases h
    · rename_i hno
      cases h
      exact .resume i k hpc (Bool.eq_false_iff.mpr fun hs => hno (.inl hs))
  case h_10 i k hpc =>
    cases h
    exact .woken i k hpc

/-- **Every step**: a thread goes on, it calls a function, or a sleeper is killed. -/
theorem steps_of_step {l : Fin n × Act ι κ ε n} (h : s.step code l = some t) :
    (∃ e, l.2 = .go e ∧ Goes code s l.1 e t) ∨
    (∃ i k, l.2 = .call i k ∧ (s.thread l.1).pc = .user ∧ t = s.setPc l.1 (.on i k .enter)) ∨
    ∃ q, (s.thread q).locked = false ∧ t = s.set q { s.thread q with sleeping := false } := by
  obtain ⟨p, a⟩ := l
  cases a with
  | go e => exact .inl ⟨e, rfl, goes_of_go h⟩
  | call i k =>
    have hcall : (match (s.thread p).pc with
      | .user => some (s.setPc p (.on i k .enter))
      | .on _ _ _ => none) = some t := h
    split at hcall
    · cases hcall
      exact .inr (.inl ⟨i, k, rfl, ‹_›, rfl⟩)
    · cases hcall
  | kill q =>
    have hkill : (if (s.thread q).locked then none
      else some (s.set q { s.thread q with sleeping := false })) = some t := h
    split at hkill
    · cases hkill
    · cases hkill
      exact .inr (.inr ⟨q, Bool.eq_false_iff.mpr ‹_›, rfl⟩)

end

/-! ### The records -/

section
omit [DecidableEq ι]

variable {s : St ι κ σ n} {p q : Fin n} {x : Thread ι κ} {pc : Pc ι κ}

theorem thread_set_self : (s.set p x).thread p = x := update_self _ _ _

theorem thread_set_of_ne (h : q ≠ p) : (s.set p x).thread q = s.thread q := update_of_ne h _ _

theorem thread_setPc_self : (s.setPc p pc).thread p = { s.thread p with pc := pc } := thread_set_self

theorem pc_set_self : ((s.set p x).thread p).pc = x.pc := congrArg Thread.pc thread_set_self

theorem pc_setPc_self : ((s.setPc p pc).thread p).pc = pc := congrArg Thread.pc thread_setPc_self

theorem thread_setPc_of_ne (h : q ≠ p) : (s.setPc p pc).thread q = s.thread q := thread_set_of_ne h

end

section
variable {s t : St ι κ σ n} {p q : Fin n} {x : Thread ι κ} {i : ι}
  {code : Fin n → ε → κ → σ → Option (Move κ σ)} {e : ε}

theorem wake_fields (i : ι) (x : Thread ι κ) :
    (wake i x).pc = x.pc ∧ (wake i x).locked = x.locked ∧ (wake i x).chan = x.chan ∧
      ((wake i x).sleeping = true → x.sleeping = true ∧ x.chan ≠ some i) := by
  rw [wake]
  split
  · exact ⟨rfl, rfl, rfl, fun h => absurd h Bool.false_ne_true⟩
  · rename_i hno
    exact ⟨rfl, rfl, rfl, fun h => ⟨h, fun hc => hno ⟨h, hc⟩⟩⟩

/-- What a step of `p` leaves alone of another record. -/
structure Frame (x y : Thread ι κ) : Prop where
  pc : y.pc = x.pc
  locked : y.locked = x.locked
  chan : y.chan = x.chan
  sleeping : y.sleeping = true → x.sleeping = true

omit [DecidableEq ι] in
theorem Frame.refl (x : Thread ι κ) : Frame x x := ⟨rfl, rfl, rfl, fun h => h⟩

theorem frame_wake (i : ι) (x : Thread ι κ) : Frame x (wake i x) := by
  obtain ⟨hpc, hlocked, hchan, hsleep⟩ := wake_fields i x
  exact ⟨hpc, hlocked, hchan, fun h => (hsleep h).1⟩

theorem goes_frame (hgo : Goes code s p e t) (hq : q ≠ p) : Frame (s.thread q) (t.thread q) := by
  have hset : ∀ {u : St ι κ σ n} {x : Thread ι κ}, u.thread = s.thread →
      Frame (s.thread q) ((u.set p x).thread q) := by
    intro u x hu
    rw [thread_set_of_ne hq, hu]
    exact Frame.refl _
  cases hgo with
  | wake i k q' hpc hlocked =>
    rw [thread_setPc_of_ne hq]
    by_cases hqq : q = q'
    · rw [hqq, thread_set_self]
      exact frame_wake i _
    · rw [thread_set_of_ne hqq]
      exact Frame.refl _
  | _ => exact hset rfl

/-- The fields of a record agree with its place. -/
def Thread.Ok (x : Thread ι κ) : Prop :=
  match x.pc with
  | .user => x.locked = false ∧ x.sleeping = false
  | .on i _ ph => x.locked = ph.locks ∧ (x.sleeping = true → ph = .sched ∨ ph = .resume) ∧
      (ph = .sched ∨ ph = .resume → x.chan = some i)

omit [DecidableEq ι] in
theorem Thread.Ok.frame {x y : Thread ι κ} (h : x.Ok) (hf : Frame x y) : y.Ok := by
  unfold Thread.Ok at h ⊢
  rw [hf.pc, hf.locked, hf.chan]
  split
  · rename_i hpc
    rw [hpc] at h
    exact ⟨h.1, Bool.eq_false_iff.mpr fun hs => Bool.false_ne_true (h.2.symm.trans (hf.sleeping hs))⟩
  · rename_i hpc
    rw [hpc] at h
    exact ⟨h.1, fun hs => h.2.1 (hf.sleeping hs), h.2.2⟩

def Pc.holds (i : ι) : Pc ι κ → Prop
  | .user => False
  | .on i' _ ph => i' = i ∧ ph.holds = true

structure Inv (s : St ι κ σ n) : Prop where
  ok : ∀ p, (s.thread p).Ok
  lock : ∀ i p, s.lock i = some p ↔ (s.thread p).pc.holds i

omit [DecidableEq ι] in
theorem ok_at {x : Thread ι κ} {k : κ} {ph : Phase} (h : x.Ok) (hpc : x.pc = .on i k ph) :
    x.locked = ph.locks ∧ (x.sleeping = true → ph = .sched ∨ ph = .resume) ∧
      (ph = .sched ∨ ph = .resume → x.chan = some i) := by
  rw [Thread.Ok, hpc] at h
  exact h

omit [DecidableEq ι] in
theorem ok_awake {x : Thread ι κ} {k : κ} {ph : Phase} (h : x.Ok) (hpc : x.pc = .on i k ph)
    (hph : ph ≠ .sched ∧ ph ≠ .resume) (k' : κ) (ph' : Phase) (hph' : ph' ≠ .sched ∧ ph' ≠ .resume)
    (chan : Option ι) : Thread.Ok ⟨.on i k' ph', x.sleeping, chan, ph'.locks⟩ := by
  obtain ⟨-, hsleep, -⟩ := ok_at h hpc
  refine ⟨rfl, fun hs => ?_, fun hc => ?_⟩
  · rcases hsleep hs with e | e
    · exact absurd e hph.1
    · exact absurd e hph.2
  · rcases hc with e | e
    · exact absurd e hph'.1
    · exact absurd e hph'.2

theorem ok_goes (h : Inv s) (hgo : Goes code s p e t) : (t.thread p).Ok := by
  have hself := h.ok p
  have hstay : ∀ {u : St ι κ σ n} {i : ι} {k k' : κ} {ph ph' : Phase}, u.thread = s.thread →
      (s.thread p).pc = .on i k ph → (ph ≠ .sched ∧ ph ≠ .resume) → (ph' ≠ .sched ∧ ph' ≠ .resume) →
      ph'.locks = ph.locks → ((u.setPc p (.on i k' ph')).thread p).Ok := by
    intro u i k k' ph ph' hu hpc hph hph' hlocks
    have hok := ok_awake hself hpc hph k' ph' hph' (s.thread p).chan
    rw [hlocks, ← (ok_at hself hpc).1] at hok
    rw [thread_setPc_self, hu]
    exact hok
  cases hgo with
  | enter i k hpc hfree | goto i k k' x hpc hcode | tell i k k' x hpc hcode | sleep i k k' hpc hcode
  | sleepUnlock i k hpc => exact hstay rfl hpc (by decide) (by decide) rfl
  | leave i k hpc hcode =>
    obtain ⟨hlocked, hsleep, -⟩ := ok_at hself hpc
    rw [thread_setPc_self]
    refine ⟨hlocked, Bool.eq_false_iff.mpr fun hs => ?_⟩
    rcases hsleep hs with e | e
    · cases e
    · cases e
  | wake i k q hpc hlocked =>
    rw [thread_setPc_self]
    by_cases hqp : p = q
    · rw [← hqp, thread_set_self]
      obtain ⟨-, hlk, hch, hsl⟩ := wake_fields i (s.thread p)
      obtain ⟨hlocked, hsleep, -⟩ := ok_at hself hpc
      refine ⟨hlk.trans hlocked, fun hs => ?_, fun hc => ?_⟩
      · rcases hsleep (hsl hs).1 with e | e
        · cases e
        · cases e
      · rcases hc with e | e
        · cases e
        · cases e
    · rw [thread_set_of_ne hqp]
      have hok := ok_awake hself hpc (by simp) k (.wakeup (q.val + 1)) (by simp) (s.thread p).chan
      have hno : (s.thread p).locked = Phase.locks (.wakeup (q.val + 1)) := (ok_at hself hpc).1
      rw [← hno] at hok
      exact hok
  | told i k j hpc hj => exact hstay rfl hpc (by simp) (by decide) rfl
  | sleepLock i k hpc =>
    rw [thread_set_self]
    exact ok_awake hself hpc (by decide) k .sleepLocked (by decide) _
  | mark i k hpc =>
    rw [thread_set_self]
    exact ⟨(ok_at hself hpc).1, fun _ => .inl rfl, fun _ => rfl⟩
  | sched i k hpc =>
    rw [thread_set_self]
    exact ⟨rfl, fun _ => .inr rfl, fun _ => (ok_at hself hpc).2.2 (.inl rfl)⟩
  | resume i k hpc hsleep =>
    rw [thread_set_self]
    refine ⟨rfl, fun hs => ?_, fun hc => ?_⟩
    · exact absurd (hsleep.symm.trans hs) Bool.false_ne_true
    · rcases hc with e | e
      · cases e
      · cases e
  | woken i k hpc =>
    rw [thread_set_self]
    exact ok_awake hself hpc (by decide) k .enter (by decide) none

omit [DecidableEq ι] in
theorem Inv.holder (h : Inv s) (hp : (s.thread p).pc.holds i) (hq : (s.thread q).pc.holds i) : q = p :=
  Option.some.inj (((h.lock i q).mpr hq).symm.trans ((h.lock i p).mpr hp))

omit [DecidableEq ι] in
theorem lock_same (h : Inv s) (hlock : t.lock = s.lock)
    (hself : ∀ i, (t.thread p).pc.holds i ↔ (s.thread p).pc.holds i)
    (hother : ∀ q, q ≠ p → (t.thread q).pc = (s.thread q).pc) (i : ι) (q : Fin n) :
    t.lock i = some q ↔ (t.thread q).pc.holds i := by
  rw [hlock, h.lock i q]
  by_cases hq : q = p
  · rw [hq, hself]
  · rw [hother q hq]

theorem lock_taken (h : Inv s) (hfree : s.lock i = none) (hlock : t.lock = Function.update s.lock i (some p))
    (hself : ∀ i', (t.thread p).pc.holds i' ↔ i' = i) (hbefore : ∀ i', ¬ (s.thread p).pc.holds i')
    (hother : ∀ q, q ≠ p → (t.thread q).pc = (s.thread q).pc) (i' : ι) (q : Fin n) :
    t.lock i' = some q ↔ (t.thread q).pc.holds i' := by
  have hnobody : ∀ q, ¬ (s.thread q).pc.holds i := by
    intro q hq
    rw [← h.lock i q, hfree] at hq
    cases hq
  rw [hlock]
  by_cases hq : q = p
  · rw [hq, hself]
    by_cases hi : i' = i
    · rw [hi, update_self]
      exact ⟨fun _ => rfl, fun _ => rfl⟩
    · rw [update_of_ne hi, h.lock]
      exact ⟨fun hp => absurd hp (hbefore i'), fun e => absurd e hi⟩
  · rw [hother q hq]
    by_cases hi : i' = i
    · rw [hi, update_self]
      exact ⟨fun e => absurd (Option.some.inj e).symm hq, fun hh => absurd hh (hnobody q)⟩
    · rw [update_of_ne hi]
      exact h.lock i' q

theorem lock_given (h : Inv s) (hlock : t.lock = Function.update s.lock i none)
    (hbefore : ∀ i', (s.thread p).pc.holds i' ↔ i' = i) (hself : ∀ i', ¬ (t.thread p).pc.holds i')
    (hother : ∀ q, q ≠ p → (t.thread q).pc = (s.thread q).pc) (i' : ι) (q : Fin n) :
    t.lock i' = some q ↔ (t.thread q).pc.holds i' := by
  rw [hlock]
  by_cases hi : i' = i
  · rw [hi, update_self]
    refine ⟨fun e => absurd e (by simp), fun hh => ?_⟩
    by_cases hq : q = p
    · exact absurd (hq ▸ hh) (hself i)
    · rw [hother q hq] at hh
      exact absurd (h.holder ((hbefore i).mpr rfl) hh) hq
  · rw [update_of_ne hi, h.lock]
    by_cases hq : q = p
    · rw [hq, hbefore]
      exact ⟨fun e => absurd e hi, fun hh => absurd hh (hself i')⟩
    · rw [hother q hq]

theorem lock_goes (h : Inv s) (hgo : Goes code s p e t) (i' : ι) (q : Fin n) :
    t.lock i' = some q ↔ (t.thread q).pc.holds i' := by
  have hother : ∀ q, q ≠ p → (t.thread q).pc = (s.thread q).pc := fun q hq => (goes_frame hgo hq).pc
  have hsame : ∀ {i : ι} {k k' : κ} {ph ph' : Phase}, t.lock = s.lock → (s.thread p).pc = .on i k ph →
      (t.thread p).pc = .on i k' ph' → ph'.holds = ph.holds →
      (t.lock i' = some q ↔ (t.thread q).pc.holds i') := by
    intro i k k' ph ph' hlock hpc hpc' hholds
    refine lock_same h hlock (fun j => ?_) hother i' q
    rw [hpc, hpc', Pc.holds, Pc.holds, hholds]
  cases hgo with
  | enter i k hpc hfree =>
    refine lock_taken h hfree rfl (fun j => ?_) (fun j => ?_) hother i' q
    · rw [thread_setPc_self]
      exact ⟨fun hj => hj.1.symm, fun hj => ⟨hj.symm, rfl⟩⟩
    · rw [hpc]
      exact fun hj => Bool.false_ne_true hj.2
  | leave i k hpc hcode =>
    refine lock_given h rfl (fun j => ?_) (fun j => ?_) hother i' q
    · rw [hpc]
      exact ⟨fun hj => hj.1.symm, fun hj => ⟨hj.symm, rfl⟩⟩
    · rw [thread_setPc_self]
      exact fun hj => hj
  | sleepUnlock i k hpc =>
    refine lock_given h rfl (fun j => ?_) (fun j => ?_) hother i' q
    · rw [hpc]
      exact ⟨fun hj => hj.1.symm, fun hj => ⟨hj.symm, rfl⟩⟩
    · rw [thread_setPc_self]
      exact fun hj => Bool.false_ne_true hj.2
  | goto i k k' x hpc hcode | tell i k k' x hpc hcode | sleep i k k' hpc hcode | wake i k q' hpc hlocked
  | told i k j hpc hj => exact hsame rfl hpc pc_setPc_self (by rfl)
  | sleepLock i k hpc | mark i k hpc | sched i k hpc | resume i k hpc hsleep | woken i k hpc =>
    exact hsame rfl hpc pc_set_self (by rfl)

omit [DecidableEq ι] in
theorem inv_call (h : Inv s) (huser : (s.thread p).pc = .user) (i : ι) (k : κ) :
    Inv (s.setPc p (.on i k .enter)) := by
  have hok := h.ok p
  rw [Thread.Ok, huser] at hok
  refine ⟨fun q => ?_, lock_same h rfl (fun j => ?_) fun q hq => by rw [thread_setPc_of_ne hq]⟩
  · by_cases hq : q = p
    · rw [hq, thread_setPc_self]
      refine ⟨hok.1, fun hs => ?_, fun hc => ?_⟩
      · exact absurd (hok.2.symm.trans hs) Bool.false_ne_true
      · rcases hc with e | e
        · cases e
        · cases e
    · rw [thread_setPc_of_ne hq]
      exact h.ok q
  · rw [thread_setPc_self, huser]
    exact ⟨fun hj => absurd hj.2 Bool.false_ne_true, fun hj => absurd hj id⟩

omit [DecidableEq ι] in
theorem frame_kill (s : St ι κ σ n) (p q : Fin n) :
    Frame (s.thread q) ((s.set p { s.thread p with sleeping := false }).thread q) := by
  by_cases hq : q = p
  · rw [hq, thread_set_self]
    exact ⟨rfl, rfl, rfl, fun hs => absurd hs Bool.false_ne_true⟩
  · rw [thread_set_of_ne hq]
    exact Frame.refl _

theorem inv_step {l : Fin n × Act ι κ ε n} (h : Inv s) (hs : s.step code l = some t) : Inv t := by
  rcases steps_of_step hs with ⟨e, -, hgo⟩ | ⟨i, k, -, huser, rfl⟩ | ⟨q, -, rfl⟩
  · refine ⟨fun q => ?_, lock_goes h hgo⟩
    by_cases hq : q = l.1
    · rw [hq]
      exact ok_goes h hgo
    · exact (h.ok q).frame (goes_frame hgo hq)
  · exact inv_call h huser i k
  · refine ⟨fun p => (h.ok p).frame (frame_kill s q p), fun i p => ?_⟩
    rw [(frame_kill s q p).pc]
    exact h.lock i p

omit [DecidableEq ι] in
theorem inv_boot (shared : ι → σ) : Inv (St.boot shared : St ι κ σ n) where
  ok := fun _ => ⟨rfl, rfl⟩
  lock := fun _ _ => ⟨fun e => absurd e (by simp [St.boot]), fun hh => absurd hh id⟩

end

/-! ### Assertions at the places of the code -/

/-- A proof outline.  `I` holds of the shared value while the lock is free, `A p k` while thread `p` is at place
`k`, and `B p k` while `p` waits for the lock to go on there: the moves of other threads keep it. -/
structure Outline (code : Fin n → ε → κ → σ → Option (Move κ σ)) (B A : Fin n → κ → σ → Prop)
    (I : σ → Prop) : Prop where
  enter : ∀ p k x, I x → B p k x → A p k x
  goto : ∀ p e k k' x x', A p k x → code p e k x = some (.goto k' x') → A p k' x'
  wakeup : ∀ p e k k' x x', A p k x → code p e k x = some (.wakeup k' x') → A p k' x'
  sleep : ∀ p e k k' x, A p k x → code p e k x = some (.sleep k') → I x ∧ B p k' x
  leave : ∀ p e k x, A p k x → code p e k x = some .leave → I x
  stable : ∀ p q e k k' x x' l, q ≠ p → A p k x →
    code p e k x = some (.goto k' x') ∨ code p e k x = some (.wakeup k' x') → B q l x → B q l x'

section
variable {code : Fin n → ε → κ → σ → Option (Move κ σ)} {B A : Fin n → κ → σ → Prop} {I : σ → Prop}
  {s t : St ι κ σ n} {p q : Fin n} {e : ε}

variable (B A I) in
def Stated (p : Fin n) (k : κ) (x : σ) : Phase → Prop
  | .inside | .wakeup _ => A p k x
  | .sleep | .sleepLocked => I x ∧ B p k x
  | .enter | .sleepUnlocked | .sched | .resume | .woken => B p k x

variable (B A I) in
structure Asserts (s : St ι κ σ n) : Prop where
  free : ∀ i, s.lock i = none → I (s.shared i)
  stated : ∀ p i k ph, (s.thread p).pc = .on i k ph → Stated B A I p k (s.shared i) ph

omit [DecidableEq ι] in
theorem stated_same (ha : Asserts B A I s) (hshared : t.shared = s.shared)
    (hother : ∀ q, q ≠ p → (t.thread q).pc = (s.thread q).pc) {i : ι} {k : κ} {ph : Phase}
    (hpc : (t.thread p).pc = .on i k ph) (hself : Stated B A I p k (s.shared i) ph) (q : Fin n) (i' : ι)
    (k' : κ) (ph' : Phase) (hq : (t.thread q).pc = .on i' k' ph') : Stated B A I q k' (t.shared i') ph' := by
  rw [hshared]
  by_cases hqp : q = p
  · rw [hqp, hpc] at hq
    cases hq
    rw [hqp]
    exact hself
  · rw [hother q hqp] at hq
    exact ha.stated q i' k' ph' hq

theorem stated_put (h : Inv s) (ha : Asserts B A I s) {i : ι} {x : σ} {k k' : κ} {ph' : Phase}
    (hshared : t.shared = Function.update s.shared i x) (hother : ∀ q, q ≠ p → (t.thread q).pc = (s.thread q).pc)
    (hpc : (s.thread p).pc = .on i k .inside) (hpc' : (t.thread p).pc = .on i k' ph')
    (hself : Stated B A I p k' x ph') (hstable : ∀ q l, q ≠ p → B q l (s.shared i) → B q l x) (q : Fin n)
    (i' : ι) (l : κ) (ph : Phase) (hq : (t.thread q).pc = .on i' l ph) : Stated B A I q l (t.shared i') ph := by
  rw [hshared]
  by_cases hqp : q = p
  · rw [hqp, hpc'] at hq
    cases hq
    rw [hqp, update_self]
    exact hself
  · rw [hother q hqp] at hq
    have hstated := ha.stated q i' l ph hq
    by_cases hi : i' = i
    · rw [hi, update_self]
      rw [hi] at hq hstated
      have hno : ph.holds ≠ true := by
        intro hph
        have hp : (s.thread p).pc.holds i := by
          rw [hpc]
          exact ⟨rfl, rfl⟩
        have hq' : (s.thread q).pc.holds i := by
          rw [hq]
          exact ⟨rfl, hph⟩
        exact hqp (h.holder hp hq')
      cases ph with
      | enter | sleepUnlocked | sched | resume | woken => exact hstable q l hqp hstated
      | _ => exact absurd rfl hno
    · rw [update_of_ne hi]
      exact hstated

theorem asserts_goes (hO : Outline code B A I) (h : Inv s) (ha : Asserts B A I s) (hgo : Goes code s p e t) :
    Asserts B A I t := by
  have hother : ∀ q, q ≠ p → (t.thread q).pc = (s.thread q).pc := fun q hq => (goes_frame hgo hq).pc
  -- A lock that was given up at `i`: the shared value is good there.
  have hgiven : ∀ {i : ι}, I (s.shared i) → ∀ j, Function.update s.lock i none j = none → I (s.shared j) := by
    intro i hi j hj
    by_cases hji : j = i
    · rw [hji]
      exact hi
    · rw [update_of_ne hji] at hj
      exact ha.free j hj
  -- The holder of the lock of `i` puts a new value.
  have hput : ∀ {i : ι} {k : κ} {x : σ}, (s.thread p).pc = .on i k .inside →
      ∀ j, s.lock j = none → I (Function.update s.shared i x j) := by
    intro i k x hpc j hj
    have hji : j ≠ i := by
      rintro rfl
      have hp : (s.thread p).pc.holds j := by
        rw [hpc]
        exact ⟨rfl, rfl⟩
      rw [(h.lock j p).mpr hp] at hj
      cases hj
    rw [update_of_ne hji]
    exact ha.free j hj
  cases hgo with
  | enter i k hpc hfree =>
    have hstated : B p k (s.shared i) := ha.stated p i k .enter hpc
    refine ⟨fun j hj => ?_, stated_same ha rfl hother pc_setPc_self ?_⟩
    · have hji : j ≠ i := by
        rintro rfl
        have hj' : Function.update s.lock j (some p) j = none := hj
        rw [update_self] at hj'
        cases hj'
      have hj' : Function.update s.lock i (some p) j = none := hj
      rw [update_of_ne hji] at hj'
      exact ha.free j hj'
    · exact hO.enter p k _ (ha.free i hfree) hstated
  | goto i k k' x hpc hcode =>
    have hA : A p k (s.shared i) := ha.stated p i k .inside hpc
    refine ⟨hput hpc, stated_put h ha rfl hother hpc pc_setPc_self ?_ ?_⟩
    · exact hO.goto p e k k' _ x hA hcode
    · exact fun q l hq hB => hO.stable p q e k k' _ x l hq hA (.inl hcode) hB
  | tell i k k' x hpc hcode =>
    have hA : A p k (s.shared i) := ha.stated p i k .inside hpc
    refine ⟨hput hpc, stated_put h ha rfl hother hpc pc_setPc_self ?_ ?_⟩
    · exact hO.wakeup p e k k' _ x hA hcode
    · exact fun q l hq hB => hO.stable p q e k k' _ x l hq hA (.inr hcode) hB
  | sleep i k k' hpc hcode =>
    have hA : A p k (s.shared i) := ha.stated p i k .inside hpc
    exact ⟨ha.free, stated_same ha rfl hother pc_setPc_self (hO.sleep p e k k' _ hA hcode)⟩
  | leave i k hpc hcode =>
    have hA : A p k (s.shared i) := ha.stated p i k .inside hpc
    refine ⟨hgiven (hO.leave p e k _ hA hcode), fun q i' k' ph' hq => ?_⟩
    by_cases hqp : q = p
    · rw [hqp, pc_setPc_self] at hq
      cases hq
    · rw [hother q hqp] at hq
      exact ha.stated q i' k' ph' hq
  | wake i k q hpc hlocked | told i k j hpc hj =>
    have hA : A p k (s.shared i) := ha.stated p i k _ hpc
    exact ⟨ha.free, stated_same ha rfl hother pc_setPc_self hA⟩
  | sleepLock i k hpc =>
    have hstated : I (s.shared i) ∧ B p k (s.shared i) := ha.stated p i k _ hpc
    exact ⟨ha.free, stated_same ha rfl hother pc_set_self hstated⟩
  | sleepUnlock i k hpc =>
    have hstated : I (s.shared i) ∧ B p k (s.shared i) := ha.stated p i k _ hpc
    exact ⟨hgiven hstated.1, stated_same ha rfl hother pc_setPc_self hstated.2⟩
  | mark i k hpc | sched i k hpc | resume i k hpc hsleep | woken i k hpc =>
    have hstated : B p k (s.shared i) := ha.stated p i k _ hpc
    exact ⟨ha.free, stated_same ha rfl hother pc_set_self hstated⟩

variable (B) in
/-- A call begins with what is asserted before it. -/
def Calls (s : St ι κ σ n) (l : Fin n × Act ι κ ε n) : Prop :=
  match l.2 with
  | .call i k => B l.1 k (s.shared i)
  | _ => True

instance decidableCalls [∀ p k x, Decidable (B p k x)] (s : St ι κ σ n) :
    ∀ l : Fin n × Act ι κ ε n, Decidable (Calls B s l)
  | (p, .call i k) => inferInstanceAs (Decidable (B p k (s.shared i)))
  | (_, .go _) => isTrue trivial
  | (_, .kill _) => isTrue trivial

theorem asserts_step (hO : Outline code B A I) {l : Fin n × Act ι κ ε n} (h : Inv s) (ha : Asserts B A I s)
    (hl : Calls B s l) (hs : s.step code l = some t) : Asserts B A I t := by
  rcases steps_of_step hs with ⟨e, -, hgo⟩ | ⟨i, k, hcall, huser, rfl⟩ | ⟨q, -, rfl⟩
  · exact asserts_goes hO h ha hgo
  · rw [Calls, hcall] at hl
    exact ⟨ha.free, stated_same ha rfl (fun q hq => congrArg Thread.pc (thread_setPc_of_ne hq)) pc_setPc_self hl⟩
  · refine ⟨ha.free, fun p i k ph hp => ?_⟩
    rw [(frame_kill s q p).pc] at hp
    exact ha.stated p i k ph hp

/-- **Assertions hold along every run.** -/
theorem asserts_exec (hO : Outline code B A I) {shared : ι → σ} (hstart : ∀ i, I (shared i))
    {ls : List (Fin n × Act ι κ ε n)} (hls : Meets (St.step code) (Calls B) (St.boot shared) ls)
    (hrun : exec (St.step code) (St.boot shared) ls = some s) : Inv s ∧ Asserts B A I s := by
  have hboot : Asserts B A I (St.boot shared : St ι κ σ n) :=
    ⟨fun i _ => hstart i, fun _ _ _ _ hpc => by cases hpc⟩
  have hstep : ∀ (u : St ι κ σ n) (l : Fin n × Act ι κ ε n) (v : St ι κ σ n),
      Inv u ∧ Asserts B A I u → Calls B u l → u.step code l = some v → Inv v ∧ Asserts B A I v :=
    fun u l v hu hl hv => ⟨inv_step hu.1 hv, asserts_step hO hu.1 hu.2 hl hv⟩
  exact exec_invariant hstep ⟨inv_boot shared, hboot⟩ hls hrun

omit [DecidableEq ι] in
/-- What follows from every assertion holds at any time. -/
theorem Asserts.always (ha : Asserts B A I s) (h : Inv s) {J : σ → Prop} (hI : ∀ x, I x → J x)
    (hA : ∀ p k x, A p k x → J x) (i : ι) : J (s.shared i) := by
  cases hlock : s.lock i with
  | none => exact hI _ (ha.free i hlock)
  | some p =>
    have hholds := (h.lock i p).mp hlock
    cases hpc : (s.thread p).pc with
    | user =>
      rw [hpc] at hholds
      exact absurd hholds id
    | on j k ph =>
      rw [hpc] at hholds
      obtain ⟨rfl, hph⟩ := hholds
      have hstated := ha.stated p j k ph hpc
      cases ph with
      | inside | wakeup m => exact hA p k _ hstated
      | sleep | sleepLocked => exact hI _ hstated.1
      | _ => exact absurd hph Bool.false_ne_true

/-! ### No lost wakeup -/

/-- The code sleeps only where `C` fails, and calls `wakeup` when it makes `C` true. -/
structure Wakes (code : Fin n → ε → κ → σ → Option (Move κ σ)) (A : Fin n → κ → σ → Prop)
    (C : σ → Prop) : Prop where
  sleep : ∀ p e k k' x, A p k x → code p e k x = some (.sleep k') → ¬ C x
  goto : ∀ p e k k' x x', A p k x → code p e k x = some (.goto k' x') → C x' → C x

/-- The phases of `sleep`. -/
def Phase.rests : Phase → Bool
  | .sleep | .sleepLocked | .sleepUnlocked | .sched | .resume => true
  | _ => false

def Rests (i : ι) (x : Thread ι κ) : Prop :=
  ∃ k ph, x.pc = .on i k ph ∧
    (ph = .sleep ∨ ph = .sleepLocked ∨ ph = .sleepUnlocked ∨ x.sleeping = true)

omit [DecidableEq ι] in
theorem Rests.frame {x y : Thread ι κ} {i : ι} (hf : Frame x y) (h : Rests i y) : Rests i x := by
  obtain ⟨k, ph, hpc, hph⟩ := h
  refine ⟨k, ph, hf.pc ▸ hpc, ?_⟩
  rcases hph with hph | hph | hph | hs
  · exact .inl hph
  · exact .inr (.inl hph)
  · exact .inr (.inr (.inl hph))
  · exact .inr (.inr (.inr (hf.sleeping hs)))

omit [DecidableEq ι] in
theorem not_rests {x : Thread ι κ} {i j : ι} {k : κ} {ph : Phase} (hok : x.Ok) (hpc : x.pc = .on i k ph)
    (hph : ph.rests = false) : ¬ Rests j x := by
  intro hr
  obtain ⟨k', ph', hpc', hph'⟩ := hr
  have heq := hpc.symm.trans hpc'
  cases heq
  rcases hph' with rfl | rfl | rfl | hs
  · cases hph
  · cases hph
  · cases hph
  · rcases (ok_at hok hpc).2.1 hs with rfl | rfl
    · cases hph
    · cases hph

variable (C : σ → Prop)

/-- Whoever rests while `C` holds will still be visited. -/
def Told (s : St ι κ σ n) : Prop :=
  ∀ q i, Rests i (s.thread q) → C (s.shared i) →
    ∃ p k j, (s.thread p).pc = .on i k (.wakeup j) ∧ j ≤ q.val

variable {C}

omit [DecidableEq ι] in
theorem told_same (h : Told C s) (hshared : t.shared = s.shared)
    (hother : ∀ q, q ≠ p → Frame (s.thread q) (t.thread q)) {i : ι} {k : κ} {ph : Phase}
    (hpc : (s.thread p).pc = .on i k ph) (hph : ∀ j, ph ≠ .wakeup j)
    (hself : ∀ i, Rests i (t.thread p) → Rests i (s.thread p)) : Told C t := by
  intro q j hrest hC
  rw [hshared] at hC
  have hrest' : Rests j (s.thread q) := by
    by_cases hq : q = p
    · rw [hq] at hrest ⊢
      exact hself j hrest
    · exact hrest.frame (hother q hq)
  obtain ⟨w, l, m, hw, hm⟩ := h q j hrest' hC
  have hwp : w ≠ p := by
    rintro rfl
    have heq := hpc.symm.trans hw
    cases heq
    exact hph m rfl
  exact ⟨w, l, m, (hother w hwp).pc.trans hw, hm⟩

theorem told_goes (hW : Wakes code A C) (h : Inv s) (ha : Asserts B A I s) (htold : Told C s)
    (hgo : Goes code s p e t) (hok : (t.thread p).Ok) : Told C t := by
  have hother : ∀ q, q ≠ p → Frame (s.thread q) (t.thread q) := fun q hq => goes_frame hgo hq
  have hrest : ∀ {i : ι} {k : κ} {ph : Phase}, (t.thread p).pc = .on i k ph → ph.rests = false →
      ∀ j, Rests j (t.thread p) → Rests j (s.thread p) := fun hpc hph _ hr =>
    absurd hr (not_rests hok hpc hph)
  -- A new value at `i`, put by the holder of the lock: a waker of `i` would hold it too.
  have hput : ∀ {i : ι} {k : κ} {x : σ}, (s.thread p).pc = .on i k .inside →
      t.shared = Function.update s.shared i x → ∀ q j, q ≠ p → (j = i → C x → C (s.shared i)) →
      Rests j (t.thread q) → C (t.shared j) → ∃ w k m, (t.thread w).pc = .on j k (.wakeup m) ∧ m ≤ q.val := by
    intro i k x hpc hshared q j hq hC hr hCt
    have hold : C (s.shared j) := by
      rw [hshared] at hCt
      by_cases hj : j = i
      · rw [hj, update_self] at hCt
        rw [hj]
        exact hC hj hCt
      · rw [update_of_ne hj] at hCt
        exact hCt
    obtain ⟨w, l, m, hw, hm⟩ := htold q j (hr.frame (hother q hq)) hold
    have hwp : w ≠ p := by
      rintro rfl
      have heq := hpc.symm.trans hw
      cases heq
    exact ⟨w, l, m, (hother w hwp).pc.trans hw, hm⟩
  cases hgo with
  | enter i k hpc hfree =>
    exact told_same htold rfl hother hpc (by simp) (hrest pc_setPc_self rfl)
  | goto i k k' x hpc hcode =>
    have hA : A p k (s.shared i) := ha.stated p i k .inside hpc
    intro q j hr hC
    have hq : q ≠ p := by
      rintro rfl
      exact not_rests hok pc_setPc_self rfl hr
    exact hput hpc rfl q j hq (fun _ hx => hW.goto p e k k' _ x hA hcode hx) hr hC
  | tell i k k' x hpc hcode =>
    intro q j hr hC
    have hq : q ≠ p := by
      rintro rfl
      exact not_rests hok pc_setPc_self rfl hr
    by_cases hj : j = i
    · rw [hj]
      exact ⟨p, k', 0, pc_setPc_self, Nat.zero_le _⟩
    · exact hput hpc rfl q j hq (fun hji => absurd hji hj) hr hC
  | sleep i k k' hpc hcode =>
    have hA : A p k (s.shared i) := ha.stated p i k .inside hpc
    intro q j hr hC
    by_cases hq : q = p
    · obtain ⟨l, ph, hpc', -⟩ := hr
      rw [hq, pc_setPc_self] at hpc'
      cases hpc'
      exact absurd hC (hW.sleep p e k _ _ hA hcode)
    · obtain ⟨w, l, m, hw, hm⟩ := htold q j (hr.frame (hother q hq)) hC
      have hwp : w ≠ p := by
        rintro rfl
        have heq := hpc.symm.trans hw
        cases heq
      exact ⟨w, l, m, (hother w hwp).pc.trans hw, hm⟩
  | leave i k hpc hcode =>
    refine told_same htold rfl hother hpc (by simp) fun j hr => ?_
    obtain ⟨l, ph, hpc', -⟩ := hr
    rw [pc_setPc_self] at hpc'
    cases hpc'
  | wake i k q' hpc hlocked =>
    intro q j hr hC
    have hq : q ≠ p := by
      rintro rfl
      exact not_rests hok pc_setPc_self rfl hr
    obtain ⟨w, l, m, hw, hm⟩ := htold q j (hr.frame (hother q hq)) hC
    by_cases hwp : w = p
    · rw [hwp, hpc] at hw
      cases hw
      -- The sleeper that is visited now is awake afterwards.
      have hne : q ≠ q' := by
        rintro rfl
        obtain ⟨l, ph, hpcq, hph⟩ := hr
        rw [thread_setPc_of_ne hq, thread_set_self] at hpcq hph
        obtain ⟨hpcw, -, -, hsl⟩ := wake_fields i (s.thread q)
        rw [hpcw] at hpcq
        obtain ⟨hlk, -, hchan⟩ := ok_at (h.ok q) hpcq
        rw [hlocked] at hlk
        rcases hph with rfl | rfl | rfl | hs
        · have hp : (s.thread p).pc.holds i := by
            rw [hpc]
            exact ⟨rfl, rfl⟩
          have hq' : (s.thread q).pc.holds i := by
            rw [hpcq]
            exact ⟨rfl, rfl⟩
          exact hq (h.holder hp hq')
        · cases hlk
        · cases hlk
        · obtain ⟨hsleep, hne⟩ := hsl hs
          exact hne (hchan ((ok_at (h.ok q) hpcq).2.1 hsleep))
      refine ⟨p, k, q'.val + 1, pc_setPc_self, ?_⟩
      have hval : q.val ≠ q'.val := fun e => hne (Fin.ext e)
      omega
    · exact ⟨w, l, m, (hother w hwp).pc.trans hw, hm⟩
  | told i k m hpc hm =>
    intro q j hr hC
    have hq : q ≠ p := by
      rintro rfl
      exact not_rests hok pc_setPc_self rfl hr
    obtain ⟨w, l, m', hw, hm'⟩ := htold q j (hr.frame (hother q hq)) hC
    have hwp : w ≠ p := by
      rintro rfl
      have heq := hpc.symm.trans hw
      cases heq
      have := q.isLt
      omega
    exact ⟨w, l, m', (hother w hwp).pc.trans hw, hm'⟩
  | sleepLock i k hpc =>
    refine told_same htold rfl hother hpc (by simp) fun j hr => ?_
    obtain ⟨l, ph, hpc', -⟩ := hr
    rw [pc_set_self] at hpc'
    cases hpc'
    exact ⟨k, .sleep, hpc, .inl rfl⟩
  | sleepUnlock i k hpc =>
    refine told_same htold rfl hother hpc (by simp) fun j hr => ?_
    obtain ⟨l, ph, hpc', -⟩ := hr
    rw [pc_setPc_self] at hpc'
    cases hpc'
    exact ⟨k, .sleepLocked, hpc, .inr (.inl rfl)⟩
  | mark i k hpc =>
    refine told_same htold rfl hother hpc (by simp) fun j hr => ?_
    obtain ⟨l, ph, hpc', -⟩ := hr
    rw [pc_set_self] at hpc'
    cases hpc'
    exact ⟨k, .sleepUnlocked, hpc, .inr (.inr (.inl rfl))⟩
  | sched i k hpc =>
    refine told_same htold rfl hother hpc (by simp) fun j hr => ?_
    obtain ⟨l, ph, hpc', hph⟩ := hr
    rw [thread_set_self] at hpc' hph
    cases hpc'
    rcases hph with e | e | e | hs
    · cases e
    · cases e
    · cases e
    · exact ⟨k, .sched, hpc, .inr (.inr (.inr hs))⟩
  | resume i k hpc hsleep | woken i k hpc => exact told_same htold rfl hother hpc (by simp) (hrest pc_set_self rfl)

theorem told_step (hW : Wakes code A C) {l : Fin n × Act ι κ ε n} (h : Inv s) (ha : Asserts B A I s)
    (htold : Told C s) (hs : s.step code l = some t) : Told C t := by
  have ht := inv_step h hs
  rcases steps_of_step hs with ⟨e, -, hgo⟩ | ⟨i, k, -, huser, rfl⟩ | ⟨q, -, rfl⟩
  · exact told_goes hW h ha htold hgo (ht.ok l.1)
  · intro q j hr hC
    have hq : q ≠ l.1 := by
      rintro rfl
      exact not_rests (ht.ok l.1) pc_setPc_self rfl hr
    rw [thread_setPc_of_ne hq] at hr
    obtain ⟨w, k', m, hw, hm⟩ := htold q j hr hC
    have hwp : w ≠ l.1 := by
      rintro rfl
      have heq := huser.symm.trans hw
      cases heq
    exact ⟨w, k', m, by rw [thread_setPc_of_ne hwp]; exact hw, hm⟩
  · intro p j hr hC
    obtain ⟨w, k', m, hw, hm⟩ := htold p j (hr.frame (frame_kill s q p)) hC
    exact ⟨w, k', m, (frame_kill s q w).pc.trans hw, hm⟩

/-- **No lost wakeup.**  While the lock is free and `C` holds of the shared value, nobody sleeps there. -/
theorem no_sleeper_left (hO : Outline code B A I) (hW : Wakes code A C) {shared : ι → σ}
    (hstart : ∀ i, I (shared i)) {ls : List (Fin n × Act ι κ ε n)}
    (hls : Meets (St.step code) (Calls B) (St.boot shared) ls)
    (hrun : exec (St.step code) (St.boot shared) ls = some s) {i : ι} (hfree : s.lock i = none)
    (hC : C (s.shared i)) (q : Fin n) : ¬ ((s.thread q).sleeping = true ∧ (s.thread q).chan = some i) := by
  have hboot : Asserts B A I (St.boot shared : St ι κ σ n) :=
    ⟨fun i _ => hstart i, fun _ _ _ _ hpc => by cases hpc⟩
  have hbegin : Told C (St.boot shared : St ι κ σ n) := by
    intro q i hr
    obtain ⟨k, ph, hpc, -⟩ := hr
    cases hpc
  have hstep : ∀ (u : St ι κ σ n) (l : Fin n × Act ι κ ε n) (v : St ι κ σ n),
      (Inv u ∧ Asserts B A I u) ∧ Told C u → Calls B u l → u.step code l = some v →
      (Inv v ∧ Asserts B A I v) ∧ Told C v := fun u l v hu hl hv =>
    ⟨⟨inv_step hu.1.1 hv, asserts_step hO hu.1.1 hu.1.2 hl hv⟩, told_step hW hu.1.1 hu.1.2 hu.2 hv⟩
  obtain ⟨⟨hinv, -⟩, htold⟩ := exec_invariant hstep ⟨⟨inv_boot shared, hboot⟩, hbegin⟩ hls hrun
  intro hsleep
  obtain ⟨hsleep, hchan⟩ := hsleep
  have hok := hinv.ok q
  cases hpc : (s.thread q).pc with
  | user =>
    rw [Thread.Ok, hpc] at hok
    exact Bool.false_ne_true (hok.2.symm.trans hsleep)
  | on j k ph =>
    obtain ⟨-, hphase, hchan'⟩ := ok_at hok hpc
    have hj : j = i := Option.some.inj ((hchan' (hphase hsleep)).symm.trans hchan)
    rw [hj] at hpc
    obtain ⟨w, k', m, hw, -⟩ := htold q i ⟨k, ph, hpc, .inr (.inr (.inr hsleep))⟩ hC
    have hholds : (s.thread w).pc.holds i := by
      rw [hw]
      exact ⟨rfl, rfl⟩
    rw [(hinv.lock i w).mpr hholds] at hfree
    cases hfree

end

end Xv6.Monitors
