import Xv6.VirtioTable

/-!
# What one step of the disk driver does

`Goes s p t` lists the branches of the code and `Does s a t` what begins and what the device does;
`steps_of_step` says that there are no other steps.  The lock and the buffers of the callers are settled
here: whoever is at a locked place holds `vdisk_lock` (`Locked`), and no two calls have the same buffer
(`Bufs`).
-/

namespace Xv6.VirtioMachine

open LabelledRuns RingBuffer

variable {n : ℕ} {s t : St n} {p : Fin n} {a : Act n}

/-- Where a thread is. -/
def St.pc (s : St n) (p : Fin n) : Pc := (s.thread p).pc

@[simp] theorem pc_setPc_self (s : St n) (p : Fin n) (pc : Pc) : (s.setPc p pc).pc p = pc := by
  simp only [St.pc, St.setPc, St.setThread, Function.update_self]

theorem pc_setPc_of_ne {q : Fin n} (h : q ≠ p) (s : St n) (pc : Pc) : (s.setPc p pc).pc q = s.pc q := by
  simp only [St.pc, St.setPc, St.setThread, Function.update_of_ne h]

@[simp] theorem pc_wakeup (s : St n) (sleeps : Pc → Bool) (q : Fin n) : (s.wakeup sleeps).pc q = s.pc q := by
  simp only [St.pc, St.wakeup]
  split
  · rfl
  · rfl

@[simp] theorem pc_sleep_self (s : St n) (p : Fin n) (pc : Pc) : (s.sleep p pc).pc p = pc := by
  simp only [St.pc, St.sleep, St.setThread, Function.update_self]

theorem pc_kill (s : St n) (p q : Fin n) :
    (s.setThread p { s.thread p with sleeping := false }).pc q = s.pc q := by
  by_cases hq : q = p
  · simp only [St.pc, St.setThread, hq, Function.update_self]
  · simp only [St.pc, St.setThread, Function.update_of_ne hq]

theorem pc_sleep_of_ne {q : Fin n} (h : q ≠ p) (s : St n) (pc : Pc) : (s.sleep p pc).pc q = s.pc q := by
  simp only [St.pc, St.sleep, St.setThread, Function.update_of_ne h]

/-- About to acquire the lock, and where to go on. -/
def Pc.acquires : Pc → Option Pc
  | .rw b w => some (.alloc b w)
  | .againFree b w => some (.alloc b w)
  | .againBuf b c => some (.wait b c)
  | .intr => some .intrLoop
  | _ => none

/-- Asleep, and where to go on when woken up. -/
def Pc.wakes : Pc → Option Pc
  | .asleepFree b w => some (.againFree b w)
  | .asleepBuf b c => some (.againBuf b c)
  | _ => none

/-- About to release the lock and to return. -/
def Pc.returns : Pc → Bool
  | .rwEnd _ | .intrEnd => true
  | _ => false

inductive Goes (s : St n) (p : Fin n) : St n → Prop where
  | acquirePanic (pc : Pc) : (s.pc p).acquires = some pc → s.lock = some p →
      Goes s p { s with panic := some .acquire }
  | acquire (pc : Pc) : (s.pc p).acquires = some pc → s.lock = none →
      Goes s p ({ s with lock := some p }.setPc p pc)
  | release : (s.pc p).returns = true → Goes s p (s.release p)
  | woken (pc : Pc) : (s.pc p).wakes = some pc → Goes s p (s.setPc p pc)
  | alloc (b : ℕ) (w : Bool) (c : Chain) : s.pc p = .alloc b w → c.Valid →
      (∀ i ∈ c.list, s.table.free i = true) →
      Goes s p ({ s with table := { s.table with free := fun i =>
        if i ∈ c.list then false else s.table.free i } }.setPc p (.format b w c))
  | allocFail (b : ℕ) (w : Bool) (u : Table) (woke : Bool) : s.pc p = .alloc b w →
      u.free = s.table.free → (∀ i, s.table.free i = false → u.desc i = s.table.desc i) →
      Goes s p ((if woke then { s with table := u }.wakeup Pc.onFree else { s with table := u }).sleep p
        (.asleepFree b w))
  | format (b : ℕ) (w : Bool) (c : Chain) : s.pc p = .format b w c → Goes s p (s.goFormat p b w c)
  | ring (b : ℕ) (c : Chain) : s.pc p = .ring b c → Goes s p (s.goRing p b c)
  | bump (b : ℕ) (c : Chain) : s.pc p = .bump b c → Goes s p (s.goBump p b c)
  | waitSleep (b : ℕ) (c : Chain) : s.pc p = .wait b c → s.onDisk b = true →
      Goes s p (s.sleep p (.asleepBuf b c))
  | finishPanic (b : ℕ) (c : Chain) (e : Panic) : s.pc p = .wait b c → s.onDisk b = false →
      s.table.freeChain (NUM + 1) c.d0 = .error e → Goes s p { s with panic := some e }
  | finish (b : ℕ) (c : Chain) (u : Table) : s.pc p = .wait b c → s.onDisk b = false →
      s.table.freeChain (NUM + 1) c.d0 = .ok u →
      Goes s p (({ s with
        table := u
        info := Function.update s.info c.d0 { s.info c.d0 with b := none }
        log := s.log ++ [Event.free (s.cur b)] }.wakeup Pc.onFree).setPc p (.rwEnd b))
  | intrEmpty : s.pc p = .intrLoop → slot NUM s.usedIdx = slot NUM s.usedId →
      Goes s p (s.setPc p .intrEnd)
  | intrStatus : s.pc p = .intrLoop → slot NUM s.usedIdx ≠ slot NUM s.usedId →
      (s.info (s.elems (slot NUM s.usedIdx))).status ≠ 0 → Goes s p { s with panic := some .intrStatus }
  | intrTrap : s.pc p = .intrLoop → slot NUM s.usedIdx ≠ slot NUM s.usedId →
      (s.info (s.elems (slot NUM s.usedIdx))).b = none → Goes s p { s with panic := some .kerneltrap }
  | intrDone (b : ℕ) : s.pc p = .intrLoop → slot NUM s.usedIdx ≠ slot NUM s.usedId →
      (s.info (s.elems (slot NUM s.usedIdx))).b = some b →
      Goes s p ({ s with
        onDisk := Function.update s.onDisk b false
        usedIdx := BitVec.ofNat 16 ((s.usedIdx + 1).toNat % NUM)
        log := s.log ++ [Event.done (s.cur b)] }.wakeup (Pc.onBuf b))

/-- Something begins, or the device moves. -/
inductive Does (s : St n) : Act n → St n → Prop where
  | rw (p : Fin n) (b : ℕ) (w : Bool) : s.pc p = .user → (∀ q, (s.pc q).buf ≠ some b) →
      Does s (.rw p b w) (s.setPc p (.rw b w))
  | interrupt (p : Fin n) : s.pc p = .user → Does s (.interrupt p) (s.setPc p .intr)
  | kill (q : Fin n) : Does s (.kill q) (s.setThread q { s.thread q with sleeping := false })
  | consume : s.last ≠ s.avail →
      Does s .consume { s with last := s.last + 1, busy := s.busy ++ [s.ring (slot NUM s.last)] }
  | post (i h : ℕ) : s.posted = none → s.busy[i]? = some h →
      Does s (.post i) { s with
        busy := s.busy.eraseIdx i
        info := s.writeStatus h
        elems := Function.update s.elems (slot NUM s.usedId) h
        posted := some h
        log := s.log ++ [Event.complete (s.req h)] }
  | publish (h : ℕ) : s.posted = some h →
      Does s .publish { s with usedId := s.usedId + 1, posted := none }

theorem goes_acquire {pc : Pc} (hpc : (s.pc p).acquires = some pc) (h : s.acquire p pc = some t) : Goes s p t := by
  unfold St.acquire at h
  split at h
  · cases h
    exact .acquirePanic pc hpc ‹_›
  · split at h
    · cases h
      exact .acquire pc hpc ‹_›
    · cases h

theorem goes_alloc {b : ℕ} {w : Bool} (hpc : s.pc p = .alloc b w) : Goes s p (s.goAlloc p b w) := by
  obtain ⟨r, hr, hspec⟩ := alloc3Desc_spec s.table
  rw [St.goAlloc, hr]
  cases hspec with
  | ok c hv hfree => exact .alloc b w c hpc hv hfree
  | fail u woke hfree hdesc => exact .allocFail b w u woke hpc hfree hdesc

theorem goes_wait {b : ℕ} {c : Chain} (hpc : s.pc p = .wait b c) : Goes s p (s.goWait p b c) := by
  unfold St.goWait
  split
  · exact .waitSleep b c hpc ‹_›
  · rename_i hoff
    rw [Bool.not_eq_true] at hoff
    split
    · exact .finishPanic b c _ hpc hoff ‹_›
    · exact .finish b c _ hpc hoff ‹_›

theorem goes_intr (hpc : s.pc p = .intrLoop) : Goes s p (s.goIntr p) := by
  unfold St.goIntr
  split
  · exact .intrEmpty hpc ‹_›
  · rename_i hne
    dsimp only
    split
    · exact .intrStatus hpc hne ‹_›
    · split
      · exact .intrTrap hpc hne ‹_›
      · exact .intrDone _ hpc hne ‹_›

theorem goes_woken {pc : Pc} (hpc : (s.pc p).wakes = some pc)
    (h : (if (s.thread p).sleeping then none else some (s.setPc p pc)) = some t) : Goes s p t := by
  split at h
  · cases h
  · cases h
    exact .woken pc hpc

theorem goes_of_go (h : s.go p = some t) : Goes s p t := by
  unfold St.go at h
  have hat : (s.thread p).pc = s.pc p := rfl
  rw [hat] at h
  split at h
  case h_1 => cases h
  case h_2 b w hpc | h_5 b w hpc | h_11 b c hpc | h_13 hpc => exact goes_acquire (by rw [hpc]; rfl) h
  case h_3 b w hpc =>
    cases h
    exact goes_alloc hpc
  case h_4 b w hpc | h_10 b c hpc => exact goes_woken (by rw [hpc]; rfl) h
  case h_6 b w c hpc =>
    cases h
    exact .format b w c hpc
  case h_7 b c hpc =>
    cases h
    exact .ring b c hpc
  case h_8 b c hpc =>
    cases h
    exact .bump b c hpc
  case h_9 b c hpc =>
    cases h
    exact goes_wait hpc
  case h_12 b hpc | h_15 hpc =>
    cases h
    exact .release (by rw [hpc]; rfl)
  case h_14 hpc =>
    cases h
    exact goes_intr hpc

theorem does_of_post {i : ℕ} (h : s.post i = some t) : Does s (.post i) t := by
  unfold St.post at h
  split at h
  · cases h
    exact .post i _ ‹_› ‹_›
  · cases h

theorem does_of_publish (h : s.publish = some t) : Does s .publish t := by
  unfold St.publish at h
  split at h
  · cases h
    exact .publish _ ‹_›
  · cases h

theorem does_of_consume (h : s.consume = some t) : Does s .consume t := by
  unfold St.consume at h
  split at h
  · cases h
  · cases h
    exact .consume ‹_›

/-- **Every step.** -/
theorem steps_of_step (h : s.step a = some t) : s.panic = none ∧ ((∃ p, a = .go p ∧ Goes s p t) ∨ Does s a t) := by
  unfold St.step at h
  split at h
  · cases h
  · rename_i hpanic
    refine ⟨Option.not_isSome_iff_eq_none.mp hpanic, ?_⟩
    cases a with
    | go p => exact .inl ⟨p, rfl, goes_of_go h⟩
    | kill q =>
      cases h
      exact .inr (.kill q)
    | consume => exact .inr (does_of_consume h)
    | post i => exact .inr (does_of_post h)
    | publish => exact .inr (does_of_publish h)
    | rw p b w =>
      dsimp only at h
      split at h
      · cases h
        rename_i hcall
        exact .inr (.rw p b w hcall.1 hcall.2)
      · cases h
    | interrupt p =>
      dsimp only at h
      split at h
      · cases h
        exact .inr (.interrupt p ‹_›)
      · cases h

/-! ### The lock -/

/-- The places inside of the critical sections. -/
def Pc.locked : Pc → Bool
  | .alloc _ _ | .format _ _ _ | .ring _ _ | .bump _ _ | .wait _ _ | .rwEnd _ => true
  | .intrLoop | .intrEnd => true
  | _ => false

theorem not_locked_of_acquires {pc pc' : Pc} (h : pc.acquires = some pc') : pc.locked = false := by
  cases pc <;> cases h <;> rfl

def Held (s : St n) : Prop := ∀ p, s.lock = some p ↔ (s.pc p).locked = true

theorem goes_other {q : Fin n} (hgo : Goes s p t) (hq : q ≠ p) : t.pc q = s.pc q := by
  cases hgo with
  | acquirePanic | finishPanic | intrStatus | intrTrap => rfl
  | allocFail b w u woke =>
    rw [pc_sleep_of_ne hq]
    cases woke
    · rfl
    · exact pc_wakeup _ _ _
  | waitSleep => exact pc_sleep_of_ne hq _ _
  | finish =>
    rw [pc_setPc_of_ne hq]
    exact pc_wakeup _ _ _
  | intrDone => exact pc_wakeup _ _ _
  | _ => exact pc_setPc_of_ne hq _ _

theorem goes_lock (hgo : Goes s p t) (hpanic : t.panic = none) :
    (t.lock = s.lock ∧ (t.pc p).locked = (s.pc p).locked) ∨
    (s.lock = none ∧ t.lock = some p ∧ (t.pc p).locked = true) ∨
    ((s.pc p).locked = true ∧ t.lock = none ∧ (t.pc p).locked = false) := by
  cases hgo with
  | acquirePanic | finishPanic | intrStatus | intrTrap => cases hpanic
  | acquire pc hpc hnone =>
    refine .inr (.inl ⟨hnone, rfl, ?_⟩)
    rw [pc_setPc_self]
    cases hat : s.pc p <;> rw [hat] at hpc <;> cases hpc <;> rfl
  | release hpc =>
    refine .inr (.inr ⟨?_, rfl, ?_⟩)
    · cases hat : s.pc p <;> rw [hat] at hpc <;> first | rfl | cases hpc
    · rw [St.release, pc_setPc_self]
      rfl
  | woken pc hpc =>
    refine .inl ⟨rfl, ?_⟩
    rw [pc_setPc_self]
    cases hat : s.pc p <;> rw [hat] at hpc <;> cases hpc <;> rfl
  | alloc b w c hpc | finish b c u hpc | intrEmpty hpc =>
    refine .inl ⟨rfl, ?_⟩
    rw [pc_setPc_self, hpc]
    rfl
  | allocFail b w u woke hpc | waitSleep b c hpc =>
    refine .inr (.inr ⟨by rw [hpc]; rfl, rfl, ?_⟩)
    rw [pc_sleep_self]
    rfl
  | format b w c hpc =>
    refine .inl ⟨rfl, ?_⟩
    rw [St.goFormat, pc_setPc_self, hpc]
    rfl
  | ring b c hpc =>
    refine .inl ⟨rfl, ?_⟩
    rw [St.goRing, pc_setPc_self, hpc]
    rfl
  | bump b c hpc =>
    refine .inl ⟨rfl, ?_⟩
    rw [St.goBump, pc_setPc_self, hpc]
    rfl
  | intrDone b hpc =>
    refine .inl ⟨rfl, ?_⟩
    rw [pc_wakeup]
    rfl

theorem held_goes (h : Held s) (hgo : Goes s p t) (hpanic : t.panic = none) : Held t := by
  intro q
  have hp := h p
  have hq := h q
  by_cases hqp : q = p
  · subst hqp
    obtain ⟨hlock, hpc⟩ | ⟨-, hlock, hpc⟩ | ⟨-, hlock, hpc⟩ := goes_lock hgo hpanic
    · rw [hlock, hpc, hq]
    · rw [hlock, hpc]
      exact ⟨fun _ => rfl, fun _ => rfl⟩
    · rw [hlock, hpc]
      exact iff_of_false (by simp) (by simp)
  · rw [goes_other hgo hqp, ← hq]
    obtain ⟨hlock, -⟩ | ⟨hnone, hlock, -⟩ | ⟨hin, hlock, -⟩ := goes_lock hgo hpanic
    · rw [hlock]
    · rw [hlock, hnone]
      exact iff_of_false (fun hx => hqp (Option.some.inj hx).symm) (by simp)
    · rw [hlock, hp.mpr hin]
      exact iff_of_false (by simp) (fun hx => hqp (Option.some.inj hx).symm)

theorem does_lock (hdo : Does s a t) (q : Fin n) : t.lock = s.lock ∧ t.panic = s.panic ∧
      (t.pc q = s.pc q ∨ s.pc q = .user ∧ (t.pc q).locked = false) := by
  cases hdo with
  | rw p b w huser _ | interrupt p huser =>
    refine ⟨rfl, rfl, ?_⟩
    by_cases hq : q = p
    · rw [hq, pc_setPc_self]
      exact .inr ⟨huser, rfl⟩
    · exact .inl (pc_setPc_of_ne hq _ _)
  | kill p => exact ⟨rfl, rfl, .inl (pc_kill s p q)⟩
  | _ => exact ⟨rfl, rfl, .inl rfl⟩

theorem held_does (h : Held s) (hdo : Does s a t) : Held t := by
  intro q
  obtain ⟨hlock, -, hpc | ⟨huser, hpc⟩⟩ := does_lock hdo q
  · rw [hlock, hpc]
    exact h q
  · rw [hlock, hpc, h q, huser]
    rfl

/-! ### The buffers of the callers -/

/-- No two calls have the same buffer. -/
def Bufs (s : St n) : Prop := ∀ p q b, (s.pc p).buf = some b → (s.pc q).buf = some b → p = q

theorem goes_buf (hgo : Goes s p t) : (t.pc p).buf = (s.pc p).buf ∨ (t.pc p).buf = none := by
  cases hgo with
  | acquirePanic | finishPanic | intrStatus | intrTrap => exact .inl rfl
  | acquire pc hpc _ | woken pc hpc =>
    rw [pc_setPc_self]
    cases hat : s.pc p <;> rw [hat] at hpc <;> cases hpc <;> exact .inl rfl
  | release hpc =>
    rw [St.release, pc_setPc_self]
    exact .inr rfl
  | allocFail b w u woke hpc | waitSleep b c hpc =>
    rw [pc_sleep_self, hpc]
    exact .inl rfl
  | format b w c hpc =>
    rw [St.goFormat, pc_setPc_self, hpc]
    exact .inl rfl
  | ring b c hpc =>
    rw [St.goRing, pc_setPc_self, hpc]
    exact .inl rfl
  | bump b c hpc =>
    rw [St.goBump, pc_setPc_self, hpc]
    exact .inl rfl
  | intrDone b hpc =>
    rw [pc_wakeup]
    exact .inl rfl
  | alloc b w c hpc | finish b c u hpc | intrEmpty hpc =>
    rw [pc_setPc_self, hpc]
    exact .inl rfl

theorem bufs_goes (h : Bufs s) (hgo : Goes s p t) : Bufs t := by
  have hback : ∀ {q b}, (t.pc q).buf = some b → (s.pc q).buf = some b := by
    intro q b hq
    by_cases hqp : q = p
    · subst hqp
      obtain heq | heq := goes_buf hgo
      · rwa [heq] at hq
      · rw [heq] at hq
        cases hq
    · rwa [goes_other hgo hqp] at hq
  intro q r b hq hr
  exact h q r b (hback hq) (hback hr)

theorem bufs_does (h : Bufs s) (hdo : Does s a t) : Bufs t := by
  intro q r b hq hr
  cases hdo with
  | rw p b' w huser hfresh =>
    have hother : ∀ {q}, q ≠ p → ((s.setPc p (.rw b' w)).pc q).buf = some b → b ≠ b' := by
      rintro q hne hq rfl
      rw [pc_setPc_of_ne hne] at hq
      exact hfresh q hq
    have hself : ∀ {q}, q = p → ((s.setPc p (.rw b' w)).pc q).buf = some b → b = b' := by
      rintro q rfl hq
      rw [pc_setPc_self] at hq
      exact (Option.some.inj hq).symm
    by_cases hqp : q = p
    · by_cases hrp : r = p
      · rw [hqp, hrp]
      · exact absurd (hself hqp hq) (hother hrp hr)
    · by_cases hrp : r = p
      · exact absurd (hself hrp hr) (hother hqp hq)
      · rw [pc_setPc_of_ne hqp] at hq
        rw [pc_setPc_of_ne hrp] at hr
        exact h q r b hq hr
  | interrupt p huser =>
    have hne : ∀ {q}, ((s.setPc p .intr).pc q).buf = some b → (s.pc q).buf = some b := by
      intro q hq
      by_cases hqp : q = p
      · rw [hqp, pc_setPc_self] at hq
        cases hq
      · rwa [pc_setPc_of_ne hqp] at hq
    exact h q r b (hne hq) (hne hr)
  | kill p =>
    rw [pc_kill] at hq hr
    exact h q r b hq hr
  | _ => exact h q r b hq hr

end Xv6.VirtioMachine
