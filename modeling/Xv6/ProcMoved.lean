import Xv6.ProcPlaces

/-!
# Moves keep the invariant

A move of a process, of an interrupt or of a scheduler keeps `Inv`.  The locks of the moving CPU change as
`lockStep` says; slots whose lock another CPU has stay as they are; and the process that moves gets the
state of its new place.
-/

namespace Xv6.ProcMoved

open Xv6.LabelledRuns Xv6.ProcMachine Xv6.ProcMoves Xv6.ProcPlaces
open Function (update_self update_of_ne)

variable {n m : ℕ} {initproc : Fin n} {s t : St n m} {c d : Fin m} {p q : Fin n} {a : Act n}
  {mv : Move n}

/-! ### What a move keeps -/

section Moved

variable (h : Inv initproc s) (hm : Moved initproc s c a mv t)

include hm

theorem active_moved (d : Fin m) : t.active d = s.active d := by
  unfold St.active
  rw [hm.on]

theorem ctl_other {th : Thread n m} (hne : th ≠ s.active c)
    (hc : ∀ i, mv.effect = .context i → th ≠ .proc i) : t.ctl th = s.ctl th := by
  rw [hm.ctl, update_of_ne hne, effect_ctl_of_ne hc]

include h

theorem context_unused {i : Fin n} (he : mv.effect = .context i) : (s.proc i).state = .unused := by
  have hf := h.found c
  rw [context_inv hm.moves he] at hf
  exact hf

theorem ctl_ne_context {d : Fin m} {i : Fin n} (he : mv.effect = .context i) : s.active d ≠ .proc i := by
  intro hc
  have hph := phase_ran (active_proc.mp hc)
  exact h.not_proc_of_unused (context_unused h hm he) d (by rw [hph]; rfl)

theorem ctl_self : t.ctl (s.active c) = (s.ctl (s.active c)).goto mv.next := by
  rw [hm.ctl, update_self, effect_ctl_of_ne fun i he => ctl_ne_context h hm he]

theorem ctl_active (hne : d ≠ c) : t.ctl (s.active d) = s.ctl (s.active d) :=
  ctl_other hm (h.active_ne hne) fun _ he => ctl_ne_context h hm he

theorem heldBy_other (hne : d ≠ c) : heldBy initproc t d = heldBy initproc s d := by
  unfold heldBy
  rw [active_moved hm, ctl_active h hm hne]

theorem heldBy_self : heldBy initproc t c = held initproc (own (s.active c)) mv.next := by
  unfold heldBy
  rw [active_moved hm, ctl_self h hm, goto_pc]

theorem locks_moved : (∃ r, s.lock r = none ∧ t.lock = Function.update s.lock r (some c) ∧
      heldBy initproc t c = r :: heldBy initproc s c) ∨
    (∃ r, s.lock r = some c ∧ t.lock = Function.update s.lock r none ∧
      (heldBy initproc s c).Perm (r :: heldBy initproc t c)) ∨
    (t.lock = s.lock ∧ heldBy initproc t c = heldBy initproc s c) := by
  have hstep := hm.moves.lockStep
  rw [own_modeOf, ← heldBy_self h hm] at hstep
  have hlock := hm.lock
  cases hop : mv.lock with
  | acquire r =>
    rw [hop] at hstep hlock
    exact Or.inl ⟨r, hlock.1, hlock.2.1, hstep⟩
  | release r =>
    rw [hop] at hstep hlock
    exact Or.inr (Or.inl ⟨r, hlock.1, hlock.2.1, hstep⟩)
  | none =>
    rw [hop] at hstep hlock
    exact Or.inr (Or.inr ⟨hlock.1, hstep⟩)
  | acquireOther l | releaseOther l =>
    rw [hop] at hstep hlock
    exact Or.inr (Or.inr ⟨hlock.2.1, hstep⟩)

theorem nodup_moved (d : Fin m) : (heldBy initproc t d).Nodup := by
  by_cases hne : d = c
  · subst hne
    obtain ⟨r, hfree, -, hheld⟩ | ⟨r, -, -, hheld⟩ | ⟨-, hheld⟩ := locks_moved h hm
    · rw [hheld, List.nodup_cons]
      refine ⟨fun hin => ?_, h.nodup d⟩
      rw [← h.locks, hfree] at hin
      cases hin
    · exact (List.nodup_cons.mp (hheld.nodup_iff.mp (h.nodup d))).2
    · rw [hheld]
      exact h.nodup d
  · rw [heldBy_other h hm hne]
    exact h.nodup d

theorem lock_iff_moved (d : Fin m) (q : Fin n) : t.lock q = some d ↔ q ∈ heldBy initproc t d := by
  obtain ⟨r, hfree, hlock, hheld⟩ | ⟨r, hmine, hlock, hheld⟩ | ⟨hlock, hheld⟩ := locks_moved h hm
  · -- `acquire` of `r`
    rw [hlock]
    by_cases hq : q = r
    · subst hq
      rw [update_self, Option.some.injEq]
      constructor
      · rintro rfl
        rw [hheld]
        exact List.mem_cons_self
      · intro hin
        by_contra hne
        rw [heldBy_other h hm fun hc => hne hc.symm, ← h.locks, hfree] at hin
        cases hin
    · rw [update_of_ne hq, h.locks]
      by_cases hne : d = c
      · subst hne
        rw [hheld, List.mem_cons]
        exact ⟨Or.inr, fun hin => hin.resolve_left hq⟩
      · rw [heldBy_other h hm hne]
  · -- `release` of `r`
    have hnd := hheld.nodup_iff.mp (h.nodup c)
    rw [hlock]
    by_cases hq : q = r
    · subst hq
      rw [update_self]
      refine ⟨nofun, fun hin => ?_⟩
      by_cases hne : d = c
      · subst hne
        exact absurd hin (List.nodup_cons.mp hnd).1
      · rw [heldBy_other h hm hne, ← h.locks, hmine] at hin
        exact absurd (Option.some.inj hin).symm hne
    · rw [update_of_ne hq, h.locks]
      by_cases hne : d = c
      · subst hne
        rw [hheld.mem_iff, List.mem_cons]
        exact ⟨fun hin => hin.resolve_left hq, Or.inr⟩
      · rw [heldBy_other h hm hne]
  · rw [hlock, h.locks]
    by_cases hne : d = c
    · rw [hne, hheld]
    · rw [heldBy_other h hm hne]

theorem lock_of_touched (hq : q ∈ touches mv.effect) : s.lock q = some c ∨ s.lock q = none := by
  have hin := hm.moves.touches hq
  rw [own_modeOf, ← heldBy_self h hm] at hin
  obtain hin | hin := hin
  · exact Or.inl ((h.locks c q).mpr hin)
  · obtain ⟨r, hfree, -, hheld⟩ | ⟨r, -, -, hheld⟩ | ⟨-, hheld⟩ := locks_moved h hm
    · rw [hheld, List.mem_cons] at hin
      obtain rfl | hin := hin
      · exact Or.inr hfree
      · exact Or.inl ((h.locks c q).mpr hin)
    · exact Or.inl ((h.locks c q).mpr (hheld.mem_iff.mpr (List.mem_cons_of_mem r hin)))
    · rw [hheld] at hin
      exact Or.inl ((h.locks c q).mpr hin)

theorem proc_of_heldBy (hne : d ≠ c) (hq : q ∈ heldBy initproc s d) :
    t.proc q = s.proc q ∧ t.saved q = s.saved q := by
  have hnot : q ∉ touches mv.effect := by
    intro hin
    rw [← h.locks] at hq
    obtain hc | hc := lock_of_touched h hm hin
    · rw [hq] at hc
      exact hne (Option.some.inj hc)
    · rw [hq] at hc
      cases hc
  have hctx : mv.effect ≠ .context q := fun he => hnot (by rw [he]; exact List.mem_singleton.mpr rfl)
  rw [hm.proc, hm.saved]
  exact ⟨effect_proc_of_not_mem hnot, effect_saved_of_ne hctx⟩

theorem quiet_moved (th : Thread n m) (ht : (t.ctl th).trap ≠ none) :
    held initproc (own th) (t.ctl th).base = [] := by
  by_cases hth : th = s.active c
  · rw [hth, ctl_self h hm] at ht ⊢
    have hs : (s.ctl (s.active c)).trap ≠ none := fun hc => ht ((goto_trap _ _).mpr hc)
    rw [goto_base hs]
    exact h.quiet _ hs
  · by_cases hc : ∃ i, mv.effect = .context i ∧ th = .proc i
    · obtain ⟨i, he, rfl⟩ := hc
      rw [hm.ctl, update_of_ne hth, he] at ht
      exact absurd (by simp [St.effect, St.setCtl]) ht
    · have hctl := ctl_other hm hth fun i he hi => hc ⟨i, he, hi⟩
      rw [hctl] at ht ⊢
      exact h.quiet th ht

end Moved

/-! ### What is known about locked slots -/

theorem found_congr (initproc : Fin n) (o : Option (Fin n)) {pc : Pc n} (hf : Found s pc)
    (hsame : ∀ i, i ∈ held initproc o pc → t.proc i = s.proc i ∧ t.saved i = s.saved i ∧
      ((s.proc i).state = .unused → t.ctl (.proc i) = s.ctl (.proc i))) : Found t pc := by
  unfold Found at *
  split at hf
  case h_1 i | h_2 i | h_3 i =>
    rw [(hsame i (List.mem_singleton.mpr rfl)).1]
    exact hf
  case h_4 i =>
    obtain ⟨hp, hs, hc⟩ := hsame i (List.mem_singleton.mpr rfl)
    rw [hp, hs, hc hf.1]
    exact hf
  case h_5 i =>
    rw [(hsame i List.mem_cons_self).1]
    exact hf
  case h_6 => trivial

theorem found_next {x : Mode n} {pc : Pc n} (hmv : Moves initproc s.proc x pc a mv) (hf : Found s pc) :
    Found (s.effect initproc c mv.effect) mv.next := by
  cases hmv <;> try trivial
  case allocpid i =>
    change (Function.update s.proc i _ i).state = _
    rw [update_self]
    exact hf
  case pagetable i =>
    refine ⟨hf, ?_, ?_⟩
    · exact update_self i true s.saved
    · change Function.update s.ctl (.proc i) _ (.proc i) = _
      rw [update_self]

theorem modeOf_proc (s : St n m) (p : Fin n) : modeOf s (.proc p) = .proc p ∨ modeOf s (.proc p) = .trap p := by
  simp only [modeOf]
  split
  · exact Or.inl rfl
  · exact Or.inr rfl

theorem state_moved (h : Inv initproc s) (hm : Moved initproc s c a mv t) (hon : s.on c = some p) :
    (t.proc p).state = stateAt mv.next := by
  have hmoves := hm.moves
  have hf := h.found c
  rw [active_proc.mpr hon] at hmoves hf
  rw [hm.proc]
  exact state_self hmoves (modeOf_proc s p) (h.state_of_on hon).1 hf

theorem found_moved (h : Inv initproc s) (hm : Moved initproc s c a mv t) (d : Fin m) :
    Found t (t.ctl (t.active d)).pc := by
  rw [active_moved hm]
  by_cases hne : d = c
  · subst hne
    rw [ctl_self h hm, goto_pc]
    have hf : Found (s.effect initproc d mv.effect) mv.next := found_next hm.moves (h.found d)
    refine found_congr initproc none hf fun i _ => ⟨by rw [hm.proc], by rw [hm.saved], fun hu => ?_⟩
    rw [hm.ctl]
    apply update_of_ne
    intro hact
    rw [← hm.proc, state_moved h hm (active_proc.mp hact.symm)] at hu
    exact stateAt_ne_unused _ hu
  · rw [ctl_active h hm hne]
    refine found_congr initproc (own (s.active d)) (h.found d) fun i hi => ?_
    obtain ⟨hp, hs⟩ := proc_of_heldBy h hm hne hi
    refine ⟨hp, hs, fun hu => ctl_other hm ?_ ?_⟩
    · intro hact
      rw [(h.state_of_on (active_proc.mp hact.symm)).1] at hu
      exact stateAt_ne_unused _ hu
    · -- the lock of a slot that gets a context is not another CPU's
      intro j he hj
      obtain rfl := Thread.proc.inj hj
      have hlock := (h.locks d i).mpr hi
      obtain hc | hc := lock_of_touched h hm (q := i) (by rw [he]; exact List.mem_singleton.mpr rfl)
      · rw [hlock] at hc
        exact hne (Option.some.inj hc)
      · rw [hlock] at hc
        cases hc

theorem wrote_moved (h : Inv initproc s) (hm : Moved initproc s c a mv t) (q : Fin n) :
    Wrote initproc s (modeOf s (s.active c)) (s.ctl (s.active c)).pc q (t.proc q) := by
  rw [hm.proc]
  exact wrote_of_moves hm.moves (h.found c) q

theorem change_moved (h : Inv initproc s) (hm : Moved initproc s c a mv t) (q : Fin n) :
    Change s (modeOf s (s.active c)) (s.ctl (s.active c)).pc q (t.proc q).state :=
  change_of_wrote (wrote_moved h hm q)

/-! ### Phases -/

theorem placed_congr {ph ph' : Fin m → Phase n} {st : ProcState} {sv : Bool} {pc : Pc n}
    (hp : Placed ph q st sv pc) (hsame : ∀ d, (ph d).proc = some q → ph' d = ph d)
    (hno : ∀ d, (ph' d).proc = some q → (ph d).proc = some q) : Placed ph' q st sv pc := by
  cases hp with
  | unused hn => exact .unused fun d hd => hn d (hno d hd)
  | out hn ho => exact .out (fun d hd => hn d (hno d hd)) ho
  | chosen d hd hk => exact .chosen d (by rw [hsame d (by rw [hd]; rfl), hd]) hk
  | ran d hd => exact .ran d (by rw [hsame d (by rw [hd]; rfl), hd])
  | left d hd => exact .left d (by rw [hsame d (by rw [hd]; rfl), hd])

theorem phase_at_of_quiet {o : Option (Fin n)} {pc : Pc n} (h : held initproc o pc = []) : Phase.at pc = .idle := by
  unfold Phase.at
  split
  case h_1 | h_2 => cases h
  case h_3 => rfl

theorem ctl_sched_other (hm : Moved initproc s c a mv t) (hne : Thread.sched d ≠ s.active c) :
    t.ctl (.sched d) = s.ctl (.sched d) :=
  ctl_other hm hne fun _ _ => nofun

/-- The parts of the invariant that every move keeps. -/
theorem inv_moved (h : Inv initproc s) (hm : Moved initproc s c a mv t)
    (hcproc : ∀ d, t.cproc d = (phase t d).proc)
    (hinj : ∀ d e p, (phase t d).proc = some p → (phase t e).proc = some p → d = e)
    (hplaced : ∀ q, Placed (phase t) q (t.proc q).state (t.saved q) (t.ctl (.proc q)).pc) :
    Inv initproc t where
  cproc := hcproc
  back := by
    intro d p hon
    rw [hm.on] at hon
    have hne : Thread.sched d ≠ s.active c := by
      intro hact
      obtain ⟨hnone, rfl⟩ := active_sched.mp hact.symm
      rw [hnone] at hon
      cases hon
    rw [ctl_sched_other hm hne]
    exact h.back d p hon
  inj := hinj
  placed := hplaced
  nodup := nodup_moved h hm
  locks := lock_iff_moved h hm
  quiet := quiet_moved h hm
  found := found_moved h hm

section Ordinary

variable (h : Inv initproc s) (hm : Moved initproc s c a mv t)
  (hx : modeOf s (s.active c) ≠ .sched)

include hx in
theorem trap_of_sched (hact : s.active c = .sched c) : (s.ctl (.sched c)).trap ≠ none := by
  intro ht
  rw [hact] at hx
  simp only [modeOf, ht, if_true] at hx
  exact hx rfl

include h hx in
theorem phase_proc_ne (hq : own (s.active c) ≠ some q) : (phase s c).proc ≠ some q := by
  cases hon : s.on c with
  | some p =>
    rw [active_proc.mpr hon] at hq
    rw [phase_ran hon]
    exact hq
  | none =>
    have hact := active_sched.mpr ⟨hon, rfl⟩
    rw [phase_of_on_none hon, phase_at_of_quiet (h.quiet _ (trap_of_sched hx hact))]
    exact nofun

include h hm hx

theorem phase_ordinary : phase t = phase s := by
  funext d
  unfold phase
  rw [hm.on]
  cases hon : s.on d with
  | some p => rfl
  | none =>
    simp only
    by_cases hact : Thread.sched d = s.active c
    · obtain ⟨-, rfl⟩ := active_sched.mp hact.symm
      rw [hact, ctl_self h hm, ← hact, goto_base (trap_of_sched hx hact.symm)]
    · rw [ctl_other hm hact fun _ _ => nofun]

theorem placed_other (hq : own (s.active c) ≠ some q) :
    Placed (phase s) q (t.proc q).state (t.saved q) (t.ctl (.proc q)).pc := by
  have hact : Thread.proc q ≠ s.active c := fun hc => hq (by rw [← hc]; rfl)
  by_cases hctx : mv.effect = .context q
  · -- a new context, for an unused slot
    have hu := context_unused h hm hctx
    have hsame : (t.proc q).state = .unused := by
      rw [hm.proc, hctx]
      exact hu
    rw [hsame]
    exact .unused (h.not_proc_of_unused hu)
  have hsaved : t.saved q = s.saved q := by rw [hm.saved, effect_saved_of_ne hctx]
  have hctl : t.ctl (.proc q) = s.ctl (.proc q) :=
    ctl_other hm hact fun i he hi => hctx (by rw [he, Thread.proc.inj hi])
  rw [hsaved, hctl]
  by_cases htouch : q ∈ touches mv.effect
  · -- nobody has its lock and deals with it
    have hl : ∀ d, (phase s d).proc = some q → s.lock q ≠ some d := by
      intro d hd hlock
      obtain hc | hc := lock_of_touched h hm htouch
      · rw [hlock] at hc
        obtain rfl := Option.some.inj hc
        exact phase_proc_ne h hx hq hd
      · rw [hlock] at hc
        cases hc
    have hchange := change_moved h hm q
    generalize (t.proc q).state = st at hchange
    cases hchange with
    | same => exact h.placed q
    | woken hsl =>
      obtain ⟨k, hpc, ho, hsv, hn⟩ := h.switched_out (by rw [hsl]; exact nofun)
        (by rw [hsl]; exact nofun) hl
      rw [hsl] at ho
      rw [hpc, hsv]
      refine .out hn (Or.inr ⟨?_, rfl⟩)
      obtain ho | ho := ho
      · exact ho.symm
      · exact ho.1
    | born p _ hpc =>
      have hf := h.found c
      rw [hpc] at hf
      rw [hf.2.1, hf.2.2]
      exact .out (h.not_proc_of_unused hf.1) (Or.inl rfl)
    | freed hst =>
      obtain hu | hz := hst
      · exact .unused (h.not_proc_of_unused hu)
      · obtain ⟨k, -, -, -, hn⟩ := h.switched_out (by rw [hz]; exact nofun)
          (by rw [hz]; exact nofun) hl
        exact .unused hn
    | yielded hmode _ | slept hmode _ | exited hmode _ _ _ _ _ => exact absurd (by rw [← own_modeOf, hmode]; rfl) hq
    | dispatched hmode _ => exact absurd hmode hx
  · have hproc : t.proc q = s.proc q := by rw [hm.proc, effect_proc_of_not_mem htouch]
    rw [hproc]
    exact h.placed q

theorem placed_ordinary (q : Fin n) : Placed (phase t) q (t.proc q).state (t.saved q) (t.ctl (.proc q)).pc := by
  rw [phase_ordinary h hm hx]
  by_cases hq : own (s.active c) = some q
  · have hact : s.active c = .proc q := by
      cases hth : s.active c with
      | proc p =>
        rw [hth] at hq
        exact congrArg Thread.proc (Option.some.inj hq)
      | sched d =>
        rw [hth] at hq
        cases hq
    have hon := active_proc.mp hact
    have hsaved : t.saved q = false := by
      rw [hm.saved, effect_saved_of_ne fun he => ctl_ne_context h hm he hact]
      exact (h.state_of_on hon).2
    rw [state_moved h hm hon, hsaved, ← hact, ctl_self h hm, goto_pc]
    exact .ran c (phase_ran hon)
  · exact placed_other h hm hx hq

theorem inv_ordinary : Inv initproc t := by
  refine inv_moved h hm ?_ ?_ (placed_ordinary h hm hx)
  · intro d
    rw [hm.cproc, effect_cproc hm.moves hx, phase_ordinary h hm hx]
    exact h.cproc d
  · rw [phase_ordinary h hm hx]
    exact h.inj

end Ordinary

/-! ### The scheduler -/

section Scheduler

variable (h : Inv initproc s) (hm : Moved initproc s c a mv t)
  (hx : modeOf s (s.active c) = .sched)

include hx in
theorem sched_of_mode : s.on c = none ∧ s.active c = .sched c ∧ (s.ctl (.sched c)).trap = none := by
  cases hon : s.on c with
  | some p =>
    rw [active_proc.mpr hon] at hx
    obtain hc | hc := modeOf_proc s p <;> rw [hc] at hx <;> cases hx
  | none =>
    have hact := active_sched.mpr ⟨hon, rfl⟩
    rw [hact] at hx
    simp only [modeOf] at hx
    split at hx
    case isTrue ht => exact ⟨rfl, hact, ht⟩
    case isFalse => cases hx

include hm hx in
theorem moves_sched : Moves initproc s.proc .sched (s.ctl (.sched c)).base a mv := by
  obtain ⟨-, hact, ht⟩ := sched_of_mode hx
  have hmoves := hm.moves
  rw [hx, hact, Ctl.pc, ht, Option.getD_none] at hmoves
  exact hmoves

include hm hx in
theorem phase_sched_other (hne : d ≠ c) : phase t d = phase s d := by
  obtain ⟨-, hact, -⟩ := sched_of_mode hx
  unfold phase
  rw [hm.on, ctl_sched_other hm (by rw [hact]; exact fun hc => hne (Thread.sched.inj hc))]

include hm hx in
theorem thread_sched (hctx : ∀ i, mv.effect ≠ .context i) (q : Fin n) :
    t.saved q = s.saved q ∧ t.ctl (.proc q) = s.ctl (.proc q) := by
  obtain ⟨-, hact, -⟩ := sched_of_mode hx
  refine ⟨by rw [hm.saved, effect_saved_of_ne (hctx q)], ctl_other hm ?_ fun i he => absurd he (hctx i)⟩
  rw [hact]
  exact nofun

include h hm hx

theorem phase_sched_self : phase t c = .at mv.next := by
  obtain ⟨hon, hact, ht⟩ := sched_of_mode hx
  have hself := ctl_self h hm
  rw [hact, goto_of_none ht] at hself
  rw [phase_of_on_none (by rw [hm.on, hon]), hself]

theorem inv_scanning (he : mv.effect = .none) (hs : phase s c = .idle) (ht : phase t c = .idle) : Inv initproc t := by
  have hphase : phase t = phase s := by
    funext d
    by_cases hne : d = c
    · rw [hne, hs, ht]
    · exact phase_sched_other hm hx hne
  have hproc : t.proc = s.proc := by
    rw [hm.proc, he]
    rfl
  have hctx : ∀ i, mv.effect ≠ .context i := by
    rw [he]
    exact fun i => nofun
  refine inv_moved h hm ?_ ?_ ?_
  · intro d
    rw [hphase, hm.cproc, he]
    exact h.cproc d
  · rw [hphase]
    exact h.inj
  · intro q
    obtain ⟨hsaved, hctl⟩ := thread_sched hm hx hctx q
    rw [hphase, hproc, hsaved, hctl]
    exact h.placed q

theorem inv_dispatch {i : Fin n} (he : mv.effect = .dispatch i) (hr : (s.proc i).state = .runnable)
    (hfree : s.lock i = none) (hs : phase s c = .idle) (ht : phase t c = .chosen i) : Inv initproc t := by
  have hctx : ∀ j, mv.effect ≠ .context j := by
    rw [he]
    exact fun j => nofun
  obtain ⟨k, hpc, ho, hsv, hn⟩ := h.switched_out (q := i) (by rw [hr]; exact nofun)
    (by rw [hr]; exact nofun) fun d _ => by rw [hfree]; exact nofun
  refine inv_moved h hm ?_ ?_ ?_
  · intro d
    rw [hm.cproc, he]
    change Function.update s.cproc c (some i) d = _
    by_cases hne : d = c
    · rw [hne, update_self, ht]
      rfl
    · rw [update_of_ne hne, phase_sched_other hm hx hne]
      exact h.cproc d
  · -- nobody else deals with `i`
    have hone : ∀ d, (phase t d).proc = some i → d = c := by
      intro d hd
      by_contra hne
      rw [phase_sched_other hm hx hne] at hd
      exact hn d hd
    intro d e p hd he'
    by_cases hdc : d = c
    · rw [hdc, ht] at hd
      obtain rfl := Option.some.inj hd
      rw [hone e he', hdc]
    · by_cases hec : e = c
      · rw [hec, ht] at he'
        obtain rfl := Option.some.inj he'
        exact absurd (hone d hd) hdc
      · rw [phase_sched_other hm hx hdc] at hd
        rw [phase_sched_other hm hx hec] at he'
        exact h.inj d e p hd he'
  · intro q
    obtain ⟨hsaved, hctl⟩ := thread_sched hm hx hctx q
    rw [hsaved, hctl]
    have hproc : t.proc = Function.update s.proc i { s.proc i with state := .running } := by
      rw [hm.proc, he]
      rfl
    by_cases hq : q = i
    · subst hq
      rw [hproc, update_self, hsv, hpc]
      refine .chosen c ht ?_
      rintro rfl
      rw [hr] at ho
      obtain ho | ho := ho
      · cases ho
      · cases ho.1
    · rw [hproc, update_of_ne hq]
      refine placed_congr (h.placed q) ?_ ?_
      · intro d hd
        refine phase_sched_other hm hx ?_
        rintro rfl
        rw [hs] at hd
        cases hd
      · intro d hd
        by_cases hne : d = c
        · rw [hne, ht] at hd
          exact absurd (Option.some.inj hd).symm hq
        · rwa [phase_sched_other hm hx hne] at hd

theorem inv_undispatch {i : Fin n} (he : mv.effect = .undispatch) (hs : phase s c = .left i)
    (ht : phase t c = .idle) : Inv initproc t := by
  have hctx : ∀ j, mv.effect ≠ .context j := by
    rw [he]
    exact fun j => nofun
  have hno : ∀ d p, (phase t d).proc = some p → d ≠ c ∧ (phase s d).proc = some p := by
    intro d p hd
    have hne : d ≠ c := by
      rintro rfl
      rw [ht] at hd
      cases hd
    rw [phase_sched_other hm hx hne] at hd
    exact ⟨hne, hd⟩
  refine inv_moved h hm ?_ ?_ ?_
  · intro d
    rw [hm.cproc, he]
    change Function.update s.cproc c none d = _
    by_cases hne : d = c
    · rw [hne, update_self, ht]
      rfl
    · rw [update_of_ne hne, phase_sched_other hm hx hne]
      exact h.cproc d
  · intro d e p hd he'
    exact h.inj d e p (hno d p hd).2 (hno e p he').2
  · intro q
    obtain ⟨hsaved, hctl⟩ := thread_sched hm hx hctx q
    have hproc : t.proc = s.proc := by
      rw [hm.proc, he]
      rfl
    rw [hsaved, hctl, hproc]
    by_cases hq : q = i
    · -- it is switched out now
      subst hq
      have hnone : ∀ d, (phase t d).proc ≠ some q := by
        intro d hd
        obtain ⟨hne, hd⟩ := hno d q hd
        exact hne (h.inj d c q hd (by rw [hs]; rfl))
      generalize hst : (s.proc q).state = st
      generalize hsv : s.saved q = sv
      generalize hpc : (s.ctl (.proc q)).pc = pc
      have hp := h.placed q
      rw [hst, hsv, hpc] at hp
      cases hp with
      | unused _ => exact .unused hnone
      | out _ ho => exact .out hnone ho
      | chosen d hd _ | ran d hd =>
        obtain rfl := h.inj d c q (by rw [hd]; rfl) (by rw [hs]; rfl)
        rw [hs] at hd
        cases hd
      | left d _ => exact .out hnone (Or.inl rfl)
    · refine placed_congr (h.placed q) ?_ fun d hd => (hno d q hd).2
      intro d hd
      refine phase_sched_other hm hx ?_
      rintro rfl
      rw [hs] at hd
      exact hq (Option.some.inj hd).symm

theorem inv_sched : Inv initproc t := by
  obtain ⟨hon, -, -⟩ := sched_of_mode hx
  have hmoves := moves_sched hm hx
  have hs := phase_of_on_none hon
  have ht := phase_sched_self h hm hx
  have hlock := hm.lock
  generalize (s.ctl (.sched c)).base = pc at hmoves hs
  cases hmoves with
  | dispatch i hr => exact inv_dispatch h hm hx rfl hr hlock.1 hs ht
  | scanOther i _ | scanEnd _ | scanNext i => exact inv_scanning h hm hx rfl hs ht
  | back i => exact inv_undispatch h hm hx rfl hs ht
  | acquireOther hx' | releaseOther hx' | wakeupCall hx' | wakeup hx' | wakeupEnd hx' | wakeupNext hx' =>
    exact absurd rfl hx'

end Scheduler

end Xv6.ProcMoved
