import Xv6.ProcMoved

/-!
# The invariant of `proc.c`

Every step keeps `Inv`: besides moves there are interrupts and switches.
-/

namespace Xv6.ProcInv

open Xv6.LabelledRuns Xv6.ProcMachine Xv6.ProcMoves Xv6.ProcPlaces Xv6.ProcMoved
open Function (update_self update_of_ne)

variable {n m : ℕ} {initproc : Fin n} {s t : St n m} {c d : Fin m} {p q : Fin n} {a : Act n}

/-! ### Threads in interrupts and switches -/

theorem setCtl_self (s : St n m) (th : Thread n m) (x : Ctl n) : (s.setCtl th x).ctl th = x := by
  simp only [St.setCtl, update_self]

theorem setCtl_of_ne {th th' : Thread n m} (hne : th' ≠ th) (x : Ctl n) : (s.setCtl th x).ctl th' = s.ctl th' := by
  simp only [St.setCtl, update_of_ne hne]

theorem setCtl_base (s : St n m) (th th' : Thread n m) (x : Option (Pc n)) :
    ((s.setCtl th ⟨(s.ctl th).base, x⟩).ctl th').base = (s.ctl th').base := by
  by_cases hth : th' = th
  · rw [hth, setCtl_self]
  · rw [setCtl_of_ne hth]

theorem switchOut_self (s : St n m) (c : Fin m) (p : Fin n) (k : After) :
    (s.switchOut c p k).ctl (.proc p) = (s.ctl (.proc p)).goto (.resumed k) :=
  setCtl_self s _ _

theorem switchOut_of_ne {th : Thread n m} (hne : th ≠ .proc p) (k : After) : (s.switchOut c p k).ctl th = s.ctl th :=
  setCtl_of_ne hne _

theorem switchIn_self (s : St n m) (c : Fin m) (p : Fin n) : (s.switchIn c p).ctl (.sched c) = ⟨.back p, none⟩ :=
  setCtl_self s _ _

theorem switchIn_of_ne {th : Thread n m} (hne : th ≠ .sched c) (p : Fin n) : (s.switchIn c p).ctl th = s.ctl th :=
  setCtl_of_ne hne _

/-! ### Interrupts -/

theorem found_of_quiet {o : Option (Fin n)} {pc : Pc n} (h : held initproc o pc = []) : Found s pc := by
  unfold Found
  split
  case h_6 => trivial
  all_goals cases h

theorem stateAt_of_quiet {pc : Pc n} (h : held initproc (some q) pc = []) : stateAt pc = .running := by
  by_contra hne
  have hin : q ∈ held initproc (some q) pc := mem_held_of_stateAt hne
  rw [h] at hin
  cases hin

section Trap

variable (h : Inv initproc s) {x : Option (Pc n)} (hfree : s.Free c)
  (hbase : held initproc (own (s.active c)) (s.ctl (s.active c)).base = [])
  (hx : x = none ∨ x = some .run)

include hbase hx in
theorem held_trap : held initproc (own (s.active c)) (⟨(s.ctl (s.active c)).base, x⟩ : Ctl n).pc = [] := by
  obtain rfl | rfl := hx
  · exact hbase
  · rfl

include h hfree hbase hx

theorem inv_trap (ht : t = s.setCtl (s.active c) ⟨(s.ctl (s.active c)).base, x⟩) : Inv initproc t := by
  have hself : t.ctl (s.active c) = ⟨(s.ctl (s.active c)).base, x⟩ := by rw [ht, setCtl_self]
  have hother : ∀ {th}, th ≠ s.active c → t.ctl th = s.ctl th := by
    intro th hne
    rw [ht, setCtl_of_ne hne]
  have hon : t.on = s.on := by rw [ht]; rfl
  have hproc : t.proc = s.proc := by rw [ht]; rfl
  have hsaved : t.saved = s.saved := by rw [ht]; rfl
  have hcproc : t.cproc = s.cproc := by rw [ht]; rfl
  have hlock : t.lock = s.lock := by rw [ht]; rfl
  have hact : ∀ d, t.active d = s.active d := by
    intro d
    unfold St.active
    rw [hon]
  have hbases : ∀ th, (t.ctl th).base = (s.ctl th).base := by
    intro th
    rw [ht, setCtl_base]
  have hphase : phase t = phase s := by
    funext d
    unfold phase
    rw [hbases, hon]
  have hheld : ∀ d, heldBy initproc t d = heldBy initproc s d := by
    intro d
    by_cases hne : d = c
    · rw [hne, h.heldBy_of_free hfree]
      unfold heldBy
      rw [hact, hself]
      exact held_trap hbase hx
    · unfold heldBy
      rw [hact, hother (h.active_ne hne)]
  refine ⟨?_, ?_, ?_, ?_, ?_, ?_, ?_, ?_⟩
  · rw [hphase, hcproc]
    exact h.cproc
  · intro d p hp
    rw [hon] at hp
    rw [hother]
    · exact h.back d p hp
    · intro hd
      obtain ⟨hnone, rfl⟩ := active_sched.mp hd.symm
      rw [hnone] at hp
      cases hp
  · rw [hphase]
    exact h.inj
  · intro q
    rw [hphase, hproc, hsaved]
    by_cases hq : Thread.proc q = s.active c
    · have honq := active_proc.mp hq.symm
      obtain ⟨hst, hsv⟩ := h.state_of_on honq
      have hold : stateAt (s.ctl (.proc q)).pc = .running := by
        apply stateAt_of_quiet
        rw [← heldBy_ran honq]
        exact h.heldBy_of_free hfree
      have hnew : held initproc (some q) (t.ctl (.proc q)).pc = [] := by
        rw [← heldBy_ran (by rw [hon, honq]), hheld]
        exact h.heldBy_of_free hfree
      rw [hst, hold, hsv, ← stateAt_of_quiet hnew]
      exact .ran c (phase_ran honq)
    · rw [hother hq]
      exact h.placed q
  · intro d
    rw [hheld]
    exact h.nodup d
  · intro d q
    rw [hheld, hlock]
    exact h.locks d q
  · intro th htrap
    rw [hbases]
    by_cases hth : th = s.active c
    · rw [hth]
      exact hbase
    · rw [hother hth] at htrap
      exact h.quiet th htrap
  · intro d
    rw [hact]
    by_cases hne : d = c
    · rw [hne, hself]
      exact found_of_quiet (held_trap hbase hx)
    · rw [hother (h.active_ne hne)]
      refine found_congr initproc none (h.found d) fun i _ =>
        ⟨by rw [hproc], by rw [hsaved], fun hu => hother ?_⟩
      intro hi
      rw [(h.state_of_on (active_proc.mp hi.symm)).1] at hu
      exact stateAt_ne_unused _ hu

end Trap

/-! ### Switches -/

section Switch

variable (h : Inv initproc s)

include h

theorem inv_switchOut {k : After} (hon : s.on c = some p) (hpc : (s.ctl (.proc p)).pc = .sched k) :
    Inv initproc (s.switchOut c p k) := by
  have hctl : ∀ {th}, th ≠ .proc p → (s.switchOut c p k).ctl th = s.ctl th :=
    fun hne => switchOut_of_ne hne k
  have hsched : ∀ d, (s.switchOut c p k).ctl (.sched d) = s.ctl (.sched d) := fun d => hctl nofun
  have hself := switchOut_self s c p k
  have honc : (s.switchOut c p k).on c = none := update_self _ _ _
  have hond : ∀ {d}, d ≠ c → (s.switchOut c p k).on d = s.on d :=
    fun hne => update_of_ne hne _ _
  have hphc : phase (s.switchOut c p k) c = .left p := by
    rw [phase_of_on_none honc, hsched, h.back c p hon]
    rfl
  have hphd : ∀ {d}, d ≠ c → phase (s.switchOut c p k) d = phase s d := by
    intro d hne
    unfold phase
    rw [hond hne, hsched]
  have hproc : ∀ d, (phase (s.switchOut c p k) d).proc = (phase s d).proc := by
    intro d
    by_cases hne : d = c
    · rw [hne, hphc, phase_ran hon]
      rfl
    · rw [hphd hne]
  have hact : ∀ {d}, d ≠ c → (s.switchOut c p k).active d = s.active d := by
    intro d hne
    unfold St.active
    rw [hond hne]
  have hactc : (s.switchOut c p k).active c = .sched c := active_sched.mpr ⟨honc, rfl⟩
  have hne' : ∀ {d}, d ≠ c → s.active d ≠ .proc p := by
    intro d hne
    rw [← active_proc.mpr hon]
    exact h.active_ne hne
  have hheld : ∀ d, heldBy initproc (s.switchOut c p k) d = heldBy initproc s d := by
    intro d
    by_cases hne : d = c
    · rw [hne, heldBy_ran hon, hpc]
      unfold heldBy
      rw [hactc, hsched, h.back c p hon]
      rfl
    · unfold heldBy
      rw [hact hne, hctl (hne' hne)]
  refine ⟨?_, ?_, ?_, ?_, ?_, ?_, ?_, ?_⟩
  · intro d
    rw [hproc]
    exact h.cproc d
  · intro d q hq
    rw [hsched]
    by_cases hne : d = c
    · rw [hne, honc] at hq
      cases hq
    · rw [hond hne] at hq
      exact h.back d q hq
  · intro d e q
    rw [hproc, hproc]
    exact h.inj d e q
  · intro q
    by_cases hq : q = p
    · subst hq
      have hsv : (s.switchOut c q k).saved q = true := update_self _ _ _
      have hst := (h.state_of_on hon).1
      rw [hpc] at hst
      rw [hself, goto_pc, hsv]
      change Placed _ q (s.proc q).state _ _
      rw [hst]
      exact .left c hphc
    · have hsv : (s.switchOut c p k).saved q = s.saved q := update_of_ne hq _ _
      rw [hctl fun hc => hq (Thread.proc.inj hc), hsv]
      refine placed_congr (h.placed q) ?_ fun d hd => by rwa [hproc] at hd
      intro d hd
      refine hphd ?_
      rintro rfl
      rw [phase_ran hon] at hd
      exact hq (Option.some.inj hd).symm
  · intro d
    rw [hheld]
    exact h.nodup d
  · intro d q
    rw [hheld]
    exact h.locks d q
  · intro th ht
    by_cases hth : th = .proc p
    · rw [hth, hself] at ht ⊢
      have hs : (s.ctl (.proc p)).trap ≠ none := fun hc => ht ((goto_trap _ _).mpr hc)
      rw [goto_base hs]
      exact h.quiet _ hs
    · rw [hctl hth] at ht ⊢
      exact h.quiet th ht
  · intro d
    by_cases hne : d = c
    · rw [hne, hactc, hsched, h.back c p hon]
      trivial
    · rw [hact hne, hctl (hne' hne)]
      refine found_congr initproc (own (s.active d)) (h.found d) fun i hi => ⟨rfl, ?_, ?_⟩
      · -- this CPU has the lock of `p`
        apply update_of_ne
        rintro rfl
        have hd := (h.locks d i).mpr hi
        have hc : s.lock i = some c := by
          rw [h.locks, heldBy_ran hon, hpc]
          exact List.mem_singleton.mpr rfl
        rw [hd] at hc
        exact hne (Option.some.inj hc)
      · intro hu
        refine hctl fun hc => ?_
        obtain rfl := Thread.proc.inj hc
        rw [(h.state_of_on hon).1] at hu
        exact stateAt_ne_unused _ hu

theorem inv_switchIn (hon : s.on c = none) (hsw : s.ctl (.sched c) = ⟨.swtch p, none⟩) :
    Inv initproc (s.switchIn c p) := by
  have hchosen : phase s c = .chosen p := by
    rw [phase_of_on_none hon, hsw]
    rfl
  have hctl : ∀ {th}, th ≠ .sched c → (s.switchIn c p).ctl th = s.ctl th :=
    fun hne => switchIn_of_ne hne p
  have hprocs : ∀ q, (s.switchIn c p).ctl (.proc q) = s.ctl (.proc q) := fun q => hctl nofun
  have hself := switchIn_self s c p
  have honc : (s.switchIn c p).on c = some p := update_self _ _ _
  have hond : ∀ {d}, d ≠ c → (s.switchIn c p).on d = s.on d :=
    fun hne => update_of_ne hne _ _
  have hphc : phase (s.switchIn c p) c = .ran p := phase_ran honc
  have hphd : ∀ {d}, d ≠ c → phase (s.switchIn c p) d = phase s d := by
    intro d hne
    unfold phase
    rw [hond hne, hctl fun hc => hne (Thread.sched.inj hc)]
  have hproc : ∀ d, (phase (s.switchIn c p) d).proc = (phase s d).proc := by
    intro d
    by_cases hne : d = c
    · rw [hne, hphc, hchosen]
      rfl
    · rw [hphd hne]
  have hact : ∀ {d}, d ≠ c → (s.switchIn c p).active d = s.active d := by
    intro d hne
    unfold St.active
    rw [hond hne]
  have hactc : (s.switchIn c p).active c = .proc p := active_proc.mpr honc
  have hne' : ∀ {d}, d ≠ c → s.active d ≠ .sched c := by
    intro d hne
    rw [← active_sched.mpr ⟨hon, rfl⟩]
    exact h.active_ne hne
  obtain ⟨k, hpc, hst⟩ := h.chosen_state hchosen
  have hheld : ∀ d, heldBy initproc (s.switchIn c p) d = heldBy initproc s d := by
    intro d
    by_cases hne : d = c
    · have hb : (s.ctl (.sched c)).base = .swtch p := by rw [hsw]
      have hold : heldBy initproc s c = [p] := h.heldBy_sched hon hb (List.cons_ne_nil p [])
      rw [hne, heldBy_ran honc, hprocs, hpc, hold]
      rfl
    · unfold heldBy
      rw [hact hne, hctl (hne' hne)]
  refine ⟨?_, ?_, ?_, ?_, ?_, ?_, ?_, ?_⟩
  · intro d
    rw [hproc]
    exact h.cproc d
  · intro d q hq
    by_cases hne : d = c
    · rw [hne, honc] at hq
      obtain rfl := Option.some.inj hq
      rw [hne, hself]
    · rw [hond hne] at hq
      rw [hctl fun hc => hne (Thread.sched.inj hc)]
      exact h.back d q hq
  · intro d e q
    rw [hproc, hproc]
    exact h.inj d e q
  · intro q
    rw [hprocs]
    by_cases hq : q = p
    · subst hq
      have hsv : (s.switchIn c q).saved q = false := update_self _ _ _
      rw [hsv, hpc]
      change Placed _ q (s.proc q).state _ _
      rw [hst]
      have hran : Placed _ q (stateAt (.resumed k)) false (.resumed k) := .ran c hphc
      exact hran
    · have hsv : (s.switchIn c p).saved q = s.saved q := update_of_ne hq _ _
      rw [hsv]
      refine placed_congr (h.placed q) ?_ fun d hd => by rwa [hproc] at hd
      intro d hd
      refine hphd ?_
      rintro rfl
      rw [hchosen] at hd
      exact hq (Option.some.inj hd).symm
  · intro d
    rw [hheld]
    exact h.nodup d
  · intro d q
    rw [hheld]
    exact h.locks d q
  · intro th ht
    by_cases hth : th = .sched c
    · rw [hth, hself] at ht
      exact absurd rfl ht
    · rw [hctl hth] at ht ⊢
      exact h.quiet th ht
  · intro d
    by_cases hne : d = c
    · rw [hne, hactc, hprocs, hpc]
      trivial
    · rw [hact hne, hctl (hne' hne)]
      refine found_congr initproc (own (s.active d)) (h.found d) fun i hi =>
        ⟨rfl, ?_, fun _ => hprocs i⟩
      apply update_of_ne
      rintro rfl
      have hd := (h.locks d i).mpr hi
      rw [h.lock_of_chosen hchosen] at hd
      exact hne (Option.some.inj hd).symm

end Switch

/-! ### Runs -/

/-- **Step lemma.** -/
theorem inv_step (h : Inv initproc s) (hs : St.step initproc s (c, a) = some t) : Inv initproc t := by
  cases steps_of_step hs with
  | move mv hm =>
    by_cases hx : modeOf s (s.active c) = .sched
    · exact inv_sched h hm hx
    · exact inv_ordinary h hm hx
  | interrupt hfree ht =>
    refine inv_trap h hfree ?_ (Or.inr rfl) rfl
    have hheld := h.heldBy_of_free hfree
    unfold heldBy Ctl.pc at hheld
    rwa [ht, Option.getD_none] at hheld
  | iret hfree ht => exact inv_trap h hfree (h.quiet _ (by rw [ht]; exact nofun)) (Or.inl rfl) rfl
  | switchOut p k hon hpc _ => exact inv_switchOut h hon hpc
  | switchIn p hon hsw => exact inv_switchIn h hon hsw

theorem inv_boot (initproc : Fin n) : Inv initproc (St.boot initproc : St n m) where
  cproc := fun _ => rfl
  back := nofun
  inj := nofun
  placed := by
    intro q
    simp only [St.boot]
    by_cases hq : q = initproc
    · rw [if_pos hq, decide_eq_true hq]
      exact .out (fun _ => nofun) (Or.inl rfl)
    · rw [if_neg hq]
      exact .unused fun _ => nofun
  nodup := fun _ => List.nodup_nil
  locks := fun c q => ⟨nofun, nofun⟩
  quiet := by
    intro th ht
    cases th <;> exact absurd rfl ht
  found := fun _ => trivial

/-- **Run lemma.** -/
theorem inv_run (hrun : Reachable (St.step initproc) (St.boot initproc) s) : Inv initproc s := by
  refine reachable_invariant ?_ (inv_boot initproc) hrun
  intro s x t hi hs
  exact inv_step (c := x.1) (a := x.2) hi hs

/-! ### Interrupts and schedulers run their own code only -/

def TrapPlace : Pc n → Prop
  | .run | .wakeup _ _ | .wakeupNext _ _ | .yield | .sched .yield | .resumed .yield => True
  | _ => False

def SchedPlace : Pc n → Prop
  | .scan _ | .scanNext _ | .swtch _ | .back _ => True
  | _ => False

structure Proper (s : St n m) : Prop where
  trap : ∀ th pc, (s.ctl th).trap = some pc → TrapPlace pc
  sched : ∀ c, SchedPlace (s.ctl (.sched c)).base

theorem trapPlace_next {T : Table n} {x : Mode n} {pc : Pc n} {mv : Move n}
    (hmv : Moves initproc T x pc a mv) (hx : x = .schedTrap ∨ ∃ p, x = .trap p) : TrapPlace mv.next := by
  obtain rfl | ⟨p, rfl⟩ := hx <;> cases hmv <;> trivial

theorem schedPlace_next {T : Table n} {pc : Pc n} {mv : Move n} (hmv : Moves initproc T .sched pc a mv) :
    SchedPlace mv.next := by
  cases hmv <;> trivial

theorem mode_of_trap {th : Thread n m} (ht : (s.ctl th).trap ≠ none) :
    modeOf s th = .schedTrap ∨ ∃ p, modeOf s th = .trap p := by
  cases th with
  | proc p => exact Or.inr ⟨p, if_neg ht⟩
  | sched c => exact Or.inl (if_neg ht)

theorem goto_some {x : Ctl n} {pc pc' : Pc n} (h : (x.goto pc).trap = some pc') : x.trap ≠ none ∧ pc' = pc := by
  unfold Ctl.goto at h
  split at h
  case h_1 => cases h
  case h_2 hx => exact ⟨by rw [hx]; exact nofun, (Option.some.inj h).symm⟩

theorem proper_moved {mv : Move n} (h : Inv initproc s) (hp : Proper s) (hm : Moved initproc s c a mv t) :
    Proper t where
  trap := by
    intro th pc ht
    by_cases hth : th = s.active c
    · rw [hth, ctl_self h hm] at ht
      obtain ⟨htrap, rfl⟩ := goto_some ht
      exact trapPlace_next hm.moves (mode_of_trap htrap)
    · by_cases hc : ∃ i, mv.effect = .context i ∧ th = .proc i
      · obtain ⟨i, he, rfl⟩ := hc
        rw [hm.ctl, update_of_ne hth, he] at ht
        have hnew : (s.effect initproc c (.context i)).ctl (.proc i) = ⟨.resumed .forkret, none⟩ :=
          setCtl_self s _ _
        rw [hnew] at ht
        cases ht
      · rw [ctl_other hm hth fun i he hi => hc ⟨i, he, hi⟩] at ht
        exact hp.trap th pc ht
  sched := by
    intro d
    by_cases hd : Thread.sched d = s.active c
    · obtain ⟨-, rfl⟩ := active_sched.mp hd.symm
      have hself := ctl_self h hm
      rw [← hd] at hself
      rw [hself]
      cases ht : (s.ctl (.sched d)).trap with
      | none =>
        have hmoves := hm.moves
        rw [← hd] at hmoves
        simp only [modeOf, ht, if_true] at hmoves
        rw [goto_of_none ht]
        exact schedPlace_next hmoves
      | some pc =>
        rw [goto_base (by rw [ht]; exact fun h => by cases h)]
        exact hp.sched d
    · rw [ctl_sched_other hm hd]
      exact hp.sched d

theorem proper_trap (hp : Proper s) {x : Option (Pc n)} (hx : x = none ∨ x = some .run) :
    Proper (s.setCtl (s.active c) ⟨(s.ctl (s.active c)).base, x⟩) where
  trap := by
    intro th pc ht
    by_cases hth : th = s.active c
    · rw [hth, setCtl_self] at ht
      obtain rfl | rfl := hx
      · cases ht
      · obtain rfl := Option.some.inj ht
        trivial
    · rw [setCtl_of_ne hth] at ht
      exact hp.trap th pc ht
  sched := by
    intro d
    rw [setCtl_base]
    exact hp.sched d

theorem proper_switchOut (hp : Proper s) {k : After} (hpc : (s.ctl (.proc p)).pc = .sched k) :
    Proper (s.switchOut c p k) where
  trap := by
    intro th pc ht
    by_cases hth : th = .proc p
    · rw [hth, switchOut_self] at ht
      obtain ⟨hne, rfl⟩ := goto_some ht
      obtain ⟨pc, htrap⟩ := Option.ne_none_iff_exists'.mp hne
      have hplace := hp.trap _ pc htrap
      rw [Ctl.pc, htrap, Option.getD_some] at hpc
      rw [hpc] at hplace
      cases k <;> trivial
    · rw [switchOut_of_ne hth] at ht
      exact hp.trap th pc ht
  sched := by
    intro d
    have hne : Thread.sched d ≠ (.proc p : Thread n m) := fun h => by cases h
    rw [switchOut_of_ne hne]
    exact hp.sched d

theorem proper_switchIn (hp : Proper s) : Proper (s.switchIn c p) where
  trap := by
    intro th pc ht
    by_cases hth : th = .sched c
    · rw [hth, switchIn_self] at ht
      cases ht
    · rw [switchIn_of_ne hth] at ht
      exact hp.trap th pc ht
  sched := by
    intro d
    by_cases hd : d = c
    · rw [hd, switchIn_self]
      trivial
    · have hne : Thread.sched d ≠ (.sched c : Thread n m) := fun hc => hd (Thread.sched.inj hc)
      rw [switchIn_of_ne hne]
      exact hp.sched d

theorem proper_step (h : Inv initproc s) (hp : Proper s) (hs : St.step initproc s (c, a) = some t) : Proper t := by
  cases steps_of_step hs with
  | move mv hm => exact proper_moved h hp hm
  | interrupt _ _ => exact proper_trap hp (Or.inr rfl)
  | iret _ _ => exact proper_trap hp (Or.inl rfl)
  | switchOut p k _ hpc _ => exact proper_switchOut hp hpc
  | switchIn p _ _ => exact proper_switchIn hp

theorem proper_run (hrun : Reachable (St.step initproc) (St.boot initproc) s) : Proper s := by
  have hstep : ∀ (s : St n m) x t, Inv initproc s ∧ Proper s → St.step initproc s x = some t →
      Inv initproc t ∧ Proper t := by
    intro s x t hi hs
    exact ⟨inv_step (c := x.1) (a := x.2) hi.1 hs, proper_step (c := x.1) (a := x.2) hi.1 hi.2 hs⟩
  have hboot : Proper (St.boot initproc : St n m) := by
    refine ⟨?_, fun _ => trivial⟩
    intro th pc ht
    cases th <;> cases ht
  exact (reachable_invariant hstep ⟨inv_boot initproc, hboot⟩ hrun).2

theorem mode_of_pc (hp : Proper s) (htrap : ¬ TrapPlace (s.ctl (s.active c)).pc)
    (hsched : ¬ SchedPlace (s.ctl (s.active c)).pc) : ∃ p, modeOf s (s.active c) = .proc p := by
  have ht : (s.ctl (s.active c)).trap = none := by
    by_contra hne
    obtain ⟨pc, hpc⟩ := Option.ne_none_iff_exists'.mp hne
    rw [Ctl.pc, hpc] at htrap
    exact htrap (hp.trap _ pc hpc)
  cases hact : s.active c with
  | proc p =>
    rw [hact] at ht
    exact ⟨p, if_pos ht⟩
  | sched d =>
    rw [hact] at ht hsched
    rw [Ctl.pc, ht] at hsched
    exact absurd (hp.sched d) hsched

end Xv6.ProcInv
