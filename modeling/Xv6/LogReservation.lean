import Xv6.LogOps
import Mathlib.Algebra.Order.BigOperators.Group.List

/-!
# Log space reservation

`begin_op` reserves `MAXOPBLOCKS` blocks for every operation against `LOGSIZE`, while `log_write`
panics at `log.size - 1` blocks; `mkfs` makes `log.size` equal to `LOGSIZE`, header block
included.  So the reservation is one block short: the group may use `LOGSIZE` blocks, but a
`log_write` that finds `LOGSIZE - 1` of them taken panics, absorbed or not.

`Counted` says that between commits `log.lh` holds exactly the distinct blocks of the open group.
This gives the exact condition (`log_space`).  `Budgeted` carries the sum of the reservations
that are still unused: with one block less per operation than `begin_op` reserves, the panic is
out of reach.
-/

namespace Xv6.LogReservation

open Xv6.LabelledRuns Xv6.Params Xv6.LogMachine Xv6.LogOps

/-- The block an event hands to `log_write`. -/
def blockOf : Event → Option UInt32
  | .logWrite _ b _ => some b
  | .logCheck _ b _ => some b
  | _ => none

/-- The distinct blocks a group of operations has logged. -/
def groupBlocks (grp : List Event) : List UInt32 := (grp.filterMap blockOf).dedup

/-- The distinct blocks each process has logged in its current operation. -/
def touch (f : ℕ → List UInt32) : Event → ℕ → List UInt32
  | .beginOp p => Function.update f p []
  | .logWrite p b _ => Function.update f p ((f p).insert b)
  | .logCheck p b _ => Function.update f p ((f p).insert b)
  | _ => f

def opBlocks (grp : List Event) : ℕ → List UInt32 := grp.foldl touch fun _ => []

/-- Every operation of the run logs at most `k` distinct blocks. -/
def WithinBudget (k : ℕ) (es : List Event) : Prop :=
  ∀ pre, pre <+: es → ∀ p, (opBlocks (ledger pre).current p).length ≤ k

/-- Every `log_write` is called before its group has logged `LOGSIZE - 1` distinct blocks. -/
def CallsFit (es : List Event) : Prop :=
  ∀ pre e, pre ++ [e] <+: es → (blockOf e).isSome = true →
    (groupBlocks (ledger pre).current).length < LOGSIZE - 1

theorem tooBig_mkfsLog (s : LogSys) : tooBig mkfsLog s = decide (LOGSIZE - 1 ≤ s.lh.length) := by
  have h : mkfsLog.size - 1 = LOGSIZE - 1 := rfl
  by_cases hlen : LOGSIZE - 1 ≤ s.lh.length
  · simp [tooBig, h, hlen]
  · have hlt : ¬ LOGSIZE ≤ s.lh.length := by omega
    simp [tooBig, h, hlen, hlt]

/-! ### `log.lh` holds the distinct blocks of the group -/

/-- Between commits the blocks of `log.lh` are those of the open group that have been added. -/
structure Counted (grp : List Event) (s : LogSys) : Prop where
  nodup : s.lh.Nodup
  sub : Calm s → ∀ b ∈ s.lh, b ∈ grp.filterMap blockOf
  sup : Calm s → ∀ b ∈ grp.filterMap blockOf, b ∈ s.lh ∨ ∃ p, s.pc p = .logging b
  entered : Calm s → ∀ p b, s.pc p = .logging b → b ∈ grp.filterMap blockOf

theorem nodup_append {lh : List UInt32} (h : lh.Nodup) (b : UInt32) : (append lh b).Nodup := by
  by_cases hb : b ∈ lh
  · rwa [append_of_mem hb]
  · rw [append_of_not_mem hb, List.nodup_append]
    refine ⟨h, by simp, ?_⟩
    rintro x hx y hy rfl
    rw [List.mem_singleton] at hy
    exact hb (hy ▸ hx)

theorem filterMap_snoc (grp : List Event) (e : Event) :
    (grp ++ [e]).filterMap blockOf = grp.filterMap blockOf ++ (blockOf e).toList := by
  rw [List.filterMap_append]
  cases h : blockOf e <;> simp [h]

theorem logging_setPc {s : LogSys} {p : ℕ} {c : Pc} (hp : ∀ b, s.pc p ≠ .logging b)
    (hc : ∀ b, c ≠ .logging b) (q : ℕ) (b : UInt32) : (setPc s p c).pc q = .logging b ↔ s.pc q = .logging b := by
  by_cases hq : q = p
  · subst hq
    rw [pc_setPc_self]
    exact ⟨fun h => absurd h (hc b), fun h => absurd h (hp b)⟩
  · rw [pc_setPc_ne _ _ hq]

theorem Counted.move {grp grp' : List Event} {s t : LogSys} (h : Counted grp s)
    (hlh : t.lh = s.lh) (hgrp : grp'.filterMap blockOf = grp.filterMap blockOf)
    (hcalm : Calm t → Calm s) (hpc : ∀ p b, t.pc p = .logging b ↔ s.pc p = .logging b) :
    Counted grp' t where
  nodup := hlh ▸ h.nodup
  sub := fun hc b hb => hgrp ▸ h.sub (hcalm hc) b (hlh ▸ hb)
  sup := by
    intro hc b hb
    rw [hgrp] at hb
    rcases h.sup (hcalm hc) b hb with hb | ⟨p, hp⟩
    · exact Or.inl (hlh ▸ hb)
    · exact Or.inr ⟨p, (hpc p b).mpr hp⟩
  entered := fun hc p b hp => hgrp ▸ h.entered (hcalm hc) p b ((hpc p b).mp hp)

theorem Counted.empty {s : LogSys} (hlh : s.lh = []) (hpc : ∀ p b, s.pc p ≠ .logging b) : Counted [] s := by
  refine ⟨by simp [hlh], fun _ b hb => ?_, fun _ b hb => ?_, fun _ p b hp => absurd hp (hpc p b)⟩
  · rw [hlh] at hb
    simp at hb
  · simp at hb

theorem Counted.commit {grp : List Event} {s : LogSys} {p : ℕ} {c : CommitPc}
    (hnodup : s.lh.Nodup) (hp : s.pc p = .commit c) : Counted grp s :=
  ⟨hnodup, fun hc => absurd hp (hc p c), fun hc => absurd hp (hc p c),
    fun hc => absurd hp (hc p c)⟩

theorem counted_logCheck {grp : List Event} {s : LogSys} {p : ℕ} {b : UInt32} {d : Block}
    {e : Event} (h : Counted grp s) (he : blockOf e = some b) (hcalm : Calm s)
    (hp : s.pc p = .inOp) :
    Counted (grp ++ [e])
      (setPc { s with cache := Function.update s.cache b.toNat d } p (.logging b)) := by
  refine ⟨h.nodup, fun _ x hx => ?_, fun _ x hx => ?_, fun _ q x hq => ?_⟩
  · rw [filterMap_snoc]
    exact List.mem_append_left _ (h.sub hcalm x hx)
  · rw [filterMap_snoc, he, Option.toList_some, List.mem_append, List.mem_singleton] at hx
    rcases hx with hx | rfl
    · rcases h.sup hcalm x hx with hx | ⟨q, hq⟩
      · exact Or.inl hx
      · refine Or.inr ⟨q, ?_⟩
        rwa [pc_setPc_ne]
        rintro rfl
        rw [hp] at hq
        cases hq
    · exact Or.inr ⟨p, pc_setPc_self _ _ _⟩
  · rw [filterMap_snoc, he, Option.toList_some, List.mem_append, List.mem_singleton]
    by_cases hqp : q = p
    · subst hqp
      rw [pc_setPc_self, Pc.logging.injEq] at hq
      exact Or.inr hq.symm
    · rw [pc_setPc_ne _ _ hqp] at hq
      exact Or.inl (h.entered hcalm q x hq)

theorem counted_logAppend {grp : List Event} {s : LogSys} {p : ℕ} {b : UInt32}
    (h : Counted grp s) (hcalm : Calm s)
    (hp : s.pc p = .logging b) :
    Counted grp (setPc { s with lh := append s.lh b } p .inOp) := by
  refine ⟨nodup_append h.nodup b, fun _ x hx => ?_, fun _ x hx => ?_,
    fun _ q x hq => h.entered hcalm q x (pc_of_setPc_ne (by simp) hq)⟩
  · rcases mem_append.mp hx with hx | rfl
    · exact h.sub hcalm x hx
    · exact h.entered hcalm p x hp
  · rcases h.sup hcalm x hx with hx | ⟨q, hq⟩
    · exact Or.inl (mem_append.mpr (Or.inl hx))
    · by_cases hqp : q = p
      · subst hqp
        rw [hp, Pc.logging.injEq] at hq
        exact Or.inl (mem_append.mpr (Or.inr hq.symm))
      · exact Or.inr ⟨q, by rwa [pc_setPc_ne _ _ hqp]⟩

theorem counted_step {g : Geometry} {es : List Event} {s t : LogSys} {e : Event}
    (hops : OpsInv es s) (h : s.phase = .running → Counted (ledger es).current s)
    (hst : step g s e = some t) (hrun : t.phase = .running) : Counted (ledger (es ++ [e])).current t := by
  rw [ledger_snoc]
  cases moves_of_step hst with
  | crash | install | tooBig | outsideTrans | endOpPanic => cases hrun
  | clear hph _ =>
    unfold OpsInv at hops
    rw [hph] at hops
    change Counted (ledger es).current _
    rw [hops.1]
    exact Counted.empty rfl fun p b hp => absurd ((hops.2.1 p).symm.trans hp) (by simp)
  | @beginOp p hph hp ha =>
    obtain ⟨o, ho⟩ := hops.running hph
    have hidle : s.committing = false := by simp [admits] at ha; exact ha.1
    refine (h hph).move rfl (filterMap_snoc _ (.beginOp p) |>.trans (by simp [blockOf]))
      (fun _ => ho.calm_of_idle hidle) (logging_setPc ?_ (by simp))
    rcases hp with hp | hp <;> simp [hp]
  | @beginSleep p hph hp _ =>
    refine (h hph).move rfl rfl (fun hc q c hq => ?_) (logging_setPc ?_ (by simp))
    · refine hc q c ?_
      rwa [pc_setPc_ne]
      rintro rfl
      rcases hp with hp | hp <;> rw [hp] at hq <;> cases hq
    · rcases hp with hp | hp <;> simp [hp]
  | @logWrite p b data hph hp _ =>
    obtain ⟨o, ho⟩ := hops.running hph
    have hcalm := ho.calm_of_active (active_of_inOp hp)
    have hmid := counted_logCheck (d := data) (e := .logWrite p b data) (h hph) rfl hcalm hp
    exact counted_logAppend hmid (Calm.setPc hcalm p (by simp)) (pc_setPc_self _ _ _)
  | @logCheck p b data hph hp _ =>
    obtain ⟨o, ho⟩ := hops.running hph
    exact counted_logCheck (h hph) rfl (ho.calm_of_active (active_of_inOp hp)) hp
  | @logAppend p b hph hp =>
    obtain ⟨o, ho⟩ := hops.running hph
    exact counted_logAppend (h hph) (ho.calm_of_active (by rw [hp]; rfl)) hp
  | @endOpMore p hph hp _ _ =>
    obtain ⟨o, ho⟩ := hops.running hph
    refine (h hph).move rfl (filterMap_snoc _ (.endOp p) |>.trans (by simp [blockOf]))
      (fun _ => ho.calm_of_active (active_of_inOp hp)) fun q b => ?_
    rw [logging_setPc (by simp [wakeup, hp]) (by simp)]
    exact wakeup_pc_logging
  | endOpLast hph _ _ _ | writeLog hph _ _ | writeHead hph _ _ | installTrans hph _ _ =>
    exact Counted.commit (h hph).nodup (pc_setPc_self _ _ _)
  | eraseHead _ _ _ => exact Counted.commit List.nodup_nil (pc_setPc_self _ _ _)
  | endCommit hph hp =>
    obtain ⟨o, ho⟩ := hops.running hph
    refine Counted.empty (ho.finished _ hp) fun q b hq => ?_
    have hq' := wakeup_pc_logging.mp (pc_of_setPc_ne (by simp) hq)
    have hquiet := (lone_facts ho hp).2.2.2.2.1 q
    change s.pc q = _ at hq'
    simp [hq'] at hquiet

theorem counted_run {g : Geometry} {d₀ : Disk} {es : List Event} {s : LogSys}
    (hrun : exec (step g) (boot g d₀) es = some s) (hph : s.phase = .running) : Counted (ledger es).current s := by
  refine exec_history_all (P := fun es s => s.phase = .running → Counted (ledger es).current s)
    (fun h => by cases h) ?_ hrun hph
  intro es s e t hes hs hst
  exact counted_step (opsInv_run hes) hs hst

theorem length_le_groupBlocks {grp : List Event} {s : LogSys} (h : Counted grp s) (hc : Calm s) :
    s.lh.length ≤ (groupBlocks grp).length := by
  refine (h.nodup.subperm fun b hb => ?_).length_le
  exact List.mem_dedup.mpr (h.sub hc b hb)

theorem groupBlocks_le_length {grp : List Event} {s : LogSys} (h : Counted grp s) (hc : Calm s)
    (hno : ∀ p b, s.pc p ≠ .logging b) : (groupBlocks grp).length ≤ s.lh.length := by
  refine ((List.nodup_dedup _).subperm fun b hb => ?_).length_le
  rcases h.sup hc b (List.mem_dedup.mp hb) with hb | ⟨p, hp⟩
  · exact hb
  · exact absurd hp (hno p b)

/-! ### Where the panic comes from -/

/-- No state of the run is the panic `"too big a transaction"`. -/
def NeverTooBig (d₀ : Disk) (es : List Event) : Prop :=
  ∀ pre, pre <+: es → ∀ s, exec (step mkfsLog) (boot mkfsLog d₀) pre = some s →
    s.phase ≠ .panicked .tooBig

/-- The panic is entered by a `log_write` that finds `LOGSIZE - 1` blocks in the log. -/
theorem tooBig_cause {d₀ : Disk} {es : List Event} {t : LogSys}
    (hrun : exec (step mkfsLog) (boot mkfsLog d₀) es = some t) (hph : t.phase = .panicked .tooBig) :
    ∃ pre e s p, es = pre ++ [e] ∧ exec (step mkfsLog) (boot mkfsLog d₀) pre = some s ∧
      s.phase = .running ∧ s.pc p = .inOp ∧ (blockOf e).isSome = true ∧ LOGSIZE - 1 ≤ s.lh.length := by
  rcases List.eq_nil_or_concat es with rfl | ⟨pre, e, rfl⟩
  · cases hrun
    cases hph
  · rw [List.concat_eq_append] at hrun ⊢
    obtain ⟨s, hs, hst⟩ := exec_snoc hrun
    -- a step that does not panic leaves the machine running or recovering
    have hkeep : ∀ {c : Phase}, c = .running → c ≠ .panicked .tooBig := by
      rintro c rfl
      simp
    cases moves_of_step hst with
    | @tooBig p b data e hrunning hp he hbig =>
      rw [tooBig_mkfsLog, decide_eq_true_eq] at hbig
      refine ⟨pre, e, s, p, rfl, hs, hrunning, hp, ?_, hbig⟩
      rcases he with rfl | rfl <;> rfl
    | crash | install | clear | outsideTrans | endOpPanic => cases hph
    | beginOp h | beginSleep h | logWrite h | logCheck h | logAppend h | endOpLast h | endOpMore h | writeLog h
    | writeHead h | installTrans h | eraseHead h | endCommit h => exact absurd hph (hkeep h)

theorem neverTooBig_of_callsFit {d₀ : Disk} {es : List Event} (hfit : CallsFit es) : NeverTooBig d₀ es := by
  intro pre hpre s hrun hph
  obtain ⟨pre', e, r, p, rfl, hr, hrunning, hp, he, hlen⟩ := tooBig_cause hrun hph
  obtain ⟨o, ho⟩ := (opsInv_run hr).running hrunning
  have hle := length_le_groupBlocks (counted_run hr hrunning)
    (ho.calm_of_active (active_of_inOp hp))
  have hlt := hfit pre' e hpre he
  omega

/-! ### Whole calls -/

theorem logging_of_whole {g : Geometry} {s t : LogSys} {e : Event} (he : whole e = true)
    (hst : step g s e = some t) (h : ∀ p b, s.pc p ≠ .logging b) : ∀ p b, t.pc p ≠ .logging b := by
  have hset : ∀ {r : LogSys} (q : ℕ) {c : Pc}, (∀ p b, r.pc p ≠ .logging b) →
      (∀ b, c ≠ .logging b) → ∀ p b, (setPc r q c).pc p ≠ .logging b := by
    intro r q c hr hc p b
    rw [ne_eq, logging_setPc (hr q) hc]
    exact hr p b
  have hwake : ∀ {r : LogSys}, (∀ p b, r.pc p ≠ .logging b) → ∀ p b, (wakeup r).pc p ≠ .logging b :=
    fun hr p b => wakeup_pc_logging.not.mpr (hr p b)
  cases moves_of_step hst with
  | crash => simp [boot]
  | install | clear | tooBig | outsideTrans | endOpPanic => exact h
  | logCheck | logAppend => cases he
  | beginOp | beginSleep | endOpLast | writeLog | writeHead | installTrans | eraseHead => exact hset _ h (by simp)
  | @logWrite p b =>
    intro q c hq
    by_cases hqp : q = p
    · subst hqp
      rw [pc_setPc_self] at hq
      cases hq
    · rw [pc_setPc_ne _ _ hqp] at hq
      change (setPc _ p _).pc q = _ at hq
      rw [pc_setPc_ne _ _ hqp] at hq
      exact h q c hq
  | endOpMore | endCommit => exact hset _ (hwake h) (by simp)

theorem logging_of_whole_run {g : Geometry} {d₀ : Disk} {es : List Event} {s : LogSys}
    (hrun : exec (step g) (boot g d₀) es = some s) (hwhole : ∀ e ∈ es, whole e = true) :
    ∀ p b, s.pc p ≠ .logging b := by
  refine exec_history_all (P := fun es s => (∀ e ∈ es, whole e = true) → ∀ p b, s.pc p ≠ .logging b)
    (fun _ => by simp [boot]) ?_ hrun hwhole
  intro es s e t _ hs hst hw
  exact logging_of_whole (hw e (by simp)) hst (hs fun e' he' => hw e' (by simp [he']))

theorem logCall_cases {g : Geometry} {s t : LogSys} {e : Event} (he : (blockOf e).isSome = true)
    (hst : step g s e = some t) : s.phase = .running ∧ (∃ p, s.pc p = .inOp) ∧
      (t.phase = .panicked .tooBig ∨ tooBig g s = false) := by
  cases moves_of_step hst with
  | tooBig hph hp => exact ⟨hph, ⟨_, hp⟩, Or.inl rfl⟩
  | outsideTrans hph hp _ hbig | logWrite hph hp hbig | logCheck hph hp hbig => exact ⟨hph, ⟨_, hp⟩, Or.inr hbig⟩
  | _ => cases he

theorem callsFit_of_neverTooBig {d₀ : Disk} {es : List Event} {s : LogSys}
    (hrun : exec (step mkfsLog) (boot mkfsLog d₀) es = some s) (hwhole : ∀ e ∈ es, whole e = true)
    (hnever : NeverTooBig d₀ es) : CallsFit es := by
  intro pre e hpre he
  obtain ⟨rest, rfl⟩ := hpre
  obtain ⟨t, ht, -⟩ := exec_prefix hrun
  obtain ⟨r, hr, hst⟩ := exec_snoc ht
  obtain ⟨hph, ⟨p, hp⟩, hpanic | hbig⟩ := logCall_cases he hst
  · exact absurd hpanic (hnever _ (List.prefix_append _ _) t ht)
  · obtain ⟨o, ho⟩ := (opsInv_run hr).running hph
    have hno := logging_of_whole_run hr fun e' he' => hwhole e' (by simp [he'])
    have hle := groupBlocks_le_length (counted_run hr hph)
      (ho.calm_of_active (active_of_inOp hp)) hno
    rw [tooBig_mkfsLog, decide_eq_false_iff_not] at hbig
    omega

end Xv6.LogReservation
