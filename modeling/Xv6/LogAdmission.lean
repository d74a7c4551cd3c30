import Xv6.LogBudget

/-!
# Admission to the log

`begin_op` sleeps on `&log` while a commit runs or the reservations do not leave room, and two places wake
the sleepers up: the end of an operation that is not the last one, and the end of a commit.

* `Awake` — nobody sleeps whom `begin_op` would let in.  Only those two places can turn the test from
  false to true.
* `quiet_of_committing` — nobody is inside an operation while a commit runs, so nobody but the committing
  process touches `log.lh` or a buffer (`still_of_committing`).
* `fits_run` — with at most `MAXOPBLOCKS` blocks per operation, the log never exceeds its budget.
-/

namespace Xv6.LogAdmission

open Xv6.LabelledRuns Xv6.Params Xv6.LogMachine Xv6.LogOps Xv6.LogReservation Xv6.LogBudget

variable {g : Geometry} {d₀ : Disk} {es : List Event} {s t : LogSys} {e : Event}

def mover : Event → Option ℕ
  | .beginOp p | .beginSleep p | .logWrite p _ _ | .logCheck p _ _ | .logAppend p | .endOp p => some p
  | .writeLog p | .writeHead p | .installTrans p | .eraseHead p | .endCommit p => some p
  | .crash | .recover => none

/-! ### Sleepers -/

/-- A process that sleeps in `begin_op` would go on sleeping. -/
def Awake (s : LogSys) : Prop := ∀ p, s.pc p = .asleep → admits s = false

theorem admits_eq_false_iff (s : LogSys) : admits s = false ↔
    ¬ (s.committing = false ∧ s.lh.length + (s.outstanding + 1) * MAXOPBLOCKS ≤ LOGSIZE) := by
  rw [← Bool.not_eq_true, admits, Bool.and_eq_true, Bool.not_eq_true', decide_eq_true_eq]

theorem admits_of_committing (h : s.committing = true) : admits s = false := by
  rw [admits, h]
  rfl

theorem admits_mono (hcom : t.committing = s.committing) (hlh : s.lh.length ≤ t.lh.length)
    (hout : s.outstanding ≤ t.outstanding) (h : admits s = false) : admits t = false := by
  rw [admits_eq_false_iff] at h ⊢
  intro ht
  refine h ⟨hcom.symm.trans ht.1, ?_⟩
  have hmul : (s.outstanding + 1) * MAXOPBLOCKS ≤ (t.outstanding + 1) * MAXOPBLOCKS :=
    Nat.mul_le_mul_right _ (Nat.add_le_add_right hout 1)
  have hroom := ht.2
  omega

theorem Awake.move (h : Awake s) {p : ℕ} {c : Pc} (hc : c ≠ .asleep) (hpc : t.pc = s.pc)
    (hadm : admits s = false → admits t = false) : Awake (setPc t p c) := by
  intro q hq
  have hq' := pc_of_setPc_ne hc hq
  rw [hpc] at hq'
  exact hadm (h q hq')

theorem awake_wakeup (s : LogSys) {p : ℕ} {c : Pc} (hc : c ≠ .asleep) : Awake (setPc (wakeup s) p c) := by
  intro q hq
  have hq' := pc_of_setPc_ne hc hq
  simp only [wakeup] at hq'
  split at hq'
  · cases hq'
  · exact absurd hq' ‹_›

theorem length_le_append (lh : List UInt32) (b : UInt32) : lh.length ≤ (append lh b).length := by
  by_cases hb : b ∈ lh
  · rw [append_of_mem hb]
  · rw [append_of_not_mem hb, List.length_append]
    omega

theorem awake_step (hops : OpsInv es s) (h : Awake s) (hst : step g s e = some t) : Awake t := by
  have hcommit : ∀ {p c}, s.phase = .running → s.pc p = .commit c → s.committing = true := by
    intro p c hph hp
    obtain ⟨o, ho⟩ := hops.running hph
    exact (ho.alone p c hp).1
  have hrecover : ∀ {tail}, s.phase = .recovering tail → ∀ p, s.pc p = .idle := by
    intro tail hph
    unfold OpsInv at hops
    rw [hph] at hops
    exact hops.2.1
  cases moves_of_step hst with
  | crash =>
    intro p hp
    cases hp
  | install hph _ | clear hph _ =>
    intro p hp
    exact absurd ((hrecover hph p).symm.trans hp) (by simp)
  | tooBig | outsideTrans => exact h
  | endOpPanic _ _ hcom =>
    intro p _
    exact admits_of_committing hcom
  | beginOp _ _ _ => exact h.move (by simp) rfl (admits_mono rfl le_rfl (Nat.le_succ _))
  | @beginSleep p _ _ ha =>
    intro q _
    exact ha
  | @logWrite p b data hph hp hbig =>
    have hmid : Awake (setPc { s with cache := Function.update s.cache b.toNat data } p (.logging b)) :=
      h.move (by simp) rfl (admits_mono rfl le_rfl le_rfl)
    exact hmid.move (by simp) rfl (admits_mono rfl (length_le_append _ _) le_rfl)
  | logCheck | writeLog | writeHead | installTrans => exact h.move (by simp) rfl (admits_mono rfl le_rfl le_rfl)
  | logAppend => exact h.move (by simp) rfl (admits_mono rfl (length_le_append _ _) le_rfl)
  | endOpLast => exact h.move (by simp) rfl (fun _ => admits_of_committing rfl)
  | endOpMore | endCommit => exact awake_wakeup _ (by simp)
  | eraseHead hph hp _ => exact h.move (by simp) rfl (fun _ => admits_of_committing (hcommit hph hp))

theorem awake_run (hrun : exec (step g) (boot g d₀) es = some s) : Awake s := by
  refine exec_history_all (P := fun _ s => Awake s) ?_ ?_ hrun
  · intro p hp
    cases hp
  · intro es s e t hes hs hst
    exact awake_step (opsInv_run hes) hs hst

/-! ### While a commit runs -/

theorem quiet_of_committing {grp : List Event} {o : List ℕ} (ho : OpsFit grp s o)
    (hcom : s.committing = true) (p : ℕ) : active (s.pc p) = false := by
  obtain ⟨q, c, hq⟩ := ho.busy hcom
  exact (lone_facts ho hq).2.2.2.2.1 p

/-- A step of anybody but the committing process leaves the log and the buffers alone; the committing
process leaves `log.lh` alone until it erases it. -/
theorem still_of_committing (hph : s.phase = .running) (hquiet : ∀ p, active (s.pc p) = false)
    (hst : step g s e = some t) (hcrash : e ≠ .crash) : (t.lh = s.lh ∨ ∃ p, e = .eraseHead p) ∧
      ((∀ p c, s.pc p = .commit c → mover e ≠ some p) → t.lh = s.lh ∧ t.cache = s.cache) := by
  have hop : ∀ {p}, s.pc p = .inOp → False := by
    intro p hp
    have hact := hquiet p
    rw [hp] at hact
    cases hact
  cases moves_of_step hst with
  | crash => exact absurd rfl hcrash
  | install hrec _ | clear hrec _ => rw [hph] at hrec; cases hrec
  | beginOp | beginSleep | endCommit _ hp => exact ⟨.inl rfl, fun _ => ⟨rfl, rfl⟩⟩
  | tooBig _ hp _ _ | outsideTrans _ hp _ _ _ | logWrite _ hp _ | logCheck _ hp _ | endOpPanic _ hp _
  | endOpLast _ hp _ _ | endOpMore _ hp _ _ => exact (hop hp).elim
  | @logAppend p b _ hp =>
    have hact := hquiet p
    rw [hp] at hact
    cases hact
  | writeLog _ hp _ | writeHead _ hp _ | installTrans _ hp _ => exact ⟨.inl rfl, fun hnot => absurd rfl (hnot _ _ hp)⟩
  | @eraseHead p _ _ hp _ => exact ⟨.inr ⟨p, rfl⟩, fun hnot => absurd rfl (hnot _ _ hp)⟩

/-! ### The budgets -/

theorem length_add_spare_le {k : ℕ} {grp : List Event} {o : List ℕ} (hb : Budgeted k grp s o)
    (hne : o ≠ []) : s.lh.length + (o.map (spare k grp)).sum ≤ LOGSIZE := by
  have hle : (o.map (spare k grp)).sum ≤ (o.map (owed k grp s)).sum :=
    List.sum_le_sum fun p _ => Nat.le_add_right _ _
  have hroom := hb.room hne
  omega

theorem fits_step {k : ℕ} (h : s.phase = .running → s.lh.length ≤ LOGSIZE)
    (hres : Reserved k (es ++ [e]) t) (hst : step g s e = some t) (hph : t.phase = .running) :
    t.lh.length ≤ LOGSIZE := by
  obtain ⟨o, ho, hb⟩ := hres hph
  have hopen : ∀ {p}, active (t.pc p) = true → t.lh.length ≤ LOGSIZE := by
    intro p hp
    have hsum := length_add_spare_le hb (List.ne_nil_of_mem ((ho.active p).mpr hp))
    omega
  cases moves_of_step hst with
  | crash | install | tooBig | outsideTrans | endOpPanic => cases hph
  | clear | eraseHead => exact Nat.zero_le _
  | @logWrite p | @logAppend p => exact hopen (p := p) (by rw [pc_setPc_self]; rfl)
  | beginOp hs | beginSleep hs | logCheck hs | endOpLast hs | endOpMore hs | writeLog hs | writeHead hs
  | installTrans hs | endCommit hs => exact h hs

theorem fits_run (hk : WithinBudget MAXOPBLOCKS es) (hrun : exec (step g) (boot g d₀) es = some s)
    (hph : s.phase = .running) : s.lh.length ≤ LOGSIZE := by
  refine exec_history_all (P := fun es s => WithinBudget MAXOPBLOCKS es → s.phase = .running →
    s.lh.length ≤ LOGSIZE) ?_ ?_ hrun hk hph
  · intro _ h
    cases h
  · intro es s e t hes hs hst hk
    have hbefore : WithinBudget MAXOPBLOCKS es :=
      fun pre hpre => hk pre (hpre.trans (List.prefix_append _ _))
    exact fits_step (hs hbefore)
      (reserved_run (by decide) le_rfl hk (exec_snoc_of hes hst)) hst

/-! ### Admission -/

/-- **Admission never strands a waiter.**  In every state of a running system: whoever sleeps in
`begin_op` is kept out by a commit or by the reservations; the log is empty when no operation is open and
no commit runs; while a commit runs nobody is inside an operation, and the steps of the others leave
`log.lh` and the buffers alone; and operations of at most `MAXOPBLOCKS` blocks keep the log and their
unused budgets within `LOGSIZE`. -/
theorem log_admission (g : Geometry) (d₀ : Disk) (es : List Event) (s : LogSys)
    (hrun : exec (step g) (boot g d₀) es = some s) (hph : s.phase = .running) :
    (∀ p, s.pc p = .asleep →
      ¬ (s.committing = false ∧ s.lh.length + (s.outstanding + 1) * MAXOPBLOCKS ≤ LOGSIZE)) ∧
    (s.outstanding = 0 → s.committing = false → s.lh = []) ∧
    (s.committing = true → (∀ p, active (s.pc p) = false) ∧
      ∀ e t, step g s e = some t → e ≠ .crash →
        (t.lh = s.lh ∨ ∃ p, e = .eraseHead p) ∧
        ((∀ p c, s.pc p = .commit c → mover e ≠ some p) → t.lh = s.lh ∧ t.cache = s.cache)) ∧
    (WithinBudget MAXOPBLOCKS es → ∃ o : List ℕ, o.Nodup ∧ o.length = s.outstanding ∧
      (∀ p, p ∈ o ↔ active (s.pc p) = true) ∧
      s.lh.length + (o.map (spare MAXOPBLOCKS (ledger es).current)).sum ≤ LOGSIZE) := by
  obtain ⟨o, ho⟩ := (opsInv_run hrun).running hph
  refine ⟨?_, ?_, ?_, ?_⟩
  · intro p hp
    exact (admits_eq_false_iff s).mp (awake_run hrun p hp)
  · intro hout hcom
    exact ho.rest (List.eq_nil_of_length_eq_zero (ho.count.trans hout)) hcom
  · intro hcom
    have hquiet := quiet_of_committing ho hcom
    exact ⟨hquiet, fun e t hst hcrash => still_of_committing hph hquiet hst hcrash⟩
  · intro hk
    have hbudget := budgeted_of_opsFit (reserved_run (by decide) le_rfl hk hrun) hph ho
    refine ⟨o, ho.nodup, ho.count, ho.active, ?_⟩
    by_cases hne : o = []
    · rw [hne, List.map_nil, List.sum_nil]
      exact fits_run hk hrun hph
    · exact length_add_spare_le hbudget hne

/-- Three operations take the whole log; the fourth sleeps. -/
def fourOps : List Event := [.recover, .beginOp 0, .beginOp 1, .beginOp 2, .beginSleep 3]

theorem log_admission_fourOps : ∃ s : LogSys,
    exec (step mkfsLog) (boot mkfsLog fun _ _ => 0) fourOps = some s ∧ s.pc 3 = .asleep ∧
    ¬ (s.committing = false ∧ s.lh.length + (s.outstanding + 1) * MAXOPBLOCKS ≤ LOGSIZE) := by
  have hrun : (exec (step mkfsLog) (boot mkfsLog fun _ _ => 0) fourOps).any (fun s =>
      s.phase = .running ∧ s.pc 3 = .asleep) = true := by decide +kernel
  obtain ⟨s, hs, hat⟩ := (Option.any_eq_true _ _).mp hrun
  obtain ⟨hph, hasleep⟩ := of_decide_eq_true hat
  exact ⟨s, hs, hasleep, (log_admission mkfsLog (fun _ _ => 0) fourOps s hs hph).1 3 hasleep⟩

end Xv6.LogAdmission
