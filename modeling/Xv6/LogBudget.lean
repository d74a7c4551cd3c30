import Xv6.LogReservation
import Mathlib.Algebra.Order.BigOperators.Group.List

/-!
# Operations with one block to spare

`begin_op` admits an operation when `lh.n + (outstanding + 1) * MAXOPBLOCKS ≤ LOGSIZE`.  When every
operation logs at most `k` distinct blocks, an operation owes the log the blocks it may still hand to
`log_write` and the block it is adding at the moment.  `Budgeted` bounds the log together with everything
that is owed to it; a `log_write` turns a spare block into one in flight and then into one of the log.

With `k = MAXOPBLOCKS` the bound is `LOGSIZE`.  With one block less it is `LOGSIZE - 2`, which is below
the bound at which `log_write` panics.
-/

namespace Xv6.LogBudget

open Xv6.LabelledRuns Xv6.Params Xv6.LogMachine Xv6.LogOps Xv6.LogReservation

/-- The distinct blocks the operation of `p` may still log, out of `k`. -/
def spare (k : ℕ) (grp : List Event) (p : ℕ) : ℕ := k - (opBlocks grp p).length

/-- `p` has passed the tests of `log_write` and is about to add a block. -/
def inflight (s : LogSys) (p : ℕ) : ℕ :=
  match s.pc p with
  | .logging b => if b ∈ s.lh then 0 else 1
  | _ => 0

def owed (k : ℕ) (grp : List Event) (s : LogSys) (p : ℕ) : ℕ := spare k grp p + inflight s p

/-- The log and what is owed to it.  When two operations are open, neither uses `MAXOPBLOCKS - k` of the
blocks that `begin_op` reserved for it. -/
structure Budgeted (k : ℕ) (grp : List Event) (s : LogSys) (o : List ℕ) : Prop where
  room : o ≠ [] → s.lh.length + (o.map (owed k grp s)).sum ≤ LOGSIZE - 2 * (MAXOPBLOCKS - k)
  known : ∀ p ∈ o, ∀ b ∈ opBlocks grp p, b ∈ s.lh ∨ s.pc p = .logging b
  entered : ∀ p ∈ o, ∀ b, s.pc p = .logging b → b ∈ opBlocks grp p

/-! ### Sums over the open operations -/

theorem sum_map_add_le {o : List ℕ} {p : ℕ} (hp : p ∈ o) (hnodup : o.Nodup) {f j : ℕ → ℕ} {c : ℕ}
    (hc : j p + c ≤ f p) (hle : ∀ q, q ≠ p → j q ≤ f q) : (o.map j).sum + c ≤ (o.map f).sum := by
  rw [← List.sum_map_erase f hp, ← List.sum_map_erase j hp]
  have hrest : ((o.erase p).map j).sum ≤ ((o.erase p).map f).sum := by
    refine List.sum_le_sum fun q hq => hle q ?_
    exact (hnodup.mem_erase_iff.mp hq).1
  omega

theorem opBlocks_snoc (grp : List Event) (e : Event) : opBlocks (grp ++ [e]) = touch (opBlocks grp) e := by
  rw [opBlocks, List.foldl_append]
  rfl

theorem inflight_of_ne {s : LogSys} {p : ℕ} (h : ∀ b, s.pc p ≠ .logging b) : inflight s p = 0 := by
  unfold inflight
  split
  · exact absurd ‹_› (h _)
  · rfl

theorem inflight_congr {s t : LogSys} {p : ℕ} (hpc : t.pc p = s.pc p) (hlh : t.lh = s.lh) :
    inflight t p = inflight s p := by
  unfold inflight
  rw [hpc, hlh]

theorem inflight_le_one (s : LogSys) (p : ℕ) : inflight s p ≤ 1 := by
  unfold inflight
  split
  · split <;> omega
  · omega

section Steps

variable {k : ℕ} {grp : List Event} {s : LogSys} {o : List ℕ} {p : ℕ}

theorem owed_le (h : Budgeted k grp s o) (hk : 0 < k) (hp : p ∈ o) : owed k grp s p ≤ k := by
  unfold owed
  by_cases hlog : ∃ b, s.pc p = .logging b
  · obtain ⟨b, hb⟩ := hlog
    have hpos := List.length_pos_of_mem (h.entered p hp b hb)
    have hone := inflight_le_one s p
    unfold spare
    omega
  · rw [inflight_of_ne fun b hb => hlog ⟨b, hb⟩, spare]
    omega

theorem sum_owed_le (h : Budgeted k grp s o) (hk : 0 < k) : (o.map (owed k grp s)).sum ≤ o.length * k := by
  have hlen : (o.map (owed k grp s)).length = o.length := List.length_map _
  rw [← smul_eq_mul, ← hlen]
  refine List.sum_le_card_nsmul _ _ fun x hx => ?_
  obtain ⟨p, hp, rfl⟩ := List.mem_map.mp hx
  exact owed_le h hk hp

theorem budgeted_beginOp (h : Budgeted k grp s o) (hk : 0 < k) (hmax : k ≤ MAXOPBLOCKS)
    (ho : OpsFit grp s o) (hp : s.pc p = .idle ∨ s.pc p = .woken) (ha : admits s = true) :
    Budgeted k (grp ++ [.beginOp p]) (setPc { s with outstanding := s.outstanding + 1 } p .inOp)
      (p :: o) := by
  have hmem : p ∉ o := by
    intro hin
    rw [ho.active p, not_active_of_begin hp] at hin
    exact Bool.noConfusion hin
  have hadm : s.committing = false ∧ s.lh.length + (o.length + 1) * MAXOPBLOCKS ≤ LOGSIZE := by
    simpa [admits, ho.count] using ha
  have hne : ∀ {q}, q ∈ o → q ≠ p := fun hq he => hmem (he ▸ hq)
  have hold : ∀ {q}, q ∈ o → opBlocks (grp ++ [.beginOp p]) q = opBlocks grp q := by
    intro q hq
    rw [opBlocks_snoc]
    exact Function.update_of_ne (hne hq) _ _
  have hnew : opBlocks (grp ++ [.beginOp p]) p = [] := by
    rw [opBlocks_snoc]
    exact Function.update_self _ _ _
  refine ⟨fun _ => ?_, fun q hq b hb => ?_, fun q hq b hb => ?_⟩
  · have hsum : o.map (owed k (grp ++ [.beginOp p])
        (setPc { s with outstanding := s.outstanding + 1 } p .inOp)) = o.map (owed k grp s) := by
      refine List.map_congr_left fun q hq => ?_
      rw [owed, owed, spare, spare, hold hq,
        inflight_congr (t := setPc _ p .inOp) (pc_setPc_ne _ _ (hne hq)) rfl]
      rfl
    have hown : owed k (grp ++ [.beginOp p])
        (setPc { s with outstanding := s.outstanding + 1 } p .inOp) p = k := by
      rw [owed, spare, hnew, inflight_of_ne (by rw [pc_setPc_self]; simp)]
      rfl
    rw [List.map_cons, List.sum_cons, hsum, hown]
    change s.lh.length + _ ≤ _
    have hten : MAXOPBLOCKS = 10 := rfl
    have hsize : LOGSIZE = 30 := rfl
    rcases List.eq_nil_or_concat o with rfl | ⟨o', q, rfl⟩
    · rw [ho.rest rfl hadm.1, List.map_nil, List.sum_nil, List.length_nil]
      omega
    · -- with an operation already open, two reservations are not used up
      have hle := sum_owed_le h hk
      have hlen : (o'.concat q).length = o'.length + 1 := by simp
      have hmore : o'.length * k ≤ o'.length * MAXOPBLOCKS := Nat.mul_le_mul_left _ hmax
      rw [hlen, Nat.add_mul] at hadm hle
      rw [Nat.add_mul] at hadm
      omega
  · rcases List.mem_cons.mp hq with rfl | hq
    · rw [hnew] at hb
      simp at hb
    · rw [hold hq] at hb
      rw [pc_setPc_ne _ _ (hne hq)]
      exact h.known q hq b hb
  · rcases List.mem_cons.mp hq with rfl | hq
    · rw [pc_setPc_self] at hb
      cases hb
    · rw [pc_setPc_ne _ _ (hne hq)] at hb
      rw [hold hq]
      exact h.entered q hq b hb

/-- The tests of `log_write` turn a spare block into one in flight. -/
theorem budgeted_logCheck (h : Budgeted k grp s o) (ho : OpsFit grp s o) {b : UInt32} {data : Block}
    {e : Event} (he : e = .logWrite p b data ∨ e = .logCheck p b data) (hp : s.pc p = .inOp)
    (hlen : (opBlocks (grp ++ [e]) p).length ≤ k) :
    Budgeted k (grp ++ [e])
      (setPc { s with cache := Function.update s.cache b.toNat data } p (.logging b)) o := by
  have hmem : p ∈ o := (ho.active p).mpr (active_of_inOp hp)
  have hblocks : opBlocks (grp ++ [e]) =
      Function.update (opBlocks grp) p ((opBlocks grp p).insert b) := by
    rw [opBlocks_snoc]
    rcases he with rfl | rfl <;> rfl
  have hold : ∀ {q}, q ≠ p → opBlocks (grp ++ [e]) q = opBlocks grp q := by
    intro q hq
    rw [hblocks, Function.update_of_ne hq]
  have hnew : opBlocks (grp ++ [e]) p = (opBlocks grp p).insert b := by
    rw [hblocks, Function.update_self]
  have hidle : inflight s p = 0 := inflight_of_ne (by rw [hp]; simp)
  have hsum := sum_map_add_le (o := o) hmem ho.nodup (f := owed k grp s) (c := 0)
    (j := owed k (grp ++ [e])
      (setPc { s with cache := Function.update s.cache b.toNat data } p (.logging b))) ?own ?others
  case own =>
    rw [hnew] at hlen
    rw [owed, owed, spare, spare, hidle, hnew]
    by_cases hb : b ∈ opBlocks grp p
    · -- a repeat: the block is in the log already
      have hlh : b ∈ s.lh := (h.known p hmem b hb).resolve_right (by rw [hp]; simp)
      have hzero : inflight (setPc
          { s with cache := Function.update s.cache b.toNat data } p (.logging b)) p = 0 := by
        rw [inflight, pc_setPc_self]
        exact if_pos hlh
      rw [hzero, List.insert_of_mem hb]
    · have hone := inflight_le_one
        (setPc { s with cache := Function.update s.cache b.toNat data } p (.logging b)) p
      rw [List.length_insert_of_not_mem hb] at hlen ⊢
      omega
  case others =>
    intro q hq
    rw [owed, owed, spare, spare, hold hq,
      inflight_congr (t := setPc _ p (.logging b)) (pc_setPc_ne _ _ hq) rfl]
    exact le_rfl
  refine ⟨fun hne => ?_, fun q hq x hx => ?_, fun q hq x hx => ?_⟩
  · have hroom := h.room hne
    change s.lh.length + _ ≤ _
    omega
  · by_cases hqp : q = p
    · subst hqp
      rw [hnew] at hx
      rcases List.mem_insert_iff.mp hx with rfl | hx
      · exact Or.inr (pc_setPc_self _ _ _)
      · exact Or.inl ((h.known q hq x hx).resolve_right (by rw [hp]; simp))
    · rw [hold hqp] at hx
      rw [pc_setPc_ne _ _ hqp]
      exact h.known q hq x hx
  · by_cases hqp : q = p
    · subst hqp
      rw [pc_setPc_self, Pc.logging.injEq] at hx
      rw [hnew, ← hx]
      exact List.mem_insert_self
    · rw [pc_setPc_ne _ _ hqp] at hx
      rw [hold hqp]
      exact h.entered q hq x hx

theorem inflight_mono {t : LogSys} {q : ℕ} (hpc : t.pc q = s.pc q) (hlh : ∀ b ∈ s.lh, b ∈ t.lh) :
    inflight t q ≤ inflight s q := by
  unfold inflight
  rw [hpc]
  split
  · by_cases hb : ‹UInt32› ∈ s.lh
    · simp [hb, hlh _ hb]
    · simp only [if_neg hb]
      split <;> omega
  · exact le_rfl

/-- The locked part of `log_write` turns a block in flight into one of the log. -/
theorem budgeted_logAppend (h : Budgeted k grp s o) (ho : OpsFit grp s o) {b : UInt32}
    (hp : s.pc p = .logging b) : Budgeted k grp (setPc { s with lh := append s.lh b } p .inOp) o := by
  have hmem : p ∈ o := (ho.active p).mpr (by rw [hp]; rfl)
  have hsub : ∀ x ∈ s.lh, x ∈ append s.lh b := fun x hx => mem_append.mpr (Or.inl hx)
  have hgone : inflight (setPc { s with lh := append s.lh b } p .inOp) p = 0 :=
    inflight_of_ne (by rw [pc_setPc_self]; simp)
  have hlen : (append s.lh b).length = s.lh.length + inflight s p := by
    rw [inflight, hp]
    by_cases hb : b ∈ s.lh
    · simp [append_of_mem hb, hb]
    · simp [append_of_not_mem hb, hb]
  have hothers : ∀ q, q ≠ p → owed k grp (setPc { s with lh := append s.lh b } p .inOp) q ≤
      owed k grp s q := by
    intro q hq
    have hpc := pc_setPc_ne { s with lh := append s.lh b } .inOp hq
    exact Nat.add_le_add_left (inflight_mono (s := s) hpc hsub) _
  have hsum := sum_map_add_le (o := o) hmem ho.nodup (f := owed k grp s) (c := inflight s p)
    (j := owed k grp (setPc { s with lh := append s.lh b } p .inOp))
    (by rw [owed, owed, hgone]; omega) hothers
  refine ⟨fun hne => ?_, fun q hq x hx => ?_, fun q hq x hx => ?_⟩
  · have hroom := h.room hne
    change (append s.lh b).length + _ ≤ _
    omega
  · rcases h.known q hq x hx with hx | hx
    · exact Or.inl (hsub x hx)
    · by_cases hqp : q = p
      · subst hqp
        rw [hp, Pc.logging.injEq] at hx
        exact Or.inl (mem_append.mpr (Or.inr hx.symm))
      · exact Or.inr (by rwa [pc_setPc_ne _ _ hqp])
  · exact h.entered q hq x (pc_of_setPc_ne (by simp) hx)

theorem Budgeted.move {grp' : List Event} {t : LogSys} (h : Budgeted k grp s o)
    (hblocks : opBlocks grp' = opBlocks grp) (hlh : t.lh = s.lh)
    (hpc : ∀ q b, t.pc q = .logging b ↔ s.pc q = .logging b) : Budgeted k grp' t o := by
  have howed : ∀ q, owed k grp' t q = owed k grp s q := by
    intro q
    rw [owed, owed, spare, spare, hblocks]
    by_cases hlog : ∃ b, s.pc q = .logging b
    · obtain ⟨b, hb⟩ := hlog
      rw [inflight_congr (((hpc q b).mpr hb).trans hb.symm) hlh]
    · have hno : ∀ b, s.pc q ≠ .logging b := fun b hb => hlog ⟨b, hb⟩
      rw [inflight_of_ne hno, inflight_of_ne fun b => (hpc q b).not.mpr (hno b)]
  refine ⟨fun hne => ?_, fun q hq x hx => ?_, fun q hq x hx => ?_⟩
  · rw [funext howed, hlh]
    exact h.room hne
  · rw [hpc, hlh]
    exact h.known q hq x (hblocks ▸ hx)
  · rw [hblocks]
    exact h.entered q hq x ((hpc q x).mp hx)

theorem Budgeted.erase (h : Budgeted k grp s o) (hp : p ∈ o) : Budgeted k grp s (o.erase p) := by
  refine ⟨fun _ => ?_, fun q hq => h.known q (List.mem_of_mem_erase hq),
    fun q hq => h.entered q (List.mem_of_mem_erase hq)⟩
  have hroom := h.room (List.ne_nil_of_mem hp)
  rw [← List.sum_map_erase _ hp] at hroom
  omega

theorem budgeted_endOp_more (h : Budgeted k grp s o) (ho : OpsFit grp s o) (hp : s.pc p = .inOp) :
    Budgeted k (grp ++ [.endOp p])
      (setPc (wakeup { s with outstanding := s.outstanding - 1 }) p .idle) (o.erase p) := by
  refine (h.erase ((ho.active p).mpr (active_of_inOp hp))).move (opBlocks_snoc _ _) rfl ?_
  intro q b
  rw [logging_setPc (by simp [wakeup, hp]) (by simp)]
  exact wakeup_pc_logging

theorem budgeted_beginSleep (h : Budgeted k grp s o) (hp : s.pc p = .idle ∨ s.pc p = .woken) :
    Budgeted k grp (setPc s p .asleep) o := by
  refine h.move rfl rfl (logging_setPc ?_ (by simp))
  rcases hp with hp | hp <;> simp [hp]

theorem budgeted_nil : Budgeted k grp s [] :=
  ⟨fun h => absurd rfl h, fun _ hp => absurd hp (by simp), fun _ hp => absurd hp (by simp)⟩

end Steps

/-! ### Whole runs -/

/-- The log together with what is owed to it, after the run `es`. -/
def Reserved (k : ℕ) (es : List Event) (s : LogSys) : Prop :=
  s.phase = .running →
    ∃ o, OpsFit (ledger es).current s o ∧ Budgeted k (ledger es).current s o

/-- The open operations are a function of the group, so the witness of `OpsInv` is the one of
`Reserved`. -/
theorem budgeted_of_opsFit {k : ℕ} {es : List Event} {s : LogSys} {o : List ℕ} (h : Reserved k es s)
    (hph : s.phase = .running) (ho : OpsFit (ledger es).current s o) : Budgeted k (ledger es).current s o := by
  obtain ⟨o', ho', hb⟩ := h hph
  have heq : some o' = some o := ho'.bracket.symm.trans ho.bracket
  cases heq
  exact hb

theorem reserved_step {g : Geometry} {k : ℕ} {es : List Event} {s t : LogSys} {e : Event}
    (hpos : 0 < k) (hmax : k ≤ MAXOPBLOCKS) (hops : OpsInv es s) (h : Reserved k es s) (hst : step g s e = some t)
    (hk : ∀ p, (opBlocks (ledger (es ++ [e])).current p).length ≤ k) : Reserved k (es ++ [e]) t := by
  intro hrun
  obtain ⟨o', ho'⟩ := (opsInv_step hops hst).running hrun
  refine ⟨o', ho', ?_⟩
  -- the new open operations are those the step lemmas of `OpsFit` give
  have hsame : ∀ {o}, bracket [] (ledger (es ++ [e])).current = some o → o = o' := by
    intro o ho
    exact Option.some.inj (ho.symm.trans ho'.bracket)
  have hnil : t.outstanding = 0 → Budgeted k (ledger (es ++ [e])).current t o' := by
    intro hz
    obtain rfl := List.eq_nil_of_length_eq_zero (ho'.count.trans hz)
    exact budgeted_nil
  have hcommit : ∀ {p c}, t.pc p = .commit c → Budgeted k (ledger (es ++ [e])).current t o' := by
    intro p c hp
    rw [(ho'.alone p c hp).2]
    exact budgeted_nil
  rw [ledger_snoc] at hk ⊢
  rw [ledger_snoc] at hsame hnil hcommit
  cases moves_of_step hst with
  | crash | install | tooBig | outsideTrans | endOpPanic => cases hrun
  | clear hph _ =>
    unfold OpsInv at hops
    rw [hph] at hops
    exact hnil hops.2.2.1
  | beginOp hph hp ha =>
    obtain ⟨o, ho⟩ := hops.running hph
    obtain rfl := hsame (opsFit_beginOp ho hp ha).bracket
    exact budgeted_beginOp (budgeted_of_opsFit h hph ho) hpos hmax ho hp ha
  | @beginSleep p hph hp _ =>
    obtain ⟨o, ho⟩ := hops.running hph
    obtain rfl := hsame ho.bracket
    exact budgeted_beginSleep (budgeted_of_opsFit h hph ho) hp
  | @logWrite p b data hph hp _ =>
    obtain ⟨o, ho⟩ := hops.running hph
    have hmid := opsFit_logWrite ho (e := .logWrite p b data) (Or.inl rfl) (active_of_inOp hp)
      (active_logging b) (t := { s with cache := Function.update s.cache b.toNat data }) rfl rfl rfl
    obtain rfl := hsame hmid.bracket
    exact budgeted_logAppend
      (budgeted_logCheck (budgeted_of_opsFit h hph ho) ho (Or.inl rfl) hp (hk p)) hmid
      (pc_setPc_self _ _ _)
  | @logCheck p b data hph hp _ =>
    obtain ⟨o, ho⟩ := hops.running hph
    have hmid := opsFit_logWrite ho (e := .logCheck p b data) (Or.inr rfl) (active_of_inOp hp)
      (active_logging b) (t := { s with cache := Function.update s.cache b.toNat data }) rfl rfl rfl
    obtain rfl := hsame hmid.bracket
    exact budgeted_logCheck (budgeted_of_opsFit h hph ho) ho (Or.inr rfl) hp (hk p)
  | logAppend hph hp =>
    obtain ⟨o, ho⟩ := hops.running hph
    obtain rfl := hsame ho.bracket
    exact budgeted_logAppend (budgeted_of_opsFit h hph ho) ho hp
  | endOpMore hph hp _ hmore =>
    obtain ⟨o, ho⟩ := hops.running hph
    obtain rfl := hsame (opsFit_endOp_more ho hp hmore).bracket
    exact budgeted_endOp_more (budgeted_of_opsFit h hph ho) ho hp
  | endOpLast | writeLog | writeHead | installTrans | eraseHead => exact hcommit (pc_setPc_self _ _ _)
  | endCommit hph hp =>
    obtain ⟨o, ho⟩ := hops.running hph
    exact hnil (lone_facts ho hp).2.1

theorem reserved_run {g : Geometry} {d₀ : Disk} {k : ℕ} {es : List Event} {s : LogSys} (hpos : 0 < k)
    (hmax : k ≤ MAXOPBLOCKS) (hk : WithinBudget k es) (hrun : exec (step g) (boot g d₀) es = some s) :
    Reserved k es s := by
  refine exec_history_all (P := fun es s => WithinBudget k es → Reserved k es s)
    (fun _ h => by cases h) ?_ hrun hk
  intro es s e t hes hs hst hk
  refine reserved_step hpos hmax (opsInv_run hes) (hs fun pre hpre => ?_) hst (hk _ List.prefix_rfl)
  exact hk pre (hpre.trans (List.prefix_append _ _))

/-- Operations that log one block less than `begin_op` reserves for them never meet the panic. -/
theorem neverTooBig_of_withinBudget {d₀ : Disk} {es : List Event}
    (hk : WithinBudget (MAXOPBLOCKS - 1) es) : NeverTooBig d₀ es := by
  intro pre hpre s hrun hph
  obtain ⟨pre', e, r, p, rfl, hr, hrunning, hp, -, hlen⟩ := tooBig_cause hrun hph
  have hk' : WithinBudget (MAXOPBLOCKS - 1) pre' :=
    fun a ha => hk a ((ha.trans (List.prefix_append _ _)).trans hpre)
  obtain ⟨o, ho, hb⟩ := reserved_run (by decide) (Nat.sub_le _ _) hk' hr hrunning
  have hroom := hb.room (List.ne_nil_of_mem ((ho.active p).mpr (active_of_inOp hp)))
  have hsize : LOGSIZE = 30 := rfl
  have hten : MAXOPBLOCKS = 10 := rfl
  omega

/-! ### The exact condition -/

/-- **Log space.**  On the log `mkfs` makes, `log_write` stays clear of
`panic("too big a transaction")` when every call is made before the group of operations has logged
`LOGSIZE - 1` distinct blocks.  For whole calls the condition is also necessary.  Operations of at
most `MAXOPBLOCKS - 1` blocks each never panic, whatever their number. -/
theorem log_space (d₀ : Disk) (es : List Event) (s : LogSys)
    (hrun : exec (step mkfsLog) (boot mkfsLog d₀) es = some s) :
    (CallsFit es → NeverTooBig d₀ es) ∧
      ((∀ e ∈ es, whole e = true) → NeverTooBig d₀ es → CallsFit es) ∧
      (WithinBudget (MAXOPBLOCKS - 1) es → NeverTooBig d₀ es) :=
  ⟨neverTooBig_of_callsFit, callsFit_of_neverTooBig hrun, neverTooBig_of_withinBudget⟩

def caller : Event → Option ℕ
  | .logWrite p _ _ => some p
  | .logCheck p _ _ => some p
  | _ => none

theorem length_opBlocks_le (grp : List Event) (p : ℕ) : (opBlocks grp p).length ≤ (grp.filterMap caller).count p := by
  induction grp using List.reverseRecOn with
  | nil => simp [opBlocks]
  | append_singleton grp e ih =>
    have hins : ∀ (b : UInt32) (l : List UInt32), (l.insert b).length ≤ l.length + 1 := by
      intro b l
      by_cases hb : b ∈ l
      · rw [List.insert_of_mem hb]
        omega
      · rw [List.length_insert_of_not_mem hb]
    rw [opBlocks_snoc, List.filterMap_append, List.count_append]
    cases e with
    | beginOp q =>
      by_cases hq : p = q
      · subst hq
        simp [touch]
      · rw [touch, Function.update_of_ne hq]
        exact ih.trans (Nat.le_add_right _ _)
    | logWrite q b data | logCheck q b data =>
      by_cases hq : p = q
      · subst hq
        simpa [touch, caller] using (hins b _).trans (Nat.succ_le_succ ih)
      · simpa [touch, hq, caller, Ne.symm hq] using ih
    | _ => exact ih.trans (Nat.le_add_right _ _)

theorem current_sublist (es : List Event) : (ledger es).current.Sublist es := by
  induction es using List.reverseRecOn with
  | nil => exact List.Sublist.refl _
  | append_singleton es e ih =>
    rw [ledger_snoc]
    cases e with
    | beginOp p | logWrite p b data | logCheck p b data | endOp p => exact ih.append_right _
    | writeHead p | endCommit p | crash => exact List.nil_sublist _
    | _ => exact ih.trans (List.sublist_append_left _ _)

/-- A process that calls `log_write` at most `k` times logs at most `k` blocks. -/
theorem withinBudget_of_calls {k : ℕ} {es : List Event}
    (h : ∀ p ∈ es.filterMap caller, (es.filterMap caller).count p ≤ k) : WithinBudget k es := by
  intro pre hpre p
  have hsub : ((ledger pre).current.filterMap caller).count p ≤ (es.filterMap caller).count p :=
    (((current_sublist pre).trans hpre.sublist).filterMap caller).count_le p
  refine (length_opBlocks_le _ p).trans (hsub.trans ?_)
  by_cases hp : p ∈ es.filterMap caller
  · exact h p hp
  · rw [List.count_eq_zero_of_not_mem hp]
    omega

/-- Three concurrent operations that log `k` blocks each. -/
def threeOps (k : ℕ) : List Event :=
  [.recover, .beginOp 0, .beginOp 1, .beginOp 2] ++
    (List.range (3 * k)).map fun i => .logWrite (i % 3) (UInt32.ofNat (100 + i)) fun _ => 0

theorem log_space_nine : NeverTooBig (fun _ _ => 0) (threeOps 9) := by
  have hsome : (exec (step mkfsLog) (boot mkfsLog fun _ _ => 0) (threeOps 9)).isSome = true := by
    decide +kernel
  obtain ⟨s, hs⟩ := Option.isSome_iff_exists.mp hsome
  exact (log_space (fun _ _ => 0) (threeOps 9) s hs).2.2 (withinBudget_of_calls (by decide +kernel))

/-- Three operations of `MAXOPBLOCKS` blocks each fill the reservation, and the thirtieth block
panics. -/
theorem tooBig_within_maxopblocks :
    WithinBudget MAXOPBLOCKS (threeOps 10) ∧ (∀ e ∈ threeOps 10, whole e = true) ∧
      ∃ s, exec (step mkfsLog) (boot mkfsLog fun _ _ => 0) (threeOps 10) = some s ∧
        s.phase = .panicked .tooBig := by
  have hsome : (exec (step mkfsLog) (boot mkfsLog fun _ _ => 0) (threeOps 10)).map (·.phase) =
      some (.panicked .tooBig) := by decide +kernel
  exact ⟨withinBudget_of_calls (by decide +kernel), by decide +kernel,
    Option.map_eq_some_iff.mp hsome⟩

end Xv6.LogBudget
