import Xv6.LogInvariant

/-!
# The steps of `commit` and of `recover_from_log`

While a process is inside `commit` it is alone: no operation is open and no other process commits
(`lone_facts`).  Each disk write of `commit` then keeps `Running`, and the first `write_head` is
the only step that changes the durable disk (`running_writeHead`).  After a crash the invariant is
`Recovering`; every iteration of `install_trans` keeps it and the closing `write_head` leads back
to `Running`.
-/

namespace Xv6.LogCommit

open Xv6.LabelledRuns Xv6.LittleEndian Xv6.Params Xv6.LogMachine Xv6.LogOps Xv6.LogInvariant
open Function (update_self update_of_ne)

/-! ### The steps of `commit` -/

section Commit

variable {g : Geometry} {D : Disk} {grp : List Event} {s : LogSys} {o : List ℕ} {p tail : ℕ}

theorem running_of_lone {c : CommitPc} (hlog : LogFits g s) (hops : OpsFit grp s o)
    (hp : s.pc p = .commit c) (hpend : (∀ t, c ≠ .installTrans t) → Pending g D grp s)
    (hwrite : ∀ t, c = .writeLog t → t ≤ s.lh.length ∧
      ∀ i, i < t → s.disk (g.start + i + 1) = s.cache (s.lh.getD i 0).toNat)
    (hinst : ∀ t, c = .installTrans t → grp = [] ∧ Installing g D s t) : Running g D grp s o := by
  have hsame : ∀ {q : ℕ} {c' : CommitPc}, s.pc q = .commit c' → c = c' := by
    intro q c' hq
    obtain rfl := hops.unique q p c' c hq hp
    rw [hp] at hq
    cases hq
    rfl
  exact ⟨hlog, hops, fun hno => hpend fun t ht => hno p t (ht ▸ hp),
    fun q t hq => hwrite t (hsame hq), fun q t hq => hinst t (hsame hq)⟩

theorem not_logging_of_quiet (hquiet : ∀ q, active (s.pc q) = false) (q : ℕ) (b : UInt32) : s.pc q ≠ .logging b := by
  intro hq
  have := hquiet q
  rw [hq] at this
  exact Bool.noConfusion this

theorem pending_clean (h : Pending g D grp s) (hquiet : ∀ q, active (s.pc q) = false) {b : ℕ} (hb : ¬ g.InLog b)
    (hnot : ∀ x ∈ s.lh, x.toNat ≠ b) : s.cache b = D b := by
  by_contra hne
  rcases h.dirty b hb hne with ⟨x, hx, hxb⟩ | ⟨q, x, hq, -⟩
  · exact hnot x hx hxb
  · exact not_logging_of_quiet hquiet q x hq

theorem pending_of_writing (h : Running g D grp s o) {c : CommitPc} (hp : s.pc p = .commit c)
    (hc : ∀ t, c ≠ .installTrans t) : Pending g D grp s := by
  refine h.pending fun q t hq => ?_
  obtain rfl := h.ops.unique q p _ c hq hp
  rw [hp, Pc.commit.injEq] at hq
  exact hc t hq

theorem running_endOp_last (h : Running g D grp s o) (hp : s.pc p = .inOp)
    (hlast : s.outstanding - 1 = 0) :
    Running g D (grp ++ [.endOp p])
      (setPc { s with outstanding := s.outstanding - 1, committing := true } p
        (.commit (if s.lh.length > 0 then .writeLog 0 else .finished))) [] := by
  have hpend := h.calm_pending (h.ops.calm_of_active (active_of_inOp hp))
  have hops := opsFit_endOp_last h.ops hp hlast
  have hquiet := (lone_facts hops (pc_setPc_self _ _ _)).2.2.2.2.1
  refine running_of_lone ?_ hops (pc_setPc_self _ _ _) (fun _ => ?_) ?_ ?_
  · refine ⟨h.log.home, fun q b hq => ?_, h.log.room, h.log.small, h.log.cacheLog⟩
    exact absurd hq (not_logging_of_quiet hquiet q b)
  · refine ⟨hpend.disk, ?_, ?_⟩
    · intro b hb
      rw [applyGroup_snoc]
      exact hpend.cache b hb
    · intro b hb hne
      rcases hpend.dirty b hb hne with hx | ⟨q, x, hq, hx⟩
      · exact Or.inl hx
      · have hqp : q ≠ p := by
          rintro rfl
          rw [hp] at hq
          cases hq
        have hact := quiet_of_last h.ops hp hlast hqp
        rw [hq] at hact
        cases hact
  · intro t ht
    split at ht
    · cases ht
      exact ⟨Nat.zero_le _, fun i hi => absurd hi (Nat.not_lt_zero i)⟩
    · cases ht
  · intro t ht
    split at ht <;> cases ht

theorem running_writeLog (h : Running g D grp s o) (hp : s.pc p = .commit (.writeLog tail))
    (ht : tail < s.lh.length) :
    Running g D grp (setPc (writeLogBlock g s tail) p (.commit (.writeLog (tail + 1)))) [] := by
  obtain ⟨hgrp, -, -, -, hquiet, -⟩ := lone_facts h.ops hp
  obtain ⟨-, hdone⟩ := h.writing p tail hp
  have hroom := h.log.room
  have hpend := pending_of_writing h hp (by simp)
  have hhome : ∀ b, ¬ g.InLog b → b ≠ g.start + tail + 1 :=
    fun b hb => (data_ne hb (by omega)).symm
  have hq' := quiet_setPc (s := writeLogBlock g s tail) (p := p) (c := .writeLog (tail + 1)) hquiet
  refine running_of_lone ?_ (opsFit_commit h.ops hp hgrp rfl rfl rfl (by simp))
    (pc_setPc_self _ _ _) ?_ ?_ ?_
  · refine ⟨h.log.home, fun q b hq => absurd hq (not_logging_of_quiet hq' q b), h.log.room,
      h.log.small, ?_⟩
    intro b hb
    by_cases hbt : b = g.start + tail + 1
    · simp [setPc, writeLogBlock, hbt]
    · simpa [setPc, writeLogBlock, update_of_ne hbt] using h.log.cacheLog b hb
  · intro _
    refine ⟨⟨?_, by simp, g.size_pos, by simp, ?_⟩, ?_, ?_⟩
    · have hne : g.start ≠ g.start + tail + 1 := by omega
      simpa [setPc, writeLogBlock, update_of_ne hne] using hpend.disk.head
    · intro b hb hnil
      simpa [setPc, writeLogBlock, update_of_ne (hhome b hb)] using
        hpend.disk.rest b hb hnil
    · intro b hb
      simpa [setPc, writeLogBlock, update_of_ne (hhome b hb)] using hpend.cache b hb
    · intro b hb hne
      have hne' : s.cache b ≠ D b := by
        simpa [setPc, writeLogBlock, update_of_ne (hhome b hb)] using hne
      rcases hpend.dirty b hb hne' with hx | ⟨q, x, hq, -⟩
      · exact Or.inl hx
      · exact absurd hq (not_logging_of_quiet hquiet q x)
  · intro t ht'
    cases ht'
    refine ⟨ht, fun i hi => ?_⟩
    have hcache : ∀ j, j < s.lh.length →
        (setPc (writeLogBlock g s tail) p (.commit (.writeLog (tail + 1)))).cache
          (s.lh.getD j 0).toNat = s.cache (s.lh.getD j 0).toNat := by
      intro j hj
      exact update_of_ne (hhome _ (h.log.home _ (getD_mem s.lh hj))) _ _
    have hlh : (setPc (writeLogBlock g s tail) p (.commit (.writeLog (tail + 1)))).lh = s.lh := rfl
    rw [hlh, hcache i (by omega)]
    by_cases hit : i = tail
    · subst hit
      simp [setPc, writeLogBlock]
    · have hne : g.start + i + 1 ≠ g.start + tail + 1 := by omega
      simpa [setPc, writeLogBlock, update_of_ne hne] using hdone i (by omega)
  · intro t ht'
    cases ht'

/-- **The commit point.**  The first `write_head` turns the open group into a committed one. -/
theorem running_writeHead (h : Running g D grp s o) (hp : s.pc p = .commit (.writeLog tail))
    (ht : ¬ tail < s.lh.length) : Complete grp ∧ Running g (applyGroup D grp) []
      (setPc (storeHead g s) p (.commit (.installTrans 0))) [] := by
  obtain ⟨hgrp, -, -, -, hquiet, -⟩ := lone_facts h.ops hp
  obtain ⟨hle, hdone⟩ := h.writing p tail hp
  have hpend := pending_of_writing h hp (by simp)
  have hq' := quiet_setPc (s := storeHead g s) (p := p) (c := .installTrans 0) hquiet
  refine ⟨hgrp, running_of_lone ?_ (opsFit_commit h.ops hp rfl rfl rfl rfl (by simp))
    (pc_setPc_self _ _ _) ?_ ?_ ?_⟩
  · refine ⟨h.log.home, fun q b hq => absurd hq (not_logging_of_quiet hq' q b), h.log.room,
      h.log.small, ?_⟩
    intro b hb
    by_cases hbs : b = g.start
    · simp [setPc, storeHead, hbs]
    · simpa [setPc, storeHead, update_of_ne hbs] using h.log.cacheLog b hb
  · intro hno
    exact absurd rfl (hno 0)
  · intro t ht'
    cases ht'
  · intro t ht'
    cases ht'
    refine ⟨rfl, ⟨?_, h.log.home, h.log.room, ?_, ?_⟩, ?_, Nat.zero_le _, ?_⟩
    · have hsmall := h.log.small
      have hlt : s.lh.length < 2 ^ 32 := by unfold LOGSIZE MAXOPBLOCKS at hsmall; omega
      simpa [setPc, storeHead] using readHead_putHead (s.cache g.start) s.lh hlt
    · intro i hi
      change i < s.lh.length at hi
      have hne : g.start + i + 1 ≠ g.start := by omega
      have hcache := hpend.cache _ (h.log.home _ (getD_mem s.lh hi))
      have hdisk := hdone i (by omega)
      change Function.update s.disk g.start _ (g.start + i + 1) = applyGroup D grp (s.lh.getD i 0).toNat
      rw [update_of_ne hne, hdisk, hcache]
    · intro b hb hnot
      change Function.update s.disk g.start _ b = applyGroup D grp b
      rw [update_of_ne (start_ne hb).symm, ← hpend.cache b hb,
        hpend.disk.rest b hb (by simp), pending_clean hpend hquiet hb hnot]
    · intro b hb
      change Function.update s.cache g.start _ b = applyGroup D grp b
      rw [update_of_ne (start_ne hb).symm, hpend.cache b hb]
    · exact fun i hi => absurd hi (Nat.not_lt_zero i)

theorem running_installTrans (h : Running g D grp s o)
    (hp : s.pc p = .commit (.installTrans tail)) (ht : tail < s.lh.length) :
    Running g D grp (setPc (installBlock g s tail) p (.commit (.installTrans (tail + 1)))) [] := by
  obtain ⟨hgrp, -, -, -, hquiet, -⟩ := lone_facts h.ops hp
  obtain ⟨hnil, hinst⟩ := h.installing p tail hp
  have hroom := h.log.room
  have hdata : s.cache (g.start + tail + 1) = D (s.lh.getD tail 0).toNat := by
    rw [h.log.cacheLog _ (inLog_data g (by omega)), hinst.disk.logged tail ht]
  have hdst := h.log.home _ (getD_mem s.lh ht)
  have hq' := quiet_setPc (s := installBlock g s tail) (p := p) (c := .installTrans (tail + 1)) hquiet
  refine running_of_lone ?_ (opsFit_commit h.ops hp hgrp rfl rfl rfl (by simp))
    (pc_setPc_self _ _ _) ?_ ?_ ?_
  · refine ⟨h.log.home, fun q b hq => absurd hq (not_logging_of_quiet hq' q b), h.log.room,
      h.log.small, ?_⟩
    intro b hb
    have hne : b ≠ (s.lh.getD tail 0).toNat := by
      rintro rfl
      exact hdst hb
    change Function.update s.cache _ _ b = Function.update s.disk _ _ b
    rw [update_of_ne hne, update_of_ne hne, h.log.cacheLog b hb]
  · intro hno
    exact absurd rfl (hno (tail + 1))
  · intro t ht'
    cases ht'
  · intro t ht'
    cases ht'
    refine ⟨hnil, hinst.disk.install ht _, ?_, ht, ?_⟩
    · intro b hb
      change Function.update s.cache (s.lh.getD tail 0).toNat _ b = D b
      by_cases hbd : b = (s.lh.getD tail 0).toNat
      · rw [hbd, update_self, hdata]
      · rw [update_of_ne hbd, hinst.cache b hb]
    · intro i hi
      change Function.update s.disk (s.lh.getD tail 0).toNat _ (s.lh.getD i 0).toNat
        = D (s.lh.getD i 0).toNat
      by_cases hbd : (s.lh.getD i 0).toNat = (s.lh.getD tail 0).toNat
      · rw [hbd, update_self, hdata]
      · have hit : i ≠ tail := fun he => hbd (by rw [he])
        rw [update_of_ne hbd, hinst.placed i (by omega)]

theorem running_eraseHead (h : Running g D grp s o) (hp : s.pc p = .commit (.installTrans tail))
    (ht : ¬ tail < s.lh.length) :
    Running g D grp (setPc (storeHead g { s with lh := [] }) p (.commit .finished)) [] := by
  obtain ⟨hgrp, -, -, -, hquiet, -⟩ := lone_facts h.ops hp
  obtain ⟨rfl, hinst⟩ := h.installing p tail hp
  have hq' := quiet_setPc (s := storeHead g { s with lh := [] }) (p := p) (c := .finished) hquiet
  have hhome : ∀ b, ¬ g.InLog b → Function.update s.cache g.start
      (putHead (s.cache g.start) []) b = D b := by
    intro b hb
    rw [update_of_ne (start_ne hb).symm, hinst.cache b hb]
  refine running_of_lone ?_ (opsFit_commit h.ops hp hgrp rfl rfl rfl (fun _ => rfl))
    (pc_setPc_self _ _ _) ?_ ?_ ?_
  · refine ⟨?_, fun q b hq => absurd hq (not_logging_of_quiet hq' q b), g.size_pos,
      Nat.zero_le _, ?_⟩
    · intro b hb
      exact absurd hb (List.not_mem_nil)
    · intro b hb
      by_cases hbs : b = g.start
      · simp [setPc, storeHead, hbs]
      · simpa [setPc, storeHead, update_of_ne hbs] using h.log.cacheLog b hb
  · intro _
    refine ⟨?_, hhome, fun b hb hne => absurd (hhome b hb) hne⟩
    exact hinst.disk.erase (fun i hi => hinst.placed i (by omega)) _
  · intro t ht'
    cases ht'
  · intro t ht'
    cases ht'

theorem running_endCommit (h : Running g D grp s o) (hp : s.pc p = .commit .finished) :
    Running g D [] (setPc (wakeup { s with committing := false }) p .idle) [] := by
  have hquiet := (lone_facts h.ops hp).2.2.2.2.1
  have hops := opsFit_endCommit h.ops hp
  have hlh := h.ops.finished p hp
  have hpend := pending_of_writing h hp (by simp)
  have hclean : ∀ b, ¬ g.InLog b → s.cache b = D b := by
    intro b hb
    refine pending_clean hpend hquiet hb ?_
    rw [hlh]
    simp
  refine Running.of_calm (hops.calm_of_idle rfl) ?_ hops ?_
  · refine ⟨h.log.home, fun q b hq => ?_, h.log.room, h.log.small, h.log.cacheLog⟩
    exact h.log.going q b (wakeup_pc_logging.mp (pc_of_setPc_ne (by simp) hq))
  · exact ⟨hpend.disk, hclean, fun b hb hne => absurd (hclean b hb) hne⟩

/-! ### Crash and recovery -/

theorem running_onDisk (h : Running g D grp s o) : ∃ H, OnDisk g s.disk H D := by
  by_cases hex : ∃ p t, s.pc p = .commit (.installTrans t)
  · obtain ⟨p, t, hp⟩ := hex
    exact ⟨s.lh, (h.installing p t hp).2.disk⟩
  · exact ⟨[], (h.pending fun p t hp => hex ⟨p, t, hp⟩).disk⟩

theorem recovering_boot {d : Disk} {H : List UInt32} (h : OnDisk g d H D) : Recovering g D (boot g d) 0 := by
  refine ⟨?_, rfl, Nat.zero_le _, fun i hi => absurd hi (Nat.not_lt_zero i), fun _ => rfl, rfl, rfl⟩
  have hlh : (boot g d).lh = H := h.head
  rw [hlh]
  exact h

theorem recovering_install (h : Recovering g D s tail) (ht : tail < s.lh.length) :
    Recovering g D { installBlock g s tail with phase := .recovering (tail + 1) } (tail + 1) := by
  have hdata : s.cache (g.start + tail + 1) = D (s.lh.getD tail 0).toNat := by
    rw [h.cache, h.disk.logged tail ht]
  refine ⟨h.disk.install ht _, ?_, ht, ?_, h.idle, h.outstanding, h.committing⟩
  · change Function.update s.cache _ _ = Function.update s.disk _ _
    rw [h.cache]
  · intro i hi
    change Function.update s.disk (s.lh.getD tail 0).toNat _ (s.lh.getD i 0).toNat
      = D (s.lh.getD i 0).toNat
    by_cases hbd : (s.lh.getD i 0).toNat = (s.lh.getD tail 0).toNat
    · rw [hbd, update_self, hdata]
    · have hit : i ≠ tail := fun he => hbd (by rw [he])
      rw [update_of_ne hbd, h.placed i (by omega)]

theorem recovering_done (h : Recovering g D s tail) (ht : ¬ tail < s.lh.length) :
    Running g D [] { storeHead g { s with lh := [] } with phase := .running } [] := by
  have hdisk := h.disk.erase (fun i hi => h.placed i (by omega)) (s.cache g.start)
  have hcache : ∀ b, ¬ g.InLog b → Function.update s.cache g.start
      (putHead (s.cache g.start) []) b = D b := by
    intro b hb
    have hrest := hdisk.rest b hb (by simp)
    rw [h.cache] at hrest ⊢
    exact hrest
  have hops : OpsFit [] { storeHead g { s with lh := [] } with phase := .running } [] :=
    opsFit_idle h.idle h.outstanding h.committing rfl
  refine Running.of_calm (hops.calm_of_idle h.committing) ?_ hops ?_
  · refine ⟨fun b hb => absurd hb List.not_mem_nil, fun q b hq => ?_, g.size_pos, Nat.zero_le _, ?_⟩
    · change s.pc q = .logging b at hq
      rw [h.idle q] at hq
      cases hq
    · intro b _
      change Function.update s.cache _ _ b = Function.update s.disk _ _ b
      rw [h.cache]
  · exact ⟨hdisk, hcache, fun b hb hne => absurd (hcache b hb) hne⟩

end Commit

end Xv6.LogCommit
