import Xv6.LogOps

/-!
# The invariant of the log

The disk of the machine always *represents* the durable disk of the ledger (`OnDisk`): every block
the header on disk lists has its durable contents in the log, every other home block has them in
place.  This one relation is what a crash preserves and what `recover_from_log` turns into the
plain disk, however often it is interrupted.  Around it, `Running` says how the cache, `log.lh`
and the place inside `commit` fit to the open group.  This module has the steps of the operations;
those of `commit` are in `LogCommit`.
-/

namespace Xv6.LogInvariant

open Xv6.LabelledRuns Xv6.LittleEndian Xv6.Params Xv6.LogMachine Xv6.LogOps
open Function (update_of_ne)

/-! ### What the disk represents -/

/-- The header on disk lists `H`, and replaying the log over the home blocks gives `D`. -/
structure OnDisk (g : Geometry) (d : Disk) (H : List UInt32) (D : Disk) : Prop where
  head : readHead (d g.start) = H
  home : ∀ b ∈ H, ¬ g.InLog b.toNat
  room : H.length < g.size
  logged : ∀ i, i < H.length → d (g.start + i + 1) = D (H.getD i 0).toNat
  rest : ∀ b, ¬ g.InLog b → (∀ x ∈ H, x.toNat ≠ b) → d b = D b

theorem inLog_start (g : Geometry) : g.InLog g.start := ⟨le_rfl, by have := g.size_pos; omega⟩

theorem inLog_data (g : Geometry) {i : ℕ} (h : i + 1 < g.size) : g.InLog (g.start + i + 1) :=
  ⟨by omega, by omega⟩

theorem start_ne {g : Geometry} {b : ℕ} (h : ¬ g.InLog b) : g.start ≠ b := by
  rintro rfl
  exact h (inLog_start g)

theorem data_ne {g : Geometry} {b i : ℕ} (h : ¬ g.InLog b) (hi : i + 1 < g.size) : g.start + i + 1 ≠ b := by
  rintro rfl
  exact h (inLog_data g hi)

theorem getD_mem (H : List UInt32) {i : ℕ} (h : i < H.length) : H.getD i 0 ∈ H := by
  rw [List.getD_eq_getElem?_getD, List.getElem?_eq_getElem h]
  exact List.getElem_mem h

/-- A write to the home of a listed block keeps the representation, since the log still has its
contents: this is the step of `install_trans`, at commit and in recovery. -/
theorem OnDisk.install {g : Geometry} {d : Disk} {H : List UInt32} {D : Disk}
    (h : OnDisk g d H D) {i : ℕ} (hi : i < H.length) (data : Block) :
    OnDisk g (Function.update d (H.getD i 0).toNat data) H D := by
  have hhome := h.home _ (getD_mem H hi)
  refine ⟨?_, h.home, h.room, ?_, ?_⟩
  · rw [update_of_ne (start_ne hhome)]
    exact h.head
  · intro k hk
    have := h.room
    rw [update_of_ne (data_ne hhome (by omega))]
    exact h.logged k hk
  · intro b hb hnot
    rw [update_of_ne (fun he => hnot _ (getD_mem H hi) he.symm)]
    exact h.rest b hb hnot

theorem OnDisk.erase {g : Geometry} {d : Disk} {H : List UInt32} {D : Disk} (h : OnDisk g d H D)
    (hall : ∀ i, i < H.length → d (H.getD i 0).toNat = D (H.getD i 0).toNat) (blk : Block) :
    OnDisk g (Function.update d g.start (putHead blk [])) [] D := by
  have hplain : ∀ b, ¬ g.InLog b → d b = D b := by
    intro b hb
    by_cases hx : ∃ x ∈ H, x.toNat = b
    · obtain ⟨x, hx, rfl⟩ := hx
      obtain ⟨i, hi, rfl⟩ := List.getElem_of_mem hx
      have := hall i hi
      rwa [List.getD_eq_getElem?_getD, List.getElem?_eq_getElem hi] at this
    · exact h.rest b hb (fun x hx' he => hx ⟨x, hx', he⟩)
  refine ⟨?_, by simp, g.size_pos, by simp, ?_⟩
  · rw [Function.update_self]
    exact readHead_putHead blk [] (by norm_num)
  · intro b hb _
    rw [update_of_ne (start_ne hb).symm]
    exact hplain b hb

/-! ### The running system -/

/-- `log.lh` is fit to be committed: its blocks and those on their way to it lie outside the log
and it has room in the log; the cached copies of the log blocks are the ones on disk. -/
structure LogFits (g : Geometry) (s : LogSys) : Prop where
  home : ∀ b ∈ s.lh, ¬ g.InLog b.toNat
  going : ∀ p b, s.pc p = .logging b → ¬ g.InLog b.toNat
  room : s.lh.length < g.size
  small : s.lh.length ≤ LOGSIZE
  cacheLog : ∀ b, g.InLog b → s.cache b = s.disk b

/-- Before the commit point: the disk is the durable one, the cache is ahead of it by the open
group, and every block that differs is in `log.lh` or on its way there. -/
structure Pending (g : Geometry) (D : Disk) (grp : List Event) (s : LogSys) : Prop where
  disk : OnDisk g s.disk [] D
  cache : ∀ b, ¬ g.InLog b → s.cache b = applyGroup D grp b
  dirty : ∀ b, ¬ g.InLog b → s.cache b ≠ D b →
    (∃ x ∈ s.lh, x.toNat = b) ∨ ∃ p x, s.pc p = .logging x ∧ x.toNat = b

/-- After the commit point: the header lists `log.lh`, and the first `tail` blocks are home. -/
structure Installing (g : Geometry) (D : Disk) (s : LogSys) (tail : ℕ) : Prop where
  disk : OnDisk g s.disk s.lh D
  cache : ∀ b, ¬ g.InLog b → s.cache b = D b
  bound : tail ≤ s.lh.length
  placed : ∀ i, i < tail → s.disk (s.lh.getD i 0).toNat = D (s.lh.getD i 0).toNat

/-- **The invariant of a running system.** -/
structure Running (g : Geometry) (D : Disk) (grp : List Event) (s : LogSys) (o : List ℕ) :
    Prop where
  log : LogFits g s
  ops : OpsFit grp s o
  pending : (∀ p t, s.pc p ≠ .commit (.installTrans t)) → Pending g D grp s
  writing : ∀ p t, s.pc p = .commit (.writeLog t) → t ≤ s.lh.length ∧
    ∀ i, i < t → s.disk (g.start + i + 1) = s.cache (s.lh.getD i 0).toNat
  installing : ∀ p t, s.pc p = .commit (.installTrans t) → grp = [] ∧ Installing g D s t

/-- **The invariant of recovery.** -/
structure Recovering (g : Geometry) (D : Disk) (s : LogSys) (tail : ℕ) : Prop where
  disk : OnDisk g s.disk s.lh D
  cache : s.cache = s.disk
  bound : tail ≤ s.lh.length
  placed : ∀ i, i < tail → s.disk (s.lh.getD i 0).toNat = D (s.lh.getD i 0).toNat
  idle : ∀ p, s.pc p = .idle
  outstanding : s.outstanding = 0
  committing : s.committing = false

/-! ### Steps while operations are running -/

section Steps

variable {g : Geometry} {D : Disk} {grp : List Event} {s : LogSys} {o : List ℕ} {p : ℕ}

theorem Running.calm_pending (h : Running g D grp s o) (hc : Calm s) : Pending g D grp s :=
  h.pending fun p t => hc p (.installTrans t)

theorem Running.of_calm (hc : Calm s) (hlog : LogFits g s) (hops : OpsFit grp s o)
    (hpend : Pending g D grp s) : Running g D grp s o where
  log := hlog
  ops := hops
  pending := fun _ => hpend
  writing := fun p _ hp => absurd hp (hc p _)
  installing := fun p _ hp => absurd hp (hc p _)

theorem running_beginOp (h : Running g D grp s o) (hp : s.pc p = .idle ∨ s.pc p = .woken)
    (ha : admits s = true) :
    Running g D (grp ++ [.beginOp p])
      (setPc { s with outstanding := s.outstanding + 1 } p .inOp) (p :: o) := by
  have hcalm : Calm s := h.ops.calm_of_idle (by simp [admits] at ha; exact ha.1)
  have hpend := h.calm_pending hcalm
  have hcalm' : Calm { s with outstanding := s.outstanding + 1 } := hcalm
  refine Running.of_calm (hcalm'.setPc p (by simp)) ?_ (opsFit_beginOp h.ops hp ha) ?_
  · refine ⟨h.log.home, fun q b hq => ?_, h.log.room, h.log.small, h.log.cacheLog⟩
    exact h.log.going q b (pc_of_setPc_ne (by simp) hq)
  · refine ⟨hpend.disk, ?_, ?_⟩
    · intro b hb
      rw [applyGroup_snoc]
      exact hpend.cache b hb
    · intro b hb hne
      rcases hpend.dirty b hb hne with hx | ⟨q, x, hq, hx⟩
      · exact Or.inl hx
      · refine Or.inr ⟨q, x, ?_, hx⟩
        rwa [pc_setPc_ne]
        rintro rfl
        rcases hp with hp | hp <;> rw [hp] at hq <;> cases hq

theorem running_beginSleep (h : Running g D grp s o) (hp : s.pc p = .idle ∨ s.pc p = .woken) :
    Running g D grp (setPc s p .asleep) o := by
  have hback : ∀ {q : ℕ} {c : CommitPc}, (setPc s p .asleep).pc q = .commit c →
      s.pc q = .commit c := fun hq => pc_of_setPc_ne (by simp) hq
  have hkeep : ∀ {q : ℕ} {c : Pc}, s.pc q = c → c ≠ .idle → c ≠ .woken →
      (setPc s p .asleep).pc q = c := by
    intro q c hq h₁ h₂
    rwa [pc_setPc_ne]
    rintro rfl
    rcases hp with hp | hp
    · exact h₁ (hq.symm.trans hp)
    · exact h₂ (hq.symm.trans hp)
  refine ⟨⟨h.log.home, fun q b hq => h.log.going q b (pc_of_setPc_ne (by simp) hq), h.log.room,
      h.log.small, h.log.cacheLog⟩, opsFit_beginSleep h.ops hp, ?_,
    fun q t hq => h.writing q t (hback hq), ?_⟩
  · intro hno
    have hpend : Pending g D grp s :=
      h.pending fun q t hq => hno q t (hkeep hq (by simp) (by simp))
    refine ⟨hpend.disk, hpend.cache, fun b hb hne => ?_⟩
    rcases hpend.dirty b hb hne with hx | ⟨q, x, hq, hx⟩
    · exact Or.inl hx
    · exact Or.inr ⟨q, x, hkeep hq (by simp) (by simp), hx⟩
  · intro q t hq
    obtain ⟨hgrp, hi⟩ := h.installing q t (hback hq)
    exact ⟨hgrp, hi.disk, hi.cache, hi.bound, hi.placed⟩

theorem running_logCheck (h : Running g D grp s o) {b : UInt32} {data : Block} {e : Event}
    (he : e = .logWrite p b data ∨ e = .logCheck p b data) (hp : s.pc p = .inOp)
    (hb : ¬ g.InLog b.toNat) :
    Running g D (grp ++ [e])
      (setPc { s with cache := Function.update s.cache b.toNat data } p (.logging b)) o := by
  have hact := active_of_inOp hp
  have hcalm : Calm { s with cache := Function.update s.cache b.toNat data } :=
    h.ops.calm_of_active hact
  have hpend := h.calm_pending hcalm
  refine Running.of_calm (hcalm.setPc p (by simp)) ?_
    (opsFit_logWrite h.ops he hact (active_logging b) rfl rfl rfl) ?_
  · refine ⟨h.log.home, ?_, h.log.room, h.log.small, ?_⟩
    · intro q x hq
      by_cases hqp : q = p
      · subst hqp
        rw [pc_setPc_self] at hq
        cases hq
        exact hb
      · rw [pc_setPc_ne _ _ hqp] at hq
        exact h.log.going q x hq
    · intro x hx
      have hxb : x ≠ b.toNat := by
        rintro rfl
        exact hb hx
      simpa [setPc, update_of_ne hxb] using h.log.cacheLog x hx
  · refine ⟨hpend.disk, ?_, ?_⟩
    · intro x hx
      have heq : applyGroup D (grp ++ [e]) = Function.update (applyGroup D grp) b.toNat data := by
        rw [applyGroup_snoc]
        rcases he with rfl | rfl <;> rfl
      rw [heq]
      by_cases hxb : x = b.toNat
      · simp [setPc, hxb]
      · simpa [setPc, update_of_ne hxb] using hpend.cache x hx
    · intro x hx hne
      by_cases hxb : x = b.toNat
      · exact Or.inr ⟨p, b, pc_setPc_self _ _ _, hxb.symm⟩
      · rcases hpend.dirty x hx (by simpa [setPc, update_of_ne hxb] using hne) with
          hl | ⟨q, y, hq, hy⟩
        · exact Or.inl hl
        · refine Or.inr ⟨q, y, ?_, hy⟩
          rwa [pc_setPc_ne]
          rintro rfl
          rw [hp] at hq
          cases hq

theorem length_append (lh : List UInt32) (b : UInt32) :
    (append lh b).length = if b ∈ lh then lh.length else lh.length + 1 := by
  by_cases hb : b ∈ lh
  · simp [append_of_mem hb, hb]
  · simp [append_of_not_mem hb, hb]

/-- There is room for one more block number in `log.lh` and in the log. -/
def hasRoom (g : Geometry) (s : LogSys) : Prop :=
  s.lh.length < LOGSIZE ∧ s.lh.length < g.size - 1

theorem hasRoom_of_not_tooBig (h : tooBig g s = false) : hasRoom g s := by
  simp only [tooBig, Bool.or_eq_false_iff, decide_eq_false_iff_not, not_le, ge_iff_le] at h
  exact h

theorem running_logAppend (h : Running g D grp s o) {b : UInt32} (hp : s.pc p = .logging b)
    (hroom : b ∈ s.lh ∨ hasRoom g s) :
    Running g D grp (setPc { s with lh := append s.lh b } p .inOp) o := by
  have hact : active (s.pc p) = true := by rw [hp]; rfl
  have hcalm : Calm { s with lh := append s.lh b } := h.ops.calm_of_active hact
  have hpend := h.calm_pending hcalm
  have hlen : (append s.lh b).length < g.size ∧ (append s.lh b).length ≤ LOGSIZE := by
    have h₁ := h.log.room
    have h₂ := h.log.small
    rw [length_append]
    rcases hroom with hb | hr
    · simp only [hb, if_true]
      omega
    · unfold hasRoom at hr
      split <;> omega
  refine Running.of_calm (hcalm.setPc p (by simp)) ?_ (opsFit_logAppend h.ops hp _) ?_
  · refine ⟨?_, fun q x hq => h.log.going q x (pc_of_setPc_ne (by simp) hq), hlen.1, hlen.2,
      h.log.cacheLog⟩
    intro x hx
    rcases mem_append.mp hx with hx | rfl
    · exact h.log.home x hx
    · exact h.log.going p x hp
  · refine ⟨hpend.disk, hpend.cache, ?_⟩
    intro x hx hne
    rcases hpend.dirty x hx hne with ⟨y, hy, hyx⟩ | ⟨q, y, hq, hyx⟩
    · exact Or.inl ⟨y, mem_append.mpr (Or.inl hy), hyx⟩
    · by_cases hqp : q = p
      · -- the process that was on its way has arrived
        subst hqp
        rw [hp] at hq
        cases hq
        exact Or.inl ⟨b, mem_append.mpr (Or.inr rfl), hyx⟩
      · exact Or.inr ⟨q, y, by rwa [pc_setPc_ne _ _ hqp], hyx⟩

theorem running_endOp_more (h : Running g D grp s o) (hp : s.pc p = .inOp)
    (hmore : s.outstanding - 1 ≠ 0) :
    Running g D (grp ++ [.endOp p])
      (setPc (wakeup { s with outstanding := s.outstanding - 1 }) p .idle) (o.erase p) := by
  have hcalm := h.ops.calm_of_active (active_of_inOp hp)
  have hpend := h.calm_pending hcalm
  have hcalm' : Calm (wakeup { s with outstanding := s.outstanding - 1 }) :=
    fun q c hq => hcalm q c (wakeup_pc_commit.mp hq)
  refine Running.of_calm (hcalm'.setPc p (by simp)) ?_ (opsFit_endOp_more h.ops hp hmore) ?_
  · refine ⟨h.log.home, fun q b hq => ?_, h.log.room, h.log.small, h.log.cacheLog⟩
    exact h.log.going q b (wakeup_pc_logging.mp (pc_of_setPc_ne (by simp) hq))
  · refine ⟨hpend.disk, ?_, ?_⟩
    · intro b hb
      rw [applyGroup_snoc]
      exact hpend.cache b hb
    · intro b hb hne
      rcases hpend.dirty b hb hne with hx | ⟨q, x, hq, hx⟩
      · exact Or.inl hx
      · refine Or.inr ⟨q, x, ?_, hx⟩
        rw [pc_setPc_ne, wakeup_pc_logging]
        · exact hq
        · rintro rfl
          rw [hp] at hq
          cases hq

end Steps

end Xv6.LogInvariant
