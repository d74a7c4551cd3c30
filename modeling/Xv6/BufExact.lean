import Xv6.BufControl

/-!
# Reference counts along runs of the log

Along every run that boots with an empty log header, the `refcnt` of every buffer is the number of
`bread` references to it, plus one when `log.lh` lists its block and a running `install_trans` has
not unpinned it yet (`refcnt_exact`).  Buffers in use are never recycled.

With a committed transaction in the log, `recover_from_log` calls the same `install_trans`, whose
`bunpin` meets buffers that nobody has pinned: the count wraps around
(`refcnt_wraps_after_recovery`), and the buffer can be recycled under its next holder.
-/

namespace Xv6.BufExact

open Xv6.LabelledRuns Xv6.Params Xv6.BufCache Xv6.BufRefs Xv6.BufLog Xv6.BufControl
open Xv6.LogMachine (Disk Geometry headN mkfsLog)

section Steps

variable {g : Geometry} {s t : Sys} {p : Fin NPROC}

theorem place_of_atLarge (h : s.atLarge p = true) :
    s.phase = .running ∧ s.bio.call p = .none ∧ (s.pc p = .idle ∨ s.pc p = .inOp) := by
  simpa [Sys.atLarge, and_assoc] using h

theorem place_of_inCall (h : s.inCall p = true) : s.phase = .running ∧ (s.pc p = .idle ∨ s.pc p = .inOp) := by
  simpa [Sys.inCall] using h

theorem pc_ne {q : Fin NPROC} {c : Pc} (h : q ≠ p) : (s.setPc p c).pc q = s.pc q :=
  Function.update_of_ne h _ _

theorem inv_setPc (h : Inv g s) (hrun : s.phase = .running) {c : Pc} {out : ℕ}
    (hold : ∀ d, s.pc p ≠ .commit d) (hnew : ∀ d, c ≠ .commit d)
    (hlog : ∀ b, c = .logging b → b ∈ s.bio.held p ∧ (s.bio.buf b).dev = g.dev)
    (hcount : out + activeOf (s.pc p) = s.outstanding + activeOf c)
    (hout : ∀ q d, s.pc q = .commit d → out = s.outstanding) :
    Inv g ({ s with outstanding := out }.setPc p c) := by
  have hl := h.live (by simp [hrun])
  have hset := total_setPc activeOf { s with outstanding := out } p c
  have htot : total activeOf { s with outstanding := out } = total activeOf s := total_congr rfl
  refine inv_control h hrun rfl rfl rfl rfl ?_ ?_ ?_ ?_
  · rw [total_setPc_same]
    · exact total_congr rfl
    · rw [doneOf_of_ne hnew]
      exact (doneOf_of_ne hold).symm
  · have hcnt := hl.count
    change _ = out
    change _ + activeOf (s.pc p) = _ at hset
    omega
  · intro q d hq
    have hqp : q ≠ p := by
      rintro rfl
      exact hnew d ((Function.update_self _ _ _).symm.trans hq)
    rw [pc_ne hqp] at hq
    exact ⟨hq, hout q d hq, rfl⟩
  · intro q b hq
    by_cases hqp : q = p
    · subst hqp
      exact hlog b ((Function.update_self _ _ _).symm.trans hq)
    · rw [pc_ne hqp] at hq
      exact hl.logging q b hq

theorem inv_wakeup (h : Inv g s) (hrun : s.phase = .running) : Inv g (wakeup s) := by
  have hl := h.live (by simp [hrun])
  refine inv_control h hrun rfl rfl rfl rfl (total_wakeup rfl) ((total_wakeup rfl).trans hl.count)
    (fun q c hq => ⟨(wakeup_pc (by simp) (by simp)).mp hq, rfl, rfl⟩) fun q b hq => ?_
  exact hl.logging q b ((wakeup_pc (by simp) (by simp)).mp hq)

theorem inv_beginOp (h : Inv g s) (hrun : s.phase = .running)
    (hp : s.pc p = .idle ∨ s.pc p = .woken) (ha : admits s = true) :
    Inv g ({ s with outstanding := s.outstanding + 1 }.setPc p .inOp) := by
  refine inv_setPc h hrun (fun d hd => ?_) (by simp) (by simp) ?_ fun q d hq => ?_
  · rcases hp with hp | hp <;> rw [hp] at hd <;> cases hd
  · rcases hp with hp | hp <;> rw [hp] <;> rfl
  · rcases ((h.live (by simp [hrun])).alone q d hq).2 with hcom | hrec
    · simp [admits, hcom] at ha
    · rw [hrun] at hrec
      cases hrec

theorem inv_endOp_more (h : Inv g s) (hrun : s.phase = .running) (hp : s.pc p = .inOp) :
    Inv g ((wakeup { s with outstanding := s.outstanding - 1 }).setPc p .idle) := by
  have hl := h.live (by simp [hrun])
  have hact : activeOf (s.pc p) = 1 := by rw [hp]; rfl
  have hpc : (wakeup s).pc p = .inOp := (wakeup_pc (by simp) (by simp)).mpr hp
  have hpos := le_total activeOf s p
  rw [hl.count, hact] at hpos
  refine inv_setPc (inv_wakeup h hrun) hrun (by simp [hpc]) (by simp) (by simp) ?_ fun q d hq => ?_
  · rw [hpc]
    change s.outstanding - 1 + 1 = s.outstanding + 0
    omega
  · exact absurd ((wakeup_pc (by simp) (by simp)).mp hq) (hl.no_commit (by rw [hact]; omega) q d)

theorem inv_endOp_last (h : Inv g s) (hrun : s.phase = .running) (hp : s.pc p = .inOp)
    (hc : s.bio.call p = .none) (hlast : s.outstanding - 1 = 0) :
    Inv g ({ s with outstanding := s.outstanding - 1, committing := true }.setPc p
      (.commit (if s.lh.length > 0 then .writeLog 0 else .finished))) := by
  have hl := h.live (by simp [hrun])
  have hact : activeOf (s.pc p) = 1 := by rw [hp]; rfl
  have hno := hl.no_commit (p := p) (by rw [hact]; omega)
  have hpos := le_total activeOf s p
  rw [hl.count, hact] at hpos
  generalize hc' : (if s.lh.length > 0 then Place.writeLog 0 else .finished) = c'
  have hplace : (∀ u : Sys, PlaceFits g u p c') ∧ doneOf (.commit c') = 0 := by
    subst hc'
    split <;> exact ⟨fun _ => trivial, rfl⟩
  have hset : ∀ f, total f ({ s with outstanding := s.outstanding - 1, committing := true }.setPc p
      (.commit c')) + f (s.pc p) = total f s + f (.commit c') := fun f =>
    total_setPc f { s with outstanding := s.outstanding - 1, committing := true } p (.commit c')
  have honly : ∀ q d, ({ s with outstanding := s.outstanding - 1, committing := true }.setPc p
      (.commit c')).pc q = .commit d → q = p ∧ d = c' := by
    intro q d hq
    by_cases hqp : q = p
    · subst hqp
      exact ⟨rfl, (Pc.commit.inj ((Function.update_self _ _ _).symm.trans hq)).symm⟩
    · rw [pc_ne hqp] at hq
      exact absurd hq (hno q d)
  have hcount : total activeOf ({ s with outstanding := s.outstanding - 1, committing := true }.setPc
      p (.commit c')) = s.outstanding - 1 := by
    have hsum := hset activeOf
    rw [hact, hl.count] at hsum
    change _ + 1 = s.outstanding + 0 at hsum
    omega
  refine ⟨?_, fun _ => ⟨hl.nodup, hcount, fun q d _ => ⟨hlast, Or.inl rfl⟩,
    fun q r d d' hq hr => ?_, fun q d hq => ?_, fun q d hq => ?_, fun q b hq => ?_, fun hb => ?_⟩⟩
  · have hdone := hset doneOf
    rw [hplace.2, doneOf_of_ne (c := s.pc p) (by simp [hp])] at hdone
    rw [pinned, show total doneOf _ = total doneOf s from by omega]
    exact h.exact
  · rw [(honly q d hq).1, (honly r d' hr).1]
  · obtain ⟨rfl, rfl⟩ := honly q d hq
    exact callFits_of_none hc
  · obtain ⟨rfl, rfl⟩ := honly q d hq
    exact hplace.1 _
  · have hle := le_total activeOf ({ s with outstanding := s.outstanding - 1, committing := true
      }.setPc p (.commit c')) q
    rw [hq, hcount] at hle
    change 1 ≤ s.outstanding - 1 at hle
    omega
  · exact absurd (hrun.symm.trans hb) (by simp)

theorem inv_append (h : Inv g s) (hrun : s.phase = .running) {b : Fin NBUF}
    (hp : s.pc p = .logging b) (hb : (s.bio.buf b).blockno ∉ s.lh) :
    Inv g ({ s with
      bio := s.bio.bpin b, lh := s.lh ++ [(s.bio.buf b).blockno] }.setPc p .inOp) := by
  have hl := h.live (by simp [hrun])
  have hno := hl.no_commit (p := p) (by rw [hp]; exact Nat.one_pos)
  have hno' : ∀ q d, ({ s with
      bio := s.bio.bpin b, lh := s.lh ++ [(s.bio.buf b).blockno] }.setPc p .inOp).pc q ≠
        .commit d := by
    intro q d hq
    by_cases hqp : q = p
    · subst hqp
      exact absurd ((Function.update_self _ _ _).symm.trans hq) (by simp)
    · rw [pc_ne hqp] at hq
      exact hno q d hq
  have hkeys : SameKeys s.bio (s.bio.bpin b) := sameKeys_setBuf rfl rfl
  refine ⟨?_, fun _ => ⟨?_, ?_, fun q d hq => absurd hq (hno' q d),
    fun q _ d _ hq => absurd hq (hno' q d), fun q d hq => absurd hq (hno' q d),
    fun q d hq => absurd hq (hno' q d), fun q x hq => ?_, fun hbt => ?_⟩⟩
  · rw [pinned_of_no_commit hno']
    have hold := h.exact
    rw [pinned_of_no_commit hno] at hold
    exact exact_bpin g.dev_ne hold (hl.logging p b hp).2 hb
  · change (s.lh ++ [(s.bio.buf b).blockno]).Nodup
    rw [List.nodup_append]
    refine ⟨hl.nodup, by simp, ?_⟩
    rintro x hx y hy rfl
    rw [List.mem_singleton] at hy
    exact hb (hy ▸ hx)
  · rw [total_setPc_same]
    · exact (total_congr rfl).trans hl.count
    · change _ = activeOf (s.pc p)
      rw [hp]
      rfl
  · by_cases hqp : q = p
    · subst hqp
      exact absurd ((Function.update_self _ _ _).symm.trans hq) (by simp)
    · rw [pc_ne hqp] at hq
      exact ⟨(hl.logging q x hq).1, (hkeys x).1.trans (hl.logging q x hq).2⟩
  · exact absurd (hrun.symm.trans hbt) (by simp)

/-! ### Every step -/

theorem bget_keys (h : Inv g s) {dev blockno : UInt32} {bio : Bio}
    (hg : s.bio.bget p dev blockno = some bio) (b : Fin NBUF) (hb : 0 < refs s.bio b) :
    (bio.buf b).dev = (s.bio.buf b).dev ∧ (bio.buf b).blockno = (s.bio.buf b).blockno :=
  bget_key h.exact hg (by omega)

theorem call_bget {s t : Bio} {dev blockno : UInt32} (hl : Listed s)
    (hg : s.bget p dev blockno = some t) {q : Fin NPROC} (hq : q ≠ p) :
    t.held q = s.held q ∧ t.call q = s.call q := by
  rcases bget_cases hl hg with ⟨b, -, -, rfl⟩ | ⟨b, -, -, rfl⟩
  · exact ⟨rfl, call_setCall_ne hq⟩
  · exact ⟨rfl, call_setCall_ne hq⟩

theorem put_fields (s : Bio) (p : Fin NPROC) (b : Fin NBUF) :
    (s.put p b).held = s.held ∧ (s.put p b).call = (s.setCall p .none).call ∧ SameKeys s (s.put p b) := by
  have hkeys : SameKeys s (s.setBuf b { s.buf b with refcnt := (s.buf b).refcnt - 1 }) :=
    sameKeys_setBuf rfl rfl
  unfold Bio.put
  simp only
  split <;> exact ⟨rfl, rfl, hkeys⟩

/-- **Every step keeps the counts exact.** -/
theorem inv_step (h : Inv g s) (hm : Moves g s t) : Inv g t := by
  cases hm with
  | panic m => exact ⟨h.exact, fun hm => absurd rfl (hm m)⟩
  | endOpPanic => exact ⟨h.exact, fun hm => absurd rfl (hm .committing)⟩
  | @bread p dev blockno bio hp hg =>
    obtain ⟨hrun, hc, hpc⟩ := place_of_atLarge hp
    exact inv_bio h hrun hpc (exact_bget h.exact hc hg)
      (fun q hq => (call_bget h.exact.listed hg hq).1)
      (fun q hq => (call_bget h.exact.listed hg hq).2) (bget_keys h hg)
  | @lock p b hp hc ho =>
    obtain ⟨hrun, hpc⟩ := place_of_inCall hp
    exact inv_bio h hrun hpc (exact_fill h.exact s.disk hc ho) (fun q hq => held_setHeld_ne hq)
      (fun q hq => call_setCall_ne hq) (fun b' _ => sameKeys_fill s.bio s.disk p b b')
  | @modify p b data hp hb =>
    obtain ⟨hrun, -, hpc⟩ := place_of_atLarge hp
    exact inv_bio h hrun hpc (exact_store h.exact b data) (fun _ _ => rfl) (fun _ _ => rfl)
      (fun b' _ => sameKeys_setBuf (by rfl) (by rfl) b')
  | @brelse p b hp hb =>
    obtain ⟨hrun, hc, hpc⟩ := place_of_atLarge hp
    exact inv_bio h hrun hpc (exact_unlock h.exact hc hb) (fun q hq => held_setHeld_ne hq)
      (fun q hq => call_setCall_ne hq) (fun b' _ => sameKeys_setBuf (by rfl) (by rfl) b')
  | @put p b hp hc =>
    obtain ⟨hrun, hpc⟩ := place_of_inCall hp
    obtain ⟨hheld, hcall, hkeys⟩ := put_fields s.bio p b
    refine inv_bio h hrun hpc (exact_put h.exact hc) (fun q _ => by rw [hheld])
      (fun q hq => ?_) (fun b' _ => hkeys b')
    rw [hcall]
    exact call_setCall_ne hq
  | beginOp hrun hp ha => exact inv_beginOp h hrun hp ha
  | @beginSleep p hrun hp =>
    refine inv_setPc h hrun (fun d hd => ?_) (by simp) (by simp) ?_ fun _ _ _ => rfl
    · rcases hp with hp | hp <;> rw [hp] at hd <;> cases hd
    · rcases hp with hp | hp <;> rw [hp] <;> rfl
  | @logCheck p b hrun hp hb hd =>
    refine inv_setPc h hrun (by simp [hp]) (by simp) (fun b' hb' => ?_) (by rw [hp]; rfl)
      fun _ _ _ => rfl
    cases hb'
    exact ⟨hb, hd⟩
  | @absorb p b hrun hp =>
    exact inv_setPc h hrun (by simp [hp]) (by simp) (by simp) (by rw [hp]; rfl) fun _ _ _ => rfl
  | append hrun hp hb => exact inv_append h hrun hp hb
  | endOpLast hrun hp hc _ hlast => exact inv_endOp_last h hrun hp hc hlast
  | endOpMore hrun hp => exact inv_endOp_more h hrun hp
  | goFill hp hph hc ho => exact inv_goFill h hp hph hc ho
  | goPut hp hph hc => exact inv_goPut h hp hph hc
  | goAct hp hph hc ha => exact inv_acts h hp hph hc ha

theorem moves_keys (h : Inv g s) (hm : Moves g s t) (b : Fin NBUF) (hb : 0 < refs s.bio b) :
    (t.bio.buf b).dev = (s.bio.buf b).dev ∧ (t.bio.buf b).blockno = (s.bio.buf b).blockno := by
  cases hm with
  | bread _ hg => exact bget_keys h hg b hb
  | lock | goFill => exact sameKeys_fill _ _ _ _ b
  | modify | brelse | append => exact sameKeys_setBuf (by rfl) (by rfl) b
  | put | goPut => exact (put_fields _ _ _).2.2 b
  | goAct _ _ _ ha =>
    cases ha with
    | bread _ hg => exact bget_keys h hg b hb
    | relse | copy | unpin => exact sameKeys_setBuf (by rfl) (by rfl) b
    | _ => exact ⟨rfl, rfl⟩
  | _ => exact ⟨rfl, rfl⟩

end Steps

/-! ### Whole runs -/

theorem boot_pc {d : Disk} {p : Fin NPROC} {c : Place} (h : (boot d).pc p = .commit c) :
    p.val = 0 ∧ c = .readHead := by
  change (if p.val = 0 then Pc.commit .readHead else .idle) = .commit c at h
  split at h
  · exact ⟨‹_›, (Pc.commit.inj h).symm⟩
  · cases h

theorem boot_pc_cases (d : Disk) (p : Fin NPROC) : (boot d).pc p = .commit .readHead ∨ (boot d).pc p = .idle := by
  change (if p.val = 0 then Pc.commit .readHead else .idle) = _ ∨ _
  split
  · exact Or.inl rfl
  · exact Or.inr (if_neg ‹_›)

theorem inv_boot {g : Geometry} {d : Disk} (hclean : headN (d (UInt32.ofNat g.start).toNat) = 0) :
    Inv g (boot d) := by
  have hzero : total activeOf (boot d) = 0 := by
    refine Finset.sum_eq_zero fun p _ => ?_
    rcases boot_pc_cases d p with hp | hp <;> rw [hp] <;> rfl
  have hnil : pinned (boot d) = [] := List.drop_nil
  refine ⟨hnil ▸ exact_binit, fun _ => ⟨List.nodup_nil, hzero, fun p c hp => ⟨rfl, Or.inr rfl⟩,
    fun p q c c' hp hq => ?_, fun p c hp => callFits_of_none rfl, fun p c hp => ?_,
    fun p b hp => ?_, fun _ => rfl⟩⟩
  · exact Fin.ext ((boot_pc hp).1.trans (boot_pc hq).1.symm)
  · obtain ⟨-, rfl⟩ := boot_pc hp
    exact ⟨rfl, fun _ => rfl, hclean⟩
  · rcases boot_pc_cases d p with h | h <;> rw [h] at hp <;> cases hp

theorem inv_run {g : Geometry} {d : Disk} (hclean : headN (d (UInt32.ofNat g.start).toNat) = 0)
    {es : List Event} {s : Sys} (hrun : exec (step g) (boot d) es = some s) : Inv g s :=
  reachable_invariant (fun _ _ _ hi hst => inv_step hi (moves_of_step hst)) (inv_boot hclean)
    ⟨es, hrun⟩

/-- **Reference counts are exact** in every state of every run that boots with an empty log header:
the `refcnt` of a buffer is the number of references `bread` has given out and `brelse` has not
taken back, plus one for the log when the block is pinned.  Unless an `install_trans` is in
progress, the pinned blocks are those `log.lh` lists.  The count stays far from wrapping, and no step
recycles a buffer that is in use. -/
theorem refcnt_exact (g : Geometry) (d : Disk)
    (hclean : headN (d (UInt32.ofNat g.start).toNat) = 0) (es : List Event) (s : Sys)
    (hrun : exec (step g) (boot d) es = some s) :
    (∀ b, (s.bio.buf b).refcnt.toNat = refs s.bio b + pin g.dev s.bio (pinned s) b) ∧
      ((∀ p, doneOf (s.pc p) = 0) → pinned s = s.lh) ∧
      (∀ b, refs s.bio b ≤ 2 * NPROC) ∧
      ∀ e t, step g s e = some t → ∀ b, 0 < refs s.bio b →
        (t.bio.buf b).dev = (s.bio.buf b).dev ∧ (t.bio.buf b).blockno = (s.bio.buf b).blockno := by
  have h := inv_run hclean hrun
  refine ⟨h.exact.count, fun hdone => ?_, refs_le h.exact, fun e t hst b hb => ?_⟩
  · rw [pinned, show total doneOf s = 0 from Finset.sum_eq_zero fun p _ => hdone p, List.drop_zero]
  · exact moves_keys h (moves_of_step hst) b hb

/-- Process number `n` of the examples below. -/
def proc (n : Fin 3) : Fin NPROC := ⟨n.val, by have := n.isLt; unfold NPROC; omega⟩

/-- Buffer number `n` of the examples below. -/
def bufNo (n : Fin 3) : Fin NBUF := ⟨n.val, by have := n.isLt; unfold NBUF MAXOPBLOCKS; omega⟩

/-- Recovery of an empty log; then process `1` logs block `50` and ends its operation. -/
def oneOp : List Event :=
  List.replicate 12 (.go (proc 0)) ++
    [.beginOp (proc 1), .bread (proc 1) ROOTDEV 50, .lock (proc 1), .logWrite (proc 1) (bufNo 1),
      .logAppend (proc 1), .brelse (proc 1) (bufNo 1), .put (proc 1), .endOp (proc 1)]

/-- The log alone keeps the buffer of block `50`. -/
theorem refcnt_exact_oneOp :
    ∃ s, exec (step mkfsLog) (boot fun _ _ => 0) oneOp = some s ∧ s.lh = [50] ∧
      refs s.bio (bufNo 1) = 0 ∧ (s.bio.buf (bufNo 1)).refcnt.toNat = 1 := by
  have hsome : (exec (step mkfsLog) (boot fun _ _ => 0) oneOp).map
      (fun s => (s.lh, refs s.bio (bufNo 1), pin mkfsLog.dev s.bio (pinned s) (bufNo 1))) =
        some ([50], 0, 1) := by decide +kernel
  obtain ⟨s, hs, heq⟩ := Option.map_eq_some_iff.mp hsome
  obtain ⟨hlh, hrefs, hpin⟩ : s.lh = [50] ∧ refs s.bio (bufNo 1) = 0 ∧
      pin mkfsLog.dev s.bio (pinned s) (bufNo 1) = 1 := by simpa using heq
  have h := (refcnt_exact mkfsLog (fun _ _ => 0) (by decide +kernel) oneOp s hs).1 (bufNo 1)
  exact ⟨s, hs, hlh, hrefs, by rw [h, hrefs, hpin]⟩

/-- A log with one committed block, number `50`. -/
def committedLog : Disk := fun b i => if b = 2 ∧ i = 0 then 1 else if b = 2 ∧ i = 4 then 50 else 0

/-- After recovery of a committed block nobody refers to its buffer and the log is empty, but the
count has wrapped around; when process `1` holds the buffer the count is `0`, and a `bread` of
process `2` recycles it. -/
theorem refcnt_wraps_after_recovery :
    (∃ s, exec (step mkfsLog) (boot committedLog) (List.replicate 22 (.go (proc 0))) = some s ∧
      s.phase = .running ∧ s.lh = [] ∧ refs s.bio (bufNo 2) = 0 ∧
      (s.bio.buf (bufNo 2)).refcnt = 4294967295) ∧
    ∃ t, exec (step mkfsLog) (boot committedLog) (List.replicate 22 (.go (proc 0)) ++
        [.bread (proc 1) ROOTDEV 50, .lock (proc 1), .bread (proc 2) ROOTDEV 99]) = some t ∧
      bufNo 2 ∈ t.bio.held (proc 1) ∧ (t.bio.buf (bufNo 2)).blockno = 99 := by
  have hfirst : (exec (step mkfsLog) (boot committedLog) (List.replicate 22 (.go (proc 0)))).map
      (fun s => (s.phase, s.lh, refs s.bio (bufNo 2), (s.bio.buf (bufNo 2)).refcnt)) =
        some (.running, [], 0, 4294967295) := by decide +kernel
  have hsecond : (exec (step mkfsLog) (boot committedLog) (List.replicate 22 (.go (proc 0)) ++
      [.bread (proc 1) ROOTDEV 50, .lock (proc 1), .bread (proc 2) ROOTDEV 99])).map
      (fun t => (decide (bufNo 2 ∈ t.bio.held (proc 1)), (t.bio.buf (bufNo 2)).blockno)) =
        some (true, 99) := by decide +kernel
  obtain ⟨s, hs, heq⟩ := Option.map_eq_some_iff.mp hfirst
  obtain ⟨t, ht, heq'⟩ := Option.map_eq_some_iff.mp hsecond
  exact ⟨⟨s, hs, by simpa using heq⟩, t, ht, by simpa using heq'⟩

/-! ### The cache as a map -/

open Xv6.LinkedRing

theorem bget_none {s : Bio} {dev blockno : UInt32} {p : Fin NPROC} (hl : Listed s)
    (h : s.bget p dev blockno = none) (b : Fin NBUF) : (s.buf b).refcnt ≠ 0 := by
  obtain ⟨xs, hring, hall⟩ := hl
  have hlen := length_lt_of_nodup hring.nodup
  unfold Bio.bget at h
  rw [walk_next hring hlen, walk_prev hring hlen] at h
  split at h
  case h_1 => cases h
  case h_2 =>
    split at h
    case h_1 => cases h
    case h_2 hfree =>
      have hno := (find_of_listed fun b => List.mem_reverse.mpr (hall b)).2 hfree b
      simpa using hno

/-- **The cache is a map from blocks to buffers** in every state of every run that boots with an empty log header: the
list has each buffer once, no block has two buffers, no buffer is in the hands of two processes, each block that is
logged and not installed has its buffer, which cannot be recycled, and `bget` finds no buffer only when each one is
referred to or pinned. -/
theorem cache_is_map (g : Geometry) (d : Disk) (hclean : headN (d (UInt32.ofNat g.start).toNat) = 0)
    (es : List Event) (s : Sys) (hrun : exec (step g) (boot d) es = some s) :
    (∃ xs, Ring s.bio.links xs ∧ ∀ b, xs.count b = 1) ∧
    (∀ b b', (s.bio.buf b).dev ≠ 0 → (s.bio.buf b).dev = (s.bio.buf b').dev →
      (s.bio.buf b).blockno = (s.bio.buf b').blockno → b = b') ∧
    (∀ p q b, b ∈ s.bio.held p → b ∈ s.bio.held q → p = q) ∧
    (∀ k ∈ pinned s, ∃ b, (s.bio.buf b).dev = g.dev ∧ (s.bio.buf b).blockno = k ∧ (s.bio.buf b).refcnt ≠ 0) ∧
    ∀ p dev blockno, s.bio.bget p dev blockno = none →
      ∀ b, 0 < refs s.bio b ∨ (s.bio.buf b).dev = g.dev ∧ (s.bio.buf b).blockno ∈ pinned s := by
  have h := (inv_run hclean hrun).exact
  refine ⟨?_, fun b b' h0 hdev hno => h.unique b b' hdev hno h0, ?_, ?_, ?_⟩
  · obtain ⟨xs, hring, hall⟩ := h.listed
    exact ⟨xs, hring, fun b => List.count_eq_one_of_mem hring.nodup (hall b)⟩
  · intro p q b hp hq
    rw [h.owner] at hp hq
    rw [hp] at hq
    exact Option.some.inj hq
  · intro k hk
    obtain ⟨b, hdev, hno⟩ := h.cached k hk
    refine ⟨b, hdev, hno, fun hz => ?_⟩
    have hcount := h.count b
    rw [hz, pin, if_pos ⟨hdev, hno ▸ hk⟩] at hcount
    cases hcount
  · intro p dev blockno hnone b
    have hne := bget_none h.listed hnone b
    have hcount := h.count b
    rw [pin] at hcount
    split at hcount
    case isTrue hpin => exact Or.inr hpin
    case isFalse =>
      refine Or.inl (Nat.pos_of_ne_zero fun hz => hne ?_)
      rw [hz] at hcount
      exact UInt32.toNat_inj.mp hcount

theorem cache_is_map_oneOp : ∃ s, exec (step mkfsLog) (boot fun _ _ => 0) oneOp = some s ∧ pinned s = [50] ∧
    ∃ b, (s.bio.buf b).blockno = 50 ∧ (s.bio.buf b).refcnt ≠ 0 := by
  have hsome : (exec (step mkfsLog) (boot fun _ _ => 0) oneOp).map pinned = some [50] := by decide +kernel
  obtain ⟨s, hs, hpin⟩ := Option.map_eq_some_iff.mp hsome
  have h := (cache_is_map mkfsLog (fun _ _ => 0) (by decide +kernel) oneOp s hs).2.2.2.1 50
  obtain ⟨b, -, hb⟩ := h (by rw [hpin]; exact List.mem_singleton.mpr rfl)
  exact ⟨s, hs, hpin, b, hb⟩

end Xv6.BufExact
