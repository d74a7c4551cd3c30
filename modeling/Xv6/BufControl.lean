import Xv6.BufLog
import Mathlib.Data.List.GetD

/-!
# Control of the log and the pins

The invariant that carries the reference counts along runs of the log.  `pinned s` lists the blocks
that hold a pin: those of `log.lh` that a running `install_trans` has not passed yet.  `Live`
collects what the step lemmas need about control: a committing process is alone, the buffers in its
variables cache the blocks it has asked for, and a process inside `log_write` holds its buffer.

There is one lemma for each kind of step: `inv_bio` for a process that uses buffers, `inv_control`
for `begin_op`, `log_write` and `end_op`, and `inv_goFill`, `inv_goPut`, `inv_acts` for the places of
`commit` and `recover_from_log`.
-/

namespace Xv6.BufControl

open Xv6.LabelledRuns Xv6.Params Xv6.BufCache Xv6.BufRefs Xv6.BufLog
open Xv6.LogMachine (Disk Geometry headN)
open Function (update_self update_of_ne)

/-! ### What is pinned -/

/-- The entries of `log.lh` that the process has unpinned in `install_trans`. -/
def doneOf : Pc → ℕ
  | .commit (.install tail) => tail
  | .commit (.installHome tail _) => tail
  | .commit (.installCopy tail _ _) => tail
  | .commit (.unpin tail _ _) => tail
  | .commit (.relseLog tail _ _) => tail + 1
  | .commit (.relseHome tail _) => tail + 1
  | _ => 0

/-- One for an operation between `begin_op` and `end_op`. -/
def activeOf : Pc → ℕ
  | .inOp => 1
  | .logging _ => 1
  | _ => 0

def total (f : Pc → ℕ) (s : Sys) : ℕ := ∑ p, f (s.pc p)

/-- The blocks of `log.lh` whose buffer is pinned. -/
def pinned (s : Sys) : List UInt32 := s.lh.drop (total doneOf s)

section Totals

variable {f : Pc → ℕ} {s t : Sys} {p : Fin NPROC} {c : Pc}

theorem total_congr (h : t.pc = s.pc) : total f t = total f s := by
  unfold total
  rw [h]

theorem total_setPc (f : Pc → ℕ) (s : Sys) (p : Fin NPROC) (c : Pc) :
    total f (s.setPc p c) + f (s.pc p) = total f s + f c := by
  unfold total
  rw [← Finset.add_sum_erase Finset.univ (fun q => f ((s.setPc p c).pc q)) (Finset.mem_univ p),
    ← Finset.add_sum_erase Finset.univ (fun q => f (s.pc q)) (Finset.mem_univ p)]
  have hself : (s.setPc p c).pc p = c := update_self _ _ _
  have hrest : ∑ q ∈ Finset.univ.erase p, f ((s.setPc p c).pc q) =
      ∑ q ∈ Finset.univ.erase p, f (s.pc q) := by
    refine Finset.sum_congr rfl fun q hq => ?_
    rw [show (s.setPc p c).pc q = s.pc q from update_of_ne (Finset.ne_of_mem_erase hq) _ _]
  rw [hself]
  omega

theorem total_setPc_same (h : f c = f (s.pc p)) : total f (s.setPc p c) = total f s := by
  have hset := total_setPc f s p c
  omega

theorem total_wakeup (h : f .woken = f .asleep) : total f (wakeup s) = total f s := by
  unfold total
  refine Finset.sum_congr rfl fun q _ => ?_
  by_cases hq : s.pc q = .asleep
  · simp [wakeup, hq, h]
  · simp [wakeup, hq]

theorem total_eq_single (h : ∀ q, q ≠ p → f (s.pc q) = 0) : total f s = f (s.pc p) :=
  Finset.sum_eq_single p (fun q _ hq => h q hq) fun hp => absurd (Finset.mem_univ p) hp

theorem le_total (f : Pc → ℕ) (s : Sys) (p : Fin NPROC) : f (s.pc p) ≤ total f s :=
  Finset.single_le_sum (f := fun q => f (s.pc q)) (fun _ _ => Nat.zero_le _) (Finset.mem_univ p)

end Totals

/-! ### Control -/

/-- The buffer caches block `blockno` of the file system's device. -/
def Caches (g : Geometry) (s : Sys) (b : Fin NBUF) (blockno : UInt32) : Prop :=
  (s.bio.buf b).dev = g.dev ∧ (s.bio.buf b).blockno = blockno

/-- The call a committing process is inside belongs to its place. -/
def CallFits (g : Geometry) (s : Sys) (p : Fin NPROC) (c : Place) : Prop :=
  match s.bio.call p with
  | .none => True
  | .waiting b => ∃ blockno, c.breads g s.lh = some blockno ∧ Caches g s b blockno
  | .releasing b => c.relses = some b

def PlaceFits (g : Geometry) (s : Sys) (p : Fin NPROC) : Place → Prop
  | .readHead => s.phase = .recovering ∧ (∀ b, (s.bio.buf b).valid = false) ∧
      headN (s.disk (UInt32.ofNat g.start).toNat) = 0
  | .readHeadCopy buf => s.phase = .recovering ∧ headN (s.bio.buf buf).data = 0
  | .install tail => tail ≤ s.lh.length
  | .installHome tail _ => tail < s.lh.length
  | .installCopy tail _ dbuf =>
    tail < s.lh.length ∧ dbuf ∈ s.bio.held p ∧ Caches g s dbuf (s.lh.getD tail 0)
  | .unpin tail _ dbuf =>
    tail < s.lh.length ∧ dbuf ∈ s.bio.held p ∧ Caches g s dbuf (s.lh.getD tail 0)
  | .relseLog tail _ _ => tail < s.lh.length
  | .relseHome tail _ => tail < s.lh.length
  | _ => True

structure Live (g : Geometry) (s : Sys) : Prop where
  nodup : s.lh.Nodup
  count : total activeOf s = s.outstanding
  alone : ∀ p c, s.pc p = .commit c → s.outstanding = 0 ∧
    (s.committing = true ∨ s.phase = .recovering)
  unique : ∀ p q c c', s.pc p = .commit c → s.pc q = .commit c' → p = q
  call : ∀ p c, s.pc p = .commit c → CallFits g s p c
  place : ∀ p c, s.pc p = .commit c → PlaceFits g s p c
  logging : ∀ p b, s.pc p = .logging b → b ∈ s.bio.held p ∧ (s.bio.buf b).dev = g.dev
  boot : s.phase = .recovering → s.lh = []

structure Inv (g : Geometry) (s : Sys) : Prop where
  exact : Exact g.dev s.bio (pinned s)
  live : (∀ m, s.phase ≠ .panicked m) → Live g s

section Control

variable {g : Geometry} {s t : Sys} {p : Fin NPROC}

theorem Live.no_commit (h : Live g s) (hp : 0 < activeOf (s.pc p)) (q : Fin NPROC) (c : Place) :
    s.pc q ≠ .commit c := by
  intro hq
  have hle := le_total activeOf s p
  rw [h.count, (h.alone q c hq).1] at hle
  omega

theorem doneOf_of_ne {c : Pc} (h : ∀ c', c ≠ .commit c') : doneOf c = 0 := by
  cases c with
  | commit c' => exact absurd rfl (h c')
  | _ => rfl

/-- Outside a commit everything `log.lh` lists is pinned. -/
theorem pinned_of_no_commit (h : ∀ q c, s.pc q ≠ .commit c) : pinned s = s.lh := by
  have hzero : total doneOf s = 0 := Finset.sum_eq_zero fun q _ => doneOf_of_ne (h q)
  rw [pinned, hzero, List.drop_zero]

theorem pinned_of_commit (h : Live g s) {c : Place} (hp : s.pc p = .commit c) :
    pinned s = s.lh.drop (doneOf (.commit c)) := by
  rw [pinned, total_eq_single (p := p), hp]
  intro q hq
  exact doneOf_of_ne fun c' hc' => hq (h.unique q p c' c hc' hp)

theorem Live.no_logging (h : Live g s) {c : Place} (hp : s.pc p = .commit c) (q : Fin NPROC)
    (b : Fin NBUF) : s.pc q ≠ .logging b := by
  intro hq
  exact h.no_commit (p := q) (by rw [hq]; exact Nat.one_pos) p c hp

theorem inv_bio (h : Inv g s) (hrun : s.phase = .running) (hp : s.pc p = .idle ∨ s.pc p = .inOp)
    {bio : Bio} (hexact : Exact g.dev bio (pinned s))
    (hheld : ∀ q, q ≠ p → bio.held q = s.bio.held q)
    (hcall : ∀ q, q ≠ p → bio.call q = s.bio.call q)
    (hkey : ∀ b, 0 < refs s.bio b →
      (bio.buf b).dev = (s.bio.buf b).dev ∧ (bio.buf b).blockno = (s.bio.buf b).blockno) :
    Inv g { s with bio := bio } := by
  have hl := h.live (by simp [hrun])
  have hne : ∀ {q c}, s.pc q = .commit c → q ≠ p := by
    rintro q c hq rfl
    rcases hp with hp | hp <;> rw [hp] at hq <;> cases hq
  have hcaches : ∀ {b blockno}, 0 < refs s.bio b → Caches g s b blockno →
      Caches g { s with bio := bio } b blockno :=
    fun hb hc => ⟨(hkey _ hb).1.trans hc.1, (hkey _ hb).2.trans hc.2⟩
  refine ⟨hexact, fun _ => ⟨hl.nodup, hl.count, hl.alone, hl.unique, fun q c hq => ?_,
    fun q c hq => ?_, fun q b hq => ?_, hl.boot⟩⟩
  · have hold := hl.call q c hq
    unfold CallFits at hold ⊢
    simp only [hcall q (hne hq)]
    split at hold
    case h_1 => trivial
    case h_2 b hc =>
      obtain ⟨blockno, hbr, hb⟩ := hold
      exact ⟨blockno, hbr, hcaches (refs_pos_of_call (Or.inl hc)) hb⟩
    case h_3 => exact hold
  · have hold := hl.place q c hq
    cases c with
    | readHead | readHeadCopy buf => exact absurd hold.1 (by simp [hrun])
    | installCopy tail lbuf dbuf | unpin tail lbuf dbuf =>
      exact ⟨hold.1, by rw [hheld q (hne hq)]; exact hold.2.1,
        hcaches (refs_pos_of_held hold.2.1) hold.2.2⟩
    | _ => exact hold
  · have hold := hl.logging q b hq
    have hqp : q ≠ p := by
      rintro rfl
      rcases hp with hp | hp <;> rw [hp] at hq <;> cases hq
    refine ⟨?_, ((hkey b (refs_pos_of_held hold.1)).1).trans hold.2⟩
    change b ∈ bio.held q
    rw [hheld q hqp]
    exact hold.1

theorem inv_control (h : Inv g s) (hrun : s.phase = .running) (hbio : t.bio = s.bio)
    (hlh : t.lh = s.lh) (hph : t.phase = s.phase) (hdisk : t.disk = s.disk)
    (hdone : total doneOf t = total doneOf s) (hcount : total activeOf t = t.outstanding)
    (hcommit : ∀ q c, t.pc q = .commit c → s.pc q = .commit c ∧ t.outstanding = s.outstanding ∧
      t.committing = s.committing)
    (hlog : ∀ q b, t.pc q = .logging b → b ∈ s.bio.held q ∧ (s.bio.buf b).dev = g.dev) : Inv g t := by
  have hl := h.live (by simp [hrun])
  refine ⟨?_, fun _ => ⟨hlh ▸ hl.nodup, hcount, fun q c hq => ?_, fun q r c c' hq hr => ?_,
    fun q c hq => ?_, fun q c hq => ?_, fun q b hq => ?_, fun hb => ?_⟩⟩
  · rw [pinned, hdone, hlh, hbio]
    exact h.exact
  · obtain ⟨hs, hout, hcom⟩ := hcommit q c hq
    rw [hout, hcom, hph]
    exact hl.alone q c hs
  · exact hl.unique q r c c' (hcommit q c hq).1 (hcommit r c' hr).1
  · have hold := hl.call q c (hcommit q c hq).1
    unfold CallFits Caches at hold ⊢
    rwa [hbio, hlh]
  · have hold := hl.place q c (hcommit q c hq).1
    cases c <;> simp only [PlaceFits, Caches, hbio, hlh, hph, hdisk] at hold ⊢ <;> exact hold
  · rw [hbio]
    exact hlog q b hq
  · rw [hlh]
    exact hl.boot (hph ▸ hb)

theorem live_commit (h : Live g s) {c c' : Place} (hp : s.pc p = .commit c)
    (hpc : t.pc = (s.setPc p (.commit c')).pc) (hout : t.outstanding = s.outstanding)
    (hcom : t.committing = s.committing) (hph : t.phase = s.phase) (hnodup : t.lh.Nodup)
    (hboot : s.phase = .recovering → t.lh = []) (hcall : CallFits g t p c')
    (hplace : PlaceFits g t p c') : Live g t := by
  have honly : ∀ q d, t.pc q = .commit d → q = p := by
    intro q d hq
    by_contra hne
    rw [hpc, show (s.setPc p (.commit c')).pc q = s.pc q from update_of_ne hne _ _] at hq
    exact hne (h.unique q p d c hq hp)
  have hself : t.pc p = .commit c' := by
    rw [hpc]
    exact update_self _ _ _
  have hat : ∀ q d, t.pc q = .commit d → q = p ∧ d = c' := by
    intro q d hq
    obtain rfl := honly q d hq
    rw [hself, Pc.commit.injEq] at hq
    exact ⟨rfl, hq.symm⟩
  refine ⟨hnodup, ?_, fun q d _ => ?_, fun q r d d' hq hr => ?_, fun q d hq => ?_,
    fun q d hq => ?_, fun q b hq => ?_, fun hb => hboot (hph ▸ hb)⟩
  · rw [total_congr hpc, total_setPc_same, h.count, hout]
    rw [hp]
    rfl
  · rw [hout, hcom, hph]
    exact h.alone p c hp
  · rw [honly q d hq, honly r d' hr]
  · obtain ⟨rfl, rfl⟩ := hat q d hq
    exact hcall
  · obtain ⟨rfl, rfl⟩ := hat q d hq
    exact hplace
  · have hqp : q ≠ p := by
      rintro rfl
      rw [hself] at hq
      cases hq
    rw [hpc, show (s.setPc p (.commit c')).pc q = s.pc q from update_of_ne hqp _ _] at hq
    exact absurd hq (h.no_logging hp q b)

end Control

/-! ### Steps of `commit` and `recover_from_log` -/

section Commit

variable {g : Geometry} {s t : Sys} {p : Fin NPROC} {c : Place} {b : Fin NBUF}

theorem doneOf_got (c : Place) (b : Fin NBUF) : doneOf (.commit (c.got b)) = doneOf (.commit c) := by
  cases c <;> rfl

theorem doneOf_released (c : Place) : doneOf (.commit c.released) = doneOf (.commit c) := by
  cases c with
  | writeHeadRelse w buf => cases w <;> rfl
  | _ => rfl

theorem doneOf_copied {c c' : Place} (h : c.copied = some c') : doneOf (.commit c') = doneOf (.commit c) := by
  cases c <;> cases h <;> rfl

theorem inv_commit (h : Inv g s) (hph : ∀ m, s.phase ≠ .panicked m) {c' : Place}
    (hp : s.pc p = .commit c) (hpc : t.pc = (s.setPc p (.commit c')).pc) (hlh : t.lh = s.lh)
    (hout : t.outstanding = s.outstanding) (hcom : t.committing = s.committing)
    (hphase : t.phase = s.phase) (hdone : doneOf (.commit c') = doneOf (.commit c))
    (hexact : Exact g.dev t.bio (pinned s)) (hcall : CallFits g t p c') (hplace : PlaceFits g t p c') : Inv g t := by
  have hl := h.live hph
  refine ⟨?_, fun _ => live_commit hl hp hpc hout hcom hphase (hlh ▸ hl.nodup)
    (fun hb => hlh.trans (hl.boot hb)) hcall hplace⟩
  rwa [pinned, total_congr hpc, total_setPc_same (by rw [hp, hdone]), hlh]

theorem callFits_of_none (h : t.bio.call p = .none) : CallFits g t p c := by
  rw [CallFits, h]
  trivial

theorem sameKeys_fill (bio : Bio) (disk : Disk) (p : Fin NPROC) (b : Fin NBUF) :
    SameKeys bio (bio.fill disk p b) := by
  refine sameKeys_setBuf ?_ ?_ <;> cases (bio.buf b).valid <;> rfl

theorem inv_goFill (h : Inv g s) (hp : s.pc p = .commit c) (hph : ∀ m, s.phase ≠ .panicked m)
    (hc : s.bio.call p = .waiting b) (ho : (s.bio.buf b).owner = none) :
    Inv g ({ s with bio := s.bio.fill s.disk p b }.setPc p (.commit (c.got b))) := by
  have hl := h.live hph
  have hfits := hl.call p c hp
  rw [CallFits, hc] at hfits
  obtain ⟨blockno, hbr, hdev, hblk⟩ := hfits
  have hplace := hl.place p c hp
  have hkeys := sameKeys_fill s.bio s.disk p b
  refine inv_commit h hph hp rfl rfl rfl rfl rfl (doneOf_got c b)
    (exact_fill h.exact s.disk hc ho) (callFits_of_none (call_setCall_self _ _ _)) ?_
  cases c with
  | readHead =>
    obtain ⟨hrec, hinv, hhead⟩ := hplace
    refine ⟨hrec, ?_⟩
    have hdata : ((s.bio.fill s.disk p b).buf b).data = s.disk (s.bio.buf b).blockno.toNat := by
      simp [Bio.fill, hinv b]
    change headN ((s.bio.fill s.disk p b).buf b).data = 0
    rw [hdata, hblk, ← Option.some.inj hbr]
    exact hhead
  | install tail =>
    change tail < s.lh.length
    by_contra ht
    rw [Place.breads, if_neg ht] at hbr
    cases hbr
  | installHome tail lbuf =>
    refine ⟨hplace, ?_, (hkeys b).1.trans hdev, ?_⟩
    · change b ∈ (s.bio.fill s.disk p b).held p
      rw [show (s.bio.fill s.disk p b).held p = b :: s.bio.held p from held_setHeld_self _ _ _]
      exact List.mem_cons_self
    · exact ((hkeys b).2.trans hblk).trans (Option.some.inj hbr).symm
  | writeLog tail | writeLogFrom tail dst | writeHead w => trivial
  | _ => cases hbr

theorem inv_goPut (h : Inv g s) (hp : s.pc p = .commit c) (hph : ∀ m, s.phase ≠ .panicked m)
    (hc : s.bio.call p = .releasing b) :
    Inv g ({ s with bio := s.bio.put p b }.setPc p (.commit c.released)) := by
  have hl := h.live hph
  have hfits := hl.call p c hp
  rw [CallFits, hc] at hfits
  have hplace := hl.place p c hp
  have hnone : (s.bio.put p b).call p = .none := by
    unfold Bio.put
    simp only
    split <;> exact call_setCall_self _ _ _
  refine inv_commit h hph hp rfl rfl rfl rfl rfl (doneOf_released c) (exact_put h.exact hc)
    (callFits_of_none hnone) ?_
  cases c with
  | readHeadRelse buf => exact Nat.zero_le _
  | writeLogRelse tail dst src | writeLogRelseTo tail dst => trivial
  | writeHeadRelse w buf =>
    cases w with
    | commitPoint => exact Nat.zero_le _
    | erase => trivial
  | relseLog tail lbuf dbuf | relseHome tail dbuf => exact hplace
  | _ => cases hfits

theorem inv_leave (h : Inv g s) (hph : ∀ m, s.phase ≠ .panicked m) (hp : s.pc p = .commit .finished)
    (hpc : ∀ q, q ≠ p → ∀ c, (t.pc q = .commit c ↔ s.pc q = .commit c))
    (hlog : ∀ q, q ≠ p → ∀ b, (t.pc q = .logging b ↔ s.pc q = .logging b)) (hself : t.pc p = .idle)
    (hcount : total activeOf t = total activeOf s) (hout : t.outstanding = s.outstanding)
    (hlh : t.lh = s.lh) (hbio : t.bio = s.bio) (hrun : t.phase = .running) : Inv g t := by
  have hl := h.live hph
  have hno : ∀ q c, t.pc q ≠ .commit c := by
    intro q c hq
    have hqp : q ≠ p := by
      rintro rfl
      rw [hself] at hq
      cases hq
    exact hqp (hl.unique q p c .finished ((hpc q hqp c).mp hq) hp)
  refine ⟨?_, fun _ => ⟨hlh ▸ hl.nodup, hcount.trans (hl.count.trans hout.symm),
    fun q c hq => absurd hq (hno q c), fun q _ c _ hq => absurd hq (hno q c),
    fun q c hq => absurd hq (hno q c), fun q c hq => absurd hq (hno q c), fun q b hq => ?_,
    fun hb => ?_⟩⟩
  · rw [pinned_of_no_commit hno, hlh, hbio]
    have hpin : pinned s = s.lh := by rw [pinned_of_commit hl hp]; rfl
    exact hpin ▸ h.exact
  · have hqp : q ≠ p := by
      rintro rfl
      rw [hself] at hq
      cases hq
    exact absurd ((hlog q hqp b).mp hq) (hl.no_logging hp q b)
  · rw [hrun] at hb
    cases hb

theorem wakeup_pc {q : Fin NPROC} {c : Pc} (hw : c ≠ .woken) (ha : c ≠ .asleep) :
    (wakeup s).pc q = c ↔ s.pc q = c := by
  by_cases hq : s.pc q = .asleep
  · simp [wakeup, hq, Ne.symm hw, Ne.symm ha]
  · simp [wakeup, hq]

theorem inv_acts (h : Inv g s) (hp : s.pc p = .commit c) (hph : ∀ m, s.phase ≠ .panicked m)
    (hc : s.bio.call p = .none) (ha : Acts g s p c t) : Inv g t := by
  have hl := h.live hph
  have hplace := hl.place p c hp
  have hstay : s.pc = (s.setPc p (.commit c)).pc := by
    rw [Sys.setPc, ← hp, Function.update_eq_self]
  cases ha with
  | panic m => exact ⟨h.exact, fun hm => absurd rfl (hm m)⟩
  | @bread _ blockno bio hbr hg =>
    obtain ⟨b, hcall, hkey⟩ := bget_waiting h.exact.listed hg
    refine inv_commit h hph hp hstay rfl rfl rfl rfl rfl (exact_bget h.exact hc hg) ?_ ?_
    · rw [CallFits]
      simp only [hcall]
      exact ⟨blockno, hbr, hkey⟩
    · cases c with
      | readHead =>
        refine ⟨hplace.1, fun b' => ?_, hplace.2.2⟩
        rcases bget_cases h.exact.listed hg with ⟨b₀, -, -, rfl⟩ | ⟨b₀, -, -, rfl⟩
        · change (Function.update s.bio.buf b₀ _ b').valid = false
          by_cases hb : b' = b₀
          · rw [hb, update_self]
            exact hplace.2.1 b₀
          · rw [update_of_ne hb]
            exact hplace.2.1 b'
        · change (Function.update s.bio.buf b₀ _ b').valid = false
          by_cases hb : b' = b₀
          · rw [hb, update_self]
          · rw [update_of_ne hb]
            exact hplace.2.1 b'
      | install tail | installHome tail lbuf => exact hplace
      | writeLog tail | writeLogFrom tail dst | writeHead w => trivial
      | _ => cases hbr
  | @relse _ b hrel ho =>
    have hcall : (s.bio.unlock p b).call p = .releasing b := call_setCall_self _ _ _
    refine inv_commit h hph hp hstay rfl rfl rfl rfl rfl
      (exact_unlock h.exact hc ((h.exact.owner p b).mpr ho)) ?_ ?_
    · rw [CallFits]
      simp only [hcall]
      exact hrel
    · cases c with
      | relseLog tail lbuf dbuf | relseHome tail dbuf => exact hplace
      | readHeadRelse buf | writeLogRelse tail dst src | writeLogRelseTo tail dst | writeHeadRelse w buf => trivial
      | _ => cases hrel
  | @copy _ c' b data n hcopy =>
    refine inv_commit h hph hp rfl rfl rfl rfl rfl (doneOf_copied hcopy)
      (exact_store h.exact b data) (callFits_of_none hc) ?_
    have hkeys : SameKeys s.bio (s.bio.store b data) := sameKeys_setBuf rfl rfl
    cases c with
    | installCopy tail lbuf dbuf =>
      cases hcopy
      obtain ⟨ht, hheld, hdev, hblk⟩ := hplace
      exact ⟨ht, hheld, (hkeys dbuf).1.trans hdev, (hkeys dbuf).2.trans hblk⟩
    | writeLogCopy tail dst src | writeHeadCopy w buf =>
      cases hcopy
      trivial
    | _ => cases hcopy
  | @readHeadCopy buf =>
    obtain ⟨hrec, hhead⟩ := hplace
    have hnil : LogMachine.readHead (s.bio.buf buf).data = [] := by
      simp [LogMachine.readHead, hhead]
    rw [hnil]
    have hlh := hl.boot hrec
    refine inv_commit h hph hp rfl hlh.symm rfl rfl rfl rfl h.exact (callFits_of_none hc) trivial
  | logWritten ht =>
    exact inv_commit h hph hp rfl rfl rfl rfl rfl rfl h.exact (callFits_of_none hc) trivial
  | @installed tail ht =>
    -- every entry has been unpinned
    have hpin : pinned s = [] := by
      rw [pinned_of_commit hl hp]
      exact List.drop_eq_nil_of_le (Nat.le_of_not_lt ht)
    refine ⟨?_, fun _ => live_commit hl hp rfl rfl rfl rfl List.nodup_nil (fun _ => rfl)
      (callFits_of_none hc) trivial⟩
    have hnil : pinned ({ s with lh := [] }.setPc p (.commit (.writeHead .erase))) = [] :=
      List.drop_nil
    have hold := h.exact
    rw [hpin] at hold
    rw [hnil]
    exact hold
  | @unpin tail lbuf dbuf =>
    obtain ⟨ht, hheld, hdev, hblk⟩ := hplace
    have hlive : Live g ({ s with bio := s.bio.bunpin dbuf }.setPc p
        (.commit (.relseLog tail lbuf dbuf))) :=
      live_commit hl hp rfl rfl rfl rfl hl.nodup hl.boot (callFits_of_none hc) ht
    refine ⟨?_, fun _ => hlive⟩
    rw [pinned_of_commit hlive (p := p) (update_self _ _ _)]
    have hcons : pinned s = s.lh.getD tail 0 :: s.lh.drop (tail + 1) := by
      rw [pinned_of_commit hl hp, List.getD_eq_getElem _ _ ht]
      exact List.drop_eq_getElem_cons ht
    have hold := h.exact
    rw [hcons] at hold
    refine exact_bunpin g.dev_ne hold hdev hblk ?_
    have hnd : (s.lh.getD tail 0 :: s.lh.drop (tail + 1)).Nodup := by
      rw [← hcons, pinned]
      exact hl.nodup.sublist (List.drop_sublist _ _)
    exact (List.nodup_cons.mp hnd).1
  | recovered hrec =>
    have hne : ∀ {q : Fin NPROC}, q ≠ p →
        ({ s with phase := .running }.setPc p .idle).pc q = s.pc q :=
      fun hq => update_of_ne hq _ _
    refine inv_leave h hph hp (fun q hq c => by rw [hne hq]) (fun q hq b => by rw [hne hq])
      (update_self _ _ _) ?_ rfl rfl rfl rfl
    exact total_setPc_same (s := { s with phase := .running }) (by rw [hp]; rfl)
  | endCommit hrec =>
    have hrun : s.phase = .running := by
      cases hs : s.phase with
      | recovering => exact absurd hs hrec
      | running => rfl
      | panicked m => exact absurd hs (hph m)
    have hne : ∀ {q : Fin NPROC}, q ≠ p →
        ((wakeup { s with committing := false }).setPc p .idle).pc q =
          (wakeup { s with committing := false }).pc q := fun hq => update_of_ne hq _ _
    refine inv_leave h hph hp (fun q hq c => ?_) (fun q hq b => ?_)
      (update_self _ _ _) ?_ rfl rfl rfl hrun
    · rw [hne hq]
      exact wakeup_pc (by simp) (by simp)
    · rw [hne hq]
      exact wakeup_pc (by simp) (by simp)
    · rw [total_setPc_same, total_wakeup rfl]
      · rfl
      · rw [(wakeup_pc (s := { s with committing := false }) (by simp) (by simp)).mpr hp]
        rfl

end Commit

end Xv6.BufControl
