import Xv6.FsBmap

/-!
# Files as byte arrays

`fileByte` is byte `x` of a file, 0 where no block is mapped.  The loop of `writei` overlays a range of
it with the bytes of the source and the loop of `readi` returns a range of it; both map the blocks of
the range, and they stop in `balloc` only when the disk has fewer free blocks than `need` counts.
-/

namespace Xv6.FsContent

open Xv6.Params Xv6.LittleEndian Xv6.Panics Xv6.FsLayout Xv6.FsInodes Xv6.Ownership Xv6.FsOwnership
open Xv6.FsMapping Xv6.FsBmap
open Xv6.LogMachine (Block Disk)

variable {sb : SuperBlock} {disk disk' : Disk} {D D' D'' : ℕ → Dinode} {ip : Fin NINODE}
  {s t u : Fs}

/-! ### The bytes of a file -/

def fileByte (sb : SuperBlock) (disk : Disk) (D : ℕ → Dinode) (i x : ℕ) : UInt8 :=
  cell sb disk D (i, fileSlot (x / BSIZE)) (x % BSIZE)

theorem fileSlot_ne_indirect (bn : ℕ) : fileSlot bn ≠ Slot.indirect := by
  unfold fileSlot Slot.indirect
  by_cases h : bn < NDIRECT
  · rw [dif_pos h]
    intro he
    have hval := congrArg Fin.val (Slot.addr.inj he)
    exact Nat.ne_of_lt h hval
  · rw [dif_neg h]
    exact Slot.noConfusion

theorem fileSlot_inj {bn bn' : ℕ} (h : bn < MAXFILE) (h' : bn' < MAXFILE)
    (he : fileSlot bn = fileSlot bn') : bn = bn' := by
  unfold MAXFILE at h h'
  by_cases hd : bn < NDIRECT <;> by_cases hd' : bn' < NDIRECT
  · rw [fileSlot_direct hd, fileSlot_direct hd'] at he
    exact congrArg Fin.val (Slot.addr.inj he)
  · rw [fileSlot_direct hd, fileSlot_entry (Nat.le_of_not_lt hd') (by omega)] at he
    cases he
  · rw [fileSlot_entry (Nat.le_of_not_lt hd) (by omega), fileSlot_direct hd'] at he
    cases he
  · rw [fileSlot_entry (Nat.le_of_not_lt hd) (by omega),
      fileSlot_entry (Nat.le_of_not_lt hd') (by omega)] at he
    have hval := congrArg Fin.val (Slot.entry.inj he)
    simp only at hval
    omega

theorem fileByte_of_cells (h : SameCells sb disk D disk' D') (i x : ℕ) :
    fileByte sb disk' D' i x = fileByte sb disk D i x :=
  h (i, fileSlot (x / BSIZE)) (x % BSIZE) (fileSlot_ne_indirect _) (Nat.mod_lt _ (by decide))

theorem div_lt_maxfile {x : ℕ} (h : x < MAXFILE * BSIZE) : x / BSIZE < MAXFILE :=
  Nat.div_lt_of_lt_mul (by rwa [Nat.mul_comm])

theorem fileByte_store {i off b k : ℕ} (h : Own sb disk D) (hoff : off < MAXFILE * BSIZE)
    (hs : slots sb disk D (i, fileSlot (off / BSIZE)) = some b) (hk : off % BSIZE + k ≤ BSIZE)
    (g : ℕ → UInt8) {j x : ℕ} (hx : x < MAXFILE * BSIZE) :
    fileByte sb (Function.update disk b (setBytes (disk b) (off % BSIZE) k g)) D j x =
      if j = i ∧ off ≤ x ∧ x < off + k then g (x - off) else fileByte sb disk D j x := by
  have hb : 0 < BSIZE := by decide
  have hdx := Nat.div_add_mod x BSIZE
  have hdo := Nat.div_add_mod off BSIZE
  have hmx := Nat.mod_lt x hb
  unfold fileByte
  rw [cell_store h hs (fileSlot_ne_indirect _)]
  by_cases ho : (j, fileSlot (x / BSIZE)) = (i, fileSlot (off / BSIZE))
  · obtain ⟨rfl, hsl⟩ := Prod.mk.inj ho
    have hdiv := fileSlot_inj (div_lt_maxfile hx) (div_lt_maxfile hoff) hsl
    rw [if_pos ho, hdiv, cell_some hs]
    rw [hdiv] at hdx
    by_cases hin : off ≤ x ∧ x < off + k
    · rw [if_pos ⟨rfl, hin⟩]
      have hset : setBytes (disk b) (off % BSIZE) k g (off % BSIZE + (x - off)) = g (x - off) :=
        setBytes_inside _ g (by omega)
      rwa [show off % BSIZE + (x - off) = x % BSIZE by omega] at hset
    · rw [if_neg fun hc => hin hc.2]
      exact setBytes_outside _ _ (by omega)
  · rw [if_neg ho, if_neg]
    rintro ⟨rfl, h₁, h₂⟩
    apply ho
    -- bytes of the range lie in the block of `off`
    have hdiv : x / BSIZE = off / BSIZE := by
      apply Nat.div_eq_of_lt_le
      · rw [Nat.mul_comm]
        omega
      · rw [Nat.succ_mul, Nat.mul_comm]
        omega
    rw [hdiv]

/-! ### Blocks that a range needs -/

/-- The blocks that have to be allocated to map blocks `lo` to `hi` of file `i`. -/
def need (sb : SuperBlock) (disk : Disk) (D : ℕ → Dinode) (i lo hi : ℕ) : ℕ :=
  ((Finset.Ico lo hi).filter fun bn => slots sb disk D (i, fileSlot bn) = none).card +
    if lo < hi ∧ NDIRECT < hi ∧ slots sb disk D (i, Slot.indirect) = none then 1 else 0

/-- The number of blocks that hold the first `x` bytes. -/
def blocks (x : ℕ) : ℕ := (x + (BSIZE - 1)) / BSIZE

theorem div_lt_blocks {x y : ℕ} (h : x < y) : x / BSIZE < blocks y := by
  unfold blocks
  apply Nat.div_lt_of_lt_mul
  have hb : 0 < BSIZE := by decide
  have hdiv := Nat.div_add_mod (y + (BSIZE - 1)) BSIZE
  have hmod := Nat.mod_lt (y + (BSIZE - 1)) hb
  omega

theorem card_filter_Ico_succ {lo hi : ℕ} (h : lo < hi) (p : ℕ → Prop) [DecidablePred p] :
    ((Finset.Ico lo hi).filter p).card = (if p lo then 1 else 0) + ((Finset.Ico (lo + 1) hi).filter p).card := by
  rw [← Finset.insert_Ico_succ_left_eq_Ico h, Finset.filter_insert]
  by_cases hp : p lo
  · rw [if_pos hp, if_pos hp, Finset.card_insert_of_notMem (by simp), Nat.add_comm]
    rfl
  · rw [if_neg hp, if_neg hp, Nat.zero_add]
    rfl

theorem cost_le_need {i lo hi : ℕ} (h : lo < hi) : cost sb disk D i lo ≤ need sb disk D i lo hi := by
  unfold cost need
  rw [card_filter_Ico_succ h]
  by_cases hc : NDIRECT ≤ lo ∧ slots sb disk D (i, Slot.indirect) = none
  · have hall : lo < hi ∧ NDIRECT < hi ∧ slots sb disk D (i, Slot.indirect) = none :=
      ⟨h, by omega, hc.2⟩
    rw [if_pos hc, if_pos hall]
    omega
  · rw [if_neg hc]
    omega

theorem need_after {lo hi a : ℕ} {bs : List ℕ} (h : lo < hi) (hg : Gets sb ip D s lo a D' t bs) :
    bs.length + need sb t.disk D' (s.icache ip).inum (lo + 1) hi ≤ need sb s.disk D (s.icache ip).inum lo hi := by
  have hback : ∀ sl, slots sb t.disk D' ((s.icache ip).inum, sl) = none →
      slots sb s.disk D ((s.icache ip).inum, sl) = none := by
    intro sl hnone
    by_contra hne
    obtain ⟨c, hc⟩ := Option.ne_none_iff_exists'.mp hne
    rw [hg.maps.evolves.keep _ c hc] at hnone
    cases hnone
  have hcost := hg.cost
  have hcard : ((Finset.Ico (lo + 1) hi).filter fun bn =>
        slots sb t.disk D' ((s.icache ip).inum, fileSlot bn) = none).card ≤
      ((Finset.Ico (lo + 1) hi).filter fun bn =>
        slots sb s.disk D ((s.icache ip).inum, fileSlot bn) = none).card := by
    apply Finset.card_le_card
    intro bn hbn
    rw [Finset.mem_filter] at hbn ⊢
    exact ⟨hbn.1, hback _ hbn.2⟩
  unfold need
  unfold cost at hcost
  rw [card_filter_Ico_succ h]
  by_cases hind : lo + 1 < hi ∧ NDIRECT < hi ∧
      slots sb t.disk D' ((s.icache ip).inum, Slot.indirect) = none
  · -- the indirect block is still missing, so block `lo` did not need it
    have hlo : ¬ (NDIRECT ≤ lo ∧ slots sb s.disk D ((s.icache ip).inum, Slot.indirect) = none) :=
      fun hc => hg.indirect hc.1 hind.2.2
    have hall : lo < hi ∧ NDIRECT < hi ∧
        slots sb s.disk D ((s.icache ip).inum, Slot.indirect) = none :=
      ⟨h, hind.2.1, hback _ hind.2.2⟩
    rw [if_neg hlo] at hcost
    rw [if_pos hind, if_pos hall]
    omega
  · rw [if_neg hind]
    by_cases hlo : NDIRECT ≤ lo ∧ slots sb s.disk D ((s.icache ip).inum, Slot.indirect) = none
    · have hall : lo < hi ∧ NDIRECT < hi ∧
          slots sb s.disk D ((s.icache ip).inum, Slot.indirect) = none := ⟨h, by omega, hlo.2⟩
      rw [if_pos hlo] at hcost
      rw [if_pos hall]
      omega
    · rw [if_neg hlo] at hcost
      omega

/-! ### The loop of `writei` -/

theorem maps_store (hw : Working sb ip D s) {sl : Slot} {b : ℕ}
    (hs : slots sb s.disk D ((s.icache ip).inum, sl) = some b) (hne : sl ≠ Slot.indirect)
    (blk : Block) : Maps sb ip D s D (s.put b blk) [] where
  evolves := evolves_store hw.own hs hne blk
  here := hw.here
  handed := rfl
  icache := (Function.update_eq_self ip s.icache).symm

/-- The bytes `src tot …` have been stored at offsets `off` to `off + k`; the file is mapped up to
`off'`. -/
structure Wrote (sb : SuperBlock) (ip : Fin NINODE) (src : ℕ → UInt8) (tot off k off' : ℕ)
    (D : ℕ → Dinode) (s : Fs) (D' : ℕ → Dinode) (t : Fs) (bs : List ℕ) : Prop where
  maps : Maps sb ip D s D' t bs
  bytes : ∀ j x, x < MAXFILE * BSIZE → fileByte sb t.disk D' j x =
    if j = (s.icache ip).inum ∧ off ≤ x ∧ x < off + k then src (tot + (x - off))
    else fileByte sb s.disk D j x
  mapped : ∀ x, off ≤ x → x < off' →
    slots sb t.disk D' ((s.icache ip).inum, fileSlot (x / BSIZE)) ≠ none

theorem wrote_nothing (hw : Working sb ip D s) (src : ℕ → UInt8) (tot off : ℕ) :
    Wrote sb ip src tot off 0 off D s D s [] where
  maps := Maps.refl hw
  bytes := by
    intro j x _
    rw [if_neg (by omega)]
  mapped := by
    intro x h₁ h₂
    omega

theorem wrote_round (hw : Working sb ip D s) {src : ℕ → UInt8} {tot off a k : ℕ} {bs : List ℕ}
    (hoff : off < MAXFILE * BSIZE) (hg : Gets sb ip D s (off / BSIZE) a D' t bs)
    (hk : off % BSIZE + k ≤ BSIZE) :
    Wrote sb ip src tot off k off D s D'
      (t.put a (setBytes (t.disk a) (off % BSIZE) k fun x => src (tot + x))) bs where
  maps := by
    have hslot := hg.slot
    rw [← hg.maps.inum] at hslot
    exact hg.maps.trans (maps_store (hg.maps.working hw) hslot (fileSlot_ne_indirect _) _)
  bytes := by
    intro j x hx
    rw [← fileByte_of_cells hg.cells j x]
    exact fileByte_store hg.maps.evolves.own hoff hg.slot hk _ hx
  mapped := by
    intro x h₁ h₂
    omega

theorem Wrote.trans {src : ℕ → UInt8} {tot off m k off₁ off' : ℕ} {bs bs' : List ℕ}
    (h : Wrote sb ip src tot off m off₁ D s D' t bs)
    (h' : Wrote sb ip src (tot + m) (off + m) k off' D' t D'' u bs')
    (hmap : ∀ x, off ≤ x → x < off + m →
      slots sb t.disk D' ((s.icache ip).inum, fileSlot (x / BSIZE)) ≠ none) :
    Wrote sb ip src tot off (m + k) off' D s D'' u (bs' ++ bs) where
  maps := h.maps.trans h'.maps
  bytes := by
    intro j x hx
    rw [h'.bytes j x hx, h.bytes j x hx, h.maps.inum]
    by_cases hj : j = (s.icache ip).inum
    · simp only [hj, true_and]
      by_cases h₁ : off + m ≤ x ∧ x < off + m + k
      · rw [if_pos h₁, if_pos (by omega), show tot + m + (x - (off + m)) = tot + (x - off) by omega]
      · rw [if_neg h₁]
        by_cases h₂ : off ≤ x ∧ x < off + m
        · rw [if_pos h₂, if_pos (by omega)]
        · rw [if_neg h₂, if_neg (by omega)]
    · simp only [hj, false_and, if_false]
  mapped := by
    intro x h₁ h₂
    by_cases hx : x < off + m
    · obtain ⟨c, hc⟩ := Option.ne_none_iff_exists'.mp (hmap x h₁ hx)
      rw [h'.maps.evolves.keep _ c hc]
      simp
    · have hmapped := h'.mapped x (by omega) h₂
      rwa [h.maps.inum] at hmapped

theorem div_round {off m x : ℕ} (hm : m ≤ BSIZE - off % BSIZE) (h₁ : off ≤ x) (h₂ : x < off + m) :
    x / BSIZE = off / BSIZE := by
  have hdo := Nat.div_add_mod off BSIZE
  have hmo := Nat.mod_lt off (show 0 < BSIZE by decide)
  apply Nat.div_eq_of_lt_le
  · rw [Nat.mul_comm]
    omega
  · rw [Nat.succ_mul, Nat.mul_comm]
    omega

theorem div_next_round {off m len : ℕ} (hm : m = min len (BSIZE - off % BSIZE)) (hlt : m < len) :
    (off + m) / BSIZE = off / BSIZE + 1 := by
  have hdo := Nat.div_add_mod off BSIZE
  have hmo := Nat.mod_lt off (show 0 < BSIZE by decide)
  apply Nat.div_eq_of_lt_le
  · rw [Nat.succ_mul, Nat.mul_comm]
    omega
  · rw [Nat.succ_mul, Nat.succ_mul, Nat.mul_comm]
    omega

/-- The disk is too full for bytes `off` to `off + len` of file `i`. -/
def NoRoom (sb : SuperBlock) (disk : Disk) (D : ℕ → Dinode) (i off len : ℕ) : Prop :=
  0 < len ∧ freeCount sb disk < need sb disk D i (off / BSIZE) (blocks (off + len))

theorem noRoom_of_cost {i off len : ℕ} (hlen : 0 < len)
    (h : freeCount sb disk < cost sb disk D i (off / BSIZE)) : NoRoom sb disk D i off len :=
  ⟨hlen, h.trans_le (cost_le_need (div_lt_blocks (by omega)))⟩

theorem noRoom_of_rest {off m len a : ℕ} {bs : List ℕ} (hm : m = min len (BSIZE - off % BSIZE))
    (hlen : 0 < len) (hg : Gets sb ip D s (off / BSIZE) a D' t bs)
    (h : NoRoom sb t.disk D' (s.icache ip).inum (off + m) (len - m)) :
    NoRoom sb s.disk D (s.icache ip).inum off len := by
  obtain ⟨hpos, hlt⟩ := h
  rw [show off + m + (len - m) = off + len by omega, div_next_round hm (by omega)] at hlt
  have hcount := freeCount_evolves hg.maps.evolves
  have hpaid := need_after (div_lt_blocks (show off < off + len by omega)) hg
  exact ⟨hlen, by omega⟩

theorem noRoom_of_store {i j off len b : ℕ} {sl : Slot} {blk : Block} (h : Own sb disk D)
    (hs : slots sb disk D (j, sl) = some b) (hne : sl ≠ Slot.indirect)
    (hno : NoRoom sb (Function.update disk b blk) D i off len) : NoRoom sb disk D i off len := by
  have hcount := freeCount_evolves (evolves_store h hs hne blk)
  unfold NoRoom need at hno ⊢
  rw [slots_store h hs hne blk] at hno
  rw [List.length_nil, Nat.add_zero] at hcount
  rwa [hcount] at hno

/-- **The loop of `writei`.** -/
theorem writeLoop_spec {src : ℕ → UInt8} {avail n fuel tot off : ℕ} (hw : Working sb ip D s)
    (hfuel : n - tot ≤ fuel) (hoff : off + (n - tot) ≤ MAXFILE * BSIZE) :
    Wp (writeLoop sb ip src avail n fuel tot off) s
      (fun off' t => off ≤ off' ∧ off' ≤ off + (n - tot) ∧ (n ≤ avail → off' = off + (n - tot)) ∧
        ∃ D' bs, Wrote sb ip src tot off (min n avail - tot) off' D s D' t bs)
      (fun e => e = .ballocOutOfBlocks ∧ NoRoom sb s.disk D (s.icache ip).inum off (n - tot)) := by
  induction fuel generalizing tot off s D with
  | zero =>
    have hk : min n avail - tot = 0 := by omega
    refine wp_pure ⟨le_rfl, by omega, fun _ => by omega, D, [], ?_⟩
    rw [hk]
    exact wrote_nothing hw src tot off
  | succ fuel ih =>
    unfold writeLoop
    by_cases htot : tot < n
    · have hoff' : off < MAXFILE * BSIZE := by omega
      rw [if_pos htot]
      refine wp_bind (wp_mono (bmap_spec hw (div_lt_maxfile hoff')) ?_ ?_)
      · rintro a t ⟨D₁, bs₁, hg⟩
        generalize hm : min (n - tot) (BSIZE - off % BSIZE) = m
        have hmod := Nat.mod_lt off (show 0 < BSIZE by decide)
        refine wp_bind (wp_update ?_)
        have hround : Wrote sb ip src tot off (min m (avail - tot)) off D s D₁ _ bs₁ :=
          wrote_round hw hoff' hg (by omega)
        have hown := hg.maps.evolves.own
        have hne := fileSlot_ne_indirect (off / BSIZE)
        by_cases havail : tot + m ≤ avail
        · -- the piece has been copied; the induction hypothesis does the rest
          rw [if_pos havail]
          rw [show min m (avail - tot) = m by omega] at hround ⊢
          have hw' := hround.maps.working hw
          have hinum := hround.maps.inum
          refine wp_mono (ih hw' (by omega) (by omega)) ?_ ?_
          · rintro off' u ⟨h₁, h₂, h₃, D₂, bs₂, hrest⟩
            refine ⟨by omega, by omega, fun hn => by rw [h₃ hn]; omega, D₂, bs₂ ++ bs₁, ?_⟩
            rw [show min n avail - tot = m + (min n avail - (tot + m)) by omega]
            refine hround.trans hrest ?_
            intro x hx₁ hx₂
            rw [div_round (by omega) hx₁ hx₂, Fs.put_disk, slots_store hown hg.slot hne, hg.slot]
            simp
          · rintro e ⟨he, hno⟩
            rw [hinum, show n - (tot + m) = n - tot - m by omega] at hno
            exact ⟨he, noRoom_of_rest hm.symm (by omega) hg (noRoom_of_store hown hg.slot hne hno)⟩
        · rw [if_neg havail]
          refine wp_pure ⟨le_rfl, by omega, fun hn => by omega, D₁, bs₁, ?_⟩
          rwa [show min n avail - tot = min m (avail - tot) by omega]
      · rintro e ⟨he, hlt⟩
        exact ⟨he, noRoom_of_cost (by omega) hlt⟩
    · rw [if_neg htot]
      have hk : min n avail - tot = 0 := by omega
      refine wp_pure ⟨le_rfl, by omega, fun _ => by omega, D, [], ?_⟩
      rw [hk]
      exact wrote_nothing hw src tot off

/-! ### The loop of `readi` -/

def fileBytes (sb : SuperBlock) (disk : Disk) (D : ℕ → Dinode) (i off len : ℕ) : List UInt8 :=
  (List.range len).map fun x => fileByte sb disk D i (off + x)

theorem fileBytes_append (i off m k : ℕ) : fileBytes sb disk D i off (m + k) =
    fileBytes sb disk D i off m ++ fileBytes sb disk D i (off + m) k := by
  unfold fileBytes
  rw [List.range_add, List.map_append, List.map_map]
  congr 2
  funext x
  rw [Function.comp_apply, Nat.add_assoc]

theorem fileBytes_of_cells (h : SameCells sb disk D disk' D') (i off len : ℕ) :
    fileBytes sb disk' D' i off len = fileBytes sb disk D i off len := by
  unfold fileBytes
  congr 1
  funext x
  exact fileByte_of_cells h i (off + x)

theorem fileBytes_round {i off m a : ℕ} (hm : m ≤ BSIZE - off % BSIZE)
    (hs : slots sb disk D (i, fileSlot (off / BSIZE)) = some a) :
    fileBytes sb disk D i off m = (List.range m).map fun x => disk a (off % BSIZE + x) := by
  unfold fileBytes
  apply List.map_congr_left
  intro x hx
  have hx' := List.mem_range.mp hx
  have hdiv : (off + x) / BSIZE = off / BSIZE := div_round hm (by omega) (by omega)
  have hdo := Nat.div_add_mod off BSIZE
  have hdx := Nat.div_add_mod (off + x) BSIZE
  rw [hdiv] at hdx
  unfold fileByte
  rw [hdiv, cell_some hs, show (off + x) % BSIZE = off % BSIZE + x by omega]

/-- Bytes `off` to `off + len` of file `i` lie in blocks of the file. -/
def MappedRange (sb : SuperBlock) (disk : Disk) (D : ℕ → Dinode) (i off len : ℕ) : Prop :=
  ∀ x, off ≤ x → x < off + len → slots sb disk D (i, fileSlot (x / BSIZE)) ≠ none

theorem exists_byte {off len bn : ℕ} (h₁ : off / BSIZE ≤ bn) (h₂ : bn < blocks (off + len))
    (hlen : 0 < len) : ∃ x, off ≤ x ∧ x < off + len ∧ x / BSIZE = bn := by
  have hb : 0 < BSIZE := by decide
  have hlt : bn * BSIZE < off + len := by
    unfold blocks at h₂
    have hmul := Nat.mul_le_of_le_div BSIZE (bn + 1) _ h₂
    rw [Nat.succ_mul] at hmul
    omega
  rcases Nat.le_total off (bn * BSIZE) with hle | hle
  · exact ⟨bn * BSIZE, hle, hlt, Nat.mul_div_cancel _ hb⟩
  · refine ⟨off, le_rfl, by omega, le_antisymm h₁ ?_⟩
    exact (Nat.le_div_iff_mul_le hb).mpr hle

theorem need_mapped {i off len : ℕ} (hmax : off + len ≤ MAXFILE * BSIZE) (hlen : 0 < len)
    (hmap : MappedRange sb disk D i off len) : need sb disk D i (off / BSIZE) (blocks (off + len)) = 0 := by
  have hbn : ∀ bn, off / BSIZE ≤ bn → bn < blocks (off + len) →
      slots sb disk D (i, fileSlot bn) ≠ none := by
    intro bn h₁ h₂
    obtain ⟨x, hx₁, hx₂, rfl⟩ := exists_byte h₁ h₂ hlen
    exact hmap x hx₁ hx₂
  unfold need
  rw [Finset.filter_eq_empty_iff.mpr, Finset.card_empty, if_neg]
  · -- the last block of the range has an entry in the indirect block
    rintro ⟨hlt, hdir, hnone⟩
    have hmapped := hbn (blocks (off + len) - 1) (by omega) (by omega)
    obtain ⟨c, hc⟩ := Option.ne_none_iff_exists'.mp hmapped
    have hle : blocks (off + len) ≤ MAXFILE := by
      unfold blocks
      apply Nat.le_of_lt_succ
      apply Nat.div_lt_of_lt_mul
      rw [Nat.mul_succ, Nat.mul_comm]
      have hb : 0 < BSIZE := by decide
      omega
    have hslot : fileSlot (blocks (off + len) - 1) = _ := fileSlot_entry (by omega) (by
      unfold MAXFILE at hle
      omega)
    rw [hslot] at hc
    exact slots_indirect_of_entry hc hnone
  · intro bn hbn'
    rw [Finset.mem_Ico] at hbn'
    exact hbn bn hbn'.1 hbn'.2

/-- A call has read from the file and changed no contents; it has changed nothing at all if the range
was mapped. -/
structure Reads (sb : SuperBlock) (ip : Fin NINODE) (off len : ℕ) (D : ℕ → Dinode) (s : Fs)
    (D' : ℕ → Dinode) (t : Fs) (bs : List ℕ) : Prop where
  maps : Maps sb ip D s D' t bs
  cells : SameCells sb s.disk D t.disk D'
  id : MappedRange sb s.disk D (s.icache ip).inum off len → t = s ∧ D' = D

theorem reads_nothing (hw : Working sb ip D s) (off len : ℕ) : Reads sb ip off len D s D s [] where
  maps := Maps.refl hw
  cells := fun _ _ _ _ => rfl
  id := fun _ => ⟨rfl, rfl⟩

/-- **The loop of `readi`.** -/
theorem readLoop_spec {avail n fuel tot off : ℕ} {out : List UInt8} (hw : Working sb ip D s)
    (htot : tot ≤ n) (hfuel : n - tot ≤ fuel) (hoff : off + (n - tot) ≤ MAXFILE * BSIZE) :
    Wp (readLoop sb ip avail n fuel tot off out) s (fun r t => tot ≤ r.1 ∧ r.1 ≤ n ∧ (n ≤ avail → r.1 = n) ∧
        r.2 = out ++ fileBytes sb s.disk D (s.icache ip).inum off (r.1 - tot) ∧
        ∃ D' bs, Reads sb ip off (n - tot) D s D' t bs)
      (fun e => e = .ballocOutOfBlocks ∧ NoRoom sb s.disk D (s.icache ip).inum off (n - tot)) := by
  induction fuel generalizing tot off s D out with
  | zero =>
    refine wp_pure ⟨le_rfl, htot, fun _ => by omega, ?_, D, [], reads_nothing hw _ _⟩
    simp [fileBytes]
  | succ fuel ih =>
    unfold readLoop
    by_cases hlt : tot < n
    · have hoff' : off < MAXFILE * BSIZE := by omega
      rw [if_pos hlt]
      refine wp_bind (wp_mono (bmap_spec hw (div_lt_maxfile hoff')) ?_ ?_)
      · rintro a t ⟨D₁, bs₁, hg⟩
        refine wp_bind (wp_gets ?_)
        generalize hm : min (n - tot) (BSIZE - off % BSIZE) = m
        have hmod := Nat.mod_lt off (show 0 < BSIZE by decide)
        have hinum := hg.maps.inum
        by_cases havail : tot + m ≤ avail
        · rw [if_pos havail]
          refine wp_mono (ih (hg.maps.working hw) (by omega) (by omega) (by omega)) ?_ ?_
          · rintro r u ⟨h₁, h₂, h₃, hout, D₂, bs₂, hrest⟩
            rw [hinum, fileBytes_of_cells hg.cells, List.append_assoc] at hout
            refine ⟨by omega, h₂, h₃, ?_, D₂, bs₂ ++ bs₁, hg.maps.trans hrest.maps, ?_, ?_⟩
            · rw [hout, show r.1 - tot = m + (r.1 - (tot + m)) by omega, fileBytes_append,
                ← fileBytes_of_cells hg.cells _ off m, fileBytes_round (by omega) hg.slot]
            · intro o x ho hx
              rw [hrest.cells o x ho hx, hg.cells o x ho hx]
            · intro hmap
              obtain ⟨rfl, rfl⟩ := hg.id (hmap off le_rfl (by omega))
              exact hrest.id fun x hx₁ hx₂ => hmap x (by omega) (by omega)
          · rintro e ⟨he, hno⟩
            rw [hinum, show n - (tot + m) = n - tot - m by omega] at hno
            exact ⟨he, noRoom_of_rest hm.symm (by omega) hg hno⟩
        · rw [if_neg havail]
          refine wp_pure ⟨le_rfl, htot, fun hn => by omega, ?_, D₁, bs₁, hg.maps, hg.cells, ?_⟩
          · simp [fileBytes]
          · exact fun hmap => hg.id (hmap off le_rfl (by omega))
      · rintro e ⟨he, hcost⟩
        exact ⟨he, noRoom_of_cost (by omega) hcost⟩
    · rw [if_neg hlt]
      refine wp_pure ⟨le_rfl, htot, fun _ => by omega, ?_, D, [], reads_nothing hw _ _⟩
      simp [fileBytes]

end Xv6.FsContent
