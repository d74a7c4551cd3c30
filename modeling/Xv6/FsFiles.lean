import Xv6.FsContent

/-!
# `readi` and `writei`

At the boundaries of a call the inode cache is write-through: `Synced` says that the file table on disk
satisfies block ownership and that it has the inode a call is about to work on.  The specifications of
`readi` and `writei` start from there.  `writei` ends there as well, since it writes the inode back;
`readi` does not, because a `bmap` that allocates changes the inode in memory only.
-/

namespace Xv6.FsFiles

open Xv6.Params Xv6.LittleEndian Xv6.Panics Xv6.FsLayout Xv6.FsInodes Xv6.Ownership Xv6.FsOwnership
open Xv6.FsMapping Xv6.FsBmap Xv6.FsContent
open Xv6.LogMachine (Block Disk)
open Function (update_self update_of_ne)

variable {sb : SuperBlock} {disk disk' : Disk} {D D' : ℕ → Dinode} {ip : Fin NINODE} {s t : Fs}

/-! ### The inode goes to disk -/

theorem slots_table (h : ∀ j, j < sb.ninodes → D' j = D j) : slots sb disk D' = slots sb disk D := by
  funext o
  by_cases hj : o.1 < sb.ninodes
  · exact slots_congr (by rw [h _ hj]) fun _ _ => by rw [h _ hj]
  · unfold slots
    rw [if_neg fun hc => hj hc.1, if_neg fun hc => hj hc.1]

theorem slots_iblock (h : Own sb disk D) {i : ℕ} (hi : i < sb.ninodes) (blk : Block) :
    slots sb (Function.update disk (sb.iblock i) blk) D = slots sb disk D := by
  funext o
  apply slots_congr rfl
  intro hj ht
  apply slotAddr_congr
  intro hl x _
  have hind : slots sb disk D (o.1, Slot.indirect) = _ := slots_indirect hj ht hl
  rw [update_of_ne (SuperBlock.iblock_ne_data hi (h.isData hind)).symm]

theorem bitOf_iblock {i : ℕ} (hi : i < sb.ninodes) (blk : Block) (c : ℕ) :
    bitOf sb (Function.update disk (sb.iblock i) blk) c = bitOf sb disk c :=
  bitOf_congr (update_of_ne (SuperBlock.iblock_ne_bblock hi).symm _ _)

theorem cell_iblock (h : Own sb disk D) {i : ℕ} (hi : i < sb.ninodes) (blk : Block) (o : ℕ × Slot)
    (x : ℕ) : cell sb (Function.update disk (sb.iblock i) blk) D o x = cell sb disk D o x := by
  have hs := slots_iblock h hi blk
  cases hc : slots sb disk D o with
  | none => rw [cell_none hc, cell_none (by rwa [hs])]
  | some c =>
    rw [cell_some hc, cell_some (by rwa [hs]),
      update_of_ne (SuperBlock.iblock_ne_data hi (h.isData hc)).symm]

theorem cell_table (h : ∀ j, j < sb.ninodes → D' j = D j) (o : ℕ × Slot) (x : ℕ) :
    cell sb disk D' o x = cell sb disk D o x := by
  unfold cell
  rw [slots_table h]

def updated (sb : SuperBlock) (ip : Fin NINODE) (s : Fs) : Fs :=
  s.put (sb.iblock (s.icache ip).inum) (putDinode (s.disk (sb.iblock (s.icache ip).inum))
    ((s.icache ip).inum % IPB) (s.icache ip).d)

theorem wp_iupdate {Q : Unit → Fs → Prop} {E : Panic → Prop} (h : Q () (updated sb ip s)) :
    Wp (iupdate sb ip) s Q E := h

theorem dinode_updated (j : ℕ) : dinode sb (updated sb ip s).disk j =
    if j = (s.icache ip).inum then (s.icache ip).d else dinode sb s.disk j := by
  have hput : dinode sb (updated sb ip s).disk j = _ :=
    dinode_update (fun k hk => readDinode_putDinode_ne _ (s.icache ip).d hk) j
  rwa [readDinode_putDinode] at hput

/-- **Write-through.**  `D` is the file table with the inode from memory; after `iupdate` it is the
table on disk. -/
theorem table_updated (hrest : ∀ j, j < sb.ninodes → j ≠ (s.icache ip).inum → dinode sb s.disk j = D j)
    (hhere : D (s.icache ip).inum = (s.icache ip).d) :
    ∀ j, j < sb.ninodes → dinode sb (updated sb ip s).disk j = D j := by
  intro j hj
  rw [dinode_updated]
  by_cases hji : j = (s.icache ip).inum
  · rw [if_pos hji, hji, hhere]
  · rw [if_neg hji, hrest j hj hji]

theorem slots_updated (h : Own sb s.disk D) (hi : (s.icache ip).inum < sb.ninodes)
    (hD : ∀ j, j < sb.ninodes → dinode sb (updated sb ip s).disk j = D j) :
    slots sb (updated sb ip s).disk (dinode sb (updated sb ip s).disk) = slots sb s.disk D :=
  (slots_table hD).trans (slots_iblock h hi _)

theorem own_updated (h : Own sb s.disk D) (hi : (s.icache ip).inum < sb.ninodes)
    (hD : ∀ j, j < sb.ninodes → dinode sb (updated sb ip s).disk j = D j) :
    Own sb (updated sb ip s).disk (dinode sb (updated sb ip s).disk) :=
  own_congr h (slots_updated h hi hD) fun c _ => bitOf_iblock hi _ c

theorem cell_updated (h : Own sb s.disk D) (hi : (s.icache ip).inum < sb.ninodes)
    (hD : ∀ j, j < sb.ninodes → dinode sb (updated sb ip s).disk j = D j) (o : ℕ × Slot) (x : ℕ) :
    cell sb (updated sb ip s).disk (dinode sb (updated sb ip s).disk) o x = cell sb s.disk D o x :=
  (cell_table hD o x).trans (cell_iblock h hi _ o x)

/-! ### `writei` -/

/-- The inode in entry `ip` is allocated and the same in memory and on disk. -/
structure Synced (sb : SuperBlock) (ip : Fin NINODE) (s : Fs) : Prop where
  own : Own sb s.disk (dinode sb s.disk)
  here : dinode sb s.disk (s.icache ip).inum = (s.icache ip).d
  lt : (s.icache ip).inum < sb.ninodes
  type : (s.icache ip).d.type ≠ 0

theorem Synced.working (h : Synced sb ip s) : Working sb ip (dinode sb s.disk) s :=
  ⟨h.own, h.here, h.lt, h.type⟩

def resize (d : Dinode) (size : UInt32) : Dinode := { d with size := size }

/-- What `writei` does to block ownership and to the inodes. -/
structure Written (sb : SuperBlock) (ip : Fin NINODE) (s t : Fs) (bs : List ℕ) : Prop where
  synced : Synced sb ip t
  other : ∀ j, j < sb.ninodes → j ≠ (s.icache ip).inum → dinode sb t.disk j = dinode sb s.disk j
  same : SameMeta (s.icache ip).d (resize (t.icache ip).d (s.icache ip).d.size)
  icache : t.icache = Function.update s.icache ip { s.icache ip with d := (t.icache ip).d }
  handed : t.handed = bs ++ s.handed
  keep : ∀ o c, slots sb s.disk (dinode sb s.disk) o = some c →
    slots sb t.disk (dinode sb t.disk) o = some c
  fresh : ∀ o c, slots sb t.disk (dinode sb t.disk) o = some c →
    slots sb s.disk (dinode sb s.disk) o = some c ∨ o.1 = (s.icache ip).inum
  nodup : bs.Nodup
  free : ∀ c, c ∈ bs → sb.IsData c ∧ bitOf sb s.disk c = false

theorem written_nothing (h : Synced sb ip s) : Written sb ip s s [] where
  synced := h
  other := fun _ _ _ => rfl
  same := rfl
  icache := (Function.update_eq_self ip s.icache).symm
  handed := rfl
  keep := fun _ _ hc => hc
  fresh := fun _ _ hc => Or.inl hc
  nodup := List.nodup_nil
  free := fun _ hc => absurd hc List.not_mem_nil

theorem written_of_maps (h : Synced sb ip s) {bs : List ℕ} (size : UInt32)
    (hm : Maps sb ip (dinode sb s.disk) s D t bs) :
    Written sb ip s (updated sb ip (t.setD ip (resize (t.icache ip).d size))) bs ∧
      slots sb (updated sb ip (t.setD ip (resize (t.icache ip).d size))).disk
        (dinode sb (updated sb ip (t.setD ip (resize (t.icache ip).d size))).disk) = slots sb t.disk D ∧
      ∀ o x, cell sb (updated sb ip (t.setD ip (resize (t.icache ip).d size))).disk
        (dinode sb (updated sb ip (t.setD ip (resize (t.icache ip).d size))).disk) o x = cell sb t.disk D o x := by
  have hw := hm.working h.working
  have hinum := hm.inum
  generalize hu : t.setD ip (resize (t.icache ip).d size) = u
  have hdisk : u.disk = t.disk := by rw [← hu]; rfl
  have hentry : u.icache ip = { t.icache ip with d := resize (t.icache ip).d size } := by
    rw [← hu, Fs.setD_self]
  -- the file table with the resized inode names the same blocks
  have hslots : slots sb t.disk (Function.update D (t.icache ip).inum (u.icache ip).d) =
      slots sb t.disk D := by
    funext o
    by_cases ho : o.1 = (t.icache ip).inum
    · apply slots_congr
      · rw [ho, update_self, hentry, hw.here]
        rfl
      · intro _ _
        rw [ho, update_self, hentry, hw.here]
        exact slotAddr_congr fun _ _ _ => rfl
    · exact slots_congr (by rw [update_of_ne ho]) fun _ _ => by
        rw [update_of_ne ho]
  have hown : Own sb u.disk (Function.update D (t.icache ip).inum (u.icache ip).d) := by
    rw [hdisk]
    exact own_congr hw.own hslots fun _ _ => rfl
  have hlt : (u.icache ip).inum < sb.ninodes := by
    rw [hentry]
    exact hw.lt
  have htable : ∀ j, j < sb.ninodes → dinode sb (updated sb ip u).disk j =
      Function.update D (t.icache ip).inum (u.icache ip).d j := by
    apply table_updated
    · intro j hj hne
      rw [hentry] at hne
      rw [update_of_ne hne, hdisk, hm.evolves.inodes j hj, hm.evolves.other j (by rwa [← hinum])]
    · rw [hentry, update_self]
  have hslots' : slots sb (updated sb ip u).disk (dinode sb (updated sb ip u).disk) =
      slots sb t.disk D := by
    rw [slots_updated hown hlt htable, hdisk, hslots]
  refine ⟨⟨⟨own_updated hown hlt htable, ?_, hlt, ?_⟩, ?_, ?_, ?_, ?_, ?_, ?_, ?_, ?_⟩, hslots', ?_⟩
  · change dinode sb (updated sb ip u).disk (u.icache ip).inum = (u.icache ip).d
    rw [dinode_updated, if_pos rfl]
  · change (u.icache ip).d.type ≠ 0
    rw [hentry]
    exact hw.type
  · intro j hj hne
    rw [htable j hj, update_of_ne (by rwa [hinum]), hm.evolves.other j hne]
  · change SameMeta _ (resize (u.icache ip).d _)
    have hsame := hm.evolves.same
    rw [hm.here, h.here] at hsame
    rw [hentry]
    unfold SameMeta resize at *
    rw [hsame]
  · change u.icache = Function.update s.icache ip { s.icache ip with d := (u.icache ip).d }
    rw [hentry, ← hu, Fs.setD_icache_of hm.icache]
  · change u.handed = _
    rw [← hu]
    exact hm.handed
  · intro o c hc
    rw [hslots']
    exact hm.evolves.keep o c hc
  · intro o c hc
    rw [hslots'] at hc
    exact (hm.evolves.fresh o c hc).imp id And.left
  · exact hm.evolves.nodup
  · exact hm.evolves.free
  · intro o x
    rw [cell_updated hown hlt htable, hdisk]
    unfold cell
    rw [hslots]

theorem setD_resize_self (t : Fs) (ip : Fin NINODE) :
    t.setD ip (resize (t.icache ip).d (t.icache ip).d.size) = t := by
  unfold Fs.setD Fs.setInode resize
  simp

def content (sb : SuperBlock) (disk : Disk) (i x : ℕ) : UInt8 := fileByte sb disk (dinode sb disk) i x

/-- `writei` has stored the first `k` bytes of the source at offset `off` and the file is mapped from
there up to `off'`. -/
structure WriteiPost (sb : SuperBlock) (ip : Fin NINODE) (src : ℕ → UInt8) (off k off' : ℕ) (s t : Fs)
    (bs : List ℕ) : Prop where
  written : Written sb ip s t bs
  size : (t.icache ip).d.size.toNat = max (s.icache ip).d.size.toNat off'
  bytes : ∀ j x, x < MAXFILE * BSIZE → content sb t.disk j x =
    if j = (s.icache ip).inum ∧ off ≤ x ∧ x < off + k then src (x - off) else content sb s.disk j x
  mapped : MappedRange sb t.disk (dinode sb t.disk) (s.icache ip).inum off (off' - off)

/-- **`writei` out of range** returns -1 and changes nothing. -/
theorem writei_out {src : ℕ → UInt8} {avail : ℕ} {off n : UInt32}
    (h : off > (s.icache ip).d.size ∨ off + n < off ∨ (off + n).toNat > MAXFILE * BSIZE) :
    Wp (writei sb ip src avail off n) s (fun r t => r = -1 ∧ t = s) fun _ => False := by
  unfold writei
  apply wp_bind
  apply wp_gets
  by_cases h₁ : off > (s.icache ip).d.size ∨ off + n < off
  · rw [if_pos h₁]
    exact wp_pure ⟨rfl, rfl⟩
  · have h₂ : (off + n).toNat > MAXFILE * BSIZE := by tauto
    rw [if_neg h₁, if_pos h₂]
    exact wp_pure ⟨rfl, rfl⟩

theorem toNat_add_of_not_lt {off n : UInt32} (h : ¬ off + n < off) : (off + n).toNat = off.toNat + n.toNat := by
  have h₁ := off.toNat_lt
  have h₂ := n.toNat_lt
  rw [UInt32.lt_iff_toNat_lt, UInt32.toNat_add] at h
  rw [UInt32.toNat_add]
  omega

theorem not_add_lt {off n : UInt32} (h : off.toNat + n.toNat < 2 ^ 32) : ¬ off + n < off := by
  rw [UInt32.lt_iff_toNat_lt, UInt32.toNat_add, Nat.mod_eq_of_lt h]
  omega

theorem grow_eq (t : Fs) (ip : Fin NINODE) (off' : ℕ) :
    (if off' > (t.icache ip).d.size.toNat then
        t.setD ip { (t.icache ip).d with size := UInt32.ofNat off' } else t) =
      t.setD ip (resize (t.icache ip).d
        (if off' > (t.icache ip).d.size.toNat then UInt32.ofNat off' else (t.icache ip).d.size)) := by
  by_cases h : off' > (t.icache ip).d.size.toNat
  · rw [if_pos h, if_pos h]
    rfl
  · rw [if_neg h, if_neg h, setD_resize_self]

/-- **`writei` within range.** -/
theorem writei_spec {src : ℕ → UInt8} {avail : ℕ} {off n : UInt32} (h : Synced sb ip s)
    (hsize : off.toNat ≤ (s.icache ip).d.size.toNat) (hmax : off.toNat + n.toNat ≤ MAXFILE * BSIZE) :
    Wp (writei sb ip src avail off n) s
      (fun r t => r = n.toNat ∧ ∃ off' bs, off.toNat ≤ off' ∧ off' ≤ off.toNat + n.toNat ∧
        (n.toNat ≤ avail → off' = off.toNat + n.toNat) ∧
        WriteiPost sb ip src off.toNat (min n.toNat avail) off' s t bs) (fun e => e = .ballocOutOfBlocks ∧
        NoRoom sb s.disk (dinode sb s.disk) (s.icache ip).inum off.toNat n.toNat) := by
  have hmaxlt : MAXFILE * BSIZE < 2 ^ 31 := by decide
  have hnw : ¬ off + n < off := not_add_lt (by omega)
  have hadd := toNat_add_of_not_lt hnw
  have hle : ¬ off > (s.icache ip).d.size := by
    rw [gt_iff_lt, UInt32.lt_iff_toNat_lt]
    omega
  unfold writei
  apply wp_bind
  apply wp_gets
  rw [if_neg (by simp only [hle, hnw, or_self, not_false_eq_true]), if_neg (by omega)]
  by_cases hzero : n = 0
  · subst hzero
    refine wp_bind (wp_pure (wp_bind (wp_onlyIf (fun hc => absurd hc (by decide)) fun _ => ?_)))
    refine wp_pure ⟨rfl, off.toNat, [], le_rfl, le_rfl, fun _ => rfl, written_nothing h, ?_, ?_, ?_⟩
    · omega
    · intro j x _
      have hk : min (0 : UInt32).toNat avail = 0 := Nat.zero_min _
      rw [hk, if_neg (by omega)]
    · intro x h₁ h₂
      omega
  have hpos : n > 0 := UInt32.pos_iff_ne_zero.mpr hzero
  refine wp_seq (writeLoop_spec h.working (by omega) (by omega)) ?_
  rintro off' t ⟨hge, hup, hall, D', bs, hwr⟩
  refine wp_bind (wp_onlyIf (fun _ => ?_) fun hc => absurd hpos hc)
  refine wp_bind (wp_update (wp_iupdate (wp_pure ?_)))
  refine ⟨rfl, off', bs, hge, hup, hall, ?_⟩
  have hsame := hwr.maps.evolves.same.size
  rw [hwr.maps.here, h.here] at hsame
  rw [grow_eq, hsame]
  obtain ⟨hwritten, hslots, hcell⟩ := written_of_maps h
    (if off' > (s.icache ip).d.size.toNat then UInt32.ofNat off' else (s.icache ip).d.size) hwr.maps
  refine ⟨hwritten, ?_, ?_, ?_⟩
  · change ((t.setD ip _).icache ip).d.size.toNat = _
    rw [Fs.setD_self]
    change (if off' > (s.icache ip).d.size.toNat then UInt32.ofNat off'
      else (s.icache ip).d.size).toNat = _
    by_cases hgrow : off' > (s.icache ip).d.size.toNat
    · rw [if_pos hgrow, UInt32.toNat_ofNat_of_lt' (by change off' < 2 ^ 32; omega)]
      omega
    · rw [if_neg hgrow]
      omega
  · intro j x hx
    have hbytes := hwr.bytes j x hx
    rw [Nat.sub_zero] at hbytes
    simp only [Nat.zero_add] at hbytes
    unfold content fileByte
    rw [hcell]
    exact hbytes
  · intro x h₁ h₂
    rw [hslots]
    exact hwr.mapped x h₁ (by omega)

/-! ### The other fields of the inode -/

/-- The number of bytes `readi` is to deliver. -/
def readLen (size off n : UInt32) : ℕ :=
  if off > size ∨ off + n < off then 0 else min n.toNat (size.toNat - off.toNat)

theorem readLen_le (size off n : UInt32) : off.toNat + readLen size off n ≤ max off.toNat size.toNat := by
  unfold readLen
  by_cases h : off > size ∨ off + n < off
  · rw [if_pos h]
    omega
  · rw [if_neg h]
    omega

/-- **`readi`.** -/
theorem readi_spec {avail : ℕ} {off n : UInt32} (h : Synced sb ip s)
    (hmax : (s.icache ip).d.size.toNat ≤ MAXFILE * BSIZE) : Wp (readi sb ip avail off n) s
      (fun r t => r.1 ≤ readLen (s.icache ip).d.size off n ∧
        (readLen (s.icache ip).d.size off n ≤ avail → r.1 = readLen (s.icache ip).d.size off n) ∧
        r.2 = fileBytes sb s.disk (dinode sb s.disk) (s.icache ip).inum off.toNat r.1 ∧
        ∃ D bs, Reads sb ip off.toNat (readLen (s.icache ip).d.size off n) (dinode sb s.disk) s D t bs)
      (fun e => e = .ballocOutOfBlocks ∧ NoRoom sb s.disk (dinode sb s.disk) (s.icache ip).inum
        off.toNat (readLen (s.icache ip).d.size off n)) := by
  unfold readi
  apply wp_bind
  apply wp_gets
  by_cases hout : off > (s.icache ip).d.size ∨ off + n < off
  · have hlen : readLen (s.icache ip).d.size off n = 0 := if_pos hout
    rw [if_pos hout, hlen]
    exact wp_pure ⟨le_rfl, fun _ => rfl, rfl, _, [], reads_nothing h.working _ _⟩
  · have hlen : readLen (s.icache ip).d.size off n =
        min n.toNat ((s.icache ip).d.size.toNat - off.toNat) := if_neg hout
    rw [not_or] at hout
    have hadd := toNat_add_of_not_lt hout.2
    have hle : off.toNat ≤ (s.icache ip).d.size.toNat := by
      have hgt := hout.1
      rw [gt_iff_lt, UInt32.lt_iff_toNat_lt] at hgt
      omega
    -- the clipped length
    have hn : (if off + n > (s.icache ip).d.size then (s.icache ip).d.size - off else n).toNat =
        readLen (s.icache ip).d.size off n := by
      rw [hlen]
      by_cases hclip : off + n > (s.icache ip).d.size
      · rw [if_pos hclip, UInt32.toNat_sub_of_le _ _ (UInt32.le_iff_toNat_le.mpr hle)]
        rw [gt_iff_lt, UInt32.lt_iff_toNat_lt, hadd] at hclip
        omega
      · rw [if_neg hclip]
        rw [gt_iff_lt, UInt32.lt_iff_toNat_lt, hadd] at hclip
        omega
    rw [if_neg (not_or.mpr hout)]
    simp only
    rw [hn]
    have hrange := readLen_le (s.icache ip).d.size off n
    refine wp_mono (readLoop_spec h.working (Nat.zero_le _) (by omega) (by omega)) ?_ ?_
    · rintro r t ⟨-, hup, hall, hbytes, D, bs, hreads⟩
      rw [Nat.sub_zero] at hbytes hreads
      exact ⟨hup, hall, hbytes, D, bs, hreads⟩
    · rintro e ⟨he, hno⟩
      rw [Nat.sub_zero] at hno
      exact ⟨he, hno⟩

/-! ### Files without holes -/

/-- Every byte of file `i` lies in a block of the file. -/
structure Filled (sb : SuperBlock) (disk : Disk) (i : ℕ) : Prop where
  size : (dinode sb disk i).size.toNat ≤ MAXFILE * BSIZE
  mapped : MappedRange sb disk (dinode sb disk) i 0 (dinode sb disk i).size.toNat

/-- **`readi` of a file without holes** changes nothing. -/
theorem readi_filled {avail : ℕ} {off n : UInt32} (h : Synced sb ip s) (hf : Filled sb s.disk (s.icache ip).inum) :
    Wp (readi sb ip avail off n) s (fun r t => t = s ∧ r.1 ≤ readLen (s.icache ip).d.size off n ∧
        (readLen (s.icache ip).d.size off n ≤ avail → r.1 = readLen (s.icache ip).d.size off n) ∧
        r.2 = fileBytes sb s.disk (dinode sb s.disk) (s.icache ip).inum off.toNat r.1) (fun _ => False) := by
  have hsize := hf.size
  have hmapped := hf.mapped
  rw [h.here] at hsize hmapped
  -- the range lies below the size, so all of it is mapped
  have hrange : ∀ x, off.toNat ≤ x → x < off.toNat + readLen (s.icache ip).d.size off n →
      x < (s.icache ip).d.size.toNat := by
    intro x h₁ h₂
    have hle := readLen_le (s.icache ip).d.size off n
    omega
  have hmap : MappedRange sb s.disk (dinode sb s.disk) (s.icache ip).inum off.toNat
      (readLen (s.icache ip).d.size off n) := fun x h₁ h₂ =>
    hmapped x (Nat.zero_le _) (by have := hrange x h₁ h₂; omega)
  refine wp_mono (readi_spec h hsize) ?_ ?_
  · rintro r t ⟨h₁, h₂, h₃, D, bs, hr⟩
    exact ⟨(hr.id hmap).1, h₁, h₂, h₃⟩
  · rintro e ⟨-, hlen, hno⟩
    have hle := hrange (off.toNat + readLen (s.icache ip).d.size off n - 1) (by omega) (by omega)
    rw [need_mapped (by omega) hlen hmap] at hno
    exact Nat.not_lt_zero _ hno

end Xv6.FsFiles
