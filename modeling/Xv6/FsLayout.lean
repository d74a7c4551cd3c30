import Xv6.ByteBitmap
import Xv6.LogMachine

/-!
# On-disk format of the file system

The layout `[ boot | super | log | inode blocks | free bit map | data blocks ]`, the 64-byte
`struct dinode` inside an inode block, the bit of a block in the free map, and the block numbers in
an indirect block.  `SuperBlock` carries what `mkfs` guarantees about the areas: they do not overlap.
-/

namespace Xv6.FsLayout

open Xv6.Params Xv6.LittleEndian Xv6.ByteBitmap
open Xv6.LogMachine (Block Disk)
open Function (update_self update_of_ne)

/-- The fields of `struct superblock` that `fs.c` and the layout use. -/
structure SuperBlock where
  size : ℕ
  nblocks : ℕ
  ninodes : ℕ
  inodestart : ℕ
  bmapstart : ℕ
  inodes_lt : inodestart + ninodes / IPB < bmapstart
  bmap_lt : bmapstart + size / BPB < size - nblocks
  -- block numbers are passed around as `int`
  size_lt : size < 2 ^ 31

namespace SuperBlock

variable (sb : SuperBlock)

/-- Boot block, super block, log, inodes and free map. -/
def nmeta : ℕ := sb.size - sb.nblocks

def IsData (b : ℕ) : Prop := sb.nmeta ≤ b ∧ b < sb.size

instance (b : ℕ) : Decidable (sb.IsData b) := inferInstanceAs (Decidable (_ ∧ _))

/-- `IBLOCK(i, sb)`. -/
def iblock (i : ℕ) : ℕ := i / IPB + sb.inodestart

/-- `BBLOCK(b, sb)`. -/
def bblock (b : ℕ) : ℕ := b / BPB + sb.bmapstart

variable {sb}

theorem nmeta_le : sb.nmeta ≤ sb.size := Nat.sub_le _ _

theorem iblock_lt {i : ℕ} (h : i < sb.ninodes) : sb.iblock i < sb.bmapstart := by
  have hle : i / IPB ≤ sb.ninodes / IPB := Nat.div_le_div_right h.le
  have hlt := sb.inodes_lt
  unfold iblock
  omega

theorem bblock_lt {b : ℕ} (h : b < sb.size) : sb.bblock b < sb.nmeta := by
  have hle : b / BPB ≤ sb.size / BPB := Nat.div_le_div_right h.le
  have hlt := sb.bmap_lt
  unfold bblock nmeta
  omega

theorem le_bblock (b : ℕ) : sb.bmapstart ≤ sb.bblock b := Nat.le_add_left _ _

theorem bmapstart_lt : sb.bmapstart < sb.nmeta :=
  lt_of_le_of_lt (Nat.le_add_right _ _) sb.bmap_lt

/-- The three areas `fs.c` writes to do not overlap. -/
theorem iblock_ne_bblock {i b : ℕ} (hi : i < sb.ninodes) : sb.iblock i ≠ sb.bblock b := by
  have h₁ := iblock_lt hi
  have h₂ : sb.bmapstart ≤ sb.bblock b := le_bblock b
  omega

theorem iblock_ne_data {i b : ℕ} (hi : i < sb.ninodes) (hb : sb.IsData b) : sb.iblock i ≠ b := by
  have h₁ := iblock_lt hi
  have h₂ : sb.bmapstart < sb.nmeta := bmapstart_lt
  have h₃ := hb.1
  omega

theorem bblock_ne_data {b c : ℕ} (hb : b < sb.size) (hc : sb.IsData c) : sb.bblock b ≠ c := by
  have h₁ := bblock_lt hb
  have h₂ := hc.1
  omega

theorem IsData.pos {b : ℕ} (h : sb.IsData b) : 0 < b := by
  have h₁ := h.1
  have h₂ : sb.bmapstart < sb.nmeta := bmapstart_lt
  omega

end SuperBlock

/-! ### The free map -/

/-- The bit of block `b` in the free map. -/
def bitOf (sb : SuperBlock) (disk : Disk) (b : ℕ) : Bool :=
  testBit (disk (sb.bblock b)) (b % BPB)

/-- Block `b` is marked in use. -/
def markUsed (sb : SuperBlock) (disk : Disk) (b : ℕ) : Disk :=
  Function.update disk (sb.bblock b) (setBit (disk (sb.bblock b)) (b % BPB))

def markFree (sb : SuperBlock) (disk : Disk) (b : ℕ) : Disk :=
  Function.update disk (sb.bblock b) (clearBit (disk (sb.bblock b)) (b % BPB))

theorem bblock_mod_inj {sb : SuperBlock} {b c : ℕ} (hd : sb.bblock c = sb.bblock b)
    (hm : c % BPB = b % BPB) : c = b := by
  have hdiv : c / BPB = b / BPB := by
    unfold SuperBlock.bblock at hd
    omega
  rw [← Nat.div_add_mod c BPB, ← Nat.div_add_mod b BPB, hdiv, hm]

theorem bitOf_congr {sb : SuperBlock} {disk disk' : Disk} {b : ℕ}
    (h : disk' (sb.bblock b) = disk (sb.bblock b)) : bitOf sb disk' b = bitOf sb disk b := by
  unfold bitOf
  rw [h]

theorem bitOf_markUsed (sb : SuperBlock) (disk : Disk) (b c : ℕ) :
    bitOf sb (markUsed sb disk b) c = (bitOf sb disk c || decide (c = b)) := by
  by_cases hd : sb.bblock c = sb.bblock b
  · have hiff : c % BPB = b % BPB ↔ c = b := ⟨bblock_mod_inj hd, fun he => by rw [he]⟩
    rw [bitOf, bitOf, markUsed, hd, update_self, testBit_setBit]
    simp [hiff]
  · have hne : c ≠ b := fun he => hd (by rw [he])
    rw [markUsed, bitOf_congr (update_of_ne hd _ _)]
    simp [hne]

/-- `struct dinode`. -/
structure Dinode where
  type : UInt16
  major : UInt16
  minor : UInt16
  nlink : UInt16
  size : UInt32
  addrs : Fin (NDIRECT + 1) → UInt32
deriving DecidableEq

/-- The inode in slot `k` of an inode block. -/
def readDinode (blk : Block) (k : ℕ) : Dinode where
  type := UInt16.ofNat (getLE blk (64 * k) 2)
  major := UInt16.ofNat (getLE blk (64 * k + 2) 2)
  minor := UInt16.ofNat (getLE blk (64 * k + 4) 2)
  nlink := UInt16.ofNat (getLE blk (64 * k + 6) 2)
  size := UInt32.ofNat (getLE blk (64 * k + 8) 4)
  addrs := fun j => UInt32.ofNat (getLE blk (64 * k + 12 + 4 * j.val) 4)

/-- `memmove(dip->addrs, ip->addrs, sizeof(ip->addrs))`, one address after the other. -/
def putAddrs (o : ℕ) (addrs : Fin (NDIRECT + 1) → UInt32) (blk : Block)
    (js : List (Fin (NDIRECT + 1))) : Block :=
  js.foldl (fun blk j => setLE blk (o + 12 + 4 * j.val) 4 (addrs j).toNat) blk

/-- The stores of `iupdate`. -/
def putDinode (blk : Block) (k : ℕ) (d : Dinode) : Block :=
  let blk := setLE blk (64 * k) 2 d.type.toNat
  let blk := setLE blk (64 * k + 2) 2 d.major.toNat
  let blk := setLE blk (64 * k + 4) 2 d.minor.toNat
  let blk := setLE blk (64 * k + 6) 2 d.nlink.toNat
  let blk := setLE blk (64 * k + 8) 4 d.size.toNat
  putAddrs (64 * k) d.addrs blk (List.finRange (NDIRECT + 1))

/-- `memset(dip, 0, sizeof(*dip)); dip->type = type;`. -/
def clearDinode (blk : Block) (k : ℕ) (type : UInt16) : Block :=
  setLE (setBytes blk (64 * k) 64 fun _ => 0) (64 * k) 2 type.toNat

theorem putAddrs_outside {o x : ℕ} (addrs : Fin (NDIRECT + 1) → UInt32) (blk : Block)
    (js : List (Fin (NDIRECT + 1))) (h : x < o + 12 ∨ o + 64 ≤ x) : putAddrs o addrs blk js x = blk x := by
  induction js generalizing blk with
  | nil => rfl
  | cons j js ih =>
    have hj : j.val < 13 := j.isLt
    have hrec := ih (setLE blk (o + 12 + 4 * j.val) 4 (addrs j).toNat)
    rw [setLE_outside blk (by omega)] at hrec
    exact hrec

theorem getLE_putAddrs {o off w : ℕ} (addrs : Fin (NDIRECT + 1) → UInt32) (blk : Block)
    (js : List (Fin (NDIRECT + 1))) (h : off + w ≤ o + 12 ∨ o + 64 ≤ off) :
    getLE (putAddrs o addrs blk js) off w = getLE blk off w := by
  apply getLE_congr
  intro x h₁ h₂
  exact putAddrs_outside addrs blk js (by omega)

theorem getLE_putAddrs_of_mem {o : ℕ} (addrs : Fin (NDIRECT + 1) → UInt32) (blk : Block)
    (js : List (Fin (NDIRECT + 1))) (hnodup : js.Nodup) (j : Fin (NDIRECT + 1)) :
    getLE (putAddrs o addrs blk js) (o + 12 + 4 * j.val) 4 =
      if j ∈ js then (addrs j).toNat else getLE blk (o + 12 + 4 * j.val) 4 := by
  induction js generalizing blk with
  | nil => rfl
  | cons i js ih =>
    rw [List.nodup_cons] at hnodup
    have hrec := ih (setLE blk (o + 12 + 4 * i.val) 4 (addrs i).toNat) hnodup.2
    change getLE (putAddrs o addrs (setLE blk (o + 12 + 4 * i.val) 4 (addrs i).toNat) js) _ _ = _
    rw [hrec]
    by_cases hji : j = i
    · subst hji
      have hlt : (addrs j).toNat < 256 ^ 4 := (addrs j).toNat_lt
      rw [if_neg hnodup.1, if_pos List.mem_cons_self, getLE_setLE blk hlt]
    · have hval : j.val ≠ i.val := fun he => hji (Fin.ext he)
      rw [getLE_setLE_disjoint blk (by omega)]
      simp [hji]

/-- **An inode reads back what `iupdate` stored.** -/
theorem readDinode_putDinode (blk : Block) (k : ℕ) (d : Dinode) : readDinode (putDinode blk k d) k = d := by
  have h₁ : d.type.toNat < 256 ^ 2 := d.type.toNat_lt
  have h₂ : d.major.toNat < 256 ^ 2 := d.major.toNat_lt
  have h₃ : d.minor.toNat < 256 ^ 2 := d.minor.toNat_lt
  have h₄ : d.nlink.toNat < 256 ^ 2 := d.nlink.toNat_lt
  have h₅ : d.size.toNat < 256 ^ 4 := d.size.toNat_lt
  unfold readDinode putDinode
  simp only
  obtain ⟨type, major, minor, nlink, size, addrs⟩ := d
  congr 1
  · rw [getLE_putAddrs _ _ _ (by omega), getLE_setLE_disjoint _ (by omega),
      getLE_setLE_disjoint _ (by omega), getLE_setLE_disjoint _ (by omega),
      getLE_setLE_disjoint _ (by omega), getLE_setLE _ h₁, UInt16.ofNat_toNat]
  · rw [getLE_putAddrs _ _ _ (by omega), getLE_setLE_disjoint _ (by omega),
      getLE_setLE_disjoint _ (by omega), getLE_setLE_disjoint _ (by omega), getLE_setLE _ h₂,
      UInt16.ofNat_toNat]
  · rw [getLE_putAddrs _ _ _ (by omega), getLE_setLE_disjoint _ (by omega),
      getLE_setLE_disjoint _ (by omega), getLE_setLE _ h₃, UInt16.ofNat_toNat]
  · rw [getLE_putAddrs _ _ _ (by omega), getLE_setLE_disjoint _ (by omega), getLE_setLE _ h₄,
      UInt16.ofNat_toNat]
  · rw [getLE_putAddrs _ _ _ (by omega), getLE_setLE _ h₅, UInt32.ofNat_toNat]
  · funext j
    rw [getLE_putAddrs_of_mem _ _ _ (List.nodup_finRange _), if_pos (List.mem_finRange j),
      UInt32.ofNat_toNat]

theorem readDinode_congr {blk blk' : Block} {k : ℕ} (h : ∀ x, 64 * k ≤ x → x < 64 * k + 64 → blk' x = blk x) :
    readDinode blk' k = readDinode blk k := by
  have hget : ∀ off w, 64 * k ≤ off → off + w ≤ 64 * k + 64 → getLE blk' off w = getLE blk off w :=
    fun off w h₁ h₂ => getLE_congr fun x hx hx' => h x (by omega) (by omega)
  unfold readDinode
  congr 1
  · rw [hget _ _ (by omega) (by omega)]
  · rw [hget _ _ (by omega) (by omega)]
  · rw [hget _ _ (by omega) (by omega)]
  · rw [hget _ _ (by omega) (by omega)]
  · rw [hget _ _ (by omega) (by omega)]
  · funext j
    have hj : j.val < 13 := j.isLt
    rw [hget _ _ (by omega) (by omega)]

theorem putDinode_outside (blk : Block) {k x : ℕ} (d : Dinode)
    (h : x < 64 * k ∨ 64 * k + 64 ≤ x) : putDinode blk k d x = blk x := by
  unfold putDinode
  rw [putAddrs_outside _ _ _ (by omega), setLE_outside _ (by omega), setLE_outside _ (by omega),
    setLE_outside _ (by omega), setLE_outside _ (by omega), setLE_outside _ (by omega)]

theorem readDinode_putDinode_ne (blk : Block) {k k' : ℕ} (d : Dinode) (h : k' ≠ k) :
    readDinode (putDinode blk k d) k' = readDinode blk k' :=
  readDinode_congr fun x h₁ h₂ => putDinode_outside blk d (by omega)

/-- A fresh inode: everything but the type is zero. -/
def freshDinode (type : UInt16) : Dinode := ⟨type, 0, 0, 0, 0, fun _ => 0⟩

def dinode (sb : SuperBlock) (disk : Disk) (i : ℕ) : Dinode :=
  readDinode (disk (sb.iblock i)) (i % IPB)

theorem dinode_congr {sb : SuperBlock} {disk disk' : Disk} {i : ℕ}
    (h : disk' (sb.iblock i) = disk (sb.iblock i)) : dinode sb disk' i = dinode sb disk i := by
  unfold dinode
  rw [h]

theorem iblock_mod_inj {sb : SuperBlock} {i j : ℕ} (hd : sb.iblock i = sb.iblock j)
    (hm : i % IPB = j % IPB) : i = j := by
  have hdiv : i / IPB = j / IPB := by
    unfold SuperBlock.iblock at hd
    omega
  rw [← Nat.div_add_mod i IPB, ← Nat.div_add_mod j IPB, hdiv, hm]

theorem dinode_update {sb : SuperBlock} {disk : Disk} {i : ℕ} {blk : Block}
    (hother : ∀ k, k ≠ i % IPB → readDinode blk k = readDinode (disk (sb.iblock i)) k) (j : ℕ) :
    dinode sb (Function.update disk (sb.iblock i) blk) j =
      if j = i then readDinode blk (i % IPB) else dinode sb disk j := by
  unfold dinode
  by_cases hji : j = i
  · subst hji
    rw [if_pos rfl, update_self]
  · rw [if_neg hji]
    by_cases hb : sb.iblock j = sb.iblock i
    · have hne : j % IPB ≠ i % IPB := fun hm => hji (iblock_mod_inj hb hm)
      rw [hb, update_self, hother _ hne]
    · rw [update_of_ne hb]

/-! ### Block numbers of a file -/

/-- Entry `j` of an indirect block. -/
def word (blk : Block) (j : ℕ) : UInt32 := UInt32.ofNat (getLE blk (4 * j) 4)

def setWord (blk : Block) (j : ℕ) (v : UInt32) : Block := setLE blk (4 * j) 4 v.toNat

theorem word_setWord (blk : Block) (j : ℕ) (v : UInt32) (k : ℕ) :
    word (setWord blk j v) k = if k = j then v else word blk k := by
  have hv : v.toNat < 256 ^ 4 := v.toNat_lt
  unfold word setWord
  by_cases h : k = j
  · rw [if_pos h, h, getLE_setLE _ hv, UInt32.ofNat_toNat]
  · rw [if_neg h, getLE_setLE_disjoint _ (by omega)]

theorem toNat_ne_zero {a : UInt32} (h : a ≠ 0) : a.toNat ≠ 0 := fun hc => h (UInt32.toNat_inj.mp hc)

/-- A place of an inode that can hold a block number. -/
inductive Slot where
  /-- `addrs[k]`; the last of them names the indirect block. -/
  | addr (k : Fin (NDIRECT + 1))
  /-- Entry `j` of the indirect block. -/
  | entry (j : Fin NINDIRECT)
deriving DecidableEq

/-- `addrs[NDIRECT]`. -/
def Slot.indirect : Slot := .addr (Fin.last NDIRECT)

/-- The block number in a slot; 0 stands for none. -/
def slotAddr (disk : Disk) (d : Dinode) : Slot → ℕ
  | .addr k => (d.addrs k).toNat
  | .entry j =>
    if d.addrs (Fin.last NDIRECT) = 0 then 0
    else (word (disk (d.addrs (Fin.last NDIRECT)).toNat) j.val).toNat

theorem slotAddr_entry_zero {disk : Disk} {d : Dinode} {j : Fin NINDIRECT}
    (h : d.addrs (Fin.last NDIRECT) = 0) : slotAddr disk d (.entry j) = 0 := if_pos h

theorem slotAddr_entry {disk : Disk} {d : Dinode} {j : Fin NINDIRECT} (h : d.addrs (Fin.last NDIRECT) ≠ 0) :
    slotAddr disk d (.entry j) = (word (disk (d.addrs (Fin.last NDIRECT)).toNat) j.val).toNat :=
  if_neg h

instance : NeZero NINDIRECT := ⟨by decide⟩

/-- The slot of the `bn`th block of a file. -/
def fileSlot (bn : ℕ) : Slot :=
  if h : bn < NDIRECT then .addr ⟨bn, Nat.lt_succ_of_lt h⟩
  else .entry (Fin.ofNat NINDIRECT (bn - NDIRECT))

end Xv6.FsLayout
