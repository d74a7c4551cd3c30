import Xv6.FsInodes
import Xv6.Ownership

/-!
# Block ownership

Every allocated inode has slots for block numbers: its `addrs[]` and the entries of its indirect
block.  `slots` maps a slot to the block it names, and `Own` says that no block is named twice and
that the free map marks exactly the blocks that are named, besides the metadata.

The inodes are a parameter `D` of these notions: while a call works on an inode, the copy in memory
is ahead of the disk, and `D` takes that inode from memory.
-/

namespace Xv6.FsOwnership

open Xv6.Params Xv6.LittleEndian Xv6.ByteBitmap Xv6.Panics Xv6.FsLayout Xv6.FsInodes Xv6.Ownership
open Xv6.LogMachine (Block Disk)

variable {sb : SuperBlock} {disk disk' : Disk} {D D' : ℕ → Dinode}

/-! ### The scan for a free block -/

theorem bblock_add {b bi : ℕ} (hb : BPB ∣ b) (hbi : bi < BPB) : sb.bblock (b + bi) = sb.bblock b := by
  obtain ⟨q, rfl⟩ := hb
  unfold SuperBlock.bblock
  rw [Nat.mul_add_div (by decide), Nat.div_eq_of_lt hbi, Nat.mul_div_cancel_left _ (by decide),
    Nat.add_zero]

theorem bitOf_add {b bi : ℕ} (hb : BPB ∣ b) (hbi : bi < BPB) :
    bitOf sb disk (b + bi) = testBit (disk (sb.bblock b)) bi := by
  have hmod : (b + bi) % BPB = bi := by
    obtain ⟨q, rfl⟩ := hb
    rw [Nat.mul_add_mod, Nat.mod_eq_of_lt hbi]
  rw [bitOf, bblock_add hb hbi, hmod]

theorem scanBits_some {b c : ℕ} (hb : BPB ∣ b) {fuel bi : ℕ} (hf : bi + fuel = BPB)
    (h : scanBits sb (disk (sb.bblock b)) b fuel bi = some c) : c < sb.size ∧ bitOf sb disk c = false := by
  induction fuel generalizing bi with
  | zero => cases h
  | succ fuel ih =>
    unfold scanBits at h
    by_cases hlt : b + bi < sb.size
    · rw [if_pos hlt] at h
      by_cases ht : testBit (disk (sb.bblock b)) bi = true
      · rw [if_pos ht] at h
        exact ih (by omega) h
      · rw [if_neg ht, Option.some.injEq] at h
        subst h
        rw [bitOf_add hb (by omega)]
        exact ⟨hlt, Bool.eq_false_iff.mpr ht⟩
    · rw [if_neg hlt] at h
      cases h

theorem scanBits_none {b : ℕ} (hb : BPB ∣ b) {fuel bi : ℕ} (hf : bi + fuel = BPB)
    (h : scanBits sb (disk (sb.bblock b)) b fuel bi = none) :
    ∀ x, bi ≤ x → x < BPB → b + x < sb.size → bitOf sb disk (b + x) = true := by
  induction fuel generalizing bi with
  | zero =>
    intro x h₁ h₂
    omega
  | succ fuel ih =>
    intro x h₁ h₂ h₃
    unfold scanBits at h
    rw [if_pos (by omega)] at h
    by_cases ht : testBit (disk (sb.bblock b)) bi = true
    · rw [if_pos ht] at h
      rcases Nat.eq_or_lt_of_le h₁ with rfl | hlt
      · rw [bitOf_add hb h₂]
        exact ht
      · exact ih (by omega) h x hlt h₂ h₃
    · rw [if_neg ht] at h
      cases h

theorem scanMap_some {fuel b c : ℕ} (hb : BPB ∣ b) (h : scanMap sb disk fuel b = some c) :
    c < sb.size ∧ bitOf sb disk c = false := by
  induction fuel generalizing b with
  | zero => cases h
  | succ fuel ih =>
    unfold scanMap at h
    by_cases hlt : b < sb.size
    · rw [if_pos hlt] at h
      cases hs : scanBits sb (disk (sb.bblock b)) b BPB 0 with
      | some x =>
        rw [hs] at h
        cases h
        exact scanBits_some hb (Nat.zero_add _) hs
      | none =>
        rw [hs] at h
        exact ih (hb.add (dvd_refl _)) h
    · rw [if_neg hlt] at h
      cases h

theorem scanMap_none {fuel b : ℕ} (hb : BPB ∣ b) (hf : sb.size ≤ b + fuel * BPB)
    (h : scanMap sb disk fuel b = none) : ∀ c, b ≤ c → c < sb.size → bitOf sb disk c = true := by
  induction fuel generalizing b with
  | zero =>
    intro c h₁ h₂
    omega
  | succ fuel ih =>
    intro c h₁ h₂
    unfold scanMap at h
    rw [if_pos (by omega)] at h
    cases hs : scanBits sb (disk (sb.bblock b)) b BPB 0 with
    | some x =>
      rw [hs] at h
      cases h
    | none =>
      rw [hs] at h
      rw [Nat.succ_mul] at hf
      by_cases hc : c < b + BPB
      · have hbit := scanBits_none hb (Nat.zero_add _) hs (c - b) (Nat.zero_le _) (by omega)
          (by omega)
        rwa [Nat.add_sub_cancel' h₁] at hbit
      · exact ih (hb.add (dvd_refl _)) (by omega) h c (by omega) h₂

theorem findFree_some {b : ℕ} (h : findFree sb disk = some b) : b < sb.size ∧ bitOf sb disk b = false :=
  scanMap_some (dvd_zero _) h

theorem findFree_none (h : findFree sb disk = none) : ∀ b, b < sb.size → bitOf sb disk b = true := by
  have hf : sb.size ≤ 0 + (sb.size / BPB + 1) * BPB := by
    have hdiv := Nat.div_add_mod sb.size BPB
    have hmod := Nat.mod_lt sb.size (show 0 < BPB by decide)
    rw [Nat.zero_add, Nat.succ_mul, Nat.mul_comm]
    omega
  exact fun b hb => scanMap_none (dvd_zero _) hf h b (Nat.zero_le _) hb

/-! ### The disk after `balloc` -/

/-- The disk once `balloc` has marked block `b` and zeroed it. -/
def allocDisk (sb : SuperBlock) (disk : Disk) (b : ℕ) : Disk :=
  Function.update (markUsed sb disk b) b (setBytes (markUsed sb disk b b) 0 BSIZE fun _ => 0)

theorem allocDisk_bit {b c : ℕ} (hb : sb.IsData b) (hc : c < sb.size) :
    bitOf sb (allocDisk sb disk b) c = (bitOf sb disk c || decide (c = b)) := by
  rw [allocDisk, bitOf_congr (Function.update_of_ne (SuperBlock.bblock_ne_data hc hb) _ _),
    bitOf_markUsed]

theorem allocDisk_zero {b x : ℕ} (hx : x < BSIZE) : allocDisk sb disk b b x = 0 := by
  have hin : setBytes (markUsed sb disk b b) 0 BSIZE (fun _ => 0) (0 + x) = 0 :=
    setBytes_inside _ _ hx
  rw [Nat.zero_add] at hin
  rw [allocDisk, Function.update_self]
  exact hin

theorem allocDisk_data {b c : ℕ} (hb : b < sb.size) (hc : sb.IsData c) (hne : c ≠ b) :
    allocDisk sb disk b c = disk c := by
  rw [allocDisk, Function.update_of_ne hne, markUsed,
    Function.update_of_ne (SuperBlock.bblock_ne_data hb hc).symm]

theorem allocDisk_iblock {b i : ℕ} (hb : sb.IsData b) (hi : i < sb.ninodes) :
    allocDisk sb disk b (sb.iblock i) = disk (sb.iblock i) := by
  rw [allocDisk, Function.update_of_ne (SuperBlock.iblock_ne_data hi hb), markUsed,
    Function.update_of_ne (SuperBlock.iblock_ne_bblock hi)]

/-! ### Ownership -/

/-- The block a slot of an allocated inode names. -/
def slots (sb : SuperBlock) (disk : Disk) (D : ℕ → Dinode) (o : ℕ × Slot) : Option ℕ :=
  if o.1 < sb.ninodes ∧ (D o.1).type ≠ 0 ∧ slotAddr disk (D o.1) o.2 ≠ 0 then
    some (slotAddr disk (D o.1) o.2)
  else none

/-- A data block that the free map has as in use. -/
def Marked (sb : SuperBlock) (disk : Disk) (b : ℕ) : Prop := sb.IsData b ∧ bitOf sb disk b = true

/-- **Block ownership.**  Every used block is used exactly once, a data block is marked iff it is
used, and the metadata blocks are marked. -/
structure Own (sb : SuperBlock) (disk : Disk) (D : ℕ → Dinode) : Prop where
  owns : Owns (slots sb disk D) (Marked sb disk)
  reserved : ∀ b, b < sb.nmeta → bitOf sb disk b = true

theorem slots_eq_some {o : ℕ × Slot} {b : ℕ} : slots sb disk D o = some b ↔
    o.1 < sb.ninodes ∧ (D o.1).type ≠ 0 ∧ b ≠ 0 ∧ slotAddr disk (D o.1) o.2 = b := by
  unfold slots
  by_cases h : o.1 < sb.ninodes ∧ (D o.1).type ≠ 0 ∧ slotAddr disk (D o.1) o.2 ≠ 0
  · rw [if_pos h, Option.some.injEq]
    constructor
    · rintro rfl
      exact ⟨h.1, h.2.1, h.2.2, rfl⟩
    · exact fun hb => hb.2.2.2
  · rw [if_neg h]
    constructor
    · intro hc
      cases hc
    · rintro ⟨h₁, h₂, h₃, rfl⟩
      exact absurd ⟨h₁, h₂, h₃⟩ h

theorem slots_eq {i : ℕ} {s : Slot} (hi : i < sb.ninodes) (ht : (D i).type ≠ 0) : slots sb disk D (i, s) =
      if slotAddr disk (D i) s = 0 then none else some (slotAddr disk (D i) s) := by
  unfold slots
  by_cases h : slotAddr disk (D i) s = 0
  · rw [if_pos h, if_neg fun hc => hc.2.2 h]
  · rw [if_neg h, if_pos ⟨hi, ht, h⟩]

theorem slots_congr {o : ℕ × Slot} (ht : (D' o.1).type = (D o.1).type) (ha : o.1 < sb.ninodes → (D o.1).type ≠ 0 →
      slotAddr disk' (D' o.1) o.2 = slotAddr disk (D o.1) o.2) : slots sb disk' D' o = slots sb disk D o := by
  unfold slots
  by_cases hi : o.1 < sb.ninodes
  · by_cases hz : (D o.1).type = 0
    · rw [if_neg fun hc => hc.2.1 (ht.trans hz), if_neg fun hc => hc.2.1 hz]
    · rw [ha hi hz, ht]
  · rw [if_neg fun hc => hi hc.1, if_neg fun hc => hi hc.1]

theorem slots_indirect {i : ℕ} (hi : i < sb.ninodes) (ht : (D i).type ≠ 0) (hz : (D i).addrs (Fin.last NDIRECT) ≠ 0) :
    slots sb disk D (i, Slot.indirect) = some ((D i).addrs (Fin.last NDIRECT)).toNat := by
  rw [slots_eq_some]
  exact ⟨hi, ht, toNat_ne_zero hz, rfl⟩

theorem slotAddr_congr {d : Dinode} {s : Slot} (h : d.addrs (Fin.last NDIRECT) ≠ 0 →
    ∀ j, j < NINDIRECT → word (disk' (d.addrs (Fin.last NDIRECT)).toNat) j =
      word (disk (d.addrs (Fin.last NDIRECT)).toNat) j) : slotAddr disk' d s = slotAddr disk d s := by
  cases s with
  | addr k => rfl
  | entry j =>
    by_cases hz : d.addrs (Fin.last NDIRECT) = 0
    · rw [slotAddr_entry_zero hz, slotAddr_entry_zero hz]
    · rw [slotAddr_entry hz, slotAddr_entry hz, h hz j.val j.isLt]

namespace Own

variable (h : Own sb disk D)
include h

theorem isData {o : ℕ × Slot} {b : ℕ} (ho : slots sb disk D o = some b) : sb.IsData b :=
  (h.owns.busy_of_some ho).1

theorem bit {o : ℕ × Slot} {b : ℕ} (ho : slots sb disk D o = some b) : bitOf sb disk b = true :=
  (h.owns.busy_of_some ho).2

theorem ne_of_free {o : ℕ × Slot} {b c : ℕ} (ho : slots sb disk D o = some c)
    (hfree : bitOf sb disk b = false) : c ≠ b := by
  rintro rfl
  rw [h.bit ho] at hfree
  cases hfree

end Own

theorem own_congr (h : Own sb disk D) (hs : slots sb disk' D' = slots sb disk D)
    (hb : ∀ c, c < sb.size → bitOf sb disk' c = bitOf sb disk c) : Own sb disk' D' where
  owns := by
    refine owns_congr h.owns (fun o => by rw [hs]) fun c => ?_
    unfold Marked
    constructor
    · rintro ⟨h₁, h₂⟩
      exact ⟨h₁, by rwa [hb c h₁.2] at h₂⟩
    · rintro ⟨h₁, h₂⟩
      exact ⟨h₁, by rwa [hb c h₁.2]⟩
  reserved := by
    intro c hc
    rw [hb c (hc.trans_le SuperBlock.nmeta_le), h.reserved c hc]

end Xv6.FsOwnership
