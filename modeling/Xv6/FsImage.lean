import Xv6.FsFiles

/-!
# File-system images without data blocks

`image sb ds` is a disk whose inode table holds the inodes `ds` and whose free map marks the metadata
blocks.  As long as none of the inodes names a block, block ownership holds of it.
-/

namespace Xv6.FsImage

open Xv6.Params Xv6.LittleEndian Xv6.ByteBitmap Xv6.FsLayout Xv6.FsInodes Xv6.Ownership
open Xv6.FsOwnership Xv6.FsFiles
open Xv6.LogMachine (Block Disk)

/-- Mark blocks `0` to `n`. -/
def markBelow (sb : SuperBlock) : ℕ → Disk
  | 0 => fun _ _ => 0
  | n + 1 => markUsed sb (markBelow sb n) n

def image (sb : SuperBlock) : List (ℕ × Dinode) → Disk
  | [] => markBelow sb sb.nmeta
  | (i, d) :: ds => Function.update (image sb ds) (sb.iblock i)
      (putDinode (image sb ds (sb.iblock i)) (i % IPB) d)

variable {sb : SuperBlock}

theorem bitOf_markBelow (n c : ℕ) : bitOf sb (markBelow sb n) c = decide (c < n) := by
  induction n with
  | zero =>
    have hzero : bitOf sb (fun _ _ => 0) c = false := by simp [bitOf, testBit]
    rw [markBelow, hzero]
    simp
  | succ n ih =>
    rw [markBelow, bitOf_markUsed, ih, ← Bool.decide_or]
    congr 1
    rw [eq_iff_iff]
    omega

theorem markBelow_iblock {i : ℕ} (hi : i < sb.ninodes) (n : ℕ) : markBelow sb n (sb.iblock i) = fun _ => 0 := by
  induction n with
  | zero => rfl
  | succ n ih => rw [markBelow, markUsed, Function.update_of_ne (SuperBlock.iblock_ne_bblock hi), ih]

theorem readDinode_zero (k : ℕ) : readDinode (fun _ => 0) k = freshDinode 0 := by
  unfold readDinode freshDinode
  simp only [getLE_zero]
  rfl

theorem dinode_image_nil {j : ℕ} (hj : j < sb.ninodes) : dinode sb (image sb []) j = freshDinode 0 := by
  rw [image, dinode, markBelow_iblock hj, readDinode_zero]

theorem dinode_image_cons (i : ℕ) (d : Dinode) (ds : List (ℕ × Dinode)) (j : ℕ) :
    dinode sb (image sb ((i, d) :: ds)) j = if j = i then d else dinode sb (image sb ds) j := by
  have hput : dinode sb (image sb ((i, d) :: ds)) j = _ :=
    dinode_update (fun k hk => readDinode_putDinode_ne _ d hk) j
  rwa [readDinode_putDinode] at hput

theorem bitOf_image (ds : List (ℕ × Dinode)) (h : ∀ p, p ∈ ds → p.1 < sb.ninodes) (c : ℕ) :
    bitOf sb (image sb ds) c = decide (c < sb.nmeta) := by
  induction ds with
  | nil => exact bitOf_markBelow _ _
  | cons p ds ih =>
    rw [← ih fun q hq => h q (List.mem_cons_of_mem _ hq)]
    exact bitOf_iblock (h p List.mem_cons_self) _ c

theorem addrs_image (ds : List (ℕ × Dinode)) (h : ∀ p, p ∈ ds → ∀ k, p.2.addrs k = 0) {j : ℕ}
    (hj : j < sb.ninodes) (k : Fin (NDIRECT + 1)) : (dinode sb (image sb ds) j).addrs k = 0 := by
  induction ds with
  | nil =>
    rw [dinode_image_nil hj]
    rfl
  | cons p ds ih =>
    rw [dinode_image_cons]
    by_cases hjp : j = p.1
    · rw [if_pos hjp]
      exact h p List.mem_cons_self k
    · rw [if_neg hjp]
      exact ih fun q hq => h q (List.mem_cons_of_mem _ hq)

/-- **Block ownership of an image.** -/
theorem own_image (ds : List (ℕ × Dinode)) (hlt : ∀ p, p ∈ ds → p.1 < sb.ninodes)
    (haddrs : ∀ p, p ∈ ds → ∀ k, p.2.addrs k = 0) : Own sb (image sb ds) (dinode sb (image sb ds)) := by
  have hslots : ∀ o, slots sb (image sb ds) (dinode sb (image sb ds)) o = none := by
    intro o
    by_cases hj : o.1 < sb.ninodes
    · have hzero : slotAddr (image sb ds) (dinode sb (image sb ds) o.1) o.2 = 0 := by
        cases o.2 with
        | addr k =>
          change (((dinode sb (image sb ds) o.1).addrs k).toNat) = 0
          rw [addrs_image ds haddrs hj]
          rfl
        | entry j => exact slotAddr_entry_zero (addrs_image ds haddrs hj _)
      unfold slots
      rw [if_neg fun hc => hc.2.2 hzero]
    · unfold slots
      rw [if_neg fun hc => hj hc.1]
  refine ⟨⟨?_, ?_⟩, ?_⟩
  · intro o o' b ho
    rw [hslots o] at ho
    cases ho
  · intro b
    constructor
    · rintro ⟨hdata, hbit⟩
      rw [bitOf_image ds hlt, decide_eq_true_eq] at hbit
      exact absurd hdata.1 (by omega)
    · rintro ⟨o, ho⟩
      rw [hslots o] at ho
      cases ho
  · intro b hb
    rw [bitOf_image ds hlt, decide_eq_true_eq]
    exact hb

end Xv6.FsImage
