import Xv6.FsTruncate

/-!
# The inode cache

Specifications of `iget`, `ialloc`, `ilock` and `iput`: what each does to the cache and to the inodes
on disk.
-/

namespace Xv6.FsIcache

open Xv6.Params Xv6.Panics Xv6.FsLayout Xv6.FsInodes Xv6.Ownership Xv6.FsOwnership Xv6.FsMapping
open Xv6.FsFiles Xv6.FsTruncate
open Xv6.LogMachine (Block Disk)
open Function (update_self update_of_ne update_idem update_apply)

variable {sb : SuperBlock} {ip : Fin NINODE} {s t : Fs}

/-! ### `iget` -/

/-- `iget` has found the entry of inode `i`, or there was none and it has taken an empty one. -/
def Got (s : Fs) (i : ℕ) (ip : Fin NINODE) (t : Fs) : Prop :=
  (0 < (s.icache ip).ref ∧ (s.icache ip).inum = i ∧
    t = s.setInode ip { s.icache ip with ref := (s.icache ip).ref + 1 }) ∨
  ((∀ jp, 0 < (s.icache jp).ref → (s.icache jp).inum ≠ i) ∧ (s.icache ip).ref = 0 ∧
    t = s.setInode ip { s.icache ip with inum := i, ref := 1, valid := false })

/-- Every entry is in use, and none for inode `i`. -/
def CacheFull (s : Fs) (i : ℕ) : Prop :=
  (∀ jp, (s.icache jp).ref ≠ 0) ∧ ∀ jp, 0 < (s.icache jp).ref → (s.icache jp).inum ≠ i

theorem iget_spec (i : ℕ) :
    Wp (iget i) s (fun ip t => Got s i ip t) (fun e => e = .igetNoInodes ∧ CacheFull s i) := by
  unfold iget
  apply wp_bind
  apply wp_gets
  cases hfind : (List.finRange NINODE).find? fun ip =>
      decide (0 < (s.icache ip).ref) && decide ((s.icache ip).inum = i) with
  | some ip =>
    have hp := List.find?_some hfind
    simp only [Bool.and_eq_true, decide_eq_true_eq] at hp
    exact wp_bind (wp_update (wp_pure (Or.inl ⟨hp.1, hp.2, rfl⟩)))
  | none =>
    have hnone : ∀ jp, 0 < (s.icache jp).ref → (s.icache jp).inum ≠ i := by
      intro jp href hi
      have hp := List.find?_eq_none.mp hfind jp (List.mem_finRange jp)
      simp [href, hi] at hp
    cases hfind' : (List.finRange NINODE).find? fun ip => decide ((s.icache ip).ref = 0) with
    | none =>
      refine wp_panic ⟨rfl, fun jp hz => ?_, hnone⟩
      have hp := List.find?_eq_none.mp hfind' jp (List.mem_finRange jp)
      simp [hz] at hp
    | some ip =>
      have hp := List.find?_some hfind'
      simp only [decide_eq_true_eq] at hp
      exact wp_bind (wp_update (wp_pure (Or.inr ⟨hnone, hp, rfl⟩)))

theorem Got.disk {i : ℕ} (h : Got s i ip t) : t.disk = s.disk := by
  rcases h with ⟨-, -, rfl⟩ | ⟨-, -, rfl⟩ <;> rfl

theorem Got.handed {i : ℕ} (h : Got s i ip t) : t.handed = s.handed := by
  rcases h with ⟨-, -, rfl⟩ | ⟨-, -, rfl⟩ <;> rfl

theorem Got.inum {i : ℕ} (h : Got s i ip t) : (t.icache ip).inum = i := by
  rcases h with ⟨-, hi, rfl⟩ | ⟨-, -, rfl⟩
  · rw [Fs.setInode_self]
    exact hi
  · rw [Fs.setInode_self]

/-! ### `ialloc` -/

/-- The disk after `ialloc` has taken inode `i`. -/
def claimed (sb : SuperBlock) (s : Fs) (i : ℕ) (type : UInt16) : Fs :=
  s.put (sb.iblock i) (clearDinode (s.disk (sb.iblock i)) (i % IPB) type)

theorem ialloc_spec (type : UInt16) :
    Wp (ialloc sb type) s (fun ip t => ∃ i, 0 < i ∧ i < sb.ninodes ∧ (dinode sb s.disk i).type = 0 ∧
      Got (claimed sb s i type) i ip t) (fun e => e = .iallocNoInodes ∨ e = .igetNoInodes) := by
  unfold ialloc
  apply wp_bind
  apply wp_gets
  cases hfind : (List.range' 1 (sb.ninodes - 1)).find? fun i =>
      decide ((dinode sb s.disk i).type = 0) with
  | none => exact wp_panic (Or.inl rfl)
  | some i =>
    have hp := List.find?_some hfind
    have hmem := List.mem_range'_1.mp (List.mem_of_find?_eq_some hfind)
    simp only [decide_eq_true_eq] at hp
    refine wp_bind (wp_update (wp_mono (iget_spec i) ?_ fun e he => Or.inr he.1))
    exact fun ip t hgot => ⟨i, by omega, by omega, hp, hgot⟩

theorem ilock_spec (sb : SuperBlock) (ip : Fin NINODE) (s : Fs) :
    Wp (ilock sb ip) s
      (fun _ t => 1 ≤ (s.icache ip).ref ∧ (((s.icache ip).valid = true ∧ t = s) ∨
        ((s.icache ip).valid = false ∧ (dinode sb s.disk (s.icache ip).inum).type ≠ 0 ∧
          t = s.setInode ip { s.icache ip with
            d := dinode sb s.disk (s.icache ip).inum, valid := true })))
      (fun e => (e = .ilock ∧ (s.icache ip).ref < 1) ∨ (e = .ilockNoType ∧
        (s.icache ip).valid = false ∧ (dinode sb s.disk (s.icache ip).inum).type = 0)) := by
  unfold ilock
  apply wp_bind
  apply wp_gets
  by_cases href : (s.icache ip).ref < 1
  · rw [if_pos href]
    exact wp_panic (Or.inl ⟨rfl, href⟩)
  · rw [if_neg href]
    have hge : 1 ≤ (s.icache ip).ref := by omega
    cases hv : (s.icache ip).valid with
    | true => exact wp_pure ⟨hge, Or.inl ⟨rfl, rfl⟩⟩
    | false =>
      refine wp_bind (wp_gets (wp_bind (wp_update (wp_onlyIf ?_ ?_))))
      · exact fun hz => wp_panic (Or.inr ⟨rfl, rfl, hz⟩)
      · exact fun hne => ⟨hge, Or.inr ⟨rfl, hne, rfl⟩⟩

/-! ### `iput` -/

/-- The inode that `iput` leaves on disk when it frees it. -/
def freed (d : Dinode) : Dinode := { truncated d with type := 0 }

structure Freed (sb : SuperBlock) (ip : Fin NINODE) (s t : Fs) : Prop where
  icache : t.icache = Function.update s.icache ip
    { s.icache ip with ref := (s.icache ip).ref - 1, valid := false, d := freed (s.icache ip).d }
  handed : t.handed = s.handed
  table : ∀ j, j < sb.ninodes → dinode sb t.disk j =
    if j = (s.icache ip).inum then freed (s.icache ip).d else dinode sb s.disk j
  own : Own sb t.disk (dinode sb t.disk)
  slots : slots sb t.disk (dinode sb t.disk) =
    without (slots sb s.disk (dinode sb s.disk)) (s.icache ip).inum fun _ => True
  data : ∀ c, sb.IsData c → t.disk c = s.disk c

end Xv6.FsIcache
