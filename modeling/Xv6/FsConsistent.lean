import Xv6.FsDirSpec

/-!
# Consistent file systems

The invariant of the file-system calls between transactions.  Besides block ownership it says that no
file has holes, that the inode cache is write-through and holds an inode at most once, and that an inode
without links keeps its blocks only as long as somebody refers to it.

Every call of `fs.c` keeps it, and the blocks that `balloc` hands out during a call were free when the
call began.
-/

namespace Xv6.FsConsistent

open Xv6.Params Xv6.Panics Xv6.FsLayout Xv6.FsInodes Xv6.FsOwnership Xv6.FsMapping Xv6.FsContent
open Xv6.FsFiles Xv6.FsTruncate Xv6.FsIcache Xv6.FsDirs Xv6.FsDirSpec
open Xv6.LogMachine (Disk)

variable {sb : SuperBlock} {ip jp dp : Fin NINODE} {s t u : Fs}

def Held (s : Fs) (ip : Fin NINODE) : Prop := 0 < (s.icache ip).ref

def Locked (s : Fs) (ip : Fin NINODE) : Prop := Held s ip ∧ (s.icache ip).valid = true

instance (s : Fs) (ip : Fin NINODE) : Decidable (Held s ip) := inferInstanceAs (Decidable (_ < _))

instance (s : Fs) (ip : Fin NINODE) : Decidable (Locked s ip) := inferInstanceAs (Decidable (_ ∧ _))

def Allocated (sb : SuperBlock) (disk : Disk) (i : ℕ) : Prop :=
  i < sb.ninodes ∧ (dinode sb disk i).type ≠ 0

def Uses (sb : SuperBlock) (disk : Disk) (i b : ℕ) : Prop :=
  ∃ sl, slots sb disk (dinode sb disk) (i, sl) = some b

structure Consistent (sb : SuperBlock) (s : Fs) : Prop where
  own : Own sb s.disk (dinode sb s.disk)
  filled : ∀ i, Allocated sb s.disk i → Filled sb s.disk i
  nonneg : ∀ ip, 0 ≤ (s.icache ip).ref
  lt : ∀ ip, Held s ip → (s.icache ip).inum < sb.ninodes
  valid : ∀ ip, Locked s ip → dinode sb s.disk (s.icache ip).inum = (s.icache ip).d ∧
    (s.icache ip).d.type ≠ 0
  unique : ∀ ip jp, Held s ip → Held s jp → (s.icache ip).inum = (s.icache jp).inum → ip = jp
  orphan : ∀ i b, Allocated sb s.disk i → (dinode sb s.disk i).nlink = 0 → Uses sb s.disk i b →
    ∃ ip, Locked s ip ∧ (s.icache ip).inum = i

/-- The blocks handed out between `s` and `t` were free in `s` and are pairwise different. -/
def Fresh (sb : SuperBlock) (s t : Fs) : Prop :=
  ∃ bs, t.handed = bs ++ s.handed ∧ bs.Nodup ∧ ∀ b, b ∈ bs → sb.IsData b ∧ bitOf sb s.disk b = false

namespace Consistent

theorem synced (h : Consistent sb s) (hl : Locked s ip) : Synced sb ip s where
  own := h.own
  here := (h.valid ip hl).1
  lt := h.lt ip hl.1
  type := (h.valid ip hl).2

theorem allocated (h : Consistent sb s) (hl : Locked s ip) : Allocated sb s.disk (s.icache ip).inum := by
  refine ⟨h.lt ip hl.1, ?_⟩
  rw [(h.valid ip hl).1]
  exact (h.valid ip hl).2

theorem readable (h : Consistent sb s) (hl : Locked s ip) : Readable sb ip s :=
  ⟨h.synced hl, h.filled _ (h.allocated hl)⟩

end Consistent

/-! ### Changes of the cache alone -/

/-- The other files, when only the inode and the blocks of file `i` change. -/
structure OthersSame (sb : SuperBlock) (i : ℕ) (s t : Fs) : Prop where
  table : ∀ j, j < sb.ninodes → j ≠ i → dinode sb t.disk j = dinode sb s.disk j
  slots : ∀ j sl, j ≠ i → slots sb t.disk (dinode sb t.disk) (j, sl) =
    slots sb s.disk (dinode sb s.disk) (j, sl)

theorem OthersSame.filled {i j : ℕ} (h : OthersSame sb i s t) (hj : j < sb.ninodes) (hne : j ≠ i)
    (hf : Filled sb s.disk j) : Filled sb t.disk j := by
  refine ⟨?_, ?_⟩
  · rw [h.table j hj hne]
    exact hf.size
  · intro x h₁ h₂
    rw [h.table j hj hne] at h₂
    rw [h.slots j _ hne]
    exact hf.mapped x h₁ h₂

theorem OthersSame.uses {i j b : ℕ} (h : OthersSame sb i s t) (hne : j ≠ i) :
    Uses sb t.disk j b ↔ Uses sb s.disk j b := by
  unfold Uses
  simp only [h.slots j _ hne]

end Xv6.FsConsistent
