import Xv6.FsFiles

/-!
# `itrunc`

`itrunc` frees the blocks one by one.  While it walks over the indirect block it leaves the entries
there, so in between the slots still name blocks that are free already.  The invariant of its loops is
therefore about an ownership map of its own (`Holds`), from which freed slots are taken out; only when
the indirect block is gone the slots of the inode are this map again.

`bfree` finds the bit of every block set, so the panic "freeing free block" is not reached.
-/

namespace Xv6.FsTruncate

open Xv6.Params Xv6.Panics Xv6.FsLayout Xv6.FsInodes Xv6.Ownership Xv6.FsOwnership Xv6.FsMapping
open Xv6.FsBmap Xv6.FsFiles
open Xv6.LogMachine (Block Disk)
open Function (update_self update_of_ne update_eq_self update_idem)

variable {sb : SuperBlock} {disk disk' disk'' : Disk} {D : ℕ → Dinode} {ip : Fin NINODE} {s t : Fs}
  {A : ℕ × Slot → Option ℕ} {i : ℕ}

/-! ### Freeing one block -/

/-- The free map marks the metadata and exactly the blocks of `A`, each held once. -/
structure Holds (sb : SuperBlock) (A : ℕ × Slot → Option ℕ) (disk : Disk) : Prop where
  owns : Owns A (Marked sb disk)
  reserved : ∀ b, b < sb.nmeta → bitOf sb disk b = true

/-- Nothing but the free map differs. -/
structure OnlyMap (sb : SuperBlock) (disk disk' : Disk) : Prop where
  data : ∀ c, sb.IsData c → disk' c = disk c
  inodes : ∀ j, j < sb.ninodes → disk' (sb.iblock j) = disk (sb.iblock j)

theorem OnlyMap.refl (sb : SuperBlock) (disk : Disk) : OnlyMap sb disk disk :=
  ⟨fun _ _ => rfl, fun _ _ => rfl⟩

theorem OnlyMap.trans (h : OnlyMap sb disk disk') (h' : OnlyMap sb disk' disk'') : OnlyMap sb disk disk'' :=
  ⟨fun c hc => (h'.data c hc).trans (h.data c hc),
    fun j hj => (h'.inodes j hj).trans (h.inodes j hj)⟩

/-- `A` without the slots of file `i` that satisfy `p`. -/
def without (A : ℕ × Slot → Option ℕ) (i : ℕ) (p : Slot → Prop) [DecidablePred p] (o : ℕ × Slot) :
    Option ℕ :=
  if o.1 = i ∧ p o.2 then none else A o

theorem Own.holds (h : Own sb disk D) : Holds sb (slots sb disk D) disk := ⟨h.owns, h.reserved⟩

/-- What a part of `itrunc` leaves behind: the inode in memory is `d`, and besides it only the free map
has changed. -/
structure Trimmed (sb : SuperBlock) (ip : Fin NINODE) (s : Fs) (d : Dinode) (t : Fs) : Prop where
  icache : t.icache = Function.update s.icache ip { s.icache ip with d := d }
  handed : t.handed = s.handed
  only : OnlyMap sb s.disk t.disk

theorem Trimmed.entry {d : Dinode} (h : Trimmed sb ip s d t) :
    t.icache ip = { s.icache ip with d := d } := by
  rw [h.icache, update_self]

theorem Trimmed.trans {d d' : Dinode} {u : Fs} (h : Trimmed sb ip s d t) (h' : Trimmed sb ip t d' u) :
    Trimmed sb ip s d' u := by
  refine ⟨?_, h'.handed.trans h.handed, h.only.trans h'.only⟩
  rw [h'.icache, h.entry, h.icache, update_idem]

def truncated (d : Dinode) : Dinode := { d with size := 0, addrs := fun _ => 0 }

end Xv6.FsTruncate
