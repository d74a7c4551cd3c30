import Mathlib.Data.List.TakeWhile
import Xv6.FsDirMap
import Xv6.FsRuns

/-!
# Path names (`kernel/fs.c`, `namex`)

`namex` walks along a path from the root or from the current directory, with a reference to one inode at a time
and to two while it goes on.

`components` are the elements of a path, as directories keep them.  `resolve` looks them up in turn in the maps
that the directories represent.  `namex` returns the inode that `resolve` gives, `nameiparent` the one for all but
the last, and the counts of references change by one for the inode they return.  The one panic left is the one for
want of an entry in the inode cache; it needs two.
-/

namespace Xv6.FsPaths

open Xv6.Params Xv6.LittleEndian Xv6.Panics Xv6.FsLayout Xv6.FsInodes Xv6.FsOwnership Xv6.FsContent Xv6.FsFiles
open Xv6.FsDirs Xv6.FsIcache Xv6.FsDirSpec Xv6.FsConsistent Xv6.FsNames Xv6.FsDirMap Xv6.FsImage
open Xv6.FsByteArrays
open Xv6.LogMachine (Disk)

def ROOTINO : ℕ := 1

section
variable (sb : SuperBlock) (nameiparent : Bool)

end

/-! ### The elements of a path -/

/-- The maximal substrings without a slash that are not empty. -/
def elems (path : List UInt8) : List (List UInt8) := (path.splitOnP (· == slash)).filter (· ≠ [])

variable {sb : SuperBlock} {s t u : Fs} {ip jp : Fin NINODE} {i j : ℕ} {M : ℕ → List UInt8 → Option UInt16}

/-- What a cache entry adds to the count of inode `i`. -/
def share (i : ℕ) (x : Inode) : ℤ := if x.inum = i then x.ref else 0

def refs (s : Fs) (i : ℕ) : ℤ := ∑ ip, share i (s.icache ip)

theorem refs_of_held (h : Consistent sb s) (hh : Held s ip) : refs s (s.icache ip).inum = (s.icache ip).ref := by
  rw [refs, Finset.sum_eq_single ip]
  · rw [share, if_pos rfl]
  · intro jp _ hj
    unfold share
    split
    · rename_i hinum
      have hzero : ¬ Held s jp := fun hjp => hj (h.unique jp ip hjp hh hinum)
      have hnonneg := h.nonneg jp
      unfold Held at hzero
      omega
    · rfl
  · exact fun hno => absurd (Finset.mem_univ ip) hno

/-- The inodes in the cache. -/
def held (s : Fs) : Finset ℕ := (Finset.univ.filter fun ip => Held s ip).image fun ip => (s.icache ip).inum

/-- The entries of the cache that are in use. -/
def used (s : Fs) : ℕ := (Finset.univ.filter fun ip => Held s ip).card

/-- Inode `i` exists, and goes on to exist while `namex` lets go of it: it has links, or it is in use. -/
def Kept (sb : SuperBlock) (s : Fs) (i : ℕ) : Prop :=
  Allocated sb s.disk i ∧ ((dinode sb s.disk i).nlink ≠ 0 ∨ 0 < refs s i)

def look (sb : SuperBlock) (disk : Disk) (M : ℕ → List UInt8 → Option UInt16) (i : ℕ) (k : List UInt8) : Option ℕ :=
  if (dinode sb disk i).type = T_DIR then (M i k).map UInt16.toNat else none

/-- The components looked up in turn, from inode `i` on. -/
def resolve (sb : SuperBlock) (disk : Disk) (M : ℕ → List UInt8 → Option UInt16) (i : ℕ)
    (cs : List (List UInt8)) : Option ℕ :=
  cs.foldlM (look sb disk M) i

/-- The directory that all but the last component lead to. -/
def resolveParent (sb : SuperBlock) (disk : Disk) (M : ℕ → List UInt8 → Option UInt16) (i : ℕ)
    (cs : List (List UInt8)) : Option ℕ :=
  if cs = [] then none
  else (resolve sb disk M i cs.dropLast).filter fun p => decide ((dinode sb disk p).type = T_DIR)

variable {disk : Disk} {k : List UInt8} {cs : List (List UInt8)}

/-- The walk has come to entry `ip`: one reference more than in `s`. -/
structure At (sb : SuperBlock) (s t : Fs) (ip : Fin NINODE) : Prop where
  consistent : Consistent sb t
  disk : t.disk = s.disk
  held : Held t ip
  refs : ∀ j, refs t j = refs s j + if j = (t.icache ip).inum then 1 else 0
  kept : Kept sb s (t.icache ip).inum

theorem At.ref (h : At sb s t ip) : (t.icache ip).ref = FsPaths.refs s (t.icache ip).inum + 1 := by
  rw [← refs_of_held h.consistent h.held, h.refs, if_pos rfl]

def target (sb : SuperBlock) (disk : Disk) (M : ℕ → List UInt8 → Option UInt16) (nameiparent : Bool) (i : ℕ)
    (cs : List (List UInt8)) : Option ℕ :=
  if nameiparent then resolveParent sb disk M i cs else resolve sb disk M i cs

def start (s : Fs) (cwd : Fin NINODE) (path : List UInt8) : ℕ :=
  if path.head? = some slash then ROOTINO else (s.icache cwd).inum

end Xv6.FsPaths
