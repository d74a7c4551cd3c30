import Xv6.LabelledRuns
import Xv6.FsByteArrays
import Xv6.FsConsistent

/-!
# Runs of file-system calls

The calls of `fs.c` in any order, by callers that keep their side of the contract: an inode is used
only by somebody who holds a reference to it, and its contents only after `ilock`.  A run ends where a
call panics.

From a disk without holes, with block ownership and with nobody using it, every run keeps block
ownership.
-/

namespace Xv6.FsRuns

open Xv6.Params Xv6.LabelledRuns Xv6.Panics Xv6.FsLayout Xv6.FsInodes Xv6.FsOwnership Xv6.FsContent
open Xv6.FsFiles Xv6.FsTruncate Xv6.FsDirs Xv6.FsIcache Xv6.FsDirSpec Xv6.FsConsistent Xv6.FsImage
open Xv6.FsByteArrays

inductive Op where
  | iget (inum : ℕ)
  | idup (ip : Fin NINODE)
  | ilock (ip : Fin NINODE)
  | readi (ip : Fin NINODE) (avail : ℕ) (off n : UInt32)
  | writei (ip : Fin NINODE) (src : ℕ → UInt8) (avail : ℕ) (off n : UInt32)
  | itrunc (ip : Fin NINODE)
  /-- `ip->major = major; ip->minor = minor; ip->nlink = nlink; iupdate(ip);` of `sysfile.c`. -/
  | restate (ip : Fin NINODE) (major minor nlink : UInt16)
  | iput (ip : Fin NINODE)
  | ialloc (type : UInt16)
  | dirlink (dp : Fin NINODE) (name : Name) (inum : UInt16)

/-- `ip` with other numbers. -/
def restated (d : Dinode) (major minor nlink : UInt16) : Dinode :=
  { d with major := major, minor := minor, nlink := nlink }

def call (sb : SuperBlock) : Op → Call Unit
  | .iget inum => do
    let _ ← FsInodes.iget inum
    return ()
  | .idup ip => FsInodes.idup ip
  | .ilock ip => FsInodes.ilock sb ip
  | .readi ip avail off n => do
    let _ ← FsInodes.readi sb ip avail off n
    return ()
  | .writei ip src avail off n => do
    let _ ← FsInodes.writei sb ip src avail off n
    return ()
  | .itrunc ip => FsInodes.itrunc sb ip
  | .restate ip major minor nlink => do
    update fun s => s.setD ip (restated (s.icache ip).d major minor nlink)
    iupdate sb ip
  | .iput ip => FsInodes.iput sb ip
  | .ialloc type => do
    let _ ← FsInodes.ialloc sb type
    return ()
  | .dirlink dp name inum => do
    let _ ← FsDirs.dirlink sb dp name inum
    return ()

def Enabled (sb : SuperBlock) (s : Fs) : Op → Prop
  | .iget inum => inum < sb.ninodes
  | .idup ip => Held s ip
  | .ilock ip => Held s ip
  | .readi ip _ _ _ => Locked s ip
  | .writei ip _ _ _ _ => Locked s ip
  | .itrunc ip => Locked s ip
  | .restate ip _ _ _ => Locked s ip
  | .iput ip => Held s ip
  | .ialloc type => type ≠ 0
  | .dirlink dp _ _ => Locked s dp

instance (sb : SuperBlock) (s : Fs) : (op : Op) → Decidable (Enabled sb s op)
  | .iget inum => inferInstanceAs (Decidable (inum < sb.ninodes))
  | .idup ip => inferInstanceAs (Decidable (Held s ip))
  | .ilock ip => inferInstanceAs (Decidable (Held s ip))
  | .readi ip _ _ _ => inferInstanceAs (Decidable (Locked s ip))
  | .writei ip _ _ _ _ => inferInstanceAs (Decidable (Locked s ip))
  | .itrunc ip => inferInstanceAs (Decidable (Locked s ip))
  | .restate ip _ _ _ => inferInstanceAs (Decidable (Locked s ip))
  | .iput ip => inferInstanceAs (Decidable (Held s ip))
  | .ialloc type => inferInstanceAs (Decidable (type ≠ 0))
  | .dirlink dp _ _ => inferInstanceAs (Decidable (Locked s dp))

def step (sb : SuperBlock) (s : Fs) (op : Op) : Option Fs :=
  if Enabled sb s op then
    match call sb op s with
    | .ok (_, t) => some t
    | .error _ => none
  else none

variable {sb : SuperBlock} {ip : Fin NINODE} {s t : Fs}

/-- Nobody uses the file system yet.  Its disk has block ownership, files without holes, and no blocks
in files without links. -/
structure Start (sb : SuperBlock) (s : Fs) : Prop where
  own : Own sb s.disk (dinode sb s.disk)
  filled : ∀ i, Allocated sb s.disk i → Filled sb s.disk i
  linked : ∀ i b, Uses sb s.disk i b → (dinode sb s.disk i).nlink ≠ 0
  idle : ∀ ip, (s.icache ip).ref = 0

theorem Start.not_held (h : Start sb s) (ip : Fin NINODE) : ¬ Held s ip := by
  unfold Held
  rw [h.idle ip]
  exact lt_irrefl _

theorem Start.consistent (h : Start sb s) : Consistent sb s where
  own := h.own
  filled := h.filled
  nonneg := fun ip => (h.idle ip).ge
  lt := fun ip hh => absurd hh (h.not_held ip)
  valid := fun ip hl => absurd hl.1 (h.not_held ip)
  unique := fun ip _ hh => absurd hh (h.not_held ip)
  orphan := fun i b _ hn hb => absurd hn (h.linked i b hb)

/-! ### Ownership along runs -/

/-- The calls in a life of a small file, before its last `iput`. -/
def life : List Op := [.iget 1, .ilock entry0, .writei entry0 count 5 0 5, .restate entry0 0 0 0]

end Xv6.FsRuns
