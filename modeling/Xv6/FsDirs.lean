import Xv6.FsInodes

/-!
# Directories (`kernel/fs.c`)

A directory is a file of 16-byte entries: a 16-bit inode number, 0 for a free entry, and a name of up
to 14 bytes.  A name is a byte buffer; what stands behind its terminating 0 is not looked at.
-/

namespace Xv6.FsDirs

open Xv6.Params Xv6.LittleEndian Xv6.Panics Xv6.FsLayout Xv6.FsInodes

abbrev Name := ℕ → UInt8

/-- `struct dirent`. -/
structure Dirent where
  inum : UInt16
  name : Name

/-- `sizeof(struct dirent)`. -/
def DIRENT : ℕ := 16

/-- The entry in 16 bytes of a directory. -/
def parseDirent (bytes : List UInt8) : Dirent where
  inum := UInt16.ofNat (getLE (fun k => bytes.getD k 0) 0 2)
  name := fun k => bytes.getD (2 + k) 0

/-- `strncmp(p, q, n) == 0`, from index `k` on. -/
def strncmpEq (p q : Name) : ℕ → ℕ → Bool
  | 0, _ => true
  | n + 1, k => if p k ≠ 0 ∧ p k = q k then strncmpEq p q n (k + 1) else p k == q k

/-- `namecmp(s, t) == 0`. -/
def namecmpEq (p q : Name) : Bool := strncmpEq p q DIRSIZ 0

/-- Byte `k` of the buffer that `strncpy(_, t, DIRSIZ)` fills: zeros from the first 0 of `t` on. -/
def strncpy (t : Name) (k : ℕ) : UInt8 := if (List.range (k + 1)).all fun j => t j != 0 then t k else 0

def direntBytes (inum : UInt16) (name : Name) (k : ℕ) : UInt8 :=
  setLE (fun k => strncpy name (k - 2)) 0 2 inum.toNat k

variable (sb : SuperBlock)

/-- `readi(dp, 0, (uint64)&de, off, sizeof(de)) != sizeof(de)` panics with `e`. -/
def readDirent (dp : Fin NINODE) (off : ℕ) (e : Panic) : Call Dirent := do
  let r ← readi sb dp DIRENT (UInt32.ofNat off) (UInt32.ofNat DIRENT)
  if r.1 = DIRENT then return parseDirent r.2 else panic e

/-- The loop of `dirlookup`: the inode number and the offset of the entry. -/
def lookupLoop (dp : Fin NINODE) (name : Name) : ℕ → ℕ → Call (Option (UInt16 × ℕ))
  | 0, _ => return none
  | fuel + 1, off => do
    let size ← gets fun s => (s.icache dp).d.size.toNat
    if off < size then
      let de ← readDirent sb dp off .dirlookupRead
      if de.inum = 0 then
        lookupLoop dp name fuel (off + DIRENT)
      else if namecmpEq name de.name then
        return some (de.inum, off)
      else
        lookupLoop dp name fuel (off + DIRENT)
    else
      return none

/-- Rounds that are enough for a directory of this size. -/
def rounds (size : UInt32) : ℕ := size.toNat / DIRENT + 1

/-- `dirlookup`: the inode and `*poff`. -/
def dirlookup (dp : Fin NINODE) (name : Name) : Call (Option (Fin NINODE × ℕ)) := do
  let d ← gets fun s => (s.icache dp).d
  if d.type ≠ T_DIR then
    panic .dirlookupNotDir
  else
    match ← lookupLoop sb dp name (rounds d.size) 0 with
    | none => return none
    | some (inum, off) =>
      let ip ← iget inum.toNat
      return some (ip, off)

/-- The loop of `dirlink`: the offset of the first free entry, or of the end. -/
def slotLoop (dp : Fin NINODE) : ℕ → ℕ → Call ℕ
  | 0, off => return off
  | fuel + 1, off => do
    let size ← gets fun s => (s.icache dp).d.size.toNat
    if off < size then
      let de ← readDirent sb dp off .dirlinkRead
      if de.inum = 0 then return off else slotLoop dp fuel (off + DIRENT)
    else
      return off

def dirlink (dp : Fin NINODE) (name : Name) (inum : UInt16) : Call ℤ := do
  match ← dirlookup sb dp name with
  | some (ip, _) =>
    iput sb ip
    return -1
  | none =>
    let d ← gets fun s => (s.icache dp).d
    let off ← slotLoop sb dp (rounds d.size) 0
    let r ← writei sb dp (direntBytes inum name) DIRENT (UInt32.ofNat off) (UInt32.ofNat DIRENT)
    if r = DIRENT then return 0 else panic .dirlink

end Xv6.FsDirs
