import Xv6.FsByteArrays
import Xv6.FsConsistent
import Xv6.FsNames

/-!
# A directory is a finite map

`Represents sb dp s M` says that the locked directory in cache entry `dp` has distinct live names and binds
the keys of `M` to the inode numbers of `M`.  `dirlookup` reads `M`, `dirlink` extends it by a fresh key at
the first free entry or at the end, and clearing the entry that `dirlookup` found removes its key.
-/

namespace Xv6.FsDirMap

open Xv6.Params Xv6.LittleEndian Xv6.Panics Xv6.FsLayout Xv6.FsInodes Xv6.FsOwnership Xv6.FsContent
open Xv6.FsBmap Xv6.FsImage Xv6.FsByteArrays Xv6.FsFiles Xv6.FsDirs Xv6.FsIcache Xv6.FsDirSpec Xv6.FsConsistent Xv6.FsNames
open Xv6.LogMachine (Disk)

variable {sb : SuperBlock} {dp ip : Fin NINODE} {s t : Fs} {M : List UInt8 → Option UInt16}
  {off : ℕ} {name : Name} {inum : UInt16}

def entry (sb : SuperBlock) (s : Fs) (dp : Fin NINODE) (off : ℕ) : Dirent :=
  entryAt sb s.disk (s.icache dp).inum off

structure Live (sb : SuperBlock) (s : Fs) (dp : Fin NINODE) (off : ℕ) : Prop where
  dvd : DIRENT ∣ off
  lt : off < (s.icache dp).d.size.toNat
  inum : (entry sb s dp off).inum ≠ 0

structure Represents (sb : SuperBlock) (dp : Fin NINODE) (s : Fs) (M : List UInt8 → Option UInt16) :
    Prop where
  readable : Readable sb dp s
  held : Held s dp
  type : (s.icache dp).d.type = T_DIR
  whole : DIRENT ∣ (s.icache dp).d.size.toNat
  distinct : ∀ off off', Live sb s dp off → Live sb s dp off' →
    key (entry sb s dp off).name = key (entry sb s dp off').name → off = off'
  binds : ∀ k j, M k = some j ↔
    ∃ off, Live sb s dp off ∧ key (entry sb s dp off).name = k ∧ (entry sb s dp off).inum = j

/-! ### Lookups -/

/-- The state after the store of 16 bytes `src` at `off`. -/
structure Stored (sb : SuperBlock) (dp : Fin NINODE) (off : ℕ) (src : ℕ → UInt8) (s t : Fs) : Prop where
  readable : Readable sb dp t
  held : Held t dp
  type : (t.icache dp).d.type = (s.icache dp).d.type
  size : (t.icache dp).d.size.toNat = max (s.icache dp).d.size.toNat (off + DIRENT)
  here : entry sb t dp off = parseDirent ((List.range DIRENT).map src)
  other : ∀ x, DIRENT ∣ x → x ≠ off → x < (t.icache dp).d.size.toNat →
    entry sb t dp x = entry sb s dp x

theorem Stored.whole {src : ℕ → UInt8} (h : Stored sb dp off src s t) (hdvd : DIRENT ∣ off)
    (hwhole : DIRENT ∣ (s.icache dp).d.size.toNat) : DIRENT ∣ (t.icache dp).d.size.toNat := by
  rw [h.size]
  rcases max_choice (s.icache dp).d.size.toNat (off + DIRENT) with hm | hm
  · rwa [hm]
  · rw [hm]
    exact hdvd.add (dvd_refl _)

/-- The directory may get an entry more, and the disk has a block for it and one for addresses. -/
structure Room (sb : SuperBlock) (dp : Fin NINODE) (s : Fs) : Prop where
  size : (s.icache dp).d.size.toNat + DIRENT ≤ MAXFILE * BSIZE
  free : 2 ≤ freeCount sb s.disk

def Links (sb : SuperBlock) (dp : Fin NINODE) (s : Fs) (M : List UInt8 → Option UInt16) (name : Name)
    (inum : UInt16) (r : ℤ) (t : Fs) : Prop :=
  match M (key name) with
  | some _ => r = -1 ∧ Unheld s t
  | none => r = 0 ∧ Represents sb dp t (Function.update M (key name) (some inum)) ∧
      ∃ off, FirstAt (FreeAt sb s.disk (s.icache dp).inum (s.icache dp).d.size.toNat) 0 off ∧
        off ≤ (s.icache dp).d.size.toNat ∧ Stored sb dp off (direntBytes inum name) s t

/-- The store with which `sys_unlink` clears the entry at `off`. -/
def clearEntry (sb : SuperBlock) (dp : Fin NINODE) (off : ℕ) : Call ℤ :=
  writei sb dp (fun _ => 0) DIRENT (UInt32.ofNat off) (UInt32.ofNat DIRENT)

inductive Edit where
  | link (name : Name) (inum : UInt16)
  | unlink (name : Name)

/-- The edit of the directory; `unlink` is the lookup of `sys_unlink` and the store that follows it. -/
def Edit.call (sb : SuperBlock) (dp : Fin NINODE) : Edit → Call Unit
  | .link name inum => do
    let _ ← dirlink sb dp name inum
  | .unlink name => do
    match ← dirlookup sb dp name with
    | none => return ()
    | some (_, off) =>
      let _ ← clearEntry sb dp off

def Edit.calls (sb : SuperBlock) (dp : Fin NINODE) : List Edit → Call Unit
  | [] => return ()
  | e :: es => do
    e.call sb dp
    Edit.calls sb dp es

/-- The number of a new entry is not 0. -/
def Edit.Proper : Edit → Prop
  | .link _ inum => inum ≠ 0
  | .unlink _ => True

end Xv6.FsDirMap
