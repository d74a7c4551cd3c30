import Xv6.FsDirs
import Xv6.FsIcache

/-!
# `dirlookup` and `dirlink`

`entryAt` is the directory entry at an offset.  The scans of `dirlookup` and `dirlink` read a directory
without holes, so they change nothing, and they return the first entry that matches and the first that
is free.
-/

namespace Xv6.FsDirSpec

open Xv6.Params Xv6.LittleEndian Xv6.Panics Xv6.FsLayout Xv6.FsInodes Xv6.FsOwnership Xv6.FsContent
open Xv6.FsFiles Xv6.FsDirs Xv6.FsIcache
open Xv6.LogMachine (Disk)

variable {sb : SuperBlock} {dp ip : Fin NINODE} {s t : Fs} {name : Name}

/-- The entry at offset `off` of directory `i`. -/
def entryAt (sb : SuperBlock) (disk : Disk) (i off : ℕ) : Dirent :=
  parseDirent (fileBytes sb disk (dinode sb disk) i off DIRENT)

/-- The inode in `dp` is locked, and it has no holes. -/
structure Readable (sb : SuperBlock) (dp : Fin NINODE) (s : Fs) : Prop where
  synced : Synced sb dp s
  filled : Filled sb s.disk (s.icache dp).inum

theorem Readable.size_le (h : Readable sb dp s) : (s.icache dp).d.size.toNat ≤ MAXFILE * BSIZE := by
  rw [← h.synced.here]
  exact h.filled.size

theorem Readable.written {src : ℕ → UInt8} {off k off' : ℕ} {bs : List ℕ} (h : Readable sb dp s)
    (hp : WriteiPost sb dp src off k off' s t bs) (hoff : off ≤ (s.icache dp).d.size.toNat)
    (hmax : off' ≤ MAXFILE * BSIZE) : Readable sb dp t := by
  have hw := hp.written
  have hinum : (t.icache dp).inum = (s.icache dp).inum := by rw [hw.icache, Function.update_self]
  refine ⟨hw.synced, ?_, ?_⟩
  · rw [hw.synced.here, hp.size]
    exact Nat.max_le.mpr ⟨h.size_le, hmax⟩
  · intro x h₁ h₂
    rw [hw.synced.here, hp.size] at h₂
    rw [hinum]
    by_cases hx : x < (s.icache dp).d.size.toNat
    · -- below the old size
      have hold := h.filled.mapped x (Nat.zero_le _) (by
        rw [h.synced.here]
        omega)
      obtain ⟨c, hc⟩ := Option.ne_none_iff_exists'.mp hold
      rw [hw.keep _ c hc]
      simp
    · exact hp.mapped x (by omega) (by omega)

/-- Offset `off` is the first from `start` on, in steps of an entry, at which `p` holds. -/
structure FirstAt (p : ℕ → Prop) (start off : ℕ) : Prop where
  le : start ≤ off
  step : DIRENT ∣ off - start
  here : p off
  before : ∀ x, start ≤ x → x < off → DIRENT ∣ x - start → ¬ p x

def Matches (sb : SuperBlock) (disk : Disk) (i : ℕ) (name : Name) (off : ℕ) : Prop :=
  (entryAt sb disk i off).inum ≠ 0 ∧ namecmpEq name (entryAt sb disk i off).name = true

/-- What `lookupLoop` returns: the first entry that matches, if there is one. -/
def LookedUp (sb : SuperBlock) (disk : Disk) (i size : ℕ) (name : Name) (start : ℕ) :
    Option (UInt16 × ℕ) → Prop
  | none => ∀ x, start ≤ x → x < size → DIRENT ∣ x - start → ¬ Matches sb disk i name x
  | some (inum, off) => off + DIRENT ≤ size ∧ inum = (entryAt sb disk i off).inum ∧
      FirstAt (Matches sb disk i name) start off

def Found (sb : SuperBlock) (dp : Fin NINODE) (name : Name) (s : Fs) :
    Option (Fin NINODE × ℕ) → Fs → Prop
  | none, t => t = s ∧
      LookedUp sb s.disk (s.icache dp).inum (s.icache dp).d.size.toNat name 0 none
  | some (ip, off), t => ∃ inum,
      LookedUp sb s.disk (s.icache dp).inum (s.icache dp).d.size.toNat name 0 (some (inum, off)) ∧
      Got s inum.toNat ip t

/-- The first offset that is free or behind the end. -/
def FreeAt (sb : SuperBlock) (disk : Disk) (i size off : ℕ) : Prop :=
  size ≤ off ∨ (entryAt sb disk i off).inum = 0

/-- The reference that a lookup took has been dropped: at most an empty cache entry has changed. -/
def Unheld (s t : Fs) : Prop :=
  t = s ∨ ∃ ip i, (s.icache ip).ref = 0 ∧
    t = s.setInode ip { s.icache ip with inum := i, ref := 0, valid := false }

/-- What `dirlink` does: nothing if the name is there, and otherwise it stores the entry at the first
free offset. -/
inductive Linked (sb : SuperBlock) (dp : Fin NINODE) (name : Name) (inum : UInt16) (s : Fs) :
    ℤ → Fs → Prop
  | present {t : Fs} (i : UInt16) (off : ℕ)
      (found : LookedUp sb s.disk (s.icache dp).inum (s.icache dp).d.size.toNat name 0 (some (i, off)))
      (same : Unheld s t) : Linked sb dp name inum s (-1) t
  | stored {t : Fs} (off : ℕ) (bs : List ℕ)
      (absent : LookedUp sb s.disk (s.icache dp).inum (s.icache dp).d.size.toNat name 0 none)
      (le : off ≤ (s.icache dp).d.size.toNat) (max : off + DIRENT ≤ MAXFILE * BSIZE)
      (first : FirstAt (FreeAt sb s.disk (s.icache dp).inum (s.icache dp).d.size.toNat) 0 off)
      (post : WriteiPost sb dp (direntBytes inum name) off DIRENT (off + DIRENT) s t bs) :
      Linked sb dp name inum s 0 t

end Xv6.FsDirSpec
