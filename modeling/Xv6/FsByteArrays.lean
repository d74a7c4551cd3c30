import Xv6.FsImage

/-!
# Files are byte arrays

The abstract file is a size and its bytes.  `writei` refines the abstract write and `readi` the abstract
read, on every file system that satisfies block ownership, as long as the disk has room for the blocks
that the range has to be given.
-/

namespace Xv6.FsByteArrays

open Xv6.Params Xv6.Panics Xv6.FsLayout Xv6.FsInodes Xv6.FsOwnership Xv6.FsMapping Xv6.FsBmap
open Xv6.FsContent Xv6.FsFiles Xv6.FsImage
open Xv6.LogMachine (Disk)

/-- A file as its users see it; the bytes from `size` on do not count. -/
structure ByteFile where
  size : ℕ
  byte : ℕ → UInt8

namespace ByteFile

/-- Replace bytes `off` to `off + n` by `d`. -/
def write (f : ByteFile) (off n : ℕ) (d : ℕ → UInt8) : ByteFile where
  size := max f.size (off + n)
  byte := fun x => if off ≤ x ∧ x < off + n then d (x - off) else f.byte x

def read (f : ByteFile) (off len : ℕ) : List UInt8 := (List.range len).map fun x => f.byte (off + x)

/-- The number of bytes to read: none if the arguments are out of range, and otherwise those up to the
end of the file. -/
def readLen (f : ByteFile) (off n : UInt32) : ℕ :=
  if off.toNat > f.size ∨ 2 ^ 32 ≤ off.toNat + n.toNat then 0 else min n.toNat (f.size - off.toNat)

/-- The same size and the same bytes, as far as a file can reach. -/
def Same (f g : ByteFile) : Prop :=
  f.size = g.size ∧ ∀ x, x < MAXFILE * BSIZE → f.byte x = g.byte x

theorem Same.read {f g : ByteFile} (h : f.Same g) {off len : ℕ} (hlen : off + len ≤ MAXFILE * BSIZE) :
    f.read off len = g.read off len := by
  unfold ByteFile.read
  apply List.map_congr_left
  intro x hx
  exact h.2 _ (by have := List.mem_range.mp hx; omega)

end ByteFile

def fileOf (sb : SuperBlock) (disk : Disk) (i : ℕ) : ByteFile :=
  ⟨(dinode sb disk i).size.toNat, content sb disk i⟩

/-- The disk has free blocks for what is not mapped of bytes `off` to `off + len` of file `i`. -/
def Room (sb : SuperBlock) (disk : Disk) (i off len : ℕ) : Prop :=
  0 < len → need sb disk (dinode sb disk) i (off / BSIZE) (blocks (off + len)) ≤ freeCount sb disk

instance (sb : SuperBlock) (disk : Disk) (i off len : ℕ) : Decidable (Room sb disk i off len) :=
  inferInstanceAs (Decidable (_ → _))

variable {sb : SuperBlock} {ip jp : Fin NINODE} {s t : Fs}

theorem writei_refines {src : ℕ → UInt8} {avail : ℕ} {off n : UInt32} (h : Synced sb ip s)
    (hcopy : n.toNat ≤ avail) (hoff : off.toNat ≤ (s.icache ip).d.size.toNat)
    (hmax : off.toNat + n.toNat ≤ MAXFILE * BSIZE) (hroom : Room sb s.disk (s.icache ip).inum off.toNat n.toNat) :
    ∃ t bs, writei sb ip src avail off n s = .ok ((n.toNat : ℤ), t) ∧ Written sb ip s t bs ∧
      ∀ j, j < sb.ninodes → (fileOf sb t.disk j).Same
        (if j = (s.icache ip).inum then (fileOf sb s.disk j).write off.toNat n.toNat src
          else fileOf sb s.disk j) := by
  have hspec : Wp (writei sb ip src avail off n) s _ _ := writei_spec h hoff hmax
  obtain ⟨r, t, hok, rfl, off', bs, -, -, hall, hpost⟩ := exists_of_wp (wp_mono hspec
    (fun _ _ hq => hq) fun e he => absurd he.2.2 (Nat.not_lt.mpr (hroom he.2.1)))
  refine ⟨t, bs, hok, hpost.written, ?_⟩
  intro j hj
  have hinum : (t.icache ip).inum = (s.icache ip).inum := by
    rw [hpost.written.icache, Function.update_self]
  by_cases hji : j = (s.icache ip).inum
  · subst hji
    rw [if_pos rfl]
    have hsize := hpost.size
    rw [← hpost.written.synced.here, hinum, ← h.here, hall hcopy] at hsize
    refine ⟨hsize, fun x hx => ?_⟩
    have hbyte := hpost.bytes (s.icache ip).inum x hx
    rw [Nat.min_eq_left hcopy] at hbyte
    simp only [true_and] at hbyte
    exact hbyte
  · rw [if_neg hji]
    refine ⟨?_, fun x hx => ?_⟩
    · change (dinode sb t.disk j).size.toNat = (dinode sb s.disk j).size.toNat
      rw [hpost.written.other j hj hji]
    · have hbyte := hpost.bytes j x hx
      rwa [if_neg fun hc => hji hc.1] at hbyte

theorem readi_refines {avail : ℕ} {off n : UInt32} (h : Synced sb ip s)
    (hmax : (s.icache ip).d.size.toNat ≤ MAXFILE * BSIZE) (hcopy : readLen (s.icache ip).d.size off n ≤ avail)
    (hroom : Room sb s.disk (s.icache ip).inum off.toNat (readLen (s.icache ip).d.size off n)) :
    ∃ t, readi sb ip avail off n s = .ok ((readLen (s.icache ip).d.size off n,
      (fileOf sb s.disk (s.icache ip).inum).read off.toNat (readLen (s.icache ip).d.size off n)), t) := by
  obtain ⟨r, t, hok, -, hall, hbytes, -⟩ := exists_of_wp (wp_mono (readi_spec h hmax)
    (fun _ _ hq => hq) fun e he => absurd he.2.2 (Nat.not_lt.mpr (hroom he.2.1)))
  obtain ⟨len, out⟩ := r
  obtain rfl := hall hcopy
  simp only at hbytes
  rw [hbytes] at hok
  exact ⟨t, hok⟩

theorem readLen_eq (size off n : UInt32) {f : ByteFile} (hf : f.size = size.toNat) :
    readLen size off n = f.readLen off n := by
  have hiff : (off > size ∨ off + n < off) ↔
      (off.toNat > f.size ∨ 2 ^ 32 ≤ off.toNat + n.toNat) := by
    have h₁ := off.toNat_lt
    have h₂ := n.toNat_lt
    rw [gt_iff_lt, UInt32.lt_iff_toNat_lt, UInt32.lt_iff_toNat_lt, UInt32.toNat_add, hf]
    omega
  unfold readLen ByteFile.readLen
  rw [hf] at hiff ⊢
  by_cases h : off > size ∨ off + n < off
  · rw [if_pos h, if_pos (hiff.mp h)]
  · rw [if_neg h, if_neg fun hc => h (hiff.mpr hc)]

theorem readLen_range {f : ByteFile} (hf : f.size ≤ MAXFILE * BSIZE) (off n : UInt32) :
    f.readLen off n = 0 ∨ off.toNat + f.readLen off n ≤ MAXFILE * BSIZE := by
  unfold ByteFile.readLen
  by_cases h : off.toNat > f.size ∨ 2 ^ 32 ≤ off.toNat + n.toNat
  · exact Or.inl (if_pos h)
  · rw [if_neg h]
    omega

theorem synced_after {bs : List ℕ} (hw : Written sb ip s t bs) (hj : Synced sb jp s)
    (hjp : jp = ip ∨ (s.icache jp).inum ≠ (s.icache ip).inum) : Synced sb jp t := by
  rcases hjp with rfl | hne
  · exact hw.synced
  · have hentry : t.icache jp = s.icache jp := by
      rw [hw.icache, Function.update_of_ne]
      rintro rfl
      exact hne rfl
    refine ⟨hw.synced.own, ?_, ?_, ?_⟩
    · rw [hentry, hw.other _ hj.lt hne, hj.here]
    · rw [hentry]
      exact hj.lt
    · rw [hentry]
      exact hj.type

/-- **Files are byte arrays.**  Within range, and with room on the disk, `writei` returns `n`, replaces
bytes `off` to `off + n` of the file and nothing else, and whatever `readi` then delivers are the bytes
of the abstract files.  Out of range it returns -1 and changes nothing. -/
theorem files_are_byte_arrays (sb : SuperBlock) (ip : Fin NINODE) (s : Fs) (h : Synced sb ip s)
    (src : ℕ → UInt8) (avail : ℕ) (off n : UInt32) :
    (n.toNat ≤ avail → off.toNat ≤ (s.icache ip).d.size.toNat →
      off.toNat + n.toNat ≤ MAXFILE * BSIZE → Room sb s.disk (s.icache ip).inum off.toNat n.toNat →
      ∃ t, writei sb ip src avail off n s = .ok ((n.toNat : ℤ), t) ∧
        Own sb t.disk (dinode sb t.disk) ∧
        (t.icache ip).d.size.toNat = max (s.icache ip).d.size.toNat (off.toNat + n.toNat) ∧
        (∀ j, j < sb.ninodes → j ≠ (s.icache ip).inum → (fileOf sb t.disk j).Same (fileOf sb s.disk j)) ∧
        ∀ jp, Synced sb jp s → (jp = ip ∨ (s.icache jp).inum ≠ (s.icache ip).inum) →
          (s.icache jp).d.size.toNat ≤ MAXFILE * BSIZE → ∀ (avail' : ℕ) (off' n' : UInt32) f,
          f = (if jp = ip then (fileOf sb s.disk (s.icache jp).inum).write off.toNat n.toNat src
            else fileOf sb s.disk (s.icache jp).inum) →
          f.readLen off' n' ≤ avail' →
          Room sb t.disk (s.icache jp).inum off'.toNat (f.readLen off' n') →
          ∃ u, readi sb jp avail' off' n' t =
            .ok ((f.readLen off' n', f.read off'.toNat (f.readLen off' n')), u)) ∧
    (off > (s.icache ip).d.size ∨ off + n < off ∨ (off + n).toNat > MAXFILE * BSIZE →
      writei sb ip src avail off n s = .ok (-1, s)) := by
  refine ⟨?_, ?_⟩
  · intro hcopy hoff hmax hroom
    obtain ⟨t, bs, hok, hw, hfiles⟩ := writei_refines h hcopy hoff hmax hroom
    have hinum : (t.icache ip).inum = (s.icache ip).inum := by
      rw [hw.icache, Function.update_self]
    refine ⟨t, hok, hw.synced.own, ?_, ?_, ?_⟩
    · have hsize := (hfiles _ h.lt).1
      rw [if_pos rfl] at hsize
      change (dinode sb t.disk (s.icache ip).inum).size.toNat =
        max (dinode sb s.disk (s.icache ip).inum).size.toNat _ at hsize
      rw [h.here, ← hinum, hw.synced.here] at hsize
      exact hsize
    · intro j hj hne
      have hsame := hfiles j hj
      rwa [if_neg hne] at hsame
    · intro jp hj hjp hsz avail' off' n' f hf hcopy' hroom'
      have hsync := synced_after hw hj hjp
      have hinum' : (t.icache jp).inum = (s.icache jp).inum := by
        rcases hjp with rfl | hne
        · exact hinum
        · rw [hw.icache, Function.update_of_ne]
          rintro rfl
          exact hne rfl
      have hsame : (fileOf sb t.disk (s.icache jp).inum).Same f := by
        have hfile := hfiles _ hj.lt
        rw [hf]
        rcases hjp with rfl | hne
        · rwa [if_pos rfl] at hfile ⊢
        · rw [if_neg hne] at hfile
          rwa [if_neg]
          rintro rfl
          exact hne rfl
      have hfsize : f.size = (t.icache jp).d.size.toNat := by
        rw [← hsame.1, ← hsync.here, hinum']
        rfl
      have hfmax : f.size ≤ MAXFILE * BSIZE := by
        rw [hf]
        by_cases hjip : jp = ip
        · subst hjip
          rw [if_pos rfl]
          change max (dinode sb s.disk (s.icache jp).inum).size.toNat _ ≤ _
          rw [h.here]
          omega
        · rw [if_neg hjip]
          change (dinode sb s.disk (s.icache jp).inum).size.toNat ≤ _
          rw [hj.here]
          exact hsz
      have hlen := readLen_eq (t.icache jp).d.size off' n' hfsize
      rw [← hinum', ← hlen] at hroom'
      rw [← hlen] at hcopy'
      obtain ⟨u, hu⟩ := readi_refines hsync (by omega) hcopy' hroom'
      refine ⟨u, ?_⟩
      rw [hu, hlen, hinum']
      rcases readLen_range hfmax off' n' with hz | hrange
      · rw [hz]
        rfl
      · rw [hsame.read hrange]
  · intro hout
    obtain ⟨r, t, hok, rfl, rfl⟩ := exists_of_wp (writei_out hout)
    exact hok

/-! ### A disk with three data blocks -/

def tinySb : SuperBlock where
  size := 7
  nblocks := 3
  ninodes := 8
  inodestart := 2
  bmapstart := 3
  inodes_lt := by decide
  bmap_lt := by decide
  size_lt := by decide

def emptyFile : Dinode := ⟨T_FILE, 0, 0, 1, 0, fun _ => 0⟩

/-- One empty file, open in entry 0. -/
def tiny : Fs where
  disk := image tinySb [(1, emptyFile)]
  icache := fun ip => if ip.val = 0 then ⟨1, 1, true, emptyFile⟩ else ⟨0, 0, false, freshDinode 0⟩
  handed := []

def entry0 : Fin NINODE := ⟨0, by decide⟩

theorem synced_tiny : Synced tinySb entry0 tiny where
  own := own_image _ (by simp [tinySb]) (by simp [emptyFile])
  here := dinode_image_cons 1 emptyFile [] 1
  lt := by decide
  type := by decide

def count (x : ℕ) : UInt8 := UInt8.ofNat (x + 1)

/-- The bytes 1 to 5 are written and the last three of them are read back. -/
theorem files_are_byte_arrays_tiny :
    ∃ t u, writei tinySb entry0 count 5 0 5 tiny = .ok (5, t) ∧
      readi tinySb entry0 3 2 9 t = .ok ((3, [3, 4, 5]), u) := by
  obtain ⟨t, hok, -, -, -, hread⟩ := (files_are_byte_arrays tinySb entry0 tiny synced_tiny count 5 0
    5).1 (by decide) (by decide) (by decide) (by decide +kernel)
  have ht := (after_of_ok hok).symm
  obtain ⟨u, hu⟩ := hread entry0 synced_tiny (Or.inl rfl) (by decide) 3 2 9 _ rfl (by decide +kernel)
    (by rw [ht]; decide +kernel)
  exact ⟨t, u, hok, hu⟩

/-- Four blocks do not fit. -/
theorem writei_panics_when_full : Synced tinySb entry0 tiny ∧
    (0 : UInt32) ≤ (tiny.icache entry0).d.size ∧ (4096 : UInt32).toNat ≤ MAXFILE * BSIZE ∧
    writei tinySb entry0 count 4096 0 4096 tiny = .error .ballocOutOfBlocks := by
  refine ⟨synced_tiny, by decide, by decide, ?_⟩
  exact error_of_outcome (by decide +kernel)

end Xv6.FsByteArrays
