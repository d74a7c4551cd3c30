import Xv6.MkfsImage

/-!
# Images that `mkfs` writes are well formed

`main` takes inode numbers and the size of the root directory on trust.  Up to 198 input files the numbers
are below `NINODES`; where the entries fill the last block of the root directory, `main` makes it one block
longer than it is (`root_has_hole`).
-/

namespace Xv6.Mkfs

open Xv6.Params Xv6.LittleEndian Xv6.Panics Xv6.FsLayout
open Xv6.FsOwnership Xv6.FsContent
open Xv6.FsDirs (DIRENT)

variable {v : Img} {files : List HostFile}

theorem image_of_run (hroom : files.length + 2 ≤ NINODES) (hrun : main files blank = .ok ((), v)) :
    Image v files := by
  obtain ⟨s, hs⟩ : ∃ s, s = blank := ⟨_, rfl⟩
  rw [← hs] at hrun
  have hwp := main_spec files hs hroom
  rw [Wp, hrun] at hwp
  exact hwp

/-- A file has the blocks for its bytes. -/
theorem Shape.mapped {disk : LogMachine.Disk} {D : ℕ → Dinode} {i : ℕ} {bytes : List UInt8}
    (h : Shape disk D i bytes) {bn : ℕ} (hbn : bn < blocks bytes.length) :
    bn < MAXFILE ∧ slots sb disk D (i, fileSlot bn) ≠ none := by
  have hle : bytes.length ≤ 268 * 1024 := h.le
  have hbn' : bn < (bytes.length + 1023) / 1024 := hbn
  have hmax : bn < MAXFILE := by
    show bn < 268
    omega
  refine ⟨hmax, fun hnone => ?_⟩
  have hnot : bytes.length ≤ bn * 1024 := (h.slot bn hmax).mp hnone
  omega

theorem word_zero : word (fun _ => 0) 0 = 0 := by decide

/-- The file `a`, of one byte. -/
def oneByte : HostFile := ⟨[97], some [⟨[65], by decide, by decide⟩], by decide⟩

def emptyFile : HostFile := ⟨[97], some [], by decide⟩

/-- Input files that fit do not abort the run. -/
theorem main_ok (files : List HostFile) (hroom : files.length + 2 ≤ NINODES)
    (hslash : ∀ f ∈ files, slashChar ∉ baseName f.path)
    (hopen : ∀ f ∈ files, f.reads ≠ none) (hsize : ∀ f ∈ files, (fileBytes f).length ≤ MAXFILE * BSIZE)
    (hfit : total (contents files) ≤ FSSIZE) : ∃ v, main files blank = .ok ((), v) ∧ Image v files := by
  obtain ⟨s, hs⟩ : ∃ s, s = blank := ⟨_, rfl⟩
  have hwp : Wp (main files) s (fun _ v => Image v files) fun _ => False := by
    refine wp_mono (main_spec files hs hroom) (fun _ _ h => h) fun e he => ?_
    cases he with
    | slash f hf h => exact hslash f hf h
    | cannotOpen f hf h => exact hopen f hf h
    | maxfile f hf h => exact absurd h (Nat.not_lt.mpr (hsize f hf))
    | read h => exact absurd h (Nat.not_lt.mpr hfit)
  obtain ⟨_, v, hrun, himage⟩ := exists_of_wp hwp
  exact ⟨v, hs ▸ hrun, himage⟩

end Xv6.Mkfs
