import Xv6.FsIcache
import Xv6.MkfsFormed

/-!
# The kernel reads what `mkfs` wrote

The two programs share the layout of the disk only: `mkfs` appends to its files with `iappend`, the
kernel loads an inode with `ilock` and finds the blocks with `bmap`.  They meet at `Image`.
-/

namespace Xv6.Mkfs

open Xv6.Params Xv6.Panics Xv6.FsLayout Xv6.FsInodes Xv6.FsOwnership Xv6.FsContent Xv6.FsFiles
open Xv6.FsIcache

variable {v : Img} {files : List HostFile} {i : ℕ}

theorem Image.filled (h : Image v files) (hi : i < NINODES) (hroot : i ≠ ROOTINO) : Filled sb v.disk i := by
  have hle := (h.shape i hi).le
  have hsize := h.size i hi hroot
  refine ⟨hsize ▸ hle, fun x _ hx hnone => ?_⟩
  rw [Nat.zero_add, hsize] at hx
  have hslot := ((h.shape i hi).slot _ (div_lt_maxfile (hx.trans_le hle))).mp hnone
  have hmul := Nat.div_mul_le_self x BSIZE
  omega

theorem Image.bytes (h : Image v files) (hi : i < NINODES) {off len : ℕ}
    (hlen : off + len ≤ max off (contents files i).length) :
    FsContent.fileBytes sb v.disk (dinode sb v.disk) i off len = ((contents files i).drop off).take len := by
  have hle := (h.shape i hi).le
  unfold FsContent.fileBytes
  refine List.ext_getElem ?_ fun x hx _ => ?_
  · rw [List.length_map, List.length_range, List.length_take, List.length_drop]
    omega
  · rw [List.length_map, List.length_range] at hx
    simp only [List.getElem_map, List.getElem_range, List.getElem_take, List.getElem_drop]
    rw [(h.shape i hi).byte _ (by omega), List.getD_eq_getElem _ _ (by omega)]

/-- `ilock` of an inode of the image that is in use. -/
theorem Image.ilock (h : Image v files) {s : Fs} {ip : Fin NINODE} (hdisk : s.disk = v.disk)
    (hi : (s.icache ip).inum < NINODES) (ht : (dinode sb v.disk (s.icache ip).inum).type ≠ 0)
    (href : 1 ≤ (s.icache ip).ref) (hload : (s.icache ip).valid = false) :
    ∃ t, FsInodes.ilock sb ip s = .ok ((), t) ∧ t.disk = v.disk ∧
      (t.icache ip).inum = (s.icache ip).inum ∧
      (t.icache ip).d = dinode sb v.disk (s.icache ip).inum ∧ Synced sb ip t := by
  rw [← hdisk] at ht
  -- neither panic of `ilock` is possible here
  have hlock := wp_mono (ilock_spec sb ip s) (fun _ _ hq => hq)
    fun e he => he.elim (fun hc => absurd href (not_le.mpr hc.2)) fun hc => ht hc.2.2
  obtain ⟨_, t, hok, -, ⟨hv, -⟩ | ⟨-, -, rfl⟩⟩ := exists_of_wp hlock
  · rw [hload] at hv
    cases hv
  refine ⟨_, hok, hdisk, ?_, ?_, ?_, ?_, ?_, ?_⟩
  all_goals simp only [Fs.setInode_self, Fs.setInode_disk]
  · rw [hdisk]
  · rw [hdisk]
    exact h.own
  · exact hi
  · exact ht

/-- **The files of an image read back.**  The `k`th file of the command line is inode `k + 2`, of type
`T_FILE`.  From an entry that is not loaded yet, `ilock` and `readi` deliver the bytes of the host file
from `off` on, as many as `readi` is to deliver, and the disk stays as it is. -/
theorem kernel_reads_files (files : List HostFile) (v : Img) (hroom : files.length ≤ NINODES - 2)
    (hrun : main files blank = .ok ((), v)) (k : ℕ) (f : HostFile) (hf : files[k]? = some f)
    (s : Fs) (ip : Fin NINODE) (hdisk : s.disk = v.disk) (hinum : (s.icache ip).inum = k + 2)
    (href : 1 ≤ (s.icache ip).ref) (hload : (s.icache ip).valid = false) (avail : ℕ) (off n : UInt32)
    (havail : n.toNat ≤ avail) :
    ∃ t len, (do FsInodes.ilock sb ip; readi sb ip avail off n) s =
        .ok ((len, ((fileBytes f).drop off.toNat).take len), t) ∧
      len = readLen (t.icache ip).d.size off n ∧ (t.icache ip).d.size.toNat = (fileBytes f).length ∧
      (t.icache ip).d.type = T_FILE ∧ t.disk = v.disk := by
  have hpos : 2 ≤ NINODES := by decide
  have hk : k < files.length := (List.getElem?_eq_some_iff.mp hf).1
  have hi : k + 2 < NINODES := by omega
  have hroot : k + 2 ≠ ROOTINO := by unfold ROOTINO; omega
  have h := image_of_run (by omega) hrun
  have hbytes : contents files (k + 2) = fileBytes f := by
    rw [contents_file, hf]
    rfl
  have hsize := h.size _ hi hroot
  have htype : (dinode sb v.disk (k + 2)).type = T_FILE := by
    rw [h.type _ (lt_places hi), typeOf, if_neg (by omega), if_neg hroot, if_pos (by omega)]
  obtain ⟨t, hlock, hdisk', hinum', hd, hsync⟩ :=
    h.ilock hdisk (hinum ▸ hi) (by rw [hinum, htype]; decide) href hload
  rw [hinum] at hinum' hd
  have hfilled : Filled sb t.disk (t.icache ip).inum := by
    rw [hdisk', hinum']
    exact h.filled hi hroot
  obtain ⟨⟨m, out⟩, u, hok, rfl, -, hall, hout⟩ :=
    exists_of_wp (@readi_filled sb ip t avail off n hsync hfilled)
  have hle := readLen_le (u.icache ip).d.size off n
  have hmin : readLen (u.icache ip).d.size off n ≤ n.toNat := by
    unfold readLen
    split <;> omega
  obtain rfl : m = _ := hall (hmin.trans havail)
  rw [hdisk', hinum', h.bytes hi (by rwa [← hsize, ← hd]), hbytes] at hout
  obtain rfl : out = ((fileBytes f).drop off.toNat).take (readLen (u.icache ip).d.size off n) := hout
  exact ⟨u, _, (bind_of_ok hlock).trans hok, rfl, by rw [hd, hsize, hbytes], by rw [hd, htype],
    hdisk'⟩

/-- The file of one byte. -/
theorem kernel_reads_files_oneByte : ∃ (v : Img) (s t : Fs) (ip : Fin NINODE) (len : ℕ),
    main [oneByte] blank = .ok ((), v) ∧ s.disk = v.disk ∧
    (do FsInodes.ilock sb ip; readi sb ip 8 0 8) s = .ok ((len, [65].take len), t) := by
  obtain ⟨v, hrun, -⟩ := main_ok [oneByte] (by decide)
    (List.forall_mem_singleton.mpr (by decide)) (List.forall_mem_singleton.mpr (by decide))
    (List.forall_mem_singleton.mpr (by decide)) (by decide +kernel)
  obtain ⟨t, len, ht, -⟩ := kernel_reads_files [oneByte] v (by decide) hrun 0 oneByte rfl
    ⟨v.disk, fun _ => ⟨2, 1, false, dinode sb v.disk 0⟩, []⟩ ⟨0, by decide⟩ rfl rfl le_rfl rfl 8 0 8
    (by decide)
  exact ⟨v, _, t, _, len, hrun, rfl, ht⟩

end Xv6.Mkfs
