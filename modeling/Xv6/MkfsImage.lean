import Xv6.MkfsAppend

/-!
# The image that `mkfs` writes

`contents files` gives the bytes of every inode of an image with these input files.  `main_spec` says that
a run over at most `NINODES - 2` files aborts for one of the four reasons of `Fails`, or leaves an image
whose files have those bytes and exactly the blocks for them.  Only the size of the root directory is
another one: `main` moves it to the next multiple of `BSIZE`, also where it is one already.
-/

namespace Xv6.Mkfs

open Xv6.Params Xv6.LittleEndian Xv6.Panics Xv6.FsLayout Xv6.FsMapping
open Xv6.FsOwnership Xv6.FsBmap Xv6.FsContent Xv6.FsFiles
open Xv6.FsInodes (T_DIR T_FILE)
open Xv6.FsDirs (Name direntBytes DIRENT)
open Xv6.LogMachine (Block Disk)
open Function (update_self update_of_ne update_idem)

variable {s t u : Img} {N : ℕ → List UInt8} {i j : ℕ} {E : Abort → Prop}

/-! ### The inode area -/

/-- The inodes that have room in the inode blocks. -/
def places : ℕ := ninodeblocks * IPB

def setInode (s : Img) (i : ℕ) (d : Dinode) : Img :=
  { s with disk := Function.update s.disk (sb.iblock i) (putDinode (s.disk (sb.iblock i)) (i % IPB) d) }

theorem iblock_bounds (hj : j < places) : sb.inodestart ≤ sb.iblock j ∧ sb.iblock j < sb.bmapstart := by
  have hlt : j / 16 < 13 := Nat.div_lt_of_lt_mul hj
  show 32 ≤ j / 16 + 32 ∧ j / 16 + 32 < 45
  omega

theorem lt_places (hi : i < NINODES) : i < places := lt_trans hi (by decide)

theorem dinode_setInode (s : Img) (i : ℕ) (d : Dinode) :
    dinode sb (setInode s i d).disk = Function.update (dinode sb s.disk) i d := by
  funext j
  refine (dinode_update (fun k hk => readDinode_putDinode_ne _ d hk) j).trans ?_
  rw [readDinode_putDinode]
  by_cases hji : j = i
  · rw [if_pos hji, hji, update_self]
  · rw [if_neg hji, update_of_ne hji]

theorem setInode_outside (s : Img) (hi : i < NINODES) (d : Dinode) {b : ℕ}
    (hb : b < sb.inodestart ∨ nmeta ≤ b) : (setInode s i d).disk b = s.disk b := by
  have hbounds := iblock_bounds (lt_places hi)
  have hlt : sb.bmapstart < nmeta := by decide
  exact update_of_ne (by omega) _ _

theorem iblock_lt_sectors (hsec : s.sectors = FSSIZE) (hi : i < NINODES) : sb.iblock i < s.sectors := by
  have hbounds := iblock_bounds (lt_places hi)
  have hlt : sb.bmapstart < FSSIZE := by decide
  omega

theorem wp_rinode {Q : Dinode → Img → Prop} (hsec : s.sectors = FSSIZE) (hi : i < NINODES)
    (h : Q (dinode sb s.disk i) s) : Wp (rinode i) s Q E :=
  wp_bind (wp_rsect (fun _ => h) fun hge =>
    absurd (iblock_lt_sectors hsec hi) (Nat.not_lt.mpr hge))

theorem wp_winode {d : Dinode} {Q : Unit → Img → Prop} (hsec : s.sectors = FSSIZE) (hi : i < NINODES)
    (h : Q () (setInode s i d)) : Wp (winode i d) s Q E := by
  have hlt := iblock_lt_sectors hsec hi
  refine wp_bind (wp_rsect (fun _ => wp_wsect ?_) fun hge => absurd hlt (Nat.not_lt.mpr hge))
  rw [max_eq_left hlt]
  exact h

/-! ### `iappend` -/

/-- The files hold the bytes `N`, and the sizes in the inodes say so. -/
structure Good (s : Img) (N : ℕ → List UInt8) : Prop where
  layout : Layout s (dinode sb s.disk) N
  size : ∀ j, j < NINODES → (dinode sb s.disk j).size.toNat = (N j).length

structure Kept (i : ℕ) (s t : Img) : Prop where
  other : ∀ j, j < places → j ≠ i → dinode sb t.disk j = dinode sb s.disk j
  low : ∀ b, b < sb.inodestart → t.disk b = s.disk b

theorem Kept.refl (i : ℕ) (s : Img) : Kept i s s := ⟨fun _ _ _ => rfl, fun _ _ => rfl⟩

theorem Kept.trans (h : Kept i s t) (h' : Kept i t u) : Kept i s u where
  other j hj hne := (h'.other j hj hne).trans (h.other j hj hne)
  low b hb := (h'.low b hb).trans (h.low b hb)

def SameKind (d d' : Dinode) : Prop := d'.type = d.type ∧ d'.nlink = d.nlink

/-- **`iappend`.** -/
theorem iappend_spec (h : Good s N) (hi : i < NINODES) (ht : (dinode sb s.disk i).type ≠ 0) (p : ℕ → UInt8) (n : ℕ) :
    Wp (iappend i p n) s (fun _ t => Good t (Function.update N i (N i ++ piece p 0 n)) ∧ Kept i s t ∧
        SameKind (dinode sb s.disk i) (dinode sb t.disk i) ∧ t.freeinode = s.freeinode)
      (Refused i N (piece p 0 n)) := by
  refine wp_bind (wp_rinode h.layout.base.sectors hi ?_)
  rw [h.size i hi]
  refine wp_seq (appendLoop_spec p n n 0 (by omega) h.layout hi ht) ?_
  rintro r t ⟨D', rfl, happ⟩
  have hsec := happ.layout.base.sectors
  refine wp_winode hsec hi ?_
  have hold : ∀ j, j < places → dinode sb t.disk j = dinode sb s.disk j := by
    intro j hj
    refine dinode_congr (happ.below _ ?_)
    have hbounds := iblock_bounds hj
    have hlt : sb.bmapstart < nmeta := by decide
    omega
  set d : Dinode := { D' i with size := UInt32.ofNat ((N i).length + (n - 0)) } with hd
  have hdin := dinode_setInode t i d
  have hdi : dinode sb (setInode t i d).disk i = d := by rw [hdin, update_self]
  have hdj : ∀ j, j < places → j ≠ i →
      dinode sb (setInode t i d).disk j = dinode sb s.disk j := by
    intro j hj hne
    rw [hdin, update_of_ne hne, hold j hj]
  have hlen := (happ.layout.shape i hi).le
  rw [update_self, List.length_append, length_piece] at hlen
  refine ⟨⟨?_, ?_⟩, ⟨hdj, ?_⟩, ?_, happ.freeinode⟩
  · have hdata : ∀ b, nmeta ≤ b → (setInode t i d).disk b = t.disk b := fun b hb =>
      setInode_outside t hi d (.inr hb)
    refine happ.layout.congr rfl rfl hdata (slots_of_inodes happ.layout.base hdata ?_)
    intro j hj
    by_cases hji : j = i
    · rw [hji, hdi]
      exact ⟨rfl, rfl⟩
    · rw [hdj j (lt_places hj) hji, happ.other j hji]
      exact ⟨rfl, rfl⟩
  · intro j hj
    by_cases hji : j = i
    · rw [hji, hdi, update_self, List.length_append, length_piece]
      show (UInt32.ofNat ((N i).length + n)).toNat = _
      rw [UInt32.toNat_ofNat']
      exact Nat.mod_eq_of_lt (lt_of_le_of_lt hlen (by decide))
    · rw [hdj j (lt_places hj) hji, update_of_ne hji]
      exact h.size j hj
  · intro b hb
    have hlt : sb.inodestart < nmeta := by decide
    rw [setInode_outside t hi d (.inl hb)]
    exact happ.below b (lt_trans hb hlt)
  · rw [hdi]
    exact ⟨happ.same.type, happ.same.nlink⟩

/-! ### `ialloc` -/

/-- The inode that `ialloc` writes. -/
def newDinode (type : UInt16) : Dinode := ⟨type, 0, 0, 1, 0, fun _ => 0⟩

theorem slots_newDinode {disk : Disk} {D : ℕ → Dinode} {type : UInt16} (h : D i = newDinode type)
    (sl : Slot) : slots sb disk D (i, sl) = none := by
  have haddr : slotAddr disk (newDinode type) sl = 0 := by
    cases sl with
    | addr k | entry k => rfl
  unfold slots
  refine if_neg fun hc => hc.2.2 ?_
  show slotAddr disk (D i) sl = 0
  rw [h, haddr]

theorem ialloc_spec (h : Good s N) (hi : s.freeinode < NINODES) (hempty : N s.freeinode = [])
    (hfree : (dinode sb s.disk s.freeinode).type = 0) (type : UInt16) :
    Wp (ialloc type) s (fun r t => r = s.freeinode ∧ Good t N ∧ Kept s.freeinode s t ∧
      dinode sb t.disk s.freeinode = newDinode type ∧ t.freeinode = s.freeinode + 1) E := by
  have hsec := h.layout.base.sectors
  set i := s.freeinode with hi'
  refine wp_bind (wp_gets (wp_bind (wp_update (wp_bind (wp_winode hsec hi (wp_pure ?_))))))
  show i = i ∧ Good (setInode { s with freeinode := i + 1 } i (newDinode type)) N ∧ _
  set u := setInode { s with freeinode := i + 1 } i (newDinode type) with hu
  have hdin : dinode sb u.disk = Function.update (dinode sb s.disk) i (newDinode type) :=
    dinode_setInode _ i _
  have hdi : dinode sb u.disk i = newDinode type := by rw [hdin, update_self]
  have hdj : ∀ j, j ≠ i → dinode sb u.disk j = dinode sb s.disk j := fun j hne => by
    rw [hdin, update_of_ne hne]
  have hdata : ∀ b, nmeta ≤ b → u.disk b = s.disk b := fun b hb =>
    setInode_outside { s with freeinode := i + 1 } hi _ (.inr hb)
  refine ⟨rfl, ⟨?_, ?_⟩, ⟨fun j _ => hdj j, ?_⟩, hdi, rfl⟩
  · refine h.layout.congr rfl rfl hdata ?_
    -- the inode had no block before, being free, and has none now
    have hsame : slots sb (withMap u) (dinode sb s.disk) = slots sb (withMap s) (dinode sb s.disk) :=
      slots_of_inodes h.layout.base hdata fun _ _ => ⟨rfl, rfl⟩
    rw [← hsame]
    funext o
    by_cases ho : o.1 = i
    · obtain ⟨k, sl⟩ := o
      obtain rfl : k = i := ho
      rw [slots_newDinode hdi]
      unfold slots
      rw [if_neg fun hc => hc.2.1 hfree]
    · unfold slots
      rw [hdj o.1 ho]
  · intro j hj
    by_cases hji : j = i
    · rw [hji, hdi, hempty]
      rfl
    · rw [hdj j hji]
      exact h.size j hj
  · intro b hb
    exact setInode_outside { s with freeinode := i + 1 } hi _ (.inl hb)

/-! ### The contents of the image -/

def fileBytes (f : HostFile) : List UInt8 := (f.reads.getD []).flatMap Chunk.bytes

def entryBytes (inum : ℕ) (name : List UInt8) : List UInt8 :=
  piece (direntBytes (UInt16.ofNat inum) (cstr name)) 0 DIRENT

/-- The entries of the files, which get the inode numbers from `inum` on. -/
def entries : ℕ → List HostFile → List UInt8
  | _, [] => []
  | inum, f :: fs => entryBytes inum (shortName f.path) ++ entries (inum + 1) fs

def rootBytes (files : List HostFile) : List UInt8 :=
  entryBytes ROOTINO dot ++ entryBytes ROOTINO dotdot ++ entries 2 files

/-- The bytes of inode `j`: the root directory is inode 1, the files follow. -/
def contents (files : List HostFile) (j : ℕ) : List UInt8 :=
  if j = ROOTINO then rootBytes files
  else if j < 2 then [] else (files[j - 2]?.map fileBytes).getD []

theorem entries_concat (inum : ℕ) (fs : List HostFile) (f : HostFile) :
    entries inum (fs ++ [f]) = entries inum fs ++ entryBytes (inum + fs.length) (shortName f.path) := by
  induction fs generalizing inum with
  | nil => simp [entries]
  | cons g gs ih =>
    rw [List.cons_append, entries, ih (inum + 1), entries, List.append_assoc, List.length_cons]
    congr 3
    omega

theorem length_entries (inum : ℕ) (fs : List HostFile) : (entries inum fs).length = DIRENT * fs.length := by
  induction fs generalizing inum with
  | nil => rfl
  | cons g gs ih =>
    rw [entries, List.length_append, ih, entryBytes, length_piece, List.length_cons]
    ring

theorem length_rootBytes (fs : List HostFile) : (rootBytes fs).length = DIRENT * (fs.length + 2) := by
  unfold rootBytes entryBytes
  rw [List.length_append, List.length_append, length_piece, length_piece, length_entries]
  ring

theorem contents_root (fs : List HostFile) : contents fs ROOTINO = rootBytes fs := rfl

theorem contents_file (fs : List HostFile) (k : ℕ) :
    contents fs (k + 2) = (fs[k]?.map fileBytes).getD [] := rfl

theorem contents_new (fs : List HostFile) : contents fs (fs.length + 2) = [] := by
  rw [contents_file, List.getElem?_eq_none (Nat.le_refl _)]
  rfl

theorem contents_concat (fs : List HostFile) (f : HostFile) :
    contents (fs ++ [f]) = Function.update (Function.update (contents fs) ROOTINO
      (rootBytes fs ++ entryBytes (fs.length + 2) (shortName f.path))) (fs.length + 2) (fileBytes f) := by
  funext j
  match j with
  | 0 => rfl
  | 1 =>
    have hne : (1 : ℕ) ≠ fs.length + 2 := by omega
    rw [update_of_ne hne]
    show rootBytes (fs ++ [f]) = _
    rw [show (1 : ℕ) = ROOTINO from rfl, update_self]
    unfold rootBytes
    rw [entries_concat, Nat.add_comm 2, List.append_assoc (_ ++ _)]
  | k + 2 =>
    rw [contents_file]
    by_cases hk : k = fs.length
    · rw [hk, update_self, List.getElem?_concat_length]
      rfl
    · have hne : k + 2 ≠ fs.length + 2 := by omega
      have hroot : k + 2 ≠ ROOTINO := by
        show k + 2 ≠ 1
        omega
      rw [update_of_ne hne, update_of_ne hroot, contents_file]
      rcases Nat.lt_or_ge k fs.length with hlt | hge
      · rw [List.getElem?_append_left hlt]
      · rw [List.getElem?_eq_none (by simp; omega), List.getElem?_eq_none hge]

theorem contents_le (fs gs : List HostFile) (j : ℕ) : (contents fs j).length ≤ (contents (fs ++ gs) j).length := by
  match j with
  | 0 => exact Nat.le_refl _
  | 1 =>
    show (rootBytes fs).length ≤ (rootBytes (fs ++ gs)).length
    rw [length_rootBytes, length_rootBytes, List.length_append]
    exact Nat.mul_le_mul_left _ (by omega)
  | k + 2 =>
    rw [contents_file, contents_file]
    rcases Nat.lt_or_ge k fs.length with hlt | hge
    · rw [List.getElem?_append_left hlt]
    · rw [List.getElem?_eq_none hge]
      exact Nat.zero_le _

theorem total_le {N' : ℕ → List UInt8} (h : ∀ j, (N j).length ≤ (N' j).length) : total N ≤ total N' :=
  Nat.add_le_add_left (Finset.sum_le_sum fun j _ => nodeBlocks_mono (h j)) _

/-! ### Why a run aborts -/

inductive Fails (files : List HostFile) : Abort → Prop where
  | slash (f : HostFile) (hf : f ∈ files) (h : slashChar ∈ baseName f.path) : Fails files .slash
  | cannotOpen (f : HostFile) (hf : f ∈ files) (h : f.reads = none) : Fails files .cannotOpen
  | maxfile (f : HostFile) (hf : f ∈ files) (h : MAXFILE * BSIZE < (fileBytes f).length) :
      Fails files .maxfile
  | read (h : FSSIZE < total (contents files)) : Fails files .read

theorem Fails.append {fs : List HostFile} {e : Abort} (h : Fails fs e) (gs : List HostFile) : Fails (fs ++ gs) e := by
  cases h with
  | slash f hf h => exact .slash f (List.mem_append_left _ hf) h
  | cannotOpen f hf h => exact .cannotOpen f (List.mem_append_left _ hf) h
  | maxfile f hf h => exact .maxfile f (List.mem_append_left _ hf) h
  | read h => exact .read (lt_of_lt_of_le h (total_le (contents_le fs gs)))

theorem Refused.append {l l' : List UInt8} {e : Abort} (hi : i < NINODES) (h : Refused i N l e) :
    Refused i N (l ++ l') e := by
  have hlen : (N i ++ l).length ≤ (N i ++ (l ++ l')).length := by
    rw [← List.append_assoc]
    exact (List.prefix_append _ _).length_le
  rcases h with ⟨rfl, h⟩ | ⟨rfl, h⟩
  · exact .inl ⟨rfl, lt_of_lt_of_le h hlen⟩
  · exact .inr ⟨rfl, lt_of_lt_of_le h (total_mono hi hlen)⟩

/-! ### The input files -/

theorem piece_cstr (bytes : List UInt8) : piece (cstr bytes) 0 bytes.length = bytes := by
  refine List.ext_getElem (length_piece _ _ _) fun k h₁ h₂ => ?_
  simp [piece, cstr, List.getElem?_eq_getElem h₂]

theorem copyFile_spec (reads : List Chunk) (h : Good s N) (hi : i < NINODES) (ht : (dinode sb s.disk i).type ≠ 0) :
    Wp (copyFile i reads) s (fun _ t => Good t (Function.update N i (N i ++ reads.flatMap Chunk.bytes)) ∧ Kept i s t ∧
        SameKind (dinode sb s.disk i) (dinode sb t.disk i) ∧ t.freeinode = s.freeinode)
      (Refused i N (reads.flatMap Chunk.bytes)) := by
  induction reads generalizing s N with
  | nil =>
    refine wp_pure ⟨?_, .refl i s, ⟨rfl, rfl⟩, rfl⟩
    rw [List.flatMap_nil, List.append_nil, Function.update_eq_self]
    exact h
  | cons c cs ih =>
    have hfirst := iappend_spec h hi ht (cstr c.bytes) c.bytes.length
    rw [piece_cstr] at hfirst
    rw [List.flatMap_cons]
    refine wp_seq (wp_mono hfirst (fun _ _ hr => hr) fun e he => he.append hi) ?_
    rintro _ t ⟨hgood, hkept, hkind, hnode⟩
    refine wp_mono (ih hgood (by rw [hkind.1]; exact ht)) ?_ fun e he => he.later
    rintro _ u ⟨hgood', hkept', hkind', hnode'⟩
    rw [update_self, update_idem, List.append_assoc] at hgood'
    exact ⟨hgood', hkept.trans hkept', ⟨hkind'.1.trans hkind.1, hkind'.2.trans hkind.2⟩,
      hnode'.trans hnode⟩

/-- The type of inode `j` of an image with `n` files. -/
def typeOf (n j : ℕ) : UInt16 :=
  if j = 0 then 0 else if j = ROOTINO then T_DIR else if j < n + 2 then T_FILE else 0

/-- **The image so far**, with the entries and the bytes of `files`. -/
structure Built (s : Img) (files : List HostFile) : Prop where
  good : Good s (contents files)
  freeinode : s.freeinode = files.length + 2
  type : ∀ j, j < places → (dinode sb s.disk j).type = typeOf files.length j
  nlink : ∀ j, j < places → (dinode sb s.disk j).type ≠ 0 → (dinode sb s.disk j).nlink = 1
  low : ∀ b, b < sb.inodestart → s.disk b = if b = 1 then putFields 0 sbFields fun _ => 0 else fun _ => 0

theorem typeOf_new (n : ℕ) : typeOf n (n + 2) = 0 := by
  simp [typeOf, ROOTINO]

theorem typeOf_root (n : ℕ) : typeOf n ROOTINO = T_DIR := rfl

theorem typeOf_succ (n j : ℕ) : typeOf (n + 1) j = if j = n + 2 then T_FILE else typeOf n j := by
  unfold typeOf ROOTINO
  by_cases h₀ : j = 0
  · rw [if_pos h₀, if_pos h₀, if_neg (by omega)]
  by_cases h₁ : j = 1
  · rw [if_neg h₀, if_neg h₀, if_pos h₁, if_pos h₁, if_neg (by omega)]
  rw [if_neg h₀, if_neg h₀, if_neg h₁, if_neg h₁]
  by_cases h₂ : j = n + 2
  · rw [if_pos h₂, if_pos (by omega)]
  · rw [if_neg h₂]
    exact if_congr (by omega) rfl rfl

theorem addFile_spec {fs : List HostFile} (h : Built s fs) (hroom : fs.length + 2 < NINODES)
    (f : HostFile) : Wp (addFile ROOTINO f) s (fun _ t => Built t (fs ++ [f])) (Fails (fs ++ [f])) := by
  have hmem : f ∈ fs ++ [f] := List.mem_append_right _ (List.mem_singleton.mpr rfl)
  have hnode := h.freeinode
  have hroot : ROOTINO < NINODES := by decide
  have hne : ROOTINO ≠ fs.length + 2 := by
    show 1 ≠ fs.length + 2
    omega
  unfold addFile
  by_cases hslash : slashChar ∈ baseName f.path
  · rw [if_pos hslash]
    exact wp_panic (.slash f hmem hslash)
  rw [if_neg hslash]
  cases hreads : f.reads with
  | none => exact wp_panic (.cannotOpen f hmem hreads)
  | some reads =>
  have hbytes : fileBytes f = reads.flatMap Chunk.bytes := by
    rw [fileBytes, hreads]
    rfl
  -- the inode
  have halloc : Wp (ialloc T_FILE) s _ (Fails (fs ++ [f])) := ialloc_spec h.good (by rwa [hnode])
    (by rw [hnode]; exact contents_new fs)
    (by rw [hnode, h.type _ (lt_places hroom), typeOf_new]) T_FILE
  rw [hnode] at halloc
  refine wp_seq halloc ?_
  rintro _ t ⟨rfl, hgood, hkept, hnew, hcount⟩
  -- the entry
  have htroot : (dinode sb t.disk ROOTINO).type = T_DIR := by
    rw [hkept.other _ (lt_places hroot) hne, h.type _ (lt_places hroot), typeOf_root]
  have hentry := iappend_spec hgood hroot (by rw [htroot]; decide)
    (direntBytes (UInt16.ofNat (fs.length + 2)) (cstr (shortName f.path))) DIRENT
  refine wp_seq (wp_mono hentry (fun _ _ hr => hr) ?_) ?_
  · rintro e (⟨rfl, hmax⟩ | ⟨rfl, hfull⟩)
    · -- the root directory has few entries
      rw [contents_root, List.length_append, length_rootBytes, length_piece] at hmax
      have hmax' : 268 * 1024 < 16 * (fs.length + 2) + 16 := hmax
      have hroom' : fs.length + 2 < 200 := hroom
      omega
    · refine .read (lt_of_lt_of_le hfull (total_le fun j => ?_))
      rw [contents_concat]
      by_cases hj : j = fs.length + 2
      · rw [hj, update_of_ne hne.symm, contents_new]
        exact Nat.zero_le _
      · rw [update_of_ne hj]
        exact Nat.le_refl _
  rintro _ u ⟨hgood', hkept', hkind, hcount'⟩
  rw [contents_root] at hgood'
  -- the bytes
  have hunew : dinode sb u.disk (fs.length + 2) = newDinode T_FILE := by
    rw [hkept'.other _ (lt_places hroom) hne.symm, hnew]
  have hcopy := copyFile_spec reads hgood' hroom (by rw [hunew]; show T_FILE ≠ 0; decide)
  have hfinal : Function.update (Function.update (contents fs) ROOTINO (rootBytes fs ++
      piece (direntBytes (UInt16.ofNat (fs.length + 2)) (cstr (shortName f.path))) 0 DIRENT))
      (fs.length + 2) (reads.flatMap Chunk.bytes) = contents (fs ++ [f]) := by
    rw [contents_concat, hbytes]
    rfl
  rw [update_of_ne hne.symm, contents_new, List.nil_append, hfinal] at hcopy
  refine wp_mono hcopy ?_ ?_
  · rintro _ v ⟨hgood'', hkept'', hkind', hcount''⟩
    have hold : ∀ j, j < places → j ≠ ROOTINO → j ≠ fs.length + 2 →
        dinode sb v.disk j = dinode sb s.disk j := fun j hj h₁ h₂ => by
      rw [hkept''.other j hj h₂, hkept'.other j hj h₁, hkept.other j hj h₂]
    have hvroot : SameKind (dinode sb s.disk ROOTINO) (dinode sb v.disk ROOTINO) := by
      rw [hkept''.other _ (lt_places hroot) hne, ← hkept.other _ (lt_places hroot) hne]
      exact hkind
    have hvnew : SameKind (newDinode T_FILE) (dinode sb v.disk (fs.length + 2)) := by
      rw [← hunew]
      exact hkind'
    refine ⟨hgood'', ?_, ?_, ?_, ?_⟩
    · rw [hcount'', hcount', hcount, List.length_append]
      rfl
    · intro j hj
      rw [List.length_append, List.length_singleton, typeOf_succ]
      by_cases h₂ : j = fs.length + 2
      · rw [if_pos h₂, h₂]
        exact hvnew.1
      rw [if_neg h₂, ← h.type j hj]
      by_cases h₁ : j = ROOTINO
      · rw [h₁]
        exact hvroot.1
      · rw [hold j hj h₁ h₂]
    · intro j hj
      by_cases h₂ : j = fs.length + 2
      · intro _
        rw [h₂]
        exact hvnew.2
      by_cases h₁ : j = ROOTINO
      · rw [h₁, hvroot.1, hvroot.2, ← h₁]
        exact h.nlink j hj
      · rw [hold j hj h₁ h₂]
        exact h.nlink j hj
    · intro b hb
      rw [hkept''.low b hb, hkept'.low b hb, hkept.low b hb]
      exact h.low b hb
  · rintro e (⟨rfl, hmax⟩ | ⟨rfl, hfull⟩)
    · refine .maxfile f hmem ?_
      rw [update_of_ne hne.symm, contents_new, List.nil_append, ← hbytes] at hmax
      exact hmax
    · rw [update_of_ne hne.symm, contents_new, List.nil_append, hfinal] at hfull
      exact .read hfull

theorem addFiles_spec {fs : List HostFile} (gs : List HostFile) (h : Built s fs)
    (hroom : (fs ++ gs).length + 2 ≤ NINODES) :
    Wp (addFiles ROOTINO gs) s (fun _ t => Built t (fs ++ gs)) (Fails (fs ++ gs)) := by
  induction gs generalizing s fs with
  | nil =>
    refine wp_pure ?_
    rw [List.append_nil]
    exact h
  | cons g gs ih =>
    have hassoc : fs ++ g :: gs = fs ++ [g] ++ gs := by simp
    rw [hassoc] at hroom ⊢
    refine wp_seq (wp_mono (addFile_spec h ?_ g) (fun _ _ hr => hr) fun e he => he.append gs) ?_
    · rw [List.length_append, List.length_append, List.length_singleton] at hroom
      omega
    · intro _ t ht
      exact ih ht hroom

/-! ### The run -/

theorem typeOf_zero (j : ℕ) : typeOf 0 j = if j = ROOTINO then T_DIR else 0 := by
  unfold typeOf ROOTINO
  by_cases h₀ : j = 0
  · rw [if_pos h₀, if_neg (by omega)]
  by_cases h₁ : j = 1
  · rw [if_neg h₀, if_pos h₁, if_pos h₁]
  · rw [if_neg h₀, if_neg h₁, if_neg (by omega), if_neg h₁]

theorem dinode_blank (j : ℕ) : dinode sb blank.disk j = ⟨0, 0, 0, 0, 0, fun _ => 0⟩ := by
  have hget : ∀ off w, getLE (fun _ => (0 : UInt8)) off w = 0 := by
    intro off w
    induction w generalizing off with
    | zero => rfl
    | succ w ih =>
      rw [getLE, ih]
      rfl
  show readDinode (fun _ => 0) (j % IPB) = _
  unfold readDinode
  simp only [hget]
  rfl

theorem slots_blank (disk : Disk) (o : ℕ × Slot) : slots sb disk (dinode sb blank.disk) o = none := by
  unfold slots
  refine if_neg fun hc => hc.2.1 ?_
  rw [dinode_blank]

theorem total_nil : total (fun _ => []) = nmeta := by
  have hz : nodeBlocks ([] : List UInt8).length = 0 := by decide
  have hsum : ∑ j ∈ Finset.range NINODES, nodeBlocks ([] : List UInt8).length = 0 :=
    Finset.sum_eq_zero fun _ _ => hz
  rw [total, hsum, Nat.add_zero]

theorem good_blank : Good blank fun _ => [] := by
  refine ⟨⟨⟨rfl, ?_, Nat.le_refl _, by decide, fun _ _ => rfl⟩, ?_, ?_⟩, ?_⟩
  · refine ⟨⟨?_, ?_⟩, ?_⟩
    · intro o o' r ho
      rw [slots_blank] at ho
      cases ho
    · intro r
      refine iff_of_false ?_ ?_
      · rintro ⟨hdata, hbit⟩
        rw [bitOf_withMap blank hdata.2, decide_eq_true_eq] at hbit
        exact absurd hdata.1 (Nat.not_le.mpr hbit)
      · rintro ⟨o, ho⟩
        rw [slots_blank] at ho
        cases ho
    · intro b hb
      have hlt : b < FSSIZE := lt_trans hb (by decide)
      rw [bitOf_withMap blank hlt]
      exact decide_eq_true hb
  · exact total_nil.symm
  · intro j _
    refine ⟨Nat.zero_le _, ?_, ?_, ?_⟩
    · intro bn _
      exact iff_of_true (slots_blank _ _) (Nat.zero_le _)
    · exact iff_of_true (slots_blank _ _) (Nat.zero_le _)
    · intro x _
      exact cell_none (slots_blank _ _) _
  · intro j _
    rw [dinode_blank]
    rfl

theorem good_super (h : Good s N) (blk : Block) :
    Good { s with disk := Function.update s.disk 1 blk, sectors := max s.sectors (1 + 1) } N := by
  have hsec : max s.sectors (1 + 1) = s.sectors := by
    rw [h.layout.base.sectors]
    rfl
  rw [hsec]
  have hdata : ∀ b, nmeta ≤ b → Function.update s.disk 1 blk b = s.disk b := fun b hb =>
    update_of_ne (ne_of_gt (lt_of_lt_of_le (by decide) hb)) _ _
  have hdin : ∀ j, dinode sb (Function.update s.disk 1 blk) j = dinode sb s.disk j := fun j => by
    refine dinode_congr (update_of_ne ?_ _ _)
    have hge : sb.inodestart ≤ sb.iblock j := Nat.le_add_left _ _
    have hlt : 1 < sb.inodestart := by decide
    omega
  refine ⟨h.layout.congr rfl rfl hdata ?_, fun j hj => ?_⟩
  · refine slots_of_inodes h.layout.base hdata fun j _ => ?_
    exact ⟨congrArg Dinode.type (hdin j), congrArg Dinode.addrs (hdin j)⟩
  · show (dinode sb (Function.update s.disk 1 blk) j).size.toNat = _
    rw [hdin]
    exact h.size j hj

/-- **The finished image.** -/
structure Image (v : Img) (files : List HostFile) : Prop where
  own : Own sb v.disk (dinode sb v.disk)
  shape : ∀ j, j < NINODES → Shape v.disk (dinode sb v.disk) j (contents files j)
  size : ∀ j, j < NINODES → j ≠ ROOTINO → (dinode sb v.disk j).size.toNat = (contents files j).length
  root : (dinode sb v.disk ROOTINO).size.toNat = ((rootBytes files).length / BSIZE + 1) * BSIZE
  type : ∀ j, j < places → (dinode sb v.disk j).type = typeOf files.length j
  nlink : ∀ j, j < places → (dinode sb v.disk j).type ≠ 0 → (dinode sb v.disk j).nlink = 1
  freeinode : v.freeinode = files.length + 2
  low : ∀ b, b < sb.inodestart → v.disk b = if b = 1 then putFields 0 sbFields fun _ => 0 else fun _ => 0
  bit : ∀ b, b < FSSIZE → bitOf sb v.disk b = decide (b < total (contents files))

theorem dinode_map (s : Img) (hj : j < places) : dinode sb (withMap s) j = dinode sb s.disk j :=
  dinode_congr (withMap_data s (iblock_bounds hj).2.ne)

theorem slots_map (s : Img) (o : ℕ × Slot) :
    slots sb (withMap s) (dinode sb (withMap s)) o = slots sb (withMap s) (dinode sb s.disk) o := by
  unfold slots
  by_cases ho : o.1 < NINODES
  · rw [dinode_map s (lt_places ho)]
  · rw [if_neg fun hc => ho hc.1, if_neg fun hc => ho hc.1]

theorem finish_spec {files : List HostFile} (h : Built s files)
    (hroom : files.length + 2 ≤ NINODES) :
    Wp (do
      let din ← rinode ROOTINO
      winode ROOTINO { din with size := UInt32.ofNat ((din.size.toNat / BSIZE + 1) * BSIZE) }
      balloc (← gets Img.freeblock)) s (fun _ v => Image v files) E := by
  have hroot : ROOTINO < NINODES := by decide
  have hsec := h.good.layout.base.sectors
  refine wp_bind (wp_rinode hsec hroot (wp_bind (wp_winode hsec hroot (wp_bind (wp_gets ?_)))))
  set d : Dinode := { dinode sb s.disk ROOTINO with
    size := UInt32.ofNat (((dinode sb s.disk ROOTINO).size.toNat / BSIZE + 1) * BSIZE) } with hd
  have hused : (setInode s ROOTINO d).freeblock < BSIZE * 8 :=
    lt_of_le_of_lt h.good.layout.base.le (by decide)
  unfold balloc
  rw [if_pos hused]
  refine wp_wsect ?_
  have hmax : max (setInode s ROOTINO d).sectors (sb.bmapstart + 1) = s.sectors := by
    show max s.sectors (sb.bmapstart + 1) = s.sectors
    rw [hsec]
    rfl
  rw [hmax]
  set u := setInode s ROOTINO d with hu
  have hdin : dinode sb u.disk = Function.update (dinode sb s.disk) ROOTINO d := dinode_setInode s _ d
  have hdroot : dinode sb u.disk ROOTINO = d := by rw [hdin, update_self]
  have hdother : ∀ j, j ≠ ROOTINO → dinode sb u.disk j = dinode sb s.disk j := fun j hj => by
    rw [hdin, update_of_ne hj]
  have hdata : ∀ b, nmeta ≤ b → u.disk b = s.disk b := fun b hb =>
    setInode_outside s hroot d (.inr hb)
  have hlayout : Layout u (dinode sb u.disk) (contents files) := by
    refine h.good.layout.congr rfl rfl hdata (slots_of_inodes h.good.layout.base hdata fun j _ => ?_)
    by_cases hj : j = ROOTINO
    · rw [hj, hdroot]
      exact ⟨rfl, rfl⟩
    · rw [hdother j hj]
      exact ⟨rfl, rfl⟩
  have hkind : ∀ j, SameKind (dinode sb s.disk j) (dinode sb u.disk j) := by
    intro j
    by_cases hj : j = ROOTINO
    · rw [hj, hdroot]
      exact ⟨rfl, rfl⟩
    · rw [hdother j hj]
      exact ⟨rfl, rfl⟩
  have hlen : (rootBytes files).length ≤ 16 * 200 := by
    rw [length_rootBytes]
    exact Nat.mul_le_mul_left 16 hroom
  show Image { u with disk := withMap u, sectors := s.sectors } files
  have hslots : slots sb (withMap u) (dinode sb (withMap u)) = slots sb (withMap u) (dinode sb u.disk) :=
    funext (slots_map u)
  refine ⟨?_, ?_, ?_, ?_, ?_, ?_, h.freeinode, ?_, ?_⟩
  · exact own_congr hlayout.base.own hslots fun _ _ => rfl
  · intro j hj
    obtain ⟨h₁, h₂, h₃, h₄⟩ := hlayout.shape j hj
    rw [← hslots] at h₂ h₃
    refine ⟨h₁, h₂, h₃, fun x hx => ?_⟩
    rw [← h₄ x hx]
    unfold fileByte cell
    rw [hslots]
  · intro j hj hne
    show (dinode sb (withMap u) j).size.toNat = _
    rw [dinode_map u (lt_places hj), hdother j hne]
    exact h.good.size j hj
  · show (dinode sb (withMap u) ROOTINO).size.toNat = _
    rw [dinode_map u (lt_places hroot), hdroot]
    show (UInt32.ofNat (((dinode sb s.disk ROOTINO).size.toNat / BSIZE + 1) * BSIZE)).toNat = _
    rw [h.good.size _ hroot, contents_root, UInt32.toNat_ofNat']
    refine Nat.mod_eq_of_lt ?_
    show ((rootBytes files).length / 1024 + 1) * 1024 < 4294967296
    omega
  · intro j hj
    show (dinode sb (withMap u) j).type = _
    rw [dinode_map u hj, (hkind j).1]
    exact h.type j hj
  · intro j hj
    show (dinode sb (withMap u) j).type ≠ 0 → (dinode sb (withMap u) j).nlink = 1
    rw [dinode_map u hj, (hkind j).1, (hkind j).2]
    exact h.nlink j hj
  · intro b hb
    have hne : b ≠ sb.bmapstart := ne_of_lt (lt_trans hb (by decide))
    show withMap u b = _
    rw [withMap_data u hne, setInode_outside s hroot d (.inl hb)]
    exact h.low b hb
  · intro b hb
    show bitOf sb (withMap u) b = _
    rw [bitOf_withMap u hb, hlayout.count]

/-- An entry of the empty root directory, or the second one, always has room. -/
theorem root_not_refused {l l' : List UInt8} (hl : l.length + l'.length ≤ BSIZE) {e : Abort} :
    ¬ Refused ROOTINO (Function.update (fun _ => []) ROOTINO l) l' e := by
  have hroot : ROOTINO < NINODES := by decide
  rintro (⟨-, hmax⟩ | ⟨-, hfull⟩)
  · rw [update_self, List.length_append] at hmax
    have hle : BSIZE ≤ MAXFILE * BSIZE := by decide
    omega
  · rw [update_self, update_idem] at hfull
    have hupd := total_update (N := fun _ => []) hroot (l ++ l')
    have hblocks : nodeBlocks (l ++ l').length ≤ nodeBlocks BSIZE :=
      nodeBlocks_mono (by rw [List.length_append]; exact hl)
    have hone : nodeBlocks BSIZE = 1 := by decide
    have hfit : nmeta + 1 ≤ FSSIZE := by decide
    rw [total_nil] at hupd
    omega

theorem built_root (h : Good s fun _ => []) (hnode : s.freeinode = 2)
    (hroot : dinode sb s.disk ROOTINO = newDinode T_DIR)
    (hfree : ∀ j, j < places → j ≠ ROOTINO → (dinode sb s.disk j).type = 0)
    (hlow : ∀ b, b < sb.inodestart →
      s.disk b = if b = 1 then putFields 0 sbFields fun _ => 0 else fun _ => 0)
    {m : Call Unit} {Q : Unit → Img → Prop} (hm : ∀ t, Built t [] → Wp m t Q E) :
    Wp (do
      addEntry ROOTINO ROOTINO dot
      addEntry ROOTINO ROOTINO dotdot
      m) s Q E := by
  have hlt : ROOTINO < NINODES := by decide
  have hN : (fun _ => []) = Function.update (fun _ => ([] : List UInt8)) ROOTINO [] :=
    (Function.update_eq_self ROOTINO _).symm
  have ht : (dinode sb s.disk ROOTINO).type ≠ 0 := by
    rw [hroot]
    show T_DIR ≠ 0
    decide
  have hlen : ∀ name, (entryBytes ROOTINO name).length = DIRENT := fun name => length_piece _ _ _
  have hfirst := iappend_spec h hlt ht (direntBytes (UInt16.ofNat ROOTINO) (cstr dot)) DIRENT
  refine wp_seq (wp_mono hfirst (fun _ _ hr => hr) fun e he => ?_) ?_
  · rw [hN] at he
    exact absurd he (root_not_refused (by rw [length_piece]; decide))
  rintro _ t ⟨hgood, hkept, hkind, hcount⟩
  rw [List.nil_append] at hgood
  have hsecond := iappend_spec hgood hlt (by rw [hkind.1]; exact ht)
    (direntBytes (UInt16.ofNat ROOTINO) (cstr dotdot)) DIRENT
  refine wp_seq (wp_mono hsecond (fun _ _ hr => hr) fun e he => ?_) ?_
  · exact absurd he (root_not_refused (by rw [length_piece, length_piece]; decide))
  rintro _ u ⟨hgood', hkept', hkind', hcount'⟩
  rw [update_self, update_idem] at hgood'
  have hcontents : Function.update (fun _ => []) ROOTINO
      (piece (direntBytes (UInt16.ofNat ROOTINO) (cstr dot)) 0 DIRENT ++
        piece (direntBytes (UInt16.ofNat ROOTINO) (cstr dotdot)) 0 DIRENT) = contents [] := by
    funext j
    by_cases hj : j = ROOTINO
    · rw [hj, update_self, contents_root, rootBytes, entries, List.append_nil]
      rfl
    · rw [update_of_ne hj, contents, if_neg hj]
      simp
  rw [hcontents] at hgood'
  have hu : SameKind (newDinode T_DIR) (dinode sb u.disk ROOTINO) := by
    rw [← hroot]
    exact ⟨hkind'.1.trans hkind.1, hkind'.2.trans hkind.2⟩
  have hother : ∀ j, j < places → j ≠ ROOTINO → (dinode sb u.disk j).type = 0 := by
    intro j hj hne
    rw [hkept'.other j hj hne, hkept.other j hj hne]
    exact hfree j hj hne
  refine hm u ⟨hgood', ?_, ?_, ?_, ?_⟩
  · rw [hcount', hcount, hnode]
    rfl
  · intro j hj
    rw [List.length_nil, typeOf_zero]
    by_cases hne : j = ROOTINO
    · rw [if_pos hne, hne, hu.1]
      rfl
    · rw [if_neg hne]
      exact hother j hj hne
  · intro j hj hne
    by_cases hj' : j = ROOTINO
    · rw [hj', hu.2]
      rfl
    · exact absurd (hother j hj hj') hne
  · intro b hb
    rw [hkept'.low b hb, hkept.low b hb]
    exact hlow b hb

/-- **The run of `mkfs`.**  The state is a variable, since unification would run `main` on `blank`. -/
theorem main_spec (files : List HostFile) (hs : s = blank) (hroom : files.length + 2 ≤ NINODES) :
    Wp (main files) s (fun _ v => Image v files) (Fails files) := by
  obtain ⟨blk, hblk⟩ : ∃ blk : Block, blk = putFields 0 sbFields fun _ => 0 := ⟨_, rfl⟩
  have hblank : Good s fun _ => [] := hs ▸ good_blank
  have hnode : s.freeinode = ROOTINO := by
    rw [hs]
    rfl
  have hzero : ∀ b, s.disk b = fun _ => 0 := fun b => by
    rw [hs]
    rfl
  have hfree : ∀ j, (dinode sb (Function.update s.disk 1 blk) j).type = 0 := fun j => by
    have hne : sb.iblock j ≠ 1 := by
      have hge : sb.inodestart ≤ sb.iblock j := Nat.le_add_left _ _
      have hlt : 1 < sb.inodestart := by decide
      omega
    rw [dinode_congr (update_of_ne hne _ _), hs, dinode_blank]
  unfold main
  rw [← hblk]
  refine wp_bind (wp_wsect ?_)
  have halloc : Wp (ialloc T_DIR) { s with
      disk := Function.update s.disk 1 blk, sectors := max s.sectors (1 + 1) } _ (Fails files) :=
    ialloc_spec (good_super hblank blk) (by rw [hnode]; decide) rfl (hfree _) T_DIR
  refine wp_seq halloc ?_
  rintro r t ⟨rfl, hgood, hkept, hnew, hcount⟩
  rw [hnode] at hkept hnew hcount ⊢
  rw [if_pos rfl]
  refine built_root hgood hcount hnew ?_ ?_ ?_
  · intro j hj hne
    rw [hkept.other j hj hne]
    exact hfree j
  · intro b hb
    rw [hkept.low b hb]
    show Function.update s.disk 1 blk b = _
    by_cases h₁ : b = 1
    · rw [if_pos h₁, h₁, update_self, hblk]
    · rw [if_neg h₁, update_of_ne h₁, hzero]
  · intro u hu
    have hfiles := addFiles_spec files hu (by rwa [List.nil_append])
    rw [List.nil_append] at hfiles
    exact wp_seq hfiles fun _ v hv => finish_spec hv hroom

end Xv6.Mkfs
