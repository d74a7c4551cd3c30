import Mathlib.Data.List.GetD
import Xv6.MkfsBlocks

/-!
# Appending to files of the image

`Layout s D N` says that the files of the image, with inodes `D`, hold the bytes `N`: each has exactly the
blocks its length needs, its bytes are those of `N` and zeros behind, and `freeblock` counts the blocks of
all of them.  `iappend` extends one file (`iappend_spec`); it aborts only where the file would exceed
`MAXFILE` blocks or the image its size.
-/

namespace Xv6.Mkfs

open Xv6.Params Xv6.LittleEndian Xv6.Panics Xv6.FsLayout Xv6.FsMapping
open Xv6.FsOwnership Xv6.FsBmap Xv6.FsContent Xv6.FsFiles
open Xv6.LogMachine (Block Disk)
open Function (update_self update_of_ne update_idem)

variable {s t u : Img} {D D' D'' : ℕ → Dinode} {N : ℕ → List UInt8} {i : ℕ}

/-- The blocks of inode `i` are the ones that `bytes` needs, and hold them. -/
structure Shape (disk : Disk) (D : ℕ → Dinode) (i : ℕ) (bytes : List UInt8) : Prop where
  le : bytes.length ≤ MAXFILE * BSIZE
  slot : ∀ bn, bn < MAXFILE → (slots sb disk D (i, fileSlot bn) = none ↔ bytes.length ≤ bn * BSIZE)
  indirect : slots sb disk D (i, Slot.indirect) = none ↔ bytes.length ≤ NDIRECT * BSIZE
  byte : ∀ x, x < MAXFILE * BSIZE → fileByte sb disk D i x = bytes.getD x 0

/-- Data blocks and indirect block of a file of `len` bytes. -/
def nodeBlocks (len : ℕ) : ℕ := blocks len + if NDIRECT * BSIZE < len then 1 else 0

/-- The blocks of the image that hold metadata or files with contents `N`. -/
def total (N : ℕ → List UInt8) : ℕ := nmeta + ∑ j ∈ Finset.range NINODES, nodeBlocks (N j).length

structure Layout (s : Img) (D : ℕ → Dinode) (N : ℕ → List UInt8) : Prop where
  base : Base s D
  count : s.freeblock = total N
  shape : ∀ j, j < NINODES → Shape (withMap s) D j (N j)

/-! ### Counting blocks -/

theorem nodeBlocks_mono {a b : ℕ} (h : a ≤ b) : nodeBlocks a ≤ nodeBlocks b := by
  unfold nodeBlocks blocks
  have hdiv : (a + (BSIZE - 1)) / BSIZE ≤ (b + (BSIZE - 1)) / BSIZE := Nat.div_le_div_right (by omega)
  split <;> split <;> omega

theorem nodeBlocks_piece {len n : ℕ} (hpos : 0 < n) (hn : n ≤ (len / BSIZE + 1) * BSIZE - len) :
    nodeBlocks (len + n) = nodeBlocks len + ((if len ≤ len / BSIZE * BSIZE then 1 else 0) +
      if NDIRECT ≤ len / BSIZE ∧ len ≤ NDIRECT * BSIZE then 1 else 0) := by
  have hB : BSIZE = 1024 := rfl
  have hD : NDIRECT = 12 := rfl
  rw [hB] at hn
  unfold nodeBlocks blocks
  rw [hB, hD]
  split <;> split <;> split <;> split <;> omega

theorem total_update (hi : i < NINODES) (bytes : List UInt8) :
    total (Function.update N i bytes) + nodeBlocks (N i).length = total N + nodeBlocks bytes.length := by
  have hmem : i ∈ Finset.range NINODES := Finset.mem_range.mpr hi
  have hother : ∀ j ∈ (Finset.range NINODES).erase i,
      nodeBlocks (Function.update N i bytes j).length = nodeBlocks (N j).length := fun j hj => by
    rw [update_of_ne (Finset.ne_of_mem_erase hj)]
  unfold total
  rw [← Finset.add_sum_erase _ _ hmem, ← Finset.add_sum_erase _ (fun j => nodeBlocks (N j).length) hmem,
    Finset.sum_congr rfl hother, update_self]
  omega

theorem total_mono (hi : i < NINODES) {l l' : List UInt8} (h : l.length ≤ l'.length) :
    total (Function.update N i l) ≤ total (Function.update N i l') := by
  have h₁ := total_update (N := N) hi l
  have h₂ := total_update (N := N) hi l'
  have h₃ := nodeBlocks_mono h
  omega

/-- The cost of the next piece, read off the shape of the file. -/
theorem Layout.cost (h : Layout s D N) (hi : i < NINODES) (hmax : (N i).length / BSIZE < MAXFILE) :
    cost sb (withMap s) D i ((N i).length / BSIZE) = (if (N i).length ≤ (N i).length / BSIZE * BSIZE then 1 else 0) +
        if NDIRECT ≤ (N i).length / BSIZE ∧ (N i).length ≤ NDIRECT * BSIZE then 1 else 0 := by
  have hs := h.shape i hi
  unfold FsBmap.cost
  congr 1
  · exact if_congr (hs.slot _ hmax) rfl rfl
  · exact if_congr (and_congr Iff.rfl hs.indirect) rfl rfl

/-- Where the image is full, a file with a longer `bytes` does not fit. -/
theorem Layout.full (h : Layout s D N) (hi : i < NINODES) (hmax : (N i).length / BSIZE < MAXFILE)
    {bytes : List UInt8} (hlt : (N i).length < bytes.length)
    (hfull : Full i ((N i).length / BSIZE) s D) : FSSIZE < total (Function.update N i bytes) := by
  have hB : BSIZE = 1024 := rfl
  have hpiece : nodeBlocks ((N i).length + 1) = _ := nodeBlocks_piece (by omega) (by rw [hB]; omega)
  have hmono := nodeBlocks_mono (show (N i).length + 1 ≤ bytes.length from hlt)
  have hupd := total_update (N := N) hi bytes
  rw [Full, h.cost hi hmax, h.count] at hfull
  omega

/-! ### Changes that keep the files -/

theorem data_of_slots (h : Base s D) {o : ℕ × Slot} {c : ℕ} (hc : slots sb (withMap s) D o = some c) :
    nmeta ≤ c ∧ c < s.freeblock := by
  have hdata := h.own.isData hc
  have hbit := h.own.bit hc
  rw [bitOf_withMap s hdata.2, decide_eq_true_eq] at hbit
  exact ⟨hdata.1, hbit⟩

theorem cell_of_slots (h : Base s D) (hs : slots sb (withMap t) D' = slots sb (withMap s) D)
    (hdata : ∀ b, nmeta ≤ b → t.disk b = s.disk b) (o : ℕ × Slot) (x : ℕ) :
    cell sb (withMap t) D' o x = cell sb (withMap s) D o x := by
  cases hc : slots sb (withMap s) D o with
  | none => rw [cell_none hc, cell_none (by rw [hs, hc])]
  | some c =>
    have hne := bmapstart_ne_data (h.own.isData hc)
    rw [cell_some hc, cell_some (by rw [hs, hc]), withMap_data t hne, withMap_data s hne,
      hdata c (h.own.isData hc).1]

/-- **Frame.**  The files depend on their slots and on the data blocks. -/
theorem Layout.congr (h : Layout s D N) (hsec : t.sectors = s.sectors)
    (hblock : t.freeblock = s.freeblock) (hdata : ∀ b, nmeta ≤ b → t.disk b = s.disk b)
    (hs : slots sb (withMap t) D' = slots sb (withMap s) D) : Layout t D' N := by
  have hge := h.base.ge
  refine ⟨⟨hsec.trans h.base.sectors, ?_, ?_, ?_, ?_⟩, hblock.trans h.count, ?_⟩
  · refine own_congr h.base.own hs fun c hc => ?_
    rw [bitOf_withMap t hc, bitOf_withMap s hc, hblock]
  · rw [hblock]
    exact hge
  · rw [hblock]
    exact h.base.le
  · intro b hb
    rw [hblock] at hb
    rw [hdata b (by omega)]
    exact h.base.zero b hb
  · intro j hj
    have hsh := h.shape j hj
    refine ⟨hsh.le, ?_, ?_, ?_⟩
    · rw [hs]
      exact hsh.slot
    · rw [hs]
      exact hsh.indirect
    · intro x hx
      rw [← hsh.byte x hx]
      exact cell_of_slots h.base hs hdata _ _

theorem slots_of_inodes (h : Base s D) (hdata : ∀ b, nmeta ≤ b → t.disk b = s.disk b)
    (hD : ∀ j, j < NINODES → (D' j).type = (D j).type ∧ (D' j).addrs = (D j).addrs) :
    slots sb (withMap t) D' = slots sb (withMap s) D := by
  funext o
  by_cases hj : o.1 < NINODES
  · obtain ⟨htype, haddrs⟩ := hD o.1 hj
    refine slots_congr htype fun _ ht => ?_
    have hsame : slotAddr (withMap t) (D' o.1) o.2 = slotAddr (withMap t) (D o.1) o.2 := by
      cases o.2 with
      | addr k =>
        show ((D' o.1).addrs k).toNat = ((D o.1).addrs k).toNat
        rw [haddrs]
      | entry j =>
        unfold slotAddr
        rw [haddrs]
    rw [hsame]
    refine slotAddr_congr fun hl x _ => ?_
    have hind : slots sb (withMap s) D (o.1, Slot.indirect) = _ := slots_indirect hj ht hl
    have hd := h.own.isData hind
    have hne := bmapstart_ne_data hd
    rw [withMap_data t hne, withMap_data s hne, hdata _ hd.1]
  · unfold slots
    rw [if_neg fun hc => hj hc.1, if_neg fun hc => hj hc.1]

/-! ### One round -/

theorem getD_append_map (l : List UInt8) (g : ℕ → UInt8) (n x : ℕ) : (l ++ (List.range n).map g).getD x 0 =
      if l.length ≤ x ∧ x < l.length + n then g (x - l.length) else l.getD x 0 := by
  rcases Nat.lt_or_ge x l.length with hlt | hge
  · rw [if_neg (by omega), List.getD_append _ _ _ _ hlt]
  · rw [List.getD_append_right _ _ _ _ hge]
    by_cases hn : x - l.length < n
    · rw [if_pos (by omega), List.getD_eq_getElem _ _ (by simpa using hn)]
      simp
    · rw [if_neg (by omega), List.getD_eq_default _ _ (by simpa using hn),
        List.getD_eq_default _ _ hge]

/-- The files after the append of `bytes` to inode `i`. -/
structure Appended (i : ℕ) (s : Img) (D : ℕ → Dinode) (N : ℕ → List UInt8) (bytes : List UInt8) (t : Img)
    (D' : ℕ → Dinode) : Prop where
  layout : Layout t D' (Function.update N i (N i ++ bytes))
  other : ∀ j, j ≠ i → D' j = D j
  same : SameMeta (D i) (D' i)
  below : ∀ b, b < nmeta → t.disk b = s.disk b
  freeinode : t.freeinode = s.freeinode

theorem Appended.nothing (h : Layout s D N) : Appended i s D N [] s D := by
  refine ⟨?_, fun _ _ => rfl, rfl, fun _ _ => rfl, rfl⟩
  rw [List.append_nil, Function.update_eq_self]
  exact h

theorem Appended.trans {l l' : List UInt8} (h : Appended i s D N l t D')
    (h' : Appended i t D' (Function.update N i (N i ++ l)) l' u D'') : Appended i s D N (l ++ l') u D'' := by
  refine ⟨?_, fun j hj => (h'.other j hj).trans (h.other j hj), h.same.trans h'.same,
    fun b hb => (h'.below b hb).trans (h.below b hb), h'.freeinode.trans h.freeinode⟩
  have hl := h'.layout
  rw [update_self, update_idem, List.append_assoc] at hl
  exact hl

/-- **One round of the loop.**  `n` bytes go into the block of the end of the file. -/
theorem appended_round (h : Layout s D N) (hi : i < NINODES) {x n : ℕ}
    (hmax : (N i).length / BSIZE < MAXFILE) (hp : Placed i ((N i).length / BSIZE) s D x t D')
    (hpos : 0 < n) (hn : n ≤ ((N i).length / BSIZE + 1) * BSIZE - (N i).length) (g : ℕ → UInt8) :
    Appended i s D N ((List.range n).map g) { t with
      disk := Function.update t.disk x
        (setBytes (t.disk x) ((N i).length - (N i).length / BSIZE * BSIZE) n g),
      sectors := max t.sectors (x + 1) } D' := by
  have hB : BSIZE = 1024 := rfl
  have hM : MAXFILE = 268 := rfl
  have hND : NDIRECT = 12 := rfl
  have hg := hp.grows
  have hdata := hg.base.own.isData hp.slot
  have hxlt := data_of_slots hg.base hp.slot
  have hsec : max t.sectors (x + 1) = t.sectors := max_eq_left (hg.base.lt_sectors hdata)
  have hoff : (N i).length - (N i).length / BSIZE * BSIZE = (N i).length % BSIZE := by
    rw [hB]
    omega
  have hmax' : (N i).length / 1024 < 268 := hmax
  have hn' : n ≤ ((N i).length / 1024 + 1) * 1024 - (N i).length := hn
  have hlen : (N i).length < MAXFILE * BSIZE := by
    rw [hB, hM]
    omega
  set blk := setBytes (t.disk x) ((N i).length % BSIZE) n g with hblk
  rw [hsec, hoff]
  -- the store as one into the image with its free map
  have hmap : withMap { t with disk := Function.update t.disk x blk, sectors := t.sectors } =
      Function.update (withMap t) x (setBytes (withMap t x) ((N i).length % BSIZE) n g) := by
    rw [withMap_data t (bmapstart_ne_data hdata)]
    exact withMap_store hdata blk t.sectors t.freeblock
  have hstore := evolves_store hg.base.own hp.slot (fileSlot_ne_indirect _)
    (setBytes (withMap t x) ((N i).length % BSIZE) n g)
  have hslots := slots_store hg.base.own hp.slot (fileSlot_ne_indirect _)
    (setBytes (withMap t x) ((N i).length % BSIZE) n g)
  have hbyte : ∀ j y, y < MAXFILE * BSIZE → fileByte sb
      (Function.update (withMap t) x (setBytes (withMap t x) ((N i).length % BSIZE) n g)) D' j y =
      if j = i ∧ (N i).length ≤ y ∧ y < (N i).length + n then g (y - (N i).length)
      else fileByte sb (withMap s) D j y := by
    intro j y hy
    rw [fileByte_store hg.base.own hlen hp.slot (by rw [hB]; omega) g hy,
      fileByte_of_cells hg.cells]
  refine ⟨⟨⟨hg.base.sectors, ?_, hg.base.ge, hg.base.le, ?_⟩, ?_, ?_⟩, hg.other, hg.same, ?_,
    hg.freeinode⟩
  · rw [hmap]
    exact hstore.own
  · intro b hb
    refine (update_of_ne (fun he => ?_) _ _).trans (hg.base.zero b hb)
    rw [he] at hb
    exact absurd hxlt.2 (Nat.not_lt.mpr hb)
  · have hcost := h.cost hi hmax
    have hpiece := nodeBlocks_piece hpos hn
    have htot := total_update (N := N) hi (N i ++ (List.range n).map g)
    rw [List.length_append, List.length_map, List.length_range] at htot
    have hcount := hp.count
    have hold := h.count
    show t.freeblock = _
    omega
  · intro j hj
    rw [hmap]
    by_cases hji : j = i
    · subst hji
      have hsh := h.shape j hj
      rw [update_self]
      refine ⟨?_, ?_, ?_, ?_⟩
      · rw [List.length_append, List.length_map, List.length_range]
        rw [hB, hM]
        omega
      · intro bn hbn
        rw [hslots, List.length_append, List.length_map, List.length_range]
        by_cases hbf : bn = (N j).length / BSIZE
        · rw [hbf, hp.slot]
          refine iff_of_false (by simp) ?_
          rw [hB]
          omega
        · have hne : (j, fileSlot bn) ≠ (j, fileSlot ((N j).length / BSIZE)) := fun he =>
            hbf (fileSlot_inj hbn hmax (congrArg Prod.snd he))
          have hne' : (j, fileSlot bn) ≠ (j, Slot.indirect) := fun he =>
            fileSlot_ne_indirect bn (congrArg Prod.snd he)
          rw [hB] at hbf
          rw [hp.rest _ hne hne', hsh.slot bn hbn, hB]
          omega
      · rw [hslots, hp.indirect, hsh.indirect, List.length_append, List.length_map, List.length_range, hB, hND]
        omega
      · intro y hy
        rw [hbyte j y hy, getD_append_map, hsh.byte y hy]
        exact if_congr (and_iff_right rfl) rfl rfl
    · rw [update_of_ne hji]
      have hsh := h.shape j hj
      have hrest : ∀ sl, slots sb (withMap t) D' (j, sl) = slots sb (withMap s) D (j, sl) := fun sl =>
        hp.rest _ (fun he => hji (congrArg Prod.fst he)) fun he => hji (congrArg Prod.fst he)
      refine ⟨hsh.le, ?_, ?_, ?_⟩
      · intro bn hbn
        rw [hslots, hrest]
        exact hsh.slot bn hbn
      · rw [hslots, hrest]
        exact hsh.indirect
      · intro y hy
        rw [hbyte j y hy, if_neg fun hc => hji hc.1]
        exact hsh.byte y hy
  · intro b hb
    refine (update_of_ne (fun he => ?_) _ _).trans (hg.below b hb)
    rw [he] at hb
    exact absurd hxlt.1 (Nat.not_le.mpr hb)

/-! ### The loop of `iappend` -/

/-- Why `bytes` cannot be appended to inode `i`. -/
def Refused (i : ℕ) (N : ℕ → List UInt8) (bytes : List UInt8) (e : Abort) : Prop :=
  e = .maxfile ∧ MAXFILE * BSIZE < (N i ++ bytes).length ∨
    e = .read ∧ FSSIZE < total (Function.update N i (N i ++ bytes))

theorem Refused.later {l l' : List UInt8} {e : Abort}
    (h : Refused i (Function.update N i (N i ++ l)) l' e) : Refused i N (l ++ l') e := by
  unfold Refused at h ⊢
  rw [update_self, update_idem, List.append_assoc] at h
  exact h

/-- The bytes `done`, …, `n - 1` of `p`. -/
def piece (p : ℕ → UInt8) (done n : ℕ) : List UInt8 := (List.range n).map fun k => p (done + k)

@[simp] theorem length_piece (p : ℕ → UInt8) (done n : ℕ) : (piece p done n).length = n := by
  simp [piece]

theorem piece_add (p : ℕ → UInt8) (done m n : ℕ) : piece p done (m + n) = piece p done m ++ piece p (done + m) n := by
  unfold piece
  rw [List.range_add, List.map_append, List.map_map]
  congr 1
  refine List.map_congr_left fun k _ => ?_
  show p (done + (m + k)) = p (done + m + k)
  rw [Nat.add_assoc]

theorem appendLoop_spec (p : ℕ → UInt8) (n fuel done : ℕ) (hfuel : n - done ≤ fuel)
    (h : Layout s D N) (hi : i < NINODES) (ht : (D i).type ≠ 0) : Wp (appendLoop p n fuel done (N i).length (D i)) s
      (fun r t => ∃ D', r = ((N i).length + (n - done), D' i) ∧ Appended i s D N (piece p done (n - done)) t D')
      (Refused i N (piece p done (n - done))) := by
  have hB : BSIZE = 1024 := rfl
  induction fuel generalizing done s D N with
  | zero =>
    have hz : n - done = 0 := by omega
    rw [hz]
    exact wp_pure ⟨D, rfl, .nothing h⟩
  | succ fuel ih =>
    unfold appendLoop
    by_cases hd : done < n
    swap
    · have hz : n - done = 0 := by omega
      rw [if_neg hd, hz]
      exact wp_pure ⟨D, rfl, .nothing h⟩
    rw [if_pos hd]
    by_cases hmax : (N i).length / BSIZE < MAXFILE
    swap
    · refine if_neg hmax ▸ wp_panic (.inl ⟨rfl, ?_⟩)
      have hle : MAXFILE * BSIZE ≤ (N i).length :=
        (Nat.le_div_iff_mul_le (by decide)).mp (Nat.le_of_not_lt hmax)
      rw [List.length_append, length_piece]
      omega
    rw [if_pos hmax]
    have hlonger : (N i).length < (N i ++ piece p done (n - done)).length := by
      rw [List.length_append, length_piece]
      omega
    refine wp_seq (wp_mono (blockOf_spec h.base hi ht hmax) (fun _ _ hr => hr) ?_) ?_
    · rintro e ⟨rfl, hfull⟩
      exact .inr ⟨rfl, h.full hi hmax hlonger hfull⟩
    rintro ⟨x, din⟩ t (⟨hx, hsec, hfull⟩ | ⟨D', rfl, hp⟩)
    · -- the block lies behind the image
      refine wp_bind (wp_rsect (fun hlt => ?_) fun _ => .inr ⟨rfl, h.full hi hmax hlonger hfull⟩)
      rw [hsec] at hlt
      exact absurd hlt (Nat.not_lt.mpr hx)
    have hdata := hp.grows.base.own.isData hp.slot
    have hlt := hp.grows.base.lt_sectors hdata
    refine wp_bind (wp_rsect (fun _ => ?_) fun hge => absurd hlt (Nat.not_lt.mpr hge))
    refine wp_bind (wp_wsect ?_)
    set n1 := min (n - done) (((N i).length / BSIZE + 1) * BSIZE - (N i).length) with hn1
    have hpos : 0 < n1 := by
      rw [hn1, hB]
      omega
    have hle : n1 ≤ n - done := min_le_left _ _
    have hround := appended_round h hi hmax hp hpos (min_le_right _ _) fun k => p (done + k)
    have hnext : n - (done + n1) = n - done - n1 := by omega
    have hsplit : piece p done (n - done) = piece p done n1 ++ piece p (done + n1) (n - (done + n1)) := by
      rw [← piece_add, hnext]
      congr 1
      omega
    have ht' : (D' i).type ≠ 0 := by
      rw [hround.same.type]
      exact ht
    have hrest := ih (done + n1) (by omega) hround.layout ht'
    have hlen : (Function.update N i (N i ++ (List.range n1).map fun k => p (done + k)) i).length =
        (N i).length + n1 := by
      rw [update_self, List.length_append, List.length_map, List.length_range]
    rw [hlen] at hrest
    rw [hsplit]
    refine wp_mono hrest ?_ fun e he => he.later
    rintro r u ⟨D'', rfl, happ⟩
    refine ⟨D'', ?_, hround.trans happ⟩
    congr 1
    omega

end Xv6.Mkfs
