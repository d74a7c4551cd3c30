import Xv6.FsMapping

/-!
# `balloc` and `bmap`

Specifications of the two functions that give blocks to files.  A call works on the inode in cache
entry `ip`; `Working` says that the file table `D` has this inode from memory and that block ownership
holds of it, and `Maps` that the call has gone from one such state to another by mapping blocks.

`bmap` panics only when the disk has fewer free blocks than it needs, and `cost` is that number.
-/

namespace Xv6.FsBmap

open Xv6.Params Xv6.Panics Xv6.FsLayout Xv6.FsInodes Xv6.Ownership Xv6.FsOwnership Xv6.FsMapping
open Xv6.LogMachine (Block Disk)

variable {sb : SuperBlock} {disk disk' : Disk} {D D' D'' : ℕ → Dinode} {ip : Fin NINODE}
  {s t u : Fs}

/-! ### Free blocks -/

/-- The number of blocks the free map has as free. -/
def freeCount (sb : SuperBlock) (disk : Disk) : ℕ :=
  ((Finset.range sb.size).filter fun b => bitOf sb disk b = false).card

theorem freeCount_evolves {i : ℕ} {bs : List ℕ} (h : Evolves sb i disk D disk' D' bs) :
    freeCount sb disk' + bs.length = freeCount sb disk := by
  have hlen : bs.length = bs.toFinset.card := (List.toFinset_card_of_nodup h.nodup).symm
  unfold freeCount
  rw [hlen, ← Finset.card_union_of_disjoint]
  · congr 1
    ext c
    simp only [Finset.mem_union, Finset.mem_filter, Finset.mem_range, List.mem_toFinset]
    constructor
    · rintro (⟨hc, hbit⟩ | hc)
      · rw [h.bits c hc, Bool.or_eq_false_iff] at hbit
        exact ⟨hc, hbit.1⟩
      · exact ⟨(h.free c hc).1.2, (h.free c hc).2⟩
    · rintro ⟨hc, hbit⟩
      by_cases hm : c ∈ bs
      · exact Or.inr hm
      · refine Or.inl ⟨hc, ?_⟩
        rw [h.bits c hc, hbit]
        simpa using hm
  · rw [Finset.disjoint_left]
    intro c hc hm
    simp only [Finset.mem_filter, Finset.mem_range, List.mem_toFinset] at hc hm
    rw [h.bits c hc.1] at hc
    simp [hm] at hc

theorem freeCount_zero (h : ∀ b, b < sb.size → bitOf sb disk b = true) : freeCount sb disk = 0 := by
  unfold freeCount
  rw [Finset.card_eq_zero, Finset.filter_eq_empty_iff]
  intro b hb
  rw [h b (Finset.mem_range.mp hb)]
  simp

/-! ### `balloc` -/

/-- The state after `balloc` has returned `b`. -/
def allocFs (sb : SuperBlock) (s : Fs) (b : ℕ) : Fs :=
  { s with disk := allocDisk sb s.disk b, handed := b :: s.handed }

theorem balloc_spec (hr : ∀ b, b < sb.nmeta → bitOf sb s.disk b = true) : Wp (balloc sb) s
      (fun b t => sb.IsData b ∧ bitOf sb s.disk b = false ∧ t = allocFs sb s b)
      (fun e => e = .ballocOutOfBlocks ∧ freeCount sb s.disk = 0) := by
  unfold balloc
  apply wp_bind
  apply wp_gets
  cases hf : findFree sb s.disk with
  | none => exact wp_panic ⟨rfl, freeCount_zero (findFree_none hf)⟩
  | some b =>
    obtain ⟨hlt, hfree⟩ := findFree_some hf
    have hdata : sb.IsData b := by
      refine ⟨?_, hlt⟩
      by_contra hc
      rw [hr b (by omega)] at hfree
      cases hfree
    exact ⟨hdata, hfree, rfl⟩

/-! ### Work on one inode -/

structure Working (sb : SuperBlock) (ip : Fin NINODE) (D : ℕ → Dinode) (s : Fs) : Prop where
  own : Own sb s.disk D
  here : D (s.icache ip).inum = (s.icache ip).d
  lt : (s.icache ip).inum < sb.ninodes
  type : (s.icache ip).d.type ≠ 0

structure Maps (sb : SuperBlock) (ip : Fin NINODE) (D : ℕ → Dinode) (s : Fs) (D' : ℕ → Dinode)
    (t : Fs) (bs : List ℕ) : Prop where
  evolves : Evolves sb (s.icache ip).inum s.disk D t.disk D' bs
  here : D' (s.icache ip).inum = (t.icache ip).d
  handed : t.handed = bs ++ s.handed
  icache : t.icache = Function.update s.icache ip { s.icache ip with d := (t.icache ip).d }

theorem Maps.inum {bs : List ℕ} (h : Maps sb ip D s D' t bs) : (t.icache ip).inum = (s.icache ip).inum := by
  rw [h.icache, Function.update_self]

theorem Maps.refl (h : Working sb ip D s) : Maps sb ip D s D s [] where
  evolves := Evolves.refl h.own
  here := h.here
  handed := rfl
  icache := (Function.update_eq_self ip s.icache).symm

theorem Maps.trans {bs bs' : List ℕ} (h : Maps sb ip D s D' t bs)
    (h' : Maps sb ip D' t D'' u bs') : Maps sb ip D s D'' u (bs' ++ bs) where
  evolves := by
    have hev := h'.evolves
    rw [h.inum] at hev
    exact h.evolves.trans hev
  here := by rw [← h'.here, h.inum]
  handed := by rw [h'.handed, h.handed, List.append_assoc]
  icache := by
    have hrest : { t.icache ip with d := (u.icache ip).d } =
        { s.icache ip with d := (u.icache ip).d } := by
      rw [h.icache, Function.update_self]
    rw [h'.icache, Function.update_self, hrest, h.icache, Function.update_idem]

theorem Maps.working {bs : List ℕ} (h : Maps sb ip D s D' t bs) (hw : Working sb ip D s) :
    Working sb ip D' t where
  own := h.evolves.own
  here := by rw [h.inum, h.here]
  lt := by
    rw [h.inum]
    exact hw.lt
  type := by
    rw [← h.here, h.evolves.same.type, hw.here]
    exact hw.type

def SameCells (sb : SuperBlock) (disk : Disk) (D : ℕ → Dinode) (disk' : Disk) (D' : ℕ → Dinode) :
    Prop :=
  ∀ (o : ℕ × Slot) x, o.2 ≠ Slot.indirect → x < BSIZE → cell sb disk' D' o x = cell sb disk D o x

/-- What `bmap` does for one slot: return the block that is there, or a new one. -/
structure Fills (sb : SuperBlock) (ip : Fin NINODE) (D : ℕ → Dinode) (s : Fs) (sl : Slot) (a : ℕ)
    (D' : ℕ → Dinode) (t : Fs) (bs : List ℕ) : Prop where
  maps : Maps sb ip D s D' t bs
  slot : slots sb t.disk D' ((s.icache ip).inum, sl) = some a
  cells : SameCells sb s.disk D t.disk D'
  cost : bs.length = if slots sb s.disk D ((s.icache ip).inum, sl) = none then 1 else 0
  id : slots sb s.disk D ((s.icache ip).inum, sl) ≠ none → t = s ∧ D' = D

theorem fills_of_some (hw : Working sb ip D s) {sl : Slot} {a : ℕ}
    (ha : slots sb s.disk D ((s.icache ip).inum, sl) = some a) : Fills sb ip D s sl a D s [] where
  maps := Maps.refl hw
  slot := ha
  cells := fun _ _ _ _ => rfl
  cost := by
    rw [ha]
    rfl
  id := fun _ => ⟨rfl, rfl⟩

theorem fills_of_alloc (hw : Working sb ip D s) {sl : Slot} {b : ℕ}
    (ha : Alloc sb s.disk D t.disk D' (s.icache ip).inum sl b)
    (hhere : D' (s.icache ip).inum = (t.icache ip).d) (hh : t.handed = b :: s.handed)
    (hc : t.icache = Function.update s.icache ip { s.icache ip with d := (t.icache ip).d }) :
    Fills sb ip D s sl b D' t [b] where
  maps := ⟨evolves_of_alloc hw.own ha, hhere, hh, hc⟩
  slot := by rw [ha.slots, Function.update_self]
  cells := fun _ _ ho hx => cell_of_alloc ha ho hx
  cost := by
    rw [ha.empty]
    rfl
  id := fun hne => absurd ha.empty hne

theorem bmapAddr_spec (hw : Working sb ip D s) (k : Fin (NDIRECT + 1)) :
    Wp (bmapAddr sb ip k) s (fun a t => ∃ D' bs, Fills sb ip D s (.addr k) a D' t bs)
      (fun e => e = .ballocOutOfBlocks ∧ freeCount sb s.disk = 0 ∧
        slots sb s.disk D ((s.icache ip).inum, .addr k) = none) := by
  have htype : (D (s.icache ip).inum).type ≠ 0 := by
    rw [hw.here]
    exact hw.type
  have haddr : slotAddr s.disk (D (s.icache ip).inum) (.addr k) = ((s.icache ip).d.addrs k).toNat := by
    rw [hw.here]
    rfl
  unfold bmapAddr
  apply wp_bind
  apply wp_gets
  by_cases hz : (s.icache ip).d.addrs k = 0
  · have hempty : slots sb s.disk D ((s.icache ip).inum, .addr k) = none := by
      rw [slots_eq hw.lt htype, haddr, hz]
      rfl
    rw [if_pos hz]
    refine wp_bind (wp_mono (balloc_spec hw.own.reserved) ?_ ?_)
    · rintro b t ⟨hdata, hfree, rfl⟩
      have hzD : (D (s.icache ip).inum).addrs k = 0 := by
        rw [hw.here]
        exact hz
      have halloc := alloc_addr hw.own hw.lt htype hzD hdata hfree
      refine ⟨_, _, fills_of_alloc hw halloc ?_ rfl (Fs.setD_icache (allocFs sb s b) ip _)⟩
      rw [Function.update_self, hw.here, Fs.setD_self]
      rfl
    · exact fun e he => ⟨he.1, he.2, hempty⟩
  · rw [if_neg hz]
    refine ⟨D, [], fills_of_some hw ?_⟩
    rw [slots_eq_some, haddr]
    exact ⟨hw.lt, htype, toNat_ne_zero hz, rfl⟩

theorem bmapEntry_spec (hw : Working sb ip D s) {a : ℕ}
    (ha : slots sb s.disk D ((s.icache ip).inum, Slot.indirect) = some a) (j : Fin NINDIRECT) :
    Wp (bmapEntry sb a j.val) s (fun b t => ∃ D' bs, Fills sb ip D s (.entry j) b D' t bs)
      (fun e => e = .ballocOutOfBlocks ∧ freeCount sb s.disk = 0 ∧
        slots sb s.disk D ((s.icache ip).inum, .entry j) = none) := by
  obtain ⟨hlt, htype, hne, haddr⟩ := slots_eq_some.mp ha
  have haddr' : ((D (s.icache ip).inum).addrs (Fin.last NDIRECT)).toNat = a := haddr
  have hl : (D (s.icache ip).inum).addrs (Fin.last NDIRECT) ≠ 0 := by
    intro hc
    rw [hc] at haddr'
    exact hne haddr'.symm
  have hentry : slotAddr s.disk (D (s.icache ip).inum) (.entry j) = (word (s.disk a) j.val).toNat := by
    rw [slotAddr_entry hl, haddr']
  unfold bmapEntry
  apply wp_bind
  apply wp_gets
  by_cases hz : word (s.disk a) j.val = 0
  · have hempty : slots sb s.disk D ((s.icache ip).inum, .entry j) = none := by
      rw [slots_eq hlt htype, hentry, hz]
      rfl
    rw [if_pos hz]
    refine wp_bind (wp_mono (balloc_spec hw.own.reserved) ?_ ?_)
    · rintro b t ⟨hdata, hfree, rfl⟩
      have halloc := alloc_entry hw.own hlt htype ha hz hdata hfree
      exact ⟨D, _, fills_of_alloc hw halloc hw.here rfl
        (Function.update_eq_self ip s.icache).symm⟩
    · exact fun e he => ⟨he.1, he.2, hempty⟩
  · rw [if_neg hz]
    refine ⟨D, [], fills_of_some hw ?_⟩
    rw [slots_eq_some, hentry]
    exact ⟨hlt, htype, toNat_ne_zero hz, rfl⟩

/-! ### `bmap` -/

/-- The blocks `bmap` has to allocate for block `bn` of file `i`. -/
def cost (sb : SuperBlock) (disk : Disk) (D : ℕ → Dinode) (i bn : ℕ) : ℕ :=
  (if slots sb disk D (i, fileSlot bn) = none then 1 else 0) +
    if NDIRECT ≤ bn ∧ slots sb disk D (i, Slot.indirect) = none then 1 else 0

/-- What `bmap` does for block `bn` of the file. -/
structure Gets (sb : SuperBlock) (ip : Fin NINODE) (D : ℕ → Dinode) (s : Fs) (bn a : ℕ)
    (D' : ℕ → Dinode) (t : Fs) (bs : List ℕ) : Prop where
  maps : Maps sb ip D s D' t bs
  slot : slots sb t.disk D' ((s.icache ip).inum, fileSlot bn) = some a
  indirect : NDIRECT ≤ bn → slots sb t.disk D' ((s.icache ip).inum, Slot.indirect) ≠ none
  cells : SameCells sb s.disk D t.disk D'
  cost : bs.length ≤ cost sb s.disk D (s.icache ip).inum bn
  id : slots sb s.disk D ((s.icache ip).inum, fileSlot bn) ≠ none → t = s ∧ D' = D

theorem fileSlot_direct {bn : ℕ} (h : bn < NDIRECT) :
    fileSlot bn = .addr ⟨bn, Nat.lt_succ_of_lt h⟩ := dif_pos h

theorem fileSlot_entry {bn : ℕ} (h : NDIRECT ≤ bn) (h' : bn - NDIRECT < NINDIRECT) :
    fileSlot bn = .entry ⟨bn - NDIRECT, h'⟩ := by
  unfold fileSlot
  rw [dif_neg (by omega)]
  congr 1
  exact Fin.ext (Nat.mod_eq_of_lt h')

theorem slots_indirect_of_entry {i c : ℕ} {j : Fin NINDIRECT}
    (h : slots sb disk D (i, .entry j) = some c) : slots sb disk D (i, Slot.indirect) ≠ none := by
  obtain ⟨hi, ht, hne, haddr⟩ := slots_eq_some.mp h
  have hl : (D i).addrs (Fin.last NDIRECT) ≠ 0 := by
    intro hz
    rw [slotAddr_entry_zero hz] at haddr
    exact hne haddr.symm
  rw [slots_indirect hi ht hl]
  simp

theorem bmap_spec (hw : Working sb ip D s) {bn : ℕ} (hbn : bn < MAXFILE) :
    Wp (bmap sb ip bn) s (fun a t => ∃ D' bs, Gets sb ip D s bn a D' t bs) (fun e => e = .ballocOutOfBlocks ∧
        freeCount sb s.disk < cost sb s.disk D (s.icache ip).inum bn) := by
  unfold bmap
  by_cases hd : bn < NDIRECT
  · rw [dif_pos hd]
    refine wp_mono (bmapAddr_spec hw _) ?_ ?_
    · rintro a t ⟨D', bs, hf⟩
      rw [← fileSlot_direct hd] at hf
      refine ⟨D', bs, hf.maps, hf.slot, fun hc => absurd hd (by omega), hf.cells, ?_, hf.id⟩
      rw [hf.cost]
      exact Nat.le_add_right _ _
    · rintro e ⟨rfl, hfree, hnone⟩
      rw [← fileSlot_direct hd] at hnone
      refine ⟨rfl, ?_⟩
      unfold cost
      rw [if_pos hnone]
      omega
  · have hj : bn - NDIRECT < NINDIRECT := by
      unfold MAXFILE at hbn
      omega
    have hle : NDIRECT ≤ bn := Nat.le_of_not_lt hd
    have hslot := fileSlot_entry hle hj
    rw [dif_neg hd, if_pos hj]
    refine wp_bind (wp_mono (bmapAddr_spec hw _) ?_ ?_)
    · rintro ind t ⟨D₁, bs₁, hf₁⟩
      have hw₁ := hf₁.maps.working hw
      have hi := hf₁.maps.inum
      have hind : slots sb t.disk D₁ ((t.icache ip).inum, Slot.indirect) = some ind := by
        rw [hi]
        exact hf₁.slot
      -- an entry that is empty now was empty before
      have hback : slots sb t.disk D₁ ((s.icache ip).inum, fileSlot bn) = none →
          slots sb s.disk D ((s.icache ip).inum, fileSlot bn) = none := by
        intro hnone
        by_contra hne
        obtain ⟨c, hc⟩ := Option.ne_none_iff_exists'.mp hne
        rw [hf₁.maps.evolves.keep _ c hc] at hnone
        cases hnone
      have hlen : bs₁.length = if NDIRECT ≤ bn ∧
          slots sb s.disk D ((s.icache ip).inum, Slot.indirect) = none then 1 else 0 := by
        rw [hf₁.cost]
        simp only [hle, true_and]
        rfl
      refine wp_mono (bmapEntry_spec hw₁ hind ⟨bn - NDIRECT, hj⟩) ?_ ?_
      · rintro a u ⟨D₂, bs₂, hf₂⟩
        rw [← hslot] at hf₂
        have hslot₂ := hf₂.slot
        have hcost₂ := hf₂.cost
        have hid₂ := hf₂.id
        rw [hi] at hslot₂ hcost₂ hid₂
        refine ⟨D₂, bs₂ ++ bs₁, hf₁.maps.trans hf₂.maps, hslot₂, ?_, ?_, ?_, ?_⟩
        · intro _
          rw [hf₂.maps.evolves.keep _ ind (by rwa [← hi])]
          simp
        · intro o x ho hx
          rw [hf₂.cells o x ho hx, hf₁.cells o x ho hx]
        · rw [List.length_append, hlen, hcost₂]
          unfold FsBmap.cost
          apply Nat.add_le_add_right
          by_cases hnone : slots sb t.disk D₁ ((s.icache ip).inum, fileSlot bn) = none
          · rw [if_pos hnone, if_pos (hback hnone)]
          · rw [if_neg hnone]
            exact Nat.zero_le _
        · intro hne
          obtain ⟨c, hc⟩ := Option.ne_none_iff_exists'.mp hne
          have hne' := hc
          rw [hslot] at hne'
          obtain ⟨rfl, rfl⟩ := hf₁.id (slots_indirect_of_entry hne')
          exact hid₂ (by rw [hc]; simp)
      · rintro e ⟨rfl, hfree, hnone⟩
        refine ⟨rfl, ?_⟩
        rw [hi, ← hslot] at hnone
        have hcount := freeCount_evolves hf₁.maps.evolves
        unfold cost
        rw [if_pos (hback hnone), ← hlen]
        omega
    · rintro e ⟨rfl, hfree, hnone⟩
      have hnone' : slots sb s.disk D ((s.icache ip).inum, Slot.indirect) = none := hnone
      refine ⟨rfl, ?_⟩
      unfold cost
      rw [if_pos (And.intro hle hnone')]
      omega

end Xv6.FsBmap
