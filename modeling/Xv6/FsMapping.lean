import Xv6.FsOwnership

/-!
# Mapping blocks into files

A call that maps blocks changes the file system by two kinds of steps: a free block goes to an empty
slot (`Alloc`), and bytes are stored into a block that a slot names.  `Evolves` collects what any
number of such steps does to block ownership, and `cell` is the contents of a slot, zeros where it is
empty: giving a zeroed block to a slot does not show there.
-/

namespace Xv6.FsMapping

open Xv6.Params Xv6.LittleEndian Xv6.FsLayout Xv6.FsInodes Xv6.Ownership Xv6.FsOwnership
open Xv6.LogMachine (Block Disk)
open Function (update_self update_of_ne)

variable {sb : SuperBlock} {disk disk' disk'' : Disk} {D D' D'' : ℕ → Dinode} {i b : ℕ}

/-! ### A free block goes to a slot -/

theorem toNat_ofNat_data (hb : sb.IsData b) : (UInt32.ofNat b).toNat = b := by
  have hlt : b < 2 ^ 32 := by
    have h₁ := hb.2
    have h₂ := sb.size_lt
    omega
  exact UInt32.toNat_ofNat_of_lt' hlt

theorem word_allocDisk (h : Own sb disk D) (hb : sb.IsData b) (hfree : bitOf sb disk b = false)
    {j : ℕ} (hj : j < sb.ninodes) (ht : (D j).type ≠ 0) (hz : (D j).addrs (Fin.last NDIRECT) ≠ 0) :
    allocDisk sb disk b ((D j).addrs (Fin.last NDIRECT)).toNat = disk ((D j).addrs (Fin.last NDIRECT)).toNat := by
  have hind : slots sb disk D (j, Slot.indirect) = _ := slots_indirect hj ht hz
  exact allocDisk_data hb.2 (h.isData hind) (h.ne_of_free hind hfree)

theorem word_zero {blk : Block} (hz : ∀ x, x < BSIZE → blk x = 0) {j : ℕ} (hj : j < NINDIRECT) : word blk j = 0 := by
  have hj' : j < 256 := hj
  have hget : getLE blk (4 * j) 4 = 0 := by
    rw [← getLE_zero 4 (4 * j)]
    apply getLE_congr
    intro x h₁ h₂
    apply hz
    change x < 1024
    omega
  rw [word, hget]
  rfl

/-- `addrs[k]` of a dinode set to `b`. -/
def setAddr (d : Dinode) (k : Fin (NDIRECT + 1)) (b : ℕ) : Dinode :=
  { d with addrs := Function.update d.addrs k (UInt32.ofNat b) }

theorem setAddr_addrs (d : Dinode) (k : Fin (NDIRECT + 1)) (b : ℕ) (j : Fin (NDIRECT + 1)) :
    (setAddr d k b).addrs j = if j = k then UInt32.ofNat b else d.addrs j :=
  Function.update_apply d.addrs k (UInt32.ofNat b) j

theorem slotAddr_setAddr_of_zero {d : Dinode} {k : Fin (NDIRECT + 1)} {s : Slot} (hz : d.addrs k = 0)
    (hb : (UInt32.ofNat b).toNat = b) (hs : s ≠ .addr k) (hwords : d.addrs (Fin.last NDIRECT) ≠ 0 →
      disk' (d.addrs (Fin.last NDIRECT)).toNat = disk (d.addrs (Fin.last NDIRECT)).toNat)
    (hzero : ∀ x, x < BSIZE → disk' b x = 0) : slotAddr disk' (setAddr d k b) s = slotAddr disk d s := by
  cases s with
  | addr k' =>
    have hne : k' ≠ k := fun he => hs (by rw [he])
    change (Function.update d.addrs k (UInt32.ofNat b) k').toNat = (d.addrs k').toNat
    rw [update_of_ne hne]
  | entry j =>
    by_cases hk : Fin.last NDIRECT = k
    · -- the indirect block itself is new, so all its entries are empty
      subst hk
      have hnew : (setAddr d (Fin.last NDIRECT) b).addrs (Fin.last NDIRECT) = UInt32.ofNat b :=
        update_self (Fin.last NDIRECT) _ d.addrs
      rw [slotAddr_entry_zero hz]
      by_cases hb0 : UInt32.ofNat b = 0
      · exact slotAddr_entry_zero (hnew.trans hb0)
      · rw [slotAddr_entry (by rwa [hnew]), hnew, hb, word_zero hzero j.isLt]
        rfl
    · have hsame : (setAddr d k b).addrs (Fin.last NDIRECT) = d.addrs (Fin.last NDIRECT) :=
        update_of_ne hk _ _
      by_cases hl : d.addrs (Fin.last NDIRECT) = 0
      · rw [slotAddr_entry_zero hl, slotAddr_entry_zero (hsame.trans hl)]
      · rw [slotAddr_entry hl, slotAddr_entry (by rwa [hsame]), hsame, hwords hl]

theorem slots_alloc_addr (h : Own sb disk D) (hi : i < sb.ninodes) (ht : (D i).type ≠ 0)
    {k : Fin (NDIRECT + 1)} (hz : (D i).addrs k = 0) (hb : sb.IsData b) (hfree : bitOf sb disk b = false) :
    slots sb (allocDisk sb disk b) (Function.update D i (setAddr (D i) k b)) =
      Function.update (slots sb disk D) (i, .addr k) (some b) := by
  funext o
  obtain ⟨j, s⟩ := o
  by_cases hji : j = i
  · subst hji
    by_cases hs : s = .addr k
    · subst hs
      rw [update_self, slots_eq_some]
      refine ⟨hi, ?_, hb.pos.ne', ?_⟩
      · rw [update_self]
        exact ht
      · rw [update_self]
        change (Function.update (D j).addrs k (UInt32.ofNat b) k).toNat = b
        rw [update_self, toNat_ofNat_data hb]
    · rw [update_of_ne fun he => hs (congrArg Prod.snd he)]
      apply slots_congr
      · rw [update_self]
        rfl
      · intro _ _
        rw [update_self]
        exact slotAddr_setAddr_of_zero hz (toNat_ofNat_data hb) hs
          (word_allocDisk h hb hfree hi ht) fun x hx => allocDisk_zero hx
  · rw [update_of_ne fun he => hji (congrArg Prod.fst he)]
    apply slots_congr
    · rw [update_of_ne hji]
    · intro hj htj
      rw [update_of_ne hji]
      apply slotAddr_congr
      intro hl x _
      rw [word_allocDisk h hb hfree hj htj hl]

theorem slots_alloc_entry (h : Own sb disk D) (hi : i < sb.ninodes) (ht : (D i).type ≠ 0)
    (hl : (D i).addrs (Fin.last NDIRECT) ≠ 0) {j : Fin NINDIRECT}
    (hb : sb.IsData b) (hfree : bitOf sb disk b = false) :
    slots sb (Function.update (allocDisk sb disk b) ((D i).addrs (Fin.last NDIRECT)).toNat
        (setWord (allocDisk sb disk b ((D i).addrs (Fin.last NDIRECT)).toNat) j.val (UInt32.ofNat b))) D =
      Function.update (slots sb disk D) (i, .entry j) (some b) := by
  have hind : slots sb disk D (i, Slot.indirect) = _ := slots_indirect hi ht hl
  rw [word_allocDisk h hb hfree hi ht hl]
  generalize ha : ((D i).addrs (Fin.last NDIRECT)).toNat = a at hind ⊢
  funext o
  obtain ⟨i', s⟩ := o
  by_cases hii : i' = i
  · subst hii
    cases s with
    | addr k =>
      rw [update_of_ne fun he => Slot.noConfusion (congrArg Prod.snd he)]
      exact slots_congr rfl fun _ _ => rfl
    | entry j' =>
      by_cases hj : j' = j
      · subst hj
        rw [update_self, slots_eq_some]
        refine ⟨hi, ht, hb.pos.ne', ?_⟩
        rw [slotAddr_entry hl, ha, update_self, word_setWord, if_pos rfl,
          toNat_ofNat_data hb]
      · have hval : j'.val ≠ j.val := fun he => hj (Fin.ext he)
        rw [update_of_ne fun he => hj (Slot.entry.inj (congrArg Prod.snd he))]
        apply slots_congr rfl
        intro _ _
        rw [slotAddr_entry hl, slotAddr_entry hl, ha, update_self, word_setWord,
          if_neg hval]
  · rw [update_of_ne fun he => hii (congrArg Prod.fst he)]
    apply slots_congr rfl
    intro hi' ht'
    apply slotAddr_congr
    intro hl' x _
    have hind' : slots sb disk D (i', Slot.indirect) = _ := slots_indirect hi' ht' hl'
    have hne : ((D i').addrs (Fin.last NDIRECT)).toNat ≠ a := by
      intro he
      rw [he] at hind'
      exact hii (congrArg Prod.fst (h.owns.inj hind' hind))
    rw [update_of_ne hne, word_allocDisk h hb hfree hi' ht' hl']

/-! ### What a call that maps blocks does -/

/-- Everything but the block addresses is the same. -/
def SameMeta (d d' : Dinode) : Prop := d' = { d with addrs := d'.addrs }

theorem SameMeta.trans {d d' d'' : Dinode} (h : SameMeta d d') (h' : SameMeta d' d'') : SameMeta d d'' := by
  unfold SameMeta at *
  rw [h', h]

theorem SameMeta.type {d d' : Dinode} (h : SameMeta d d') : d'.type = d.type := by rw [h]

theorem SameMeta.size {d d' : Dinode} (h : SameMeta d d') : d'.size = d.size := by rw [h]

theorem SameMeta.nlink {d d' : Dinode} (h : SameMeta d d') : d'.nlink = d.nlink := by rw [h]

def cell (sb : SuperBlock) (disk : Disk) (D : ℕ → Dinode) (o : ℕ × Slot) (x : ℕ) : UInt8 :=
  match slots sb disk D o with
  | some b => disk b x
  | none => 0

theorem cell_some {o : ℕ × Slot} (h : slots sb disk D o = some b) (x : ℕ) : cell sb disk D o x = disk b x := by
  unfold cell
  rw [h]

theorem cell_none {o : ℕ × Slot} (h : slots sb disk D o = none) (x : ℕ) : cell sb disk D o x = 0 := by
  unfold cell
  rw [h]

/-- Blocks `bs` have been mapped into file `i`; the metadata of the files is as before. -/
structure Evolves (sb : SuperBlock) (i : ℕ) (disk : Disk) (D : ℕ → Dinode) (disk' : Disk)
    (D' : ℕ → Dinode) (bs : List ℕ) : Prop where
  own : Own sb disk' D'
  other : ∀ j, j ≠ i → D' j = D j
  same : SameMeta (D i) (D' i)
  inodes : ∀ j, j < sb.ninodes → dinode sb disk' j = dinode sb disk j
  keep : ∀ o c, slots sb disk D o = some c → slots sb disk' D' o = some c
  fresh : ∀ o c, slots sb disk' D' o = some c → slots sb disk D o = some c ∨ (o.1 = i ∧ c ∈ bs)
  bits : ∀ c, c < sb.size → bitOf sb disk' c = (bitOf sb disk c || decide (c ∈ bs))
  nodup : bs.Nodup
  free : ∀ c, c ∈ bs → sb.IsData c ∧ bitOf sb disk c = false

theorem Evolves.refl (h : Own sb disk D) : Evolves sb i disk D disk D [] where
  own := h
  other := fun _ _ => rfl
  same := rfl
  inodes := fun _ _ => rfl
  keep := fun _ _ hc => hc
  fresh := fun _ _ hc => Or.inl hc
  bits := fun c _ => by simp
  nodup := List.nodup_nil
  free := fun _ hc => absurd hc List.not_mem_nil

theorem Evolves.trans {bs bs' : List ℕ} (h : Evolves sb i disk D disk' D' bs)
    (h' : Evolves sb i disk' D' disk'' D'' bs') : Evolves sb i disk D disk'' D'' (bs' ++ bs) where
  own := h'.own
  other := fun j hj => (h'.other j hj).trans (h.other j hj)
  same := h.same.trans h'.same
  inodes := fun j hj => (h'.inodes j hj).trans (h.inodes j hj)
  keep := fun o c hc => h'.keep o c (h.keep o c hc)
  fresh := by
    intro o c hc
    rcases h'.fresh o c hc with hc' | ⟨ho, hc'⟩
    · rcases h.fresh o c hc' with hc'' | ⟨ho, hc''⟩
      · exact Or.inl hc''
      · exact Or.inr ⟨ho, List.mem_append_right _ hc''⟩
    · exact Or.inr ⟨ho, List.mem_append_left _ hc'⟩
  bits := by
    intro c hc
    rw [h'.bits c hc, h.bits c hc, Bool.or_assoc]
    congr 1
    simp [List.mem_append, Bool.or_comm]
  nodup := by
    rw [List.nodup_append]
    refine ⟨h'.nodup, h.nodup, ?_⟩
    rintro c hc _ hc' rfl
    -- a block of the first part is marked when the second part starts
    have hbit := (h'.free c hc).2
    rw [h.bits c (h'.free c hc).1.2] at hbit
    simp [hc'] at hbit
  free := by
    intro c hc
    rcases List.mem_append.mp hc with hc | hc
    · obtain ⟨hd, hbit⟩ := h'.free c hc
      rw [h.bits c hd.2, Bool.or_eq_false_iff] at hbit
      exact ⟨hd, hbit.1⟩
    · exact h.free c hc

/-- Block `b` has been given to slot `s` of file `i`. -/
structure Alloc (sb : SuperBlock) (disk : Disk) (D : ℕ → Dinode) (disk' : Disk) (D' : ℕ → Dinode)
    (i : ℕ) (s : Slot) (b : ℕ) : Prop where
  empty : slots sb disk D (i, s) = none
  data : sb.IsData b
  free : bitOf sb disk b = false
  slots : slots sb disk' D' = Function.update (slots sb disk D) (i, s) (some b)
  bits : ∀ c, c < sb.size → bitOf sb disk' c = (bitOf sb disk c || decide (c = b))
  other : ∀ j, j ≠ i → D' j = D j
  same : SameMeta (D i) (D' i)
  inodes : ∀ j, j < sb.ninodes → dinode sb disk' j = dinode sb disk j
  zero : ∀ x, x < BSIZE → disk' b x = 0
  keep : ∀ o c, FsOwnership.slots sb disk D o = some c → o.2 ≠ Slot.indirect → disk' c = disk c

theorem evolves_of_alloc {s : Slot} (h : Own sb disk D) (ha : Alloc sb disk D disk' D' i s b) :
    Evolves sb i disk D disk' D' [b] where
  own := by
    have hnot : ¬ Marked sb disk b := fun hm => Bool.false_ne_true (ha.free.symm.trans hm.2)
    refine ⟨owns_congr (owns_alloc h.owns ha.empty hnot) (fun o => by rw [ha.slots]) ?_, ?_⟩
    · intro c
      by_cases hc : sb.IsData c
      · simp [Marked, hc, ha.bits c hc.2]
      · have hcb : c ≠ b := fun he => hc (he ▸ ha.data)
        simp [Marked, hc, hcb]
    · intro c hc
      rw [ha.bits c (hc.trans_le SuperBlock.nmeta_le), h.reserved c hc, Bool.true_or]
  other := ha.other
  same := ha.same
  inodes := ha.inodes
  keep := by
    intro o c hc
    rw [ha.slots, update_of_ne]
    · exact hc
    · rintro rfl
      rw [ha.empty] at hc
      cases hc
  fresh := by
    intro o c hc
    rw [ha.slots] at hc
    by_cases ho : o = (i, s)
    · rw [ho, update_self, Option.some.injEq] at hc
      exact Or.inr ⟨congrArg Prod.fst ho, by simp [hc]⟩
    · rw [update_of_ne ho] at hc
      exact Or.inl hc
  bits := fun c hc => by rw [ha.bits c hc]; simp
  nodup := List.nodup_singleton b
  free := fun c hc => by
    obtain rfl := List.mem_singleton.mp hc
    exact ⟨ha.data, ha.free⟩

theorem cell_of_alloc {s : Slot} (ha : Alloc sb disk D disk' D' i s b) {o : ℕ × Slot}
    (ho : o.2 ≠ Slot.indirect) {x : ℕ} (hx : x < BSIZE) : cell sb disk' D' o x = cell sb disk D o x := by
  by_cases his : o = (i, s)
  · subst his
    rw [cell_none ha.empty, cell_some (by rw [ha.slots, update_self]), ha.zero x hx]
  · have hslot : slots sb disk' D' o = slots sb disk D o := by
      rw [ha.slots, update_of_ne his]
    cases hc : slots sb disk D o with
    | none => rw [cell_none hc, cell_none (hslot.trans hc)]
    | some c => rw [cell_some hc, cell_some (hslot.trans hc), ha.keep o c hc ho]

theorem alloc_addr (h : Own sb disk D) (hi : i < sb.ninodes) (ht : (D i).type ≠ 0)
    {k : Fin (NDIRECT + 1)} (hz : (D i).addrs k = 0) (hb : sb.IsData b)
    (hfree : bitOf sb disk b = false) :
    Alloc sb disk D (allocDisk sb disk b) (Function.update D i (setAddr (D i) k b)) i (.addr k) b where
  empty := by
    have hzero : slotAddr disk (D i) (.addr k) = 0 := by
      change ((D i).addrs k).toNat = 0
      rw [hz]
      rfl
    rw [slots_eq hi ht, if_pos hzero]
  data := hb
  free := hfree
  slots := slots_alloc_addr h hi ht hz hb hfree
  bits := fun c hc => allocDisk_bit hb hc
  other := fun j hj => update_of_ne hj _ _
  same := by
    rw [update_self]
    rfl
  inodes := fun j hj => dinode_congr (allocDisk_iblock hb hj)
  zero := fun x hx => allocDisk_zero hx
  keep := fun o c hc _ => allocDisk_data hb.2 (h.isData hc) (h.ne_of_free hc hfree)

theorem alloc_entry (h : Own sb disk D) (hi : i < sb.ninodes) (ht : (D i).type ≠ 0) {a : ℕ}
    (ha : slots sb disk D (i, Slot.indirect) = some a) {j : Fin NINDIRECT}
    (hz : word (disk a) j.val = 0) (hb : sb.IsData b) (hfree : bitOf sb disk b = false) :
    Alloc sb disk D (Function.update (allocDisk sb disk b) a
      (setWord (allocDisk sb disk b a) j.val (UInt32.ofNat b))) D i (.entry j) b := by
  obtain ⟨-, -, hne, haddr⟩ := slots_eq_some.mp ha
  have hl : (D i).addrs (Fin.last NDIRECT) ≠ 0 := by
    intro hc
    apply hne
    rw [← haddr]
    change ((D i).addrs (Fin.last NDIRECT)).toNat = 0
    rw [hc]
    rfl
  have haddr' : ((D i).addrs (Fin.last NDIRECT)).toNat = a := haddr
  have hdata := h.isData ha
  refine ⟨?_, hb, hfree, ?_, ?_, fun _ _ => rfl, rfl, ?_, ?_, ?_⟩
  · rw [slots_eq hi ht, slotAddr_entry hl, haddr', hz]
    rfl
  · have hslots := slots_alloc_entry (j := j) h hi ht hl hb hfree
    rwa [haddr'] at hslots
  · intro c hc
    rw [bitOf_congr (update_of_ne (SuperBlock.bblock_ne_data hc hdata) _ _),
      allocDisk_bit hb hc]
  · intro i' hi'
    apply dinode_congr
    rw [update_of_ne (SuperBlock.iblock_ne_data hi' hdata), allocDisk_iblock hb hi']
  · intro x hx
    rw [update_of_ne (h.ne_of_free ha hfree).symm, allocDisk_zero hx]
  · intro o c hc ho
    have hca : c ≠ a := by
      rintro rfl
      exact ho (congrArg Prod.snd (h.owns.inj hc ha))
    rw [update_of_ne hca, allocDisk_data hb.2 (h.isData hc) (h.ne_of_free hc hfree)]

/-! ### Bytes are stored into a block of a file -/

section Store

variable {s : Slot} (h : Own sb disk D) (hs : slots sb disk D (i, s) = some b)
  (hne : s ≠ Slot.indirect) (blk : Block)
include h hs hne

theorem slots_store : slots sb (Function.update disk b blk) D = slots sb disk D := by
  funext o
  apply slots_congr rfl
  intro hj ht
  apply slotAddr_congr
  intro hl x _
  have hind : slots sb disk D (o.1, Slot.indirect) = _ := slots_indirect hj ht hl
  have hnb : ((D o.1).addrs (Fin.last NDIRECT)).toNat ≠ b := by
    intro he
    rw [he] at hind
    exact hne (congrArg Prod.snd (h.owns.inj hind hs)).symm
  rw [update_of_ne hnb]

theorem evolves_store : Evolves sb i disk D (Function.update disk b blk) D [] := by
  have hdata := h.isData hs
  have hslots := slots_store h hs hne blk
  have hbits : ∀ c, c < sb.size → bitOf sb (Function.update disk b blk) c = bitOf sb disk c :=
    fun c hc => bitOf_congr (update_of_ne (SuperBlock.bblock_ne_data hc hdata) _ _)
  refine ⟨own_congr h hslots hbits, fun _ _ => rfl, rfl, ?_, ?_, ?_, ?_, List.nodup_nil, ?_⟩
  · intro j hj
    exact dinode_congr (update_of_ne (SuperBlock.iblock_ne_data hj hdata) _ _)
  · intro o c hc
    rwa [hslots]
  · intro o c hc
    rw [hslots] at hc
    exact Or.inl hc
  · intro c hc
    rw [hbits c hc]
    simp
  · intro c hc
    cases hc

theorem cell_store {o : ℕ × Slot} (x : ℕ) : cell sb (Function.update disk b blk) D o x =
    if o = (i, s) then blk x else cell sb disk D o x := by
  have hslots := slots_store h hs hne blk
  by_cases ho : o = (i, s)
  · subst ho
    rw [if_pos rfl, cell_some (by rwa [hslots]), update_self]
  · rw [if_neg ho]
    cases hc : slots sb disk D o with
    | none => rw [cell_none hc, cell_none (by rwa [hslots])]
    | some c =>
      have hcb : c ≠ b := by
        rintro rfl
        exact ho (h.owns.inj hc hs)
      rw [cell_some hc, cell_some (by rwa [hslots]), update_of_ne hcb]

end Store

end Xv6.FsMapping
