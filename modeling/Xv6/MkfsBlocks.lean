import Xv6.Mkfs
import Xv6.FsFiles

/-!
# The blocks `mkfs` hands out

`withMap` is the image with the free map that `mkfs` would write now: it marks the blocks below
`freeblock`.  In it, taking the next block is what `balloc` of the kernel does, so that block ownership
(`Own`) and the contents of files (`cell`, `fileByte`) carry over from the file system.

* `Base` — between two block allocations: ownership holds, and the blocks still to come are zero;
* `Grows` — what allocations for one inode leave alone;
* `blockOf_spec` — `blockOf` finds the block of a file position or takes a new one, and ends in a read
  past the image when there is none left.
-/

namespace Xv6.Mkfs

open Xv6.Params Xv6.LittleEndian Xv6.ByteBitmap Xv6.Panics Xv6.FsLayout Xv6.FsMapping
open Xv6.Ownership Xv6.FsOwnership Xv6.FsBmap Xv6.FsContent Xv6.FsFiles
open Xv6.LogMachine (Block Disk)
open Function (update_self update_of_ne)

variable {s t u : Img} {D D' D'' : ℕ → Dinode} {i b : ℕ}

/-- The image with the free map of this moment. -/
def withMap (s : Img) : Disk := Function.update s.disk sb.bmapstart (usedBits s.freeblock)

theorem testBit_usedBits (n c : ℕ) : testBit (usedBits n) c = decide (c < n) := by
  induction n with
  | zero => simp [usedBits, testBit]
  | succ n ih =>
    rw [usedBits, testBit_setBit, ih, ← Bool.decide_or]
    congr 1
    rw [eq_iff_iff]
    omega

theorem bblock_eq (hb : b < FSSIZE) : sb.bblock b = sb.bmapstart := by
  have hdiv : b / BPB = 0 := Nat.div_eq_of_lt (lt_trans hb (by decide))
  show b / BPB + sb.bmapstart = sb.bmapstart
  rw [hdiv, Nat.zero_add]

theorem bitOf_withMap (s : Img) (hb : b < FSSIZE) : bitOf sb (withMap s) b = decide (b < s.freeblock) := by
  have hmod : b % BPB = b := Nat.mod_eq_of_lt (lt_trans hb (by decide))
  rw [bitOf, bblock_eq hb, hmod, withMap, update_self, testBit_usedBits]

theorem bmapstart_ne_data (hb : sb.IsData b) : b ≠ sb.bmapstart := by
  have hlt : sb.bmapstart < sb.nmeta := SuperBlock.bmapstart_lt
  have hge := hb.1
  omega

theorem withMap_data (s : Img) (hb : b ≠ sb.bmapstart) : withMap s b = s.disk b :=
  update_of_ne hb _ _

structure Base (s : Img) (D : ℕ → Dinode) : Prop where
  sectors : s.sectors = FSSIZE
  own : Own sb (withMap s) D
  ge : nmeta ≤ s.freeblock
  le : s.freeblock ≤ FSSIZE
  zero : ∀ b, s.freeblock ≤ b → s.disk b = fun _ => 0

theorem Base.isData (h : Base s D) (hlt : s.freeblock < FSSIZE) : sb.IsData s.freeblock :=
  ⟨h.ge, hlt⟩

theorem Base.free (_ : Base s D) (hlt : s.freeblock < FSSIZE) : bitOf sb (withMap s) s.freeblock = false := by
  rw [bitOf_withMap s hlt]
  exact decide_eq_false (lt_irrefl _)

/-- **The next block.**  `freeblock++` is what `balloc` does with the image and its free map. -/
theorem withMap_newBlock (h : Base s D) (hlt : s.freeblock < FSSIZE) :
    allocDisk sb (withMap s) s.freeblock = withMap { s with freeblock := s.freeblock + 1 } := by
  have hne := bmapstart_ne_data (h.isData hlt)
  have hmod : s.freeblock % BPB = s.freeblock := Nat.mod_eq_of_lt (lt_trans hlt (by decide))
  have hmark : markUsed sb (withMap s) s.freeblock =
      withMap { s with freeblock := s.freeblock + 1 } := by
    rw [markUsed, bblock_eq hlt, hmod, withMap, update_self, Function.update_idem]
    rfl
  have hzero : withMap { s with freeblock := s.freeblock + 1 } s.freeblock = fun _ => 0 :=
    (withMap_data _ hne).trans (h.zero _ le_rfl)
  have hset : setBytes (fun _ => 0) 0 BSIZE (fun _ => 0) = fun _ => 0 := by
    funext k
    exact ite_self _
  rw [allocDisk, hmark, hzero, hset]
  exact Function.update_eq_self_iff.mpr hzero.symm

/-- What allocations for inode `i` leave alone. -/
structure Grows (i : ℕ) (s : Img) (D : ℕ → Dinode) (t : Img) (D' : ℕ → Dinode) : Prop where
  base : Base t D'
  other : ∀ j, j ≠ i → D' j = D j
  same : SameMeta (D i) (D' i)
  below : ∀ b, b < nmeta → t.disk b = s.disk b
  freeinode : t.freeinode = s.freeinode
  cells : SameCells sb (withMap s) D (withMap t) D'

theorem Grows.refl (h : Base s D) : Grows i s D s D :=
  ⟨h, fun _ _ => rfl, rfl, fun _ _ => rfl, rfl, fun _ _ _ _ => rfl⟩

theorem Grows.trans (h : Grows i s D t D') (h' : Grows i t D' u D'') : Grows i s D u D'' where
  base := h'.base
  other j hj := (h'.other j hj).trans (h.other j hj)
  same := h.same.trans h'.same
  below b hb := (h'.below b hb).trans (h.below b hb)
  freeinode := h'.freeinode.trans h.freeinode
  cells o x ho hx := (h'.cells o x ho hx).trans (h.cells o x ho hx)

theorem grows_of_alloc {sl : Slot} (h : Base s D) (hlt : s.freeblock < FSSIZE)
    (ha : Alloc sb (withMap s) D (withMap t) D' i sl s.freeblock)
    (hsec : t.sectors = s.sectors) (hnode : t.freeinode = s.freeinode)
    (hblock : t.freeblock = s.freeblock + 1) (hbelow : ∀ b, b < nmeta → t.disk b = s.disk b)
    (habove : ∀ b, t.freeblock ≤ b → t.disk b = s.disk b) : Grows i s D t D' where
  base := by
    refine ⟨hsec.trans h.sectors, (evolves_of_alloc h.own ha).own, ?_, ?_, ?_⟩
    · have hge := h.ge
      omega
    · omega
    · intro b hb
      rw [habove b hb]
      exact h.zero b (by omega)
  other := ha.other
  same := ha.same
  below := hbelow
  freeinode := hnode
  cells := fun _ _ ho hx => cell_of_alloc ha ho hx

/-! ### `addrs[k]` -/

theorem slots_node (hi : i < NINODES) (ht : (D i).type ≠ 0) {disk : Disk} {sl : Slot} : slots sb disk D (i, sl) =
      if slotAddr disk (D i) sl = 0 then none else some (slotAddr disk (D i) sl) :=
  slots_eq (show i < sb.ninodes from hi) ht

theorem slots_addr_none (hi : i < NINODES) (ht : (D i).type ≠ 0) {disk : Disk}
    {k : Fin (NDIRECT + 1)} : slots sb disk D (i, .addr k) = none ↔ (D i).addrs k = 0 := by
  rw [slots_node hi ht]
  show (if ((D i).addrs k).toNat = 0 then _ else _) = none ↔ _
  by_cases hz : (D i).addrs k = 0
  · rw [hz]
    simp
  · rw [if_neg (toNat_ne_zero hz)]
    simp [hz]

/-- `addrBlock` keeps an address that is there; an empty one gets the next block, or the number after
the last block when the image is full. -/
theorem addrBlock_spec (h : Base s D) (hi : i < NINODES) (ht : (D i).type ≠ 0)
    (k : Fin (NDIRECT + 1)) (E : Abort → Prop) :
    Wp (addrBlock (D i) k) s (fun din t =>
      (slots sb (withMap s) D (i, .addr k) ≠ none ∧ din = D i ∧ t = s) ∨
      (slots sb (withMap s) D (i, .addr k) = none ∧ s.freeblock = FSSIZE ∧ t.sectors = FSSIZE ∧
        (din.addrs k).toNat = FSSIZE) ∨
      (slots sb (withMap s) D (i, .addr k) = none ∧ s.freeblock < FSSIZE ∧
        t = { s with freeblock := s.freeblock + 1 } ∧ ∃ D', din = D' i ∧ Grows i s D t D' ∧
        slots sb (withMap t) D' =
          Function.update (slots sb (withMap s) D) (i, .addr k) (some s.freeblock))) E := by
  unfold addrBlock
  by_cases hz : (D i).addrs k = 0
  · rw [if_pos hz]
    have hnone : slots sb (withMap s) D (i, .addr k) = none := (slots_addr_none hi ht).mpr hz
    refine wp_bind (wp_bind (wp_gets (wp_bind (wp_update (wp_pure (wp_pure (.inr ?_)))))))
    rcases Nat.lt_or_ge s.freeblock FSSIZE with hlt | hge
    · refine .inr ⟨hnone, hlt, rfl, Function.update D i (setAddr (D i) k s.freeblock),
        (update_self i _ D).symm, ?_⟩
      have ha := alloc_addr h.own hi ht hz (h.isData hlt) (h.free hlt)
      rw [withMap_newBlock h hlt] at ha
      exact ⟨grows_of_alloc h hlt ha rfl rfl rfl (fun _ _ => rfl) fun _ _ => rfl, ha.slots⟩
    · have hfull : s.freeblock = FSSIZE := le_antisymm h.le hge
      refine .inl ⟨hnone, hfull, h.sectors, ?_⟩
      rw [setAddr_addrs, if_pos rfl, hfull]
      decide
  · rw [if_neg hz]
    exact wp_pure (.inl ⟨fun hnone => hz ((slots_addr_none hi ht).mp hnone), rfl, rfl⟩)

theorem wp_rsect {sec : ℕ} {Q : Block → Img → Prop} {E : Abort → Prop}
    (hok : sec < s.sectors → Q (s.disk sec) s) (hend : s.sectors ≤ sec → E .read) : Wp (rsect sec) s Q E := by
  refine wp_bind (wp_gets ?_)
  split
  case isTrue h => exact wp_gets (hok h)
  case isFalse h => exact wp_panic (hend (Nat.le_of_not_lt h))

theorem wp_newBlock {Q : ℕ → Img → Prop} {E : Abort → Prop}
    (h : Q s.freeblock { s with freeblock := s.freeblock + 1 }) : Wp newBlock s Q E := h

theorem wp_wsect {sec : ℕ} {buf : Block} {Q : Unit → Img → Prop} {E : Abort → Prop}
    (h : Q () { s with disk := Function.update s.disk sec buf, sectors := max s.sectors (sec + 1) }) :
    Wp (wsect sec buf) s Q E := h

/-! ### Entries of the indirect block -/

theorem Base.lt_sectors (h : Base s D) (hb : sb.IsData b) : b < s.sectors := by
  rw [h.sectors]
  exact hb.2

theorem withMap_store (hb : sb.IsData b) (blk : Block) (n f : ℕ) :
    withMap { s with disk := Function.update s.disk b blk, sectors := n, freeblock := f } =
      Function.update (withMap { s with freeblock := f }) b blk := by
  show Function.update (Function.update s.disk b blk) _ _ = Function.update (Function.update _ _ _) _ _
  rw [Function.update_comm (bmapstart_ne_data hb)]

theorem slots_entry_none (hi : i < NINODES) (ht : (D i).type ≠ 0) {disk : Disk} {a : ℕ}
    (ha : slots sb disk D (i, Slot.indirect) = some a) {j : Fin NINDIRECT} :
    slots sb disk D (i, .entry j) = none ↔ word (disk a) j.val = 0 := by
  obtain ⟨-, -, hne, haddr⟩ := slots_eq_some.mp ha
  have hl : (D i).addrs (Fin.last NDIRECT) ≠ 0 := fun hz => hne (by
    rw [← haddr]
    show ((D i).addrs (Fin.last NDIRECT)).toNat = 0
    rw [hz]
    rfl)
  have haddr' : ((D i).addrs (Fin.last NDIRECT)).toNat = a := haddr
  rw [slots_node hi ht, slotAddr_entry hl, haddr']
  by_cases hz : word (disk a) j.val = 0
  · rw [hz]
    simp
  · rw [if_neg (toNat_ne_zero hz)]
    simp [hz]

theorem entryBlock_spec (h : Base s D) (hi : i < NINODES) (ht : (D i).type ≠ 0) {a : ℕ}
    (ha : slots sb (withMap s) D (i, Slot.indirect) = some a) (j : Fin NINDIRECT) (E : Abort → Prop) :
    Wp (entryBlock a j.val) s (fun x t => (slots sb (withMap s) D (i, .entry j) = some x ∧ t = s) ∨
      (slots sb (withMap s) D (i, .entry j) = none ∧ s.freeblock = FSSIZE ∧ t.sectors = FSSIZE ∧ x = FSSIZE) ∨
      (slots sb (withMap s) D (i, .entry j) = none ∧ s.freeblock < FSSIZE ∧ x = s.freeblock ∧
        t.freeblock = s.freeblock + 1 ∧ Grows i s D t D ∧ slots sb (withMap t) D =
          Function.update (slots sb (withMap s) D) (i, .entry j) (some s.freeblock))) E := by
  have hdata := h.own.isData ha
  have hlt := h.lt_sectors hdata
  have hdisk : withMap s a = s.disk a := withMap_data s (bmapstart_ne_data hdata)
  have hmax : max s.sectors (a + 1) = s.sectors := max_eq_left hlt
  refine wp_bind (wp_rsect (fun _ => ?_) fun hge => absurd hlt (Nat.not_lt.mpr hge))
  have hnone := slots_entry_none (j := j) hi ht ha
  rw [hdisk] at hnone
  by_cases hz : word (s.disk a) j.val = 0
  · rw [if_pos hz]
    refine wp_bind (wp_newBlock (wp_bind (wp_wsect (wp_pure (.inr ?_)))))
    rcases Nat.lt_or_ge s.freeblock FSSIZE with hroom | hge
    · have hb := h.isData hroom
      have hfree := h.free hroom
      have halloc := alloc_entry h.own hi ht ha (j := j) (by rwa [hdisk]) hb hfree
      have hnew : (word (setWord (s.disk a) j.val (UInt32.ofNat s.freeblock)) j.val).toNat =
          s.freeblock := by
        rw [word_setWord, if_pos rfl, toNat_ofNat_data hb]
      have hkeep : allocDisk sb (withMap s) s.freeblock a = s.disk a := by
        rw [allocDisk_data hroom hdata (h.own.ne_of_free ha hfree), hdisk]
      rw [hkeep, withMap_newBlock h hroom, ← withMap_store hdata _ s.sectors] at halloc
      refine .inr ⟨hnone.mpr hz, hroom, hnew, rfl, ?_⟩
      show Grows i s D { s with
          disk := _, sectors := max s.sectors (a + 1), freeblock := s.freeblock + 1 } D ∧ _
      rw [hmax]
      refine ⟨grows_of_alloc h hroom halloc rfl rfl rfl ?_ ?_, halloc.slots⟩
      · intro b hlow
        exact update_of_ne (ne_of_lt (lt_of_lt_of_le hlow hdata.1)) _ _
      · intro b hhigh
        refine update_of_ne (fun he => ?_) _ _
        have hbit := h.own.bit ha
        rw [bitOf_withMap s hdata.2, decide_eq_true_eq] at hbit
        subst he
        exact absurd hhigh (Nat.not_le.mpr (Nat.lt_succ_of_lt hbit))
    · have hfull : s.freeblock = FSSIZE := le_antisymm h.le hge
      refine .inl ⟨hnone.mpr hz, hfull, ?_, ?_⟩
      · show max s.sectors (a + 1) = FSSIZE
        rw [hmax, h.sectors]
      · rw [word_setWord, if_pos rfl, hfull]
        decide
  · rw [if_neg hz]
    refine wp_pure (.inl ⟨?_, rfl⟩)
    obtain ⟨-, -, hne, haddr⟩ := slots_eq_some.mp ha
    have hl : (D i).addrs (Fin.last NDIRECT) ≠ 0 := fun hl => hne (by
      rw [← haddr]
      show ((D i).addrs (Fin.last NDIRECT)).toNat = 0
      rw [hl]
      rfl)
    have haddr' : ((D i).addrs (Fin.last NDIRECT)).toNat = a := haddr
    rw [slots_eq_some]
    refine ⟨hi, ht, toNat_ne_zero hz, ?_⟩
    show slotAddr (withMap s) (D i) (.entry j) = _
    rw [slotAddr_entry hl, haddr', hdisk]

/-! ### The block of a file position -/

/-- Block `x` is block `fbn` of inode `i`, and no other slot of the file has changed, but perhaps the
one of the indirect block. -/
structure Placed (i fbn : ℕ) (s : Img) (D : ℕ → Dinode) (x : ℕ) (t : Img) (D' : ℕ → Dinode) : Prop where
  grows : Grows i s D t D'
  slot : slots sb (withMap t) D' (i, fileSlot fbn) = some x
  indirect : slots sb (withMap t) D' (i, Slot.indirect) = none ↔
    fbn < NDIRECT ∧ slots sb (withMap s) D (i, Slot.indirect) = none
  rest : ∀ o, o ≠ (i, fileSlot fbn) → o ≠ (i, Slot.indirect) →
    slots sb (withMap t) D' o = slots sb (withMap s) D o
  count : t.freeblock = s.freeblock + cost sb (withMap s) D i fbn

/-- The image has no room for the blocks that block `fbn` of inode `i` needs. -/
def Full (i fbn : ℕ) (s : Img) (D : ℕ → Dinode) : Prop :=
  FSSIZE < s.freeblock + cost sb (withMap s) D i fbn

theorem slots_addr_some (hi : i < NINODES) (ht : (D i).type ≠ 0) {disk : Disk}
    {k : Fin (NDIRECT + 1)} (h : slots sb disk D (i, .addr k) ≠ none) :
    slots sb disk D (i, .addr k) = some ((D i).addrs k).toNat := by
  have hz : (D i).addrs k ≠ 0 := fun hz => h ((slots_addr_none hi ht).mpr hz)
  exact slots_eq_some.mpr ⟨hi, ht, toNat_ne_zero hz, rfl⟩

theorem addrs_of_slots {disk : Disk} {k : Fin (NDIRECT + 1)}
    (h : slots sb disk D (i, .addr k) = some b) : ((D i).addrs k).toNat = b :=
  (slots_eq_some.mp h).2.2.2

theorem blockOf_direct (h : Base s D) (hi : i < NINODES) (ht : (D i).type ≠ 0) {fbn : ℕ}
    (hd : fbn < NDIRECT) (E : Abort → Prop) : Wp (blockOf (D i) fbn) s (fun r t =>
      (FSSIZE ≤ r.1 ∧ t.sectors = FSSIZE ∧ Full i fbn s D) ∨ ∃ D', r.2 = D' i ∧ Placed i fbn s D r.1 t D') E := by
  have hslot := fileSlot_direct hd
  have hne : Slot.indirect ≠ fileSlot fbn := (fileSlot_ne_indirect fbn).symm
  have hnle : ¬ (NDIRECT ≤ fbn ∧ slots sb (withMap s) D (i, Slot.indirect) = none) := by omega
  unfold blockOf
  rw [dif_pos hd]
  refine wp_seq (addrBlock_spec h hi ht _ E) ?_
  rintro din t (⟨hsome, rfl, rfl⟩ | ⟨hnone, hfull, hsec, hx⟩ | ⟨hnone, hlt, rfl, D', rfl, hg, hslots⟩)
  · refine wp_pure (.inr ⟨D, rfl, .refl h, ?_, ?_, fun _ _ _ => rfl, ?_⟩)
    · rw [hslot]
      exact slots_addr_some hi ht hsome
    · exact ⟨fun hn => ⟨hd, hn⟩, fun hn => hn.2⟩
    · rw [cost, hslot, if_neg hsome, if_neg hnle, Nat.add_zero]
  · refine wp_pure (.inl ⟨hx.ge, hsec, ?_⟩)
    rw [Full, cost, hslot, if_pos hnone, if_neg hnle, hfull]
    decide
  · have hself : slots sb (withMap { s with freeblock := s.freeblock + 1 }) D' (i, fileSlot fbn) =
        some s.freeblock := by rw [hslots, hslot, update_self]
    have hother : ∀ o, o ≠ (i, fileSlot fbn) →
        slots sb (withMap { s with freeblock := s.freeblock + 1 }) D' o =
          slots sb (withMap s) D o := fun o ho => by
      rw [hslot] at ho
      rw [hslots, update_of_ne ho]
    refine wp_pure (.inr ⟨D', rfl, hg, ?_, ?_, fun o ho _ => hother o ho, ?_⟩)
    · rw [hself]
      rw [hslot] at hself
      rw [addrs_of_slots hself]
    · rw [hother _ fun he => hne (congrArg Prod.snd he)]
      exact ⟨fun hn => ⟨hd, hn⟩, fun hn => hn.2⟩
    · rw [cost, hslot, if_pos hnone, if_neg hnle]

theorem entryBlock_placed {s₀ : Img} {D₀ : ℕ → Dinode} (hg : Grows i s₀ D₀ s D) (hi : i < NINODES)
    (ht : (D i).type ≠ 0) {fbn a : ℕ} (hle : NDIRECT ≤ fbn) (hmax : fbn < MAXFILE)
    (ha : slots sb (withMap s) D (i, Slot.indirect) = some a)
    (hrest : ∀ o, o ≠ (i, Slot.indirect) → slots sb (withMap s) D o = slots sb (withMap s₀) D₀ o)
    (hcount : s.freeblock = s₀.freeblock +
      if NDIRECT ≤ fbn ∧ slots sb (withMap s₀) D₀ (i, Slot.indirect) = none then 1 else 0) (E : Abort → Prop) :
    Wp (entryBlock a (fbn - NDIRECT)) s (fun x t =>
      (FSSIZE ≤ x ∧ t.sectors = FSSIZE ∧ Full i fbn s₀ D₀) ∨ Placed i fbn s₀ D₀ x t D) E := by
  have hj : fbn - NDIRECT < NINDIRECT := by
    unfold MAXFILE at hmax
    omega
  have hslot := fileSlot_entry hle hj
  have hne : Slot.indirect ≠ fileSlot fbn := (fileSlot_ne_indirect fbn).symm
  have hentry := hrest (i, fileSlot fbn) fun he => hne (congrArg Prod.snd he).symm
  refine wp_mono (entryBlock_spec hg.base hi ht ha ⟨fbn - NDIRECT, hj⟩ E) ?_ fun _ he => he
  rintro x t (⟨hsome, rfl⟩ | ⟨hnone, hfull, hsec, rfl⟩ | ⟨hnone, hlt, rfl, hblock, hg', hslots⟩)
  · rw [← hslot] at hsome
    refine .inr ⟨hg, hsome, ?_, fun o _ ho => hrest o ho, ?_⟩
    · refine iff_of_false (by rw [ha]; simp) (by omega)
    · have hn : slots sb (withMap s₀) D₀ (i, fileSlot fbn) ≠ none := by
        rw [← hentry, hsome]
        simp
      rw [cost, if_neg hn, hcount, Nat.zero_add]
  · rw [← hslot, hentry] at hnone
    refine .inl ⟨le_rfl, hsec, ?_⟩
    rw [Full, cost, if_pos hnone]
    omega
  · rw [← hslot] at hnone hslots
    have hother : ∀ o, o ≠ (i, fileSlot fbn) → slots sb (withMap t) D o = slots sb (withMap s) D o :=
      fun o ho => by rw [hslots, update_of_ne ho]
    refine .inr ⟨hg.trans hg', ?_, ?_, fun o ho ho' => (hother o ho).trans (hrest o ho'), ?_⟩
    · rw [hslots, update_self]
    · rw [hother _ fun he => hne (congrArg Prod.snd he), ha]
      exact iff_of_false (by simp) (by omega)
    · rw [hentry] at hnone
      rw [cost, if_pos hnone, hblock, hcount]
      omega

/-- **The block of a file position.** -/
theorem blockOf_spec (h : Base s D) (hi : i < NINODES) (ht : (D i).type ≠ 0) {fbn : ℕ} (hmax : fbn < MAXFILE) :
    Wp (blockOf (D i) fbn) s (fun r t => (FSSIZE ≤ r.1 ∧ t.sectors = FSSIZE ∧ Full i fbn s D) ∨
      ∃ D', r.2 = D' i ∧ Placed i fbn s D r.1 t D') (fun e => e = .read ∧ Full i fbn s D) := by
  by_cases hd : fbn < NDIRECT
  · exact blockOf_direct h hi ht hd _
  have hle : NDIRECT ≤ fbn := Nat.le_of_not_lt hd
  unfold blockOf
  rw [dif_neg hd]
  refine wp_seq (addrBlock_spec h hi ht (Fin.last NDIRECT) _) ?_
  rintro din t (⟨hsome, rfl, rfl⟩ | ⟨hnone, hfull, hsec, hx⟩ | ⟨hnone, hlt, rfl, D', rfl, hg, hslots⟩)
  · have ha := slots_addr_some hi ht hsome
    have hsome' : slots sb (withMap t) D (i, Slot.indirect) ≠ none := hsome
    refine wp_seq (entryBlock_placed (.refl h) hi ht hle hmax ha (fun _ _ => rfl) ?_ _) ?_
    · rw [if_neg fun hc => hsome' hc.2, Nat.add_zero]
    · rintro x u (hend | hplaced)
      · exact wp_pure (.inl hend)
      · exact wp_pure (.inr ⟨D, rfl, hplaced⟩)
  · -- the indirect block would lie behind the image
    have hnone' : slots sb (withMap s) D (i, Slot.indirect) = none := hnone
    refine wp_bind (wp_bind (wp_rsect (fun hin => ?_) fun _ => ⟨rfl, ?_⟩))
    · rw [hsec, hx] at hin
      exact absurd hin (lt_irrefl _)
    · have hcost : NDIRECT ≤ fbn ∧ slots sb (withMap s) D (i, Slot.indirect) = none := ⟨hle, hnone'⟩
      rw [Full, cost, if_pos hcost, hfull]
      omega
  · have hnone' : slots sb (withMap s) D (i, Slot.indirect) = none := hnone
    have ha : slots sb (withMap { s with freeblock := s.freeblock + 1 }) D' (i, Slot.indirect) =
        some s.freeblock := by
      rw [hslots]
      exact update_self _ _ _
    have ht' : (D' i).type ≠ 0 := by
      rw [hg.same.type]
      exact ht
    rw [addrs_of_slots ha]
    refine wp_seq (entryBlock_placed hg hi ht' hle hmax ha (fun o ho => ?_) ?_ _) ?_
    · rw [hslots]
      exact update_of_ne ho _ _
    · rw [if_pos ⟨hle, hnone'⟩]
    · rintro x u (hend | hplaced)
      · exact wp_pure (.inl hend)
      · exact wp_pure (.inr ⟨D', rfl, hplaced⟩)

end Xv6.Mkfs
