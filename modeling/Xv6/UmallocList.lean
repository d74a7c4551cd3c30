import Xv6.CircularList
import Xv6.Tiling
import Xv6.Umalloc

/-!
# The free list of `malloc`

`Good base h L V R` is the state of the heap between two calls: the cycle `L` of free headers in the order of
their addresses with `base` in it, the live headers `V`, and the regions `R` that `sbrk` has given.

* `findPlace_spec` — the loop of `free` comes to its end at the last free header below the block;
* `Blocks.link`, `Blocks.fuse` — a block is put in the list, and two neighbours become one.
-/

namespace Xv6.Umalloc

open Xv6.CircularList Xv6.Tiling
open Function (update_self update_of_ne update_idem update_comm)

/-- The headers of blocks, free and live. -/
def headers (base : ℕ) (L : List ℕ) (V : Finset ℕ) : Finset ℕ := (L.toFinset ∪ V).erase base

/-- The number of bytes of the block with header `a`. -/
def bytes (mem : ℕ → Header) (a : ℕ) : ℕ := 16 * (mem a).size.toNat

/-- The heap between two calls, but for neighbours in the free list. -/
structure Blocks (base : ℕ) (mem : ℕ → Header) (L : List ℕ) (V : Finset ℕ) (R : List (ℕ × ℕ)) : Prop where
  cycle : Cycle (fun a => (mem a).ptr) L
  sorted : L.Pairwise (· < ·)
  base_mem : base ∈ L
  zero : (mem base).size = 0
  disjoint : ∀ a ∈ L, a ∉ V
  tiles : Tiles (bytes mem) (headers base L V) R
  above : ∀ x, Given R x → base + 16 ≤ x
  small : (R.map Prod.snd).sum < 2 ^ 36

/-- No free block ends where another begins. -/
def Gaps (base : ℕ) (mem : ℕ → Header) (L : List ℕ) : Prop :=
  ∀ a ∈ L, ∀ b ∈ L, a ≠ base → a + bytes mem a ≠ b

structure Good (base : ℕ) (h : Heap) (L : List ℕ) (V : Finset ℕ) (R : List (ℕ × ℕ)) : Prop where
  blocks : Blocks base h.mem L V R
  gaps : Gaps base h.mem L
  freep : h.freep ∈ L
  base_pos : 0 < base

variable {base bp p : ℕ} {mem mem' : ℕ → Header} {L : List ℕ} {V : Finset ℕ} {R : List (ℕ × ℕ)} {hp : Heap}

theorem mem_headers {a : ℕ} : a ∈ headers base L V ↔ a ≠ base ∧ (a ∈ L ∨ a ∈ V) := by
  rw [headers, Finset.mem_erase, Finset.mem_union, List.mem_toFinset]

theorem Blocks.base_lt (h : Blocks base mem L V R) {a : ℕ} (ha : a ∈ headers base L V) : base + 16 ≤ a := by
  have hpos := h.tiles.pos a ha
  exact h.above a (h.tiles.inside a ha a (Nat.le_refl a) (by omega))

theorem Blocks.base_notMem (h : Blocks base mem L V R) : base ∉ V := h.disjoint base h.base_mem

/-! ### Where a block goes -/

theorem split_at (a : ℕ) (l : List ℕ) (hs : (a :: l).Pairwise (· < ·)) (hab : a < bp) (hl : bp ∉ l) :
    ∃ A p B, a :: l = A ++ p :: B ∧ p < bp ∧ ∀ x ∈ B, bp < x := by
  induction l generalizing a with
  | nil => exact ⟨[], a, [], rfl, hab, fun x hx => absurd hx List.not_mem_nil⟩
  | cons c l ih =>
    have hsorted := List.pairwise_cons.mp hs
    rw [List.mem_cons, not_or] at hl
    by_cases hc : c < bp
    · obtain ⟨A, p, B, heq, hp, hB⟩ := ih c hsorted.2 hc hl.2
      exact ⟨a :: A, p, B, by rw [heq]; rfl, hp, hB⟩
    · refine ⟨[], a, c :: l, rfl, hab, fun x hx => ?_⟩
      have hc' : bp < c := lt_of_le_of_ne (Nat.le_of_not_lt hc) hl.1
      rcases List.mem_cons.mp hx with rfl | hx
      · exact hc'
      · exact hc'.trans ((List.pairwise_cons.mp hsorted.2).1 x hx)

/-- The loop of `free` goes on at `x`. -/
def Passes (mem : ℕ → Header) (bp x : ℕ) : Prop :=
  ¬ (bp > x ∧ bp < (mem x).ptr) ∧ ¬ (x ≥ (mem x).ptr ∧ (bp > x ∨ bp < (mem x).ptr))

theorem findPlace_walk {a z : ℕ} {c : List ℕ} (hp : Path (fun a => (mem a).ptr) a c z)
    (hpass : ∀ x ∈ a :: c, Passes mem bp x) (fuel : ℕ) :
    findPlace mem bp (fuel + (c.length + 1)) a = findPlace mem bp fuel z := by
  induction c generalizing a with
  | nil =>
    obtain ⟨h₁, h₂⟩ := hpass a List.mem_cons_self
    have hz : (mem a).ptr = z := hp
    rw [List.length_nil, findPlace, if_neg h₁, if_neg h₂, hz]
  | cons b c ih =>
    obtain ⟨h₁, h₂⟩ := hpass a List.mem_cons_self
    have hb : (mem a).ptr = b := hp.1
    rw [List.length_cons, ← Nat.add_assoc, findPlace, if_neg h₁, if_neg h₂, hb]
    exact ih hp.2 fun x hx => hpass x (List.mem_cons_of_mem a hx)

theorem passes_of_ne {A B : List ℕ} (hs : (A ++ p :: B).Pairwise (· < ·))
    (hc : Cycle (fun a => (mem a).ptr) (A ++ p :: B)) (hp : p < bp) (hB : ∀ x ∈ B, bp < x) {x : ℕ}
    (hx : x ∈ A ++ p :: B) (hne : x ≠ p) : Passes mem bp x := by
  have hsorted := List.pairwise_append.mp hs
  rcases List.mem_append.mp hx with hxA | hxpB
  · -- Before `p`: the next header is not above `p`.
    obtain ⟨A₁, A₂, rfl⟩ := List.append_of_mem hxA
    have heq : A₁ ++ x :: A₂ ++ p :: B = A₁ ++ x :: (A₂ ++ p :: B) := by simp
    have hxp : x < p := hsorted.2.2 x hxA p List.mem_cons_self
    rw [heq] at hs hc
    rcases next_of_sorted hs hc with ⟨q, r, hq, hnext, hlt⟩ | ⟨hnil, -⟩
    · have hqp : q ≤ p := by
        cases A₂ with
        | nil =>
          have : p = q := (List.cons.inj hq).1
          omega
        | cons c A₂ =>
          have hcq : c = q := (List.cons.inj hq).1
          rw [← hcq]
          exact le_of_lt (hsorted.2.2 c (by simp) p List.mem_cons_self)
      have hnext' : (mem x).ptr = q := hnext
      constructor
      · rw [hnext']
        omega
      · rw [hnext']
        omega
    · exact absurd hnil (by simp)
  · -- Behind `p`: it is above the block, as is the next one, unless the list wraps.
    have hxB : x ∈ B := (List.mem_cons.mp hxpB).resolve_left hne
    have hbx := hB x hxB
    obtain ⟨B₁, B₂, rfl⟩ := List.append_of_mem hxB
    have heq : A ++ p :: (B₁ ++ x :: B₂) = A ++ p :: B₁ ++ x :: B₂ := by simp
    rw [heq] at hs hc
    rcases next_of_sorted hs hc with ⟨q, r, -, hnext, hlt⟩ | ⟨-, hle, hall⟩
    · have hnext' : (mem x).ptr = q := hnext
      constructor
      · omega
      · rw [hnext']
        omega
    · have hle' : (mem x).ptr ≤ p := hall p (by simp)
      constructor
      · omega
      · omega

theorem stops_at {A B : List ℕ} (hs : (A ++ p :: B).Pairwise (· < ·))
    (hc : Cycle (fun a => (mem a).ptr) (A ++ p :: B)) (hp : p < bp) (hB : ∀ x ∈ B, bp < x) (fuel : ℕ) :
    findPlace mem bp (fuel + 1) p = some p := by
  rw [findPlace]
  rcases next_of_sorted hs hc with ⟨q, r, hq, hnext, -⟩ | ⟨-, hle, -⟩
  · have hnext' : (mem p).ptr = q := hnext
    have hbq := hB q (by rw [hq]; exact List.mem_cons_self)
    rw [hnext', if_pos ⟨hp, hbq⟩]
  · have hle' : (mem p).ptr ≤ p := hle
    split
    · rfl
    · rw [if_pos ⟨hle', .inl hp⟩]

/-- **The loop of `free`** ends at the last free header below the block, wherever it starts. -/
theorem findPlace_spec {A B : List ℕ} (hs : (A ++ p :: B).Pairwise (· < ·))
    (hc : Cycle (fun a => (mem a).ptr) (A ++ p :: B)) (hp : p < bp) (hB : ∀ x ∈ B, bp < x) {start : ℕ}
    (hstart : start ∈ A ++ p :: B) {fuel : ℕ} (hfuel : (A ++ p :: B).length ≤ fuel) :
    findPlace mem bp fuel start = some p := by
  by_cases heq : start = p
  · obtain ⟨k, rfl⟩ : ∃ k, fuel = k + 1 := ⟨fuel - 1, by simp at hfuel; omega⟩
    rw [heq]
    exact stops_at hs hc hp hB k
  · obtain ⟨C, D, hL⟩ := List.append_of_mem hstart
    have hpass : ∀ x ∈ A ++ p :: B, x ≠ p → Passes mem bp x := fun x hx hne => passes_of_ne hs hc hp hB hx hne
    have hnodup : (A ++ p :: B).Nodup := hs.imp (fun h => ne_of_lt h)
    have hpL : p ∈ C ++ start :: D := by
      rw [← hL]
      simp
    have hrest : p ∈ D ++ C := by
      rcases List.mem_append.mp hpL with hpC | hpD
      · exact List.mem_append_right D hpC
      · rcases List.mem_cons.mp hpD with rfl | hpD
        · exact absurd rfl heq
        · exact List.mem_append_left C hpD
    obtain ⟨E, F, hEF⟩ := List.append_of_mem hrest
    have hrot : Path (fun a => (mem a).ptr) start (D ++ C) start := by
      rw [hL] at hc
      exact cycle_rotate hc
    rw [hEF] at hrot
    obtain ⟨hE, -⟩ := path_append.mp hrot
    have hperm : (start :: (D ++ C)).Perm (A ++ p :: B) := by
      rw [hL]
      show ((start :: D) ++ C).Perm _
      exact List.perm_append_comm
    have hnd : (start :: (E ++ p :: F)).Nodup := by
      rw [← hEF]
      exact hperm.nodup_iff.mpr hnodup
    have hEpass : ∀ x ∈ start :: E, Passes mem bp x := by
      intro x hx
      refine hpass x ?_ ?_
      · refine hperm.mem_iff.mp ?_
        rw [hEF]
        rcases List.mem_cons.mp hx with rfl | hxE
        · exact List.mem_cons_self
        · exact List.mem_cons_of_mem _ (List.mem_append_left _ hxE)
      · rintro rfl
        rcases List.mem_cons.mp hx with hxs | hxE
        · exact heq hxs.symm
        · have hnd' := (List.nodup_cons.mp hnd).2
          exact (List.nodup_append.mp hnd').2.2 x hxE x List.mem_cons_self rfl
    have hlen : E.length + F.length + 2 = (A ++ p :: B).length := by
      rw [← hperm.length_eq, hEF]
      simp
      omega
    obtain ⟨k, rfl⟩ : ∃ k, fuel = k + 1 + (E.length + 1) := ⟨fuel - (E.length + 2), by omega⟩
    rw [findPlace_walk hE hEpass]
    exact stops_at hs hc hp hB k

/-! ### Putting a block in and joining neighbours -/

/-- The block `bp` is put in the list after `p`. -/
def link (mem : ℕ → Header) (p bp : ℕ) : ℕ → Header :=
  Function.update (Function.update mem bp { mem bp with ptr := (mem p).ptr }) p { mem p with ptr := bp }

/-- The free blocks `a` and `b` become one. -/
def fuse (mem : ℕ → Header) (a b : ℕ) : ℕ → Header :=
  Function.update mem a ⟨(mem b).ptr, (mem a).size + (mem b).size⟩

/-- What `free` writes, one change of the list after the other. -/
def joined (mem : ℕ → Header) (p bp : ℕ) : ℕ → Header :=
  let next := if bp + bytes mem bp = (mem p).ptr then fuse (link mem p bp) bp (mem p).ptr else link mem p bp
  if p + bytes mem p = bp then fuse next p bp else next

theorem link_place (mem : ℕ → Header) (p bp : ℕ) : link mem p bp p = { mem p with ptr := bp } :=
  update_self _ _ _

theorem link_block {mem : ℕ → Header} (h : bp ≠ p) : link mem p bp bp = { mem bp with ptr := (mem p).ptr } := by
  rw [link, update_of_ne h, update_self]

theorem link_of_ne {mem : ℕ → Header} {x : ℕ} (hp : x ≠ p) (hbp : x ≠ bp) : link mem p bp x = mem x := by
  rw [link, update_of_ne hp, update_of_ne hbp]

theorem fuse_self (mem : ℕ → Header) (a b : ℕ) :
    fuse mem a b a = ⟨(mem b).ptr, (mem a).size + (mem b).size⟩ := update_self _ _ _

theorem fuse_of_ne {mem : ℕ → Header} {a b x : ℕ} (h : x ≠ a) : fuse mem a b x = mem x :=
  update_of_ne h _ _

theorem link_size {mem : ℕ → Header} (h : bp ≠ p) (x : ℕ) : (link mem p bp x).size = (mem x).size := by
  by_cases hp : x = p
  · rw [hp, link_place]
  · by_cases hbp : x = bp
    · rw [hbp, link_block h]
    · rw [link_of_ne hp hbp]

theorem joinNext_mem {h : Heap} (hq : (h.mem p).ptr ≠ bp) :
    (h.joinNext bp p).mem = if bp + bytes h.mem bp = (h.mem p).ptr then
      Function.update h.mem bp ⟨(h.mem (h.mem p).ptr).ptr, (h.mem bp).size + (h.mem (h.mem p).ptr).size⟩
      else Function.update h.mem bp { h.mem bp with ptr := (h.mem p).ptr } := by
  by_cases hc : bp + bytes h.mem bp = (h.mem p).ptr
  · have hc' : bp + 16 * (h.mem bp).size.toNat = (h.mem p).ptr := hc
    rw [if_pos hc]
    simp only [Heap.joinNext, if_pos hc', Heap.setSize, Heap.setPtr, update_idem,
      update_self, update_of_ne hq]
  · have hc' : ¬ bp + 16 * (h.mem bp).size.toNat = (h.mem p).ptr := hc
    rw [if_neg hc]
    simp only [Heap.joinNext, if_neg hc', Heap.setPtr]

theorem joinPrev_mem (h : Heap) (hne : bp ≠ p) :
    (h.joinPrev bp p).mem = if p + bytes h.mem p = bp then
      Function.update h.mem p ⟨(h.mem bp).ptr, (h.mem p).size + (h.mem bp).size⟩
      else Function.update h.mem p { h.mem p with ptr := bp } := by
  by_cases hc : p + bytes h.mem p = bp
  · have hc' : p + 16 * (h.mem p).size.toNat = bp := hc
    rw [if_pos hc]
    simp only [Heap.joinPrev, if_pos hc', Heap.setSize, Heap.setPtr, update_idem,
      update_self, update_of_ne hne]
  · have hc' : ¬ p + 16 * (h.mem p).size.toNat = bp := hc
    rw [if_neg hc]
    simp only [Heap.joinPrev, if_neg hc', Heap.setPtr]

/-- **What `free` writes.** -/
theorem join_mem {h : Heap} (hne : bp ≠ p) (hq : (h.mem p).ptr ≠ bp)
    (hqp : bp + bytes h.mem bp = (h.mem p).ptr → (h.mem p).ptr ≠ p) :
    ((h.joinNext bp p).joinPrev bp p).mem = joined h.mem p bp := by
  obtain ⟨m, hm⟩ : ∃ m, m = (h.joinNext bp p).mem := ⟨_, rfl⟩
  have hp : m p = h.mem p := by
    rw [hm, joinNext_mem hq]
    split
    · rw [update_of_ne (Ne.symm hne)]
    · rw [update_of_ne (Ne.symm hne)]
  -- Whatever the first `if` has done, linking `p` to the block gives the list with the block in it.
  have hlinked : Function.update m p { m p with ptr := bp } =
      if bp + bytes h.mem bp = (h.mem p).ptr then fuse (link h.mem p bp) bp (h.mem p).ptr
      else link h.mem p bp := by
    rw [hp, hm, joinNext_mem hq]
    by_cases hc : bp + bytes h.mem bp = (h.mem p).ptr
    · rw [if_pos hc, if_pos hc, fuse, link_of_ne (hqp hc) hq, link_block hne, link]
      rw [update_comm hne, update_comm hne, update_idem]
    · rw [if_neg hc, if_neg hc, link]
  rw [joinPrev_mem _ hne, ← hm, joined]
  have hbytes : bytes m p = bytes h.mem p := by
    rw [bytes, bytes, hp]
  rw [hbytes]
  by_cases hc : p + bytes h.mem p = bp
  · rw [if_pos hc, if_pos hc, ← hlinked, fuse, update_idem, update_self,
      update_of_ne hne]
  · rw [if_neg hc, if_neg hc, hlinked]

theorem mem_insert_after {A B : List ℕ} {x : ℕ} : x ∈ A ++ p :: bp :: B ↔ x = bp ∨ x ∈ A ++ p :: B := by
  simp only [List.mem_append, List.mem_cons]
  tauto

theorem Blocks.link {A B : List ℕ} (h : Blocks base mem (A ++ p :: B) V R) (hbp : bp ∈ V) (hp : p < bp)
    (hB : ∀ x ∈ B, bp < x) : Blocks base (link mem p bp) (A ++ p :: bp :: B) (V.erase bp) R := by
  have hne : bp ≠ p := by omega
  have hnotin : bp ∉ A ++ p :: B := fun hin => h.disjoint bp hin hbp
  have hbase : bp ≠ base := fun e => h.base_notMem (e ▸ hbp)
  have hsorted := List.pairwise_append.mp h.sorted
  have hpB := List.pairwise_cons.mp hsorted.2.1
  have hA : ∀ x ∈ A, x < p := fun x hx => hsorted.2.2 x hx p List.mem_cons_self
  have hheaders : headers base (A ++ p :: bp :: B) (V.erase bp) = headers base (A ++ p :: B) V := by
    ext x
    rw [mem_headers, mem_headers, mem_insert_after, Finset.mem_erase]
    by_cases hx : x = bp
    · simp [hx, hbp, hbase]
    · simp [hx]
  refine ⟨?_, ?_, ?_, ?_, ?_, ?_, h.above, h.small⟩
  · have hrot : Path (fun a => (mem a).ptr) p (B ++ A) p := cycle_rotate h.cycle
    have hother : ∀ x ∈ B ++ A, (Umalloc.link mem p bp x).ptr = (mem x).ptr := by
      intro x hx
      have hxp : x ≠ p := by
        rcases List.mem_append.mp hx with hxB | hxA
        · have := hpB.1 x hxB
          omega
        · have := hA x hxA
          omega
      have hxbp : x ≠ bp := fun e => hnotin (by
        rw [← e]
        simp only [List.mem_append, List.mem_cons] at hx ⊢
        tauto)
      rw [link_of_ne hxp hxbp]
    have hins := path_insert (fun a => (Umalloc.link mem p bp a).ptr) hrot
      (by rw [link_place]) (by rw [link_block hne]) hother
    have hcyc : Cycle (fun a => (Umalloc.link mem p bp a).ptr) ((p :: bp :: B) ++ A) := hins
    exact cycle_rotate hcyc
  · refine List.pairwise_append.mpr ⟨hsorted.1, ?_, fun x hx y hy => ?_⟩
    · refine List.pairwise_cons.mpr ⟨fun y hy => ?_, List.pairwise_cons.mpr ⟨hB, hpB.2⟩⟩
      rcases List.mem_cons.mp hy with rfl | hy
      · exact hp
      · exact hpB.1 y hy
    · have hxp := hA x hx
      rcases List.mem_cons.mp hy with rfl | hy
      · exact hxp
      · rcases List.mem_cons.mp hy with rfl | hy
        · omega
        · exact hxp.trans (hpB.1 y hy)
  · exact mem_insert_after.mpr (.inr h.base_mem)
  · rw [link_size hne]
    exact h.zero
  · intro x hx hxV
    obtain ⟨hxne, hxV⟩ := Finset.mem_erase.mp hxV
    exact h.disjoint x ((mem_insert_after.mp hx).resolve_left hxne) hxV
  · rw [hheaders]
    refine h.tiles.congr fun x _ => ?_
    rw [bytes, bytes, link_size hne]

theorem bytes_fuse_self {a b : ℕ} (hsum : ((mem a).size + (mem b).size).toNat =
    (mem a).size.toNat + (mem b).size.toNat) : bytes (fuse mem a b) a = bytes mem a + bytes mem b := by
  rw [bytes, fuse_self, bytes, bytes]
  show 16 * ((mem a).size + (mem b).size).toNat = _
  rw [hsum]
  omega

theorem Blocks.size_add (h : Blocks base mem L V R) {a b : ℕ} (ha : a ∈ headers base L V)
    (hb : b ∈ headers base L V) (hne : a ≠ b) :
    ((mem a).size + (mem b).size).toNat = (mem a).size.toNat + (mem b).size.toNat := by
  have hle := h.tiles.len_le (s := {a, b}) (by
    intro x hx
    rcases Finset.mem_insert.mp hx with rfl | hx
    · exact ha
    · rw [Finset.mem_singleton.mp hx]
      exact hb)
  rw [Finset.sum_pair hne, bytes, bytes] at hle
  have hsmall := h.small
  rw [UInt32.toNat_add]
  exact Nat.mod_eq_of_lt (by omega)

theorem Blocks.fuse {A B : List ℕ} {a b : ℕ} (h : Blocks base mem (A ++ a :: b :: B) V R) (ha : a ≠ base)
    (hab : a + bytes mem a = b) : Blocks base (fuse mem a b) (A ++ a :: B) V R := by
  have hsorted := List.pairwise_append.mp h.sorted
  have habB := List.pairwise_cons.mp hsorted.2.1
  have hbB := List.pairwise_cons.mp habB.2
  have hlt : a < b := habB.1 b List.mem_cons_self
  have hA : ∀ x ∈ A, x < a := fun x hx => hsorted.2.2 x hx a List.mem_cons_self
  have hain : a ∈ headers base (A ++ a :: b :: B) V := mem_headers.mpr ⟨ha, .inl (by simp)⟩
  have hbase : b ≠ base := by
    have := h.base_lt hain
    omega
  have hbin : b ∈ headers base (A ++ a :: b :: B) V := mem_headers.mpr ⟨hbase, .inl (by simp)⟩
  have hbnot : b ∉ A ++ a :: B := by
    intro hin
    rcases List.mem_append.mp hin with hbA | hbaB
    · have := hA b hbA
      omega
    · rcases List.mem_cons.mp hbaB with e | hbB'
      · omega
      · have := hbB.1 b hbB'
        omega
  have hother : ∀ x, x ≠ a → Umalloc.fuse mem a b x = mem x := fun x hx => fuse_of_ne hx
  have hsum := h.size_add hain hbin (by omega)
  have hheaders : headers base (A ++ a :: B) V = (headers base (A ++ a :: b :: B) V).erase b := by
    ext x
    rw [Finset.mem_erase, mem_headers, mem_headers, mem_insert_after]
    by_cases hx : x = b
    · rw [hx]
      have hbV : b ∉ V := h.disjoint b (by simp)
      simp [hbV, hbnot]
    · simp [hx]
  refine ⟨?_, ?_, ?_, ?_, ?_, ?_, h.above, h.small⟩
  · have hrot : Path (fun x => (mem x).ptr) a (b :: B ++ A) a := cycle_rotate h.cycle
    have hskip := path_skip (fun x => (Umalloc.fuse mem a b x).ptr) hrot
      (by rw [fuse_self]) (by
        intro x hx
        have hxa : x ≠ a := by
          rcases List.mem_append.mp hx with hxB | hxA
          · have := habB.1 x (List.mem_cons_of_mem b hxB)
            omega
          · have := hA x hxA
            omega
        rw [hother x hxa])
    have hcyc : Cycle (fun x => (Umalloc.fuse mem a b x).ptr) ((a :: B) ++ A) := hskip
    exact cycle_rotate hcyc
  · refine h.sorted.sublist ?_
    exact List.Sublist.append_left (List.Sublist.cons_cons a (List.sublist_cons_self b B)) A
  · exact (mem_insert_after.mp h.base_mem).resolve_left (Ne.symm hbase)
  · rw [hother base (Ne.symm ha)]
    exact h.zero
  · intro x hx
    exact h.disjoint x (mem_insert_after.mpr (.inr hx))
  · rw [hheaders]
    refine h.tiles.join hain hbin hab ?_ ?_
    · exact bytes_fuse_self hsum
    · intro x _ hxa _
      rw [bytes, hother x hxa, bytes]

/-! ### `free` -/

/-- The list after `free`, and the header of the block that has taken the freed one in. -/
structure Freed (base : ℕ) (mem mem' : ℕ → Header) (L L' : List ℕ) (V : Finset ℕ) (R : List (ℕ × ℕ))
    (p bp : ℕ) : Prop where
  blocks : Blocks base mem' L' (V.erase bp) R
  gaps : Gaps base mem' L'
  place : p ∈ L'
  length : L'.length ≤ L.length + 1
  holds : ∃ x ∈ L', bytes mem bp ≤ bytes mem' x
  live : ∀ x, x ≠ p → x ≠ bp → mem' x = mem x

section
variable {A B : List ℕ}

theorem Blocks.end_ne (h : Blocks base mem (A ++ p :: B) V R) (hp : p < bp) (hB : ∀ x ∈ B, bp < x) {a : ℕ}
    (ha : a ∈ A ++ p :: B) (hab : a ≠ base) (hap : a ≠ p) : a + bytes mem a ≠ bp := by
  intro heq
  have hain : a ∈ headers base (A ++ p :: B) V := mem_headers.mpr ⟨hab, .inl ha⟩
  have hpos := h.tiles.pos a hain
  rcases List.mem_append.mp ha with haA | hapB
  · have hlt := (List.pairwise_append.mp h.sorted).2.2 a haA p List.mem_cons_self
    by_cases hpb : p = base
    · have hlow := h.base_lt hain
      omega
    · have := h.tiles.apart a hain p (mem_headers.mpr ⟨hpb, .inl (by simp)⟩) hlt
      omega
  · have := hB a ((List.mem_cons.mp hapB).resolve_left hap)
    omega

theorem Blocks.begins_next (h : Blocks base mem (A ++ p :: B) V R) (hbp : bp ∈ V) (hp : p < bp)
    (hB : ∀ x ∈ B, bp < x) {b : ℕ} (hb : b ∈ A ++ p :: B) (heq : bp + bytes mem bp = b) :
    ∃ B', B = b :: B' ∧ (mem p).ptr = b := by
  have hbase : bp ≠ base := fun e => h.base_notMem (e ▸ hbp)
  have hbpin : bp ∈ headers base (A ++ p :: B) V := mem_headers.mpr ⟨hbase, .inr hbp⟩
  have hpos := h.tiles.pos bp hbpin
  have hlow := h.base_lt hbpin
  have hsorted := List.pairwise_append.mp h.sorted
  have hbB : b ∈ B := by
    rcases List.mem_append.mp hb with hbA | hbpB
    · have := hsorted.2.2 b hbA p List.mem_cons_self
      omega
    · rcases List.mem_cons.mp hbpB with e | hbB
      · omega
      · exact hbB
  rcases next_of_sorted h.sorted h.cycle with ⟨q, r, hq, hnext, -⟩ | ⟨hnil, -⟩
  · have hqB : q ∈ B := by
      rw [hq]
      exact List.mem_cons_self
    have hbq := hB q hqB
    have hqb : q = b := by
      by_contra hqb
      have hbr : b ∈ r := by
        rw [hq] at hbB
        exact (List.mem_cons.mp hbB).resolve_left (Ne.symm hqb)
      have hlt : q < b := by
        have hpB := (List.pairwise_cons.mp hsorted.2.1).2
        rw [hq] at hpB
        exact (List.pairwise_cons.mp hpB).1 b hbr
      have := h.tiles.apart bp hbpin q (mem_headers.mpr ⟨by omega, .inl (by rw [hq]; simp)⟩) hbq
      omega
    exact ⟨r, by rw [hq, hqb], by rw [← hqb]; exact hnext⟩
  · rw [hnil] at hbB
    exact absurd hbB List.not_mem_nil

theorem joined_of_ne {x : ℕ} (hxp : x ≠ p) (hxbp : x ≠ bp) : joined mem p bp x = mem x := by
  have hnext : (if bp + bytes mem bp = (mem p).ptr then fuse (link mem p bp) bp (mem p).ptr
      else link mem p bp) x = mem x := by
    split
    · rw [fuse_of_ne hxbp, link_of_ne hxp hxbp]
    · rw [link_of_ne hxp hxbp]
  rw [joined]
  split
  · rw [fuse_of_ne hxp]
    exact hnext
  · exact hnext

/-- The list between the two `if`s of `free`: the block is in it, joined with the next one if that begins where
it ends.  The block reaches up to `stop`. -/
structure Linked (base : ℕ) (mem mem' : ℕ → Header) (A B' : List ℕ) (V : Finset ℕ) (R : List (ℕ × ℕ))
    (p bp : ℕ) : Prop where
  blocks : Blocks base mem' (A ++ p :: bp :: B') (V.erase bp) R
  same : ∀ x, x ≠ bp → bytes mem' x = bytes mem x
  grown : bytes mem bp ≤ bytes mem' bp
  stop : ∀ b ∈ A ++ p :: B', bp + bytes mem' bp ≠ b

theorem linked_joinNext (h : Blocks base mem (A ++ p :: B) V R) (hgaps : Gaps base mem (A ++ p :: B))
    (hbp : bp ∈ V) (hp : p < bp) (hB : ∀ x ∈ B, bp < x) : ∃ B', B'.length ≤ B.length ∧ (∀ x ∈ B', x ∈ B) ∧
    Linked base mem (if bp + bytes mem bp = (mem p).ptr then fuse (link mem p bp) bp (mem p).ptr
      else link mem p bp) A B' V R p bp := by
  have hne : bp ≠ p := by omega
  have hbase : bp ≠ base := fun e => h.base_notMem (e ▸ hbp)
  have hbpin : bp ∈ headers base (A ++ p :: B) V := mem_headers.mpr ⟨hbase, .inr hbp⟩
  have hpos := h.tiles.pos bp hbpin
  have hlow := h.base_lt hbpin
  have hlink := h.link hbp hp hB
  have hsize : ∀ x, bytes (link mem p bp) x = bytes mem x := fun x => by rw [bytes, link_size hne, bytes]
  by_cases hc : bp + bytes mem bp = (mem p).ptr
  · rw [if_pos hc]
    have hq : (mem p).ptr ∈ A ++ p :: B := next_mem h.cycle (by simp)
    obtain ⟨B', rfl, -⟩ := h.begins_next hbp hp hB hq hc
    obtain ⟨q, hqeq⟩ : ∃ q, q = (mem p).ptr := ⟨_, rfl⟩
    rw [← hqeq] at hlink hB hc hq ⊢
    have hbq : bp < q := hB q List.mem_cons_self
    have hqin : q ∈ headers base (A ++ p :: bp :: q :: B') (V.erase bp) :=
      mem_headers.mpr ⟨by omega, .inl (by simp)⟩
    have hbpin' : bp ∈ headers base (A ++ p :: bp :: q :: B') (V.erase bp) :=
      mem_headers.mpr ⟨hbase, .inl (by simp)⟩
    have hsum := hlink.size_add hbpin' hqin (by omega)
    have hlist : A ++ p :: bp :: q :: B' = (A ++ [p]) ++ bp :: q :: B' := by simp
    have hlist' : A ++ p :: bp :: B' = (A ++ [p]) ++ bp :: B' := by simp
    have hbytes : bytes (fuse (link mem p bp) bp q) bp = bytes mem bp + bytes mem q := by
      rw [bytes_fuse_self hsum, hsize, hsize]
    refine ⟨B', by simp, fun x hx => List.mem_cons_of_mem _ hx, ?_, ?_, ?_, ?_⟩
    · rw [hlist']
      rw [hlist] at hlink
      exact hlink.fuse hbase (by rw [hsize, hc])
    · intro x hx
      rw [bytes, fuse_of_ne hx]
      exact hsize x
    · rw [hbytes]
      exact Nat.le_add_right _ _
    · intro b hb heq
      have hbL : b ∈ A ++ p :: q :: B' := by
        simp only [List.mem_append, List.mem_cons] at hb ⊢
        tauto
      rw [← hqeq] at hgaps
      refine hgaps q hq b hbL (by omega) ?_
      omega
  · rw [if_neg hc]
    refine ⟨B, Nat.le_refl _, fun x hx => hx, hlink, fun x _ => hsize x, le_of_eq (hsize bp).symm, ?_⟩
    intro b hb heq
    rw [hsize] at heq
    obtain ⟨-, -, hnext⟩ := h.begins_next hbp hp hB hb heq
    exact hc (heq.trans hnext.symm)

/-- **Putting a block back keeps the list.** -/
theorem freed_joined (h : Blocks base mem (A ++ p :: B) V R) (hgaps : Gaps base mem (A ++ p :: B))
    (hbp : bp ∈ V) (hp : p < bp) (hB : ∀ x ∈ B, bp < x) :
    ∃ L', Freed base mem (joined mem p bp) (A ++ p :: B) L' V R p bp := by
  have hne : bp ≠ p := by omega
  have hbase : bp ≠ base := fun e => h.base_notMem (e ▸ hbp)
  obtain ⟨B', hlen, hsub, hl⟩ := linked_joinNext h hgaps hbp hp hB
  obtain ⟨m, hm⟩ : ∃ m, m = (if bp + bytes mem bp = (mem p).ptr then fuse (link mem p bp) bp (mem p).ptr
    else link mem p bp) := ⟨_, rfl⟩
  rw [← hm] at hl
  have hjoined : joined mem p bp = if p + bytes mem p = bp then fuse m p bp else m := by
    rw [joined, hm]
  have hold : ∀ x ∈ A ++ p :: B', x ∈ A ++ p :: B := by
    intro x hx
    simp only [List.mem_append, List.mem_cons] at hx ⊢
    rcases hx with hx | hx | hx
    · exact .inl hx
    · exact .inr (.inl hx)
    · exact .inr (.inr (hsub x hx))
  have hpm : bytes m p = bytes mem p := hl.same p (Ne.symm hne)
  by_cases hc : p + bytes mem p = bp
  · rw [if_pos hc] at hjoined
    have hpbase : p ≠ base := by
      rintro rfl
      have hzero : bytes mem p = 0 := by
        rw [bytes, h.zero]
        rfl
      omega
    have hpin : p ∈ headers base (A ++ p :: bp :: B') (V.erase bp) := mem_headers.mpr ⟨hpbase, .inl (by simp)⟩
    have hbpin : bp ∈ headers base (A ++ p :: bp :: B') (V.erase bp) := mem_headers.mpr ⟨hbase, .inl (by simp)⟩
    have hbytes : bytes (fuse m p bp) p = bytes mem p + bytes m bp := by
      rw [bytes_fuse_self (hl.blocks.size_add hpin hbpin (Ne.symm hne)), hpm]
    refine ⟨A ++ p :: B', ⟨?_, ?_, by simp, ?_, ⟨p, by simp, ?_⟩, fun x => joined_of_ne⟩⟩
    · rw [hjoined]
      exact hl.blocks.fuse hpbase (by rw [hpm, hc])
    · rw [hjoined]
      intro a ha b hb hab heq
      by_cases hap : a = p
      · rw [hap, hbytes, ← Nat.add_assoc, hc] at heq
        exact hl.stop b hb heq
      · rw [bytes, fuse_of_ne hap] at heq
        have hab' : a ≠ bp := by
          rintro rfl
          exact h.disjoint a (hold a ha) hbp
        have hsame := hl.same a hab'
        rw [bytes] at hsame
        rw [hsame] at heq
        exact hgaps a (hold a ha) b (hold b hb) hab heq
    · simp only [List.length_append, List.length_cons]
      omega
    · rw [hjoined, hbytes]
      have := hl.grown
      omega
  · rw [if_neg hc] at hjoined
    refine ⟨A ++ p :: bp :: B', ⟨?_, ?_, by simp, ?_, ⟨bp, by simp, ?_⟩, fun x => joined_of_ne⟩⟩
    · rw [hjoined]
      exact hl.blocks
    · rw [hjoined]
      intro a ha b hb hab heq
      rcases mem_insert_after.mp ha with rfl | ha'
      · rcases mem_insert_after.mp hb with rfl | hb'
        · have hbpin : b ∈ headers base (A ++ p :: b :: B') (V.erase b) :=
            mem_headers.mpr ⟨hbase, .inl (by simp)⟩
          have := hl.blocks.tiles.pos b hbpin
          omega
        · exact hl.stop b hb' heq
      · have hab' : a ≠ bp := by
          rintro rfl
          exact h.disjoint a (hold a ha') hbp
        rw [hl.same a hab'] at heq
        rcases mem_insert_after.mp hb with rfl | hb'
        · by_cases hap : a = p
          · exact hc (hap ▸ heq)
          · exact h.end_ne hp hB (hold a ha') hab hap heq
        · exact hgaps a (hold a ha') b (hold b hb') hab heq
    · simp only [List.length_append, List.length_cons]
      omega
    · rw [hjoined]
      exact hl.grown

end

/-- **`free` of a live block.** -/
theorem free_spec (h : Good base hp L V R) (hbp : bp ∈ V) {fuel : ℕ} (hfuel : L.length ≤ fuel) :
    ∃ h' L' p, free fuel (bp + 16) hp = some h' ∧ h'.freep = p ∧ p ∈ L ∧ Freed base hp.mem h'.mem L L' V R p bp := by
  have hbase : bp ≠ base := fun e => h.blocks.base_notMem (e ▸ hbp)
  have hbpin : bp ∈ headers base L V := mem_headers.mpr ⟨hbase, .inr hbp⟩
  have hlow := h.blocks.base_lt hbpin
  have hnotin : bp ∉ L := fun hin => h.blocks.disjoint bp hin hbp
  obtain ⟨a, l, rfl⟩ : ∃ a l, L = a :: l := by
    cases L with
    | nil => exact absurd h.blocks.base_mem List.not_mem_nil
    | cons a l => exact ⟨a, l, rfl⟩
  have ha : a < bp := by
    rcases List.mem_cons.mp h.blocks.base_mem with e | hin
    · omega
    · have := (List.pairwise_cons.mp h.blocks.sorted).1 base hin
      omega
  obtain ⟨A, p, B, hL, hp', hB⟩ := split_at a l h.blocks.sorted ha fun hin =>
    hnotin (List.mem_cons_of_mem a hin)
  rw [hL] at h hfuel ⊢
  have hne : bp ≠ p := by omega
  have hfind := findPlace_spec h.blocks.sorted h.blocks.cycle hp' hB h.freep hfuel
  have hq : (hp.mem p).ptr ∈ A ++ p :: B := next_mem h.blocks.cycle (by simp)
  have hqbp : (hp.mem p).ptr ≠ bp := fun e => h.blocks.disjoint bp (e ▸ hq) hbp
  have hmem := join_mem (h := hp) hne hqbp (by
    intro hc hqp
    have := h.blocks.tiles.pos bp (mem_headers.mpr ⟨hbase, .inr hbp⟩)
    omega)
  obtain ⟨L', hfreed⟩ := freed_joined h.blocks h.gaps hbp hp' hB
  refine ⟨{ (hp.joinNext bp p).joinPrev bp p with freep := p }, L', p, ?_, rfl, by simp, ?_⟩
  · rw [free, Nat.add_sub_cancel, hfind]
    rfl
  · rw [← hmem] at hfreed
    exact hfreed

end Xv6.Umalloc
