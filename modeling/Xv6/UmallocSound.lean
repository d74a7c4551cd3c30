import Xv6.UmallocList

/-!
# `malloc` and `free` keep the heap sound

* `take_spec` — `malloc` hands out a block of the list, or the end of one;
* `morecore_spec` — a piece that `sbrk` has given goes to the list;
* `malloc_spec` — the loop of `malloc` comes to its end and calls `sbrk` at most once;
* `heap_stays_sound` — any sequence of calls.
-/

namespace Xv6.Umalloc

open Xv6.CircularList Xv6.LabelledRuns Xv6.Tiling
open Function (update_self update_of_ne)

variable {base fuel : ℕ} {h : Heap} {L : List ℕ} {V : Finset ℕ} {R : List (ℕ × ℕ)}

/-! ### Handing out a block -/

/-- The heap after a block with header `y` and `n` units was handed out. -/
structure Taken (base : ℕ) (h h' : Heap) (L L' : List ℕ) (V : Finset ℕ) (R : List (ℕ × ℕ)) (y : ℕ)
    (n : UInt32) : Prop where
  good : Good base h' L' (insert y V) R
  fresh : y ∉ V
  size : (h'.mem y).size = n
  length : L'.length ≤ L.length
  live : ∀ v ∈ V, (h'.mem v).size = (h.mem v).size

theorem Good.nonzero (hg : Good base h L V R) {x : ℕ} (hsize : (h.mem x).size ≠ 0) : x ≠ base :=
  fun e => hsize (e ▸ hg.blocks.zero)

theorem take_all (hg : Good base h L V R) {prevp x : ℕ} (hprev : prevp ∈ L) (hnext : (h.mem prevp).ptr = x)
    (hx : x ∈ L) (hsize : (h.mem x).size ≠ 0) :
    ∃ L', Taken base h { h.setPtr prevp (h.mem x).ptr with freep := prevp } L L' V R x (h.mem x).size := by
  have hxbase := hg.nonzero hsize
  obtain ⟨C, D, rfl⟩ := List.append_of_mem hprev
  have hsorted := List.pairwise_append.mp hg.blocks.sorted
  have hpD := List.pairwise_cons.mp hsorted.2.1
  have hxin : x ∈ headers base (C ++ prevp :: D) V := mem_headers.mpr ⟨hxbase, .inl hx⟩
  have hlow := hg.blocks.base_lt hxin
  -- What follows `prevp` is behind it: the list wraps only to `base`.
  obtain ⟨D', rfl⟩ : ∃ D', D = x :: D' := by
    rcases next_of_sorted hg.blocks.sorted hg.blocks.cycle with ⟨q, r, hq, hq', -⟩ | ⟨-, hle, hall⟩
    · have hqx : q = x := Eq.trans (Eq.symm hq') hnext
      exact ⟨r, by rw [hq, hqx]⟩
    · have hle' : x ≤ prevp := by
        rw [← hnext]
        exact hle
      have hxle : ∀ y ∈ C, x ≤ y := by
        intro y hy
        rw [← hnext]
        exact hall y hy
      exfalso
      rcases List.mem_append.mp hg.blocks.base_mem with hb | hb
      · have := hxle base hb
        omega
      · rcases List.mem_cons.mp hb with e | hb
        · omega
        · have := hpD.1 base hb
          omega
  have hxD := List.pairwise_cons.mp hpD.2
  have hpx : prevp < x := hpD.1 x List.mem_cons_self
  have hmem : ∀ y, y ≠ prevp → (h.setPtr prevp (h.mem x).ptr).mem y = h.mem y := fun y hy =>
    update_of_ne hy _ _
  have hsizes : ∀ y, ((h.setPtr prevp (h.mem x).ptr).mem y).size = (h.mem y).size := by
    intro y
    by_cases hy : y = prevp
    · rw [hy]
      show (Function.update h.mem prevp _ prevp).size = _
      rw [update_self]
    · rw [hmem y hy]
  have hxnot : x ∉ C ++ prevp :: D' := by
    intro hin
    rcases List.mem_append.mp hin with hxC | hxpD
    · have := hsorted.2.2 x hxC prevp List.mem_cons_self
      omega
    · rcases List.mem_cons.mp hxpD with e | hxD'
      · omega
      · have := hxD.1 x hxD'
        omega
  have hsub : ∀ y ∈ C ++ prevp :: D', y ∈ C ++ prevp :: x :: D' := fun y hy => mem_insert_after.mpr (.inr hy)
  have hheaders : headers base (C ++ prevp :: D') (insert x V) = headers base (C ++ prevp :: x :: D') V := by
    ext y
    rw [mem_headers, mem_headers, mem_insert_after, Finset.mem_insert]
    tauto
  refine ⟨C ++ prevp :: D', ⟨⟨⟨?_, ?_, ?_, ?_, ?_, ?_, hg.blocks.above, hg.blocks.small⟩, ?_, by simp,
    hg.base_pos⟩, fun hxV => hg.blocks.disjoint x hx hxV, hsizes x, by simp, fun v _ => hsizes v⟩⟩
  · have hrot : Path (fun a => (h.mem a).ptr) prevp (x :: D' ++ C) prevp := cycle_rotate hg.blocks.cycle
    have hskip := path_skip (fun a => ((h.setPtr prevp (h.mem x).ptr).mem a).ptr) hrot (by
        show (Function.update h.mem prevp _ prevp).ptr = _
        rw [update_self]) (by
        intro y hy
        have hyp : y ≠ prevp := by
          rcases List.mem_append.mp hy with hyD | hyC
          · have := hpD.1 y (List.mem_cons_of_mem x hyD)
            omega
          · have := hsorted.2.2 y hyC prevp List.mem_cons_self
            omega
        rw [hmem y hyp])
    have hcyc : Cycle (fun a => ((h.setPtr prevp (h.mem x).ptr).mem a).ptr) ((prevp :: D') ++ C) := hskip
    exact cycle_rotate hcyc
  · refine hg.blocks.sorted.sublist ?_
    exact List.Sublist.append_left (List.Sublist.cons_cons prevp (List.sublist_cons_self x D')) C
  · exact (mem_insert_after.mp hg.blocks.base_mem).resolve_left (Ne.symm hxbase)
  · rw [hsizes]
    exact hg.blocks.zero
  · intro y hy hyV
    rcases Finset.mem_insert.mp hyV with rfl | hyV
    · exact hxnot hy
    · exact hg.blocks.disjoint y (hsub y hy) hyV
  · rw [hheaders]
    refine hg.blocks.tiles.congr fun y _ => ?_
    rw [bytes, hsizes, bytes]
  · intro y hy z hz hyb heq
    rw [bytes, hsizes] at heq
    exact hg.gaps y (hsub y hy) z (hsub z hz) hyb heq

theorem take_part (hg : Good base h L V R) {prevp x : ℕ} {n : UInt32} (hprev : prevp ∈ L) (hx : x ∈ L)
    (hn : n ≠ 0) (hlt : n.toNat < (h.mem x).size.toNat) :
    ∃ L', Taken base h { (h.setSize x ((h.mem x).size - n)).setSize
      (x + 16 * ((h.mem x).size - n).toNat) n with freep := prevp } L L' V R
      (x + 16 * ((h.mem x).size - n).toNat) n := by
  have hnpos : 0 < n.toNat := Nat.pos_of_ne_zero fun e => hn (UInt32.toNat_inj.mp e)
  have hsub : ((h.mem x).size - n).toNat = (h.mem x).size.toNat - n.toNat :=
    UInt32.toNat_sub_of_le _ _ (UInt32.le_iff_toNat_le.mpr (le_of_lt hlt))
  have hxbase : x ≠ base := hg.nonzero fun e => by
    rw [e] at hlt
    exact Nat.not_lt_zero _ hlt
  have hxin : x ∈ headers base L V := mem_headers.mpr ⟨hxbase, .inl hx⟩
  obtain ⟨y, hy⟩ : ∃ y, y = x + 16 * ((h.mem x).size - n).toNat := ⟨_, rfl⟩
  rw [← hy]
  have hxy : x < y := by omega
  have hyx : y < x + bytes h.mem x := by
    rw [bytes]
    omega
  obtain ⟨m, hm⟩ : ∃ m, m = ((h.setSize x ((h.mem x).size - n)).setSize y n).mem := ⟨_, rfl⟩
  have hmx : m x = { h.mem x with size := (h.mem x).size - n } := by
    rw [hm]
    show Function.update (Function.update h.mem x _) y _ x = _
    rw [update_of_ne (by omega), update_self]
  have hmy : m y = { h.mem y with size := n } := by
    rw [hm]
    show Function.update (Function.update h.mem x _) y _ y = _
    rw [update_self]
    show ({ Function.update h.mem x _ y with size := n } : Header) = _
    rw [update_of_ne (by omega)]
  have hother : ∀ z, z ≠ x → z ≠ y → m z = h.mem z := by
    intro z hzx hzy
    rw [hm]
    show Function.update (Function.update h.mem x _) y _ z = _
    rw [update_of_ne hzy, update_of_ne hzx]
  have hptr : ∀ z, (m z).ptr = (h.mem z).ptr := by
    intro z
    by_cases hzx : z = x
    · rw [hzx, hmx]
    · by_cases hzy : z = y
      · rw [hzy, hmy]
      · rw [hother z hzx hzy]
  have hbytes : ∀ z ∈ headers base L V, z ≠ x → z ≠ y → bytes m z = bytes h.mem z := by
    intro z _ hzx hzy
    rw [bytes, hother z hzx hzy, bytes]
  have hlow := hg.blocks.base_lt hxin
  have hcut := hg.blocks.tiles.cut (bytes m) hxin hxy hyx (by
      rw [bytes, hmx]
      show 16 * ((h.mem x).size - n).toNat = y - x
      omega) (by
      rw [bytes, hmy, bytes]
      show 16 * n.toNat = _
      omega)
  have hynot : y ∉ headers base L V := fun hin => by
    have := hg.blocks.tiles.apart x hxin y hin hxy
    omega
  obtain ⟨-, htiles⟩ := hcut fun z hz hzx => hbytes z hz hzx fun e => hynot (e ▸ hz)
  have hyL : y ∉ L := fun hin => hynot (mem_headers.mpr ⟨by omega, .inl hin⟩)
  have hyV : y ∉ V := fun hin => hynot (mem_headers.mpr ⟨by omega, .inr hin⟩)
  have hheaders : headers base L (insert y V) = insert y (headers base L V) := by
    ext z
    rw [Finset.mem_insert, mem_headers, mem_headers, Finset.mem_insert]
    by_cases hz : z = y
    · have hyb : y ≠ base := by omega
      simp [hz, hyb]
    · simp [hz]
  refine ⟨L, ⟨⟨⟨?_, hg.blocks.sorted, hg.blocks.base_mem, ?_, ?_, ?_, hg.blocks.above, hg.blocks.small⟩, ?_,
    hprev, hg.base_pos⟩, hyV, ?_, Nat.le_refl _, ?_⟩⟩
  · refine cycle_congr (fun z _ => ?_) hg.blocks.cycle
    show (((h.setSize x ((h.mem x).size - n)).setSize y n).mem z).ptr = _
    rw [← hm]
    exact hptr z
  · show (((h.setSize x ((h.mem x).size - n)).setSize y n).mem base).size = 0
    rw [← hm, hother base (Ne.symm hxbase) (by omega)]
    exact hg.blocks.zero
  · intro z hz hzV
    rcases Finset.mem_insert.mp hzV with rfl | hzV
    · exact hyL hz
    · exact hg.blocks.disjoint z hz hzV
  · show Tiles (bytes ((h.setSize x ((h.mem x).size - n)).setSize y n).mem) _ _
    rw [← hm, hheaders]
    exact htiles
  · show Gaps base ((h.setSize x ((h.mem x).size - n)).setSize y n).mem L
    rw [← hm]
    intro a ha b hb hab heq
    by_cases hax : a = x
    · rw [hax, bytes, hmx] at heq
      have heq' : x + 16 * ((h.mem x).size - n).toNat = b := heq
      exact hyL (by rw [hy, heq']; exact hb)
    · rw [hbytes a (mem_headers.mpr ⟨hab, .inl ha⟩) hax fun e => hyL (e ▸ ha)] at heq
      exact hg.gaps a ha b hb hab heq
  · show (((h.setSize x ((h.mem x).size - n)).setSize y n).mem y).size = n
    rw [← hm, hmy]
  · intro v hv
    show (((h.setSize x ((h.mem x).size - n)).setSize y n).mem v).size = _
    rw [← hm, hother v (fun e => hg.blocks.disjoint x hx (e ▸ hv)) fun e => hyV (e ▸ hv)]

/-- **Handing out a block.** -/
theorem take_spec (hg : Good base h L V R) {prevp x : ℕ} {n : UInt32} (hprev : prevp ∈ L)
    (hnext : (h.mem prevp).ptr = x) (hx : x ∈ L) (hn : n ≠ 0) (hle : n ≤ (h.mem x).size) :
    ∃ y h' L', h.take n prevp x = (y + 16, h') ∧ Taken base h h' L L' V R y n := by
  by_cases heq : (h.mem x).size = n
  · obtain ⟨L', htaken⟩ := take_all hg hprev hnext hx (by rw [heq]; exact hn)
    rw [heq] at htaken
    exact ⟨x, _, L', by rw [Heap.take, if_pos heq], htaken⟩
  · have hlt : n.toNat < (h.mem x).size.toNat := by
      have hle' := UInt32.le_iff_toNat_le.mp hle
      have hne : (h.mem x).size.toNat ≠ n.toNat := fun e => heq (UInt32.toNat_inj.mp e)
      omega
    obtain ⟨L', htaken⟩ := take_part hg hprev hx hn hlt
    refine ⟨_, _, L', ?_, htaken⟩
    rw [Heap.take, if_neg heq]
    have hself : ((h.setSize x ((h.mem x).size - n)).mem x).size = (h.mem x).size - n := by
      show (Function.update h.mem x _ x).size = _
      rw [update_self]
    simp only [hself]

/-! ### The search -/

section
variable {σ : Type} (sbrk : BitVec 32 → σ → Option (Option ℕ × σ)) (fuel : ℕ)

theorem mallocLoop_walk {n : UInt32} {a z : ℕ} {c : List ℕ} (hp : Path (fun a => (h.mem a).ptr) a c z)
    (hsmall : ∀ x ∈ c, ¬ n ≤ (h.mem x).size ∧ x ≠ h.freep) (rounds : ℕ) (k : σ) :
    mallocLoop sbrk fuel n (rounds + c.length) a (h.mem a).ptr h k =
      mallocLoop sbrk fuel n rounds ((a :: c).getLast (List.cons_ne_nil a c)) z h k := by
  induction c generalizing a with
  | nil =>
    have hz : (h.mem a).ptr = z := hp
    rw [List.length_nil, Nat.add_zero, hz]
    rfl
  | cons b c ih =>
    obtain ⟨hb, hrest⟩ := hp
    obtain ⟨hsize, hfreep⟩ := hsmall b List.mem_cons_self
    have hb' : (h.mem a).ptr = b := hb
    rw [List.length_cons, ← Nat.add_assoc, mallocLoop, hb', if_neg hsize, if_neg hfreep,
      ih hrest fun x hx => hsmall x (List.mem_cons_of_mem b hx), List.getLast_cons (List.cons_ne_nil b c)]

theorem Good.rotate (hg : Good base h L V R) : ∃ r, Path (fun a => (h.mem a).ptr) h.freep r h.freep ∧
    (h.freep :: r).Perm L ∧ h.freep ∉ r := by
  obtain ⟨C, D, hL⟩ := List.append_of_mem hg.freep
  have hperm : (h.freep :: (D ++ C)).Perm L := by
    rw [hL]
    show ((h.freep :: D) ++ C).Perm _
    exact List.perm_append_comm
  refine ⟨D ++ C, ?_, hperm, ?_⟩
  · have hcyc := hg.blocks.cycle
    rw [hL] at hcyc
    exact cycle_rotate hcyc
  · have hnodup : L.Nodup := hg.blocks.sorted.imp fun hlt => ne_of_lt hlt
    exact (List.nodup_cons.mp (hperm.nodup_iff.mpr hnodup)).1

/-- **A block that is large enough is found.** -/
theorem mallocLoop_found (hg : Good base h L V R) {n : UInt32} (hn : n ≠ 0)
    (hbig : ∃ x ∈ L, n ≤ (h.mem x).size) {rounds : ℕ} (hrounds : L.length ≤ rounds) (k : σ) :
    ∃ y h' L', mallocLoop sbrk fuel n rounds h.freep (h.mem h.freep).ptr h k = some (y + 16, h', k) ∧
      Taken base h h' L L' V R y n := by
  obtain ⟨r, hpath, hperm, hnotin⟩ := hg.rotate
  have hmem : ∀ x, x ∈ r ++ [h.freep] ↔ x ∈ L := by
    intro x
    rw [← hperm.mem_iff, List.mem_append, List.mem_singleton, List.mem_cons, or_comm]
  obtain ⟨x, hfirst⟩ : ∃ x, (r ++ [h.freep]).find? (fun x => decide (n ≤ (h.mem x).size)) = some x := by
    rw [← Option.isSome_iff_exists, List.find?_isSome]
    obtain ⟨x, hx, hle⟩ := hbig
    exact ⟨x, (hmem x).mpr hx, decide_eq_true hle⟩
  obtain ⟨hle, c, d, hsplit, hsmall⟩ := List.find?_eq_some_iff_append.mp hfirst
  have hxL : x ∈ L := (hmem x).mp (by rw [hsplit]; simp)
  have hpre : Path (fun a => (h.mem a).ptr) h.freep c x := path_prefix hpath hsplit
  have hcr : ∀ y ∈ c, y ∈ r := by
    intro y hy
    have hsub : c <+: r ++ [h.freep] := ⟨x :: d, hsplit.symm⟩
    have hlen : c.length ≤ r.length := by
      have := congrArg List.length hsplit
      simp only [List.length_append, List.length_cons, List.length_nil] at this
      omega
    exact (List.prefix_of_prefix_length_le hsub (List.prefix_append r [h.freep]) hlen).subset hy
  have hpass : ∀ y ∈ c, ¬ n ≤ (h.mem y).size ∧ y ≠ h.freep := by
    intro y hy
    refine ⟨fun hle' => ?_, fun e => hnotin (e ▸ hcr y hy)⟩
    have := hsmall y hy
    rw [decide_eq_true hle'] at this
    cases this
  have hlen : c.length + 1 ≤ rounds := by
    have h₁ := congrArg List.length hsplit
    have h₂ := hperm.length_eq
    simp only [List.length_append, List.length_cons, List.length_nil] at h₁ h₂
    omega
  obtain ⟨j, rfl⟩ : ∃ j, rounds = j + 1 + c.length := ⟨rounds - (c.length + 1), by omega⟩
  obtain ⟨prevp, hprevp⟩ : ∃ q, q = (h.freep :: c).getLast (List.cons_ne_nil _ c) := ⟨_, rfl⟩
  have hprev : prevp ∈ L := by
    have hin : prevp ∈ h.freep :: c := hprevp ▸ List.getLast_mem _
    rcases List.mem_cons.mp hin with e | hin
    · rw [e]
      exact hg.freep
    · exact hperm.mem_iff.mp (List.mem_cons_of_mem _ (hcr prevp hin))
  have hnext : (h.mem prevp).ptr = x := by
    rw [hprevp]
    exact path_last hpre
  have hle' : n ≤ (h.mem x).size := of_decide_eq_true hle
  obtain ⟨y, h', L', htake, htaken⟩ := take_spec hg hprev hnext hxL hn hle'
  refine ⟨y, h', L', ?_, htaken⟩
  rw [mallocLoop_walk sbrk fuel hpre hpass, ← hprevp, mallocLoop, if_pos hle', htake]

theorem mallocLoop_none (hg : Good base h L V R) {n : UInt32} (hsmall : ∀ x ∈ L, ¬ n ≤ (h.mem x).size)
    (rounds : ℕ) (k : σ) : mallocLoop sbrk fuel n (rounds + L.length) h.freep (h.mem h.freep).ptr h k =
      (morecore sbrk fuel n h k).bind fun r => if r.1 = 0 then some (0, r.2.1, r.2.2)
        else mallocLoop sbrk fuel n rounds r.1 (r.2.1.mem r.1).ptr r.2.1 r.2.2 := by
  obtain ⟨r, hpath, hperm, hnotin⟩ := hg.rotate
  have hlen : L.length = 1 + r.length := by
    rw [← hperm.length_eq, List.length_cons, Nat.add_comm]
  have hpass : ∀ y ∈ r, ¬ n ≤ (h.mem y).size ∧ y ≠ h.freep := fun y hy =>
    ⟨hsmall y (hperm.mem_iff.mp (List.mem_cons_of_mem _ hy)), fun e => hnotin (e ▸ hy)⟩
  rw [hlen, ← Nat.add_assoc, mallocLoop_walk sbrk fuel hpath hpass, mallocLoop, if_neg (hsmall _ hg.freep), if_pos rfl]
  rfl

end

/-! ### A new piece of memory -/

/-- The `len` bytes from `a` on are above `base` and apart from the regions that `sbrk` gave before. -/
def Fresh (base : ℕ) (R : List (ℕ × ℕ)) (a len : ℕ) : Prop :=
  base + 16 ≤ a ∧ ∀ r ∈ R, a + len ≤ r.1 ∨ r.1 + r.2 ≤ a

instance (base : ℕ) (R : List (ℕ × ℕ)) (a len : ℕ) : Decidable (Fresh base R a len) :=
  inferInstanceAs (Decidable (_ ∧ _))

theorem Fresh.not_given {a len : ℕ} (hf : Fresh base R a len) {x : ℕ} (hlo : a ≤ x) (hhi : x < a + len) :
    ¬ Given R x := by
  intro hx
  obtain ⟨r, hr, hr₁, hr₂⟩ := hx
  rcases hf.2 r hr with hle | hle
  · omega
  · omega

theorem good_given (hg : Good base h L V R) {a : ℕ} {nu : UInt32} (hnu : nu ≠ 0)
    (hfresh : Fresh base R a (16 * nu.toNat)) (hsmall : (R.map Prod.snd).sum + 16 * nu.toNat < 2 ^ 36) :
    a ∉ L ∧ a ∉ V ∧ Good base (h.setSize a nu) L (insert a V) ((a, 16 * nu.toNat) :: R) := by
  have hpos : 0 < nu.toNat := Nat.pos_of_ne_zero fun e => hnu (UInt32.toNat_inj.mp e)
  have habove := hfresh.1
  have hself : (h.setSize a nu).mem a = { h.mem a with size := nu } := update_self _ _ _
  have hother : ∀ x, x ≠ a → (h.setSize a nu).mem x = h.mem x := fun x hx => update_of_ne hx _ _
  have hnot : a ∉ headers base L V := by
    intro hin
    have hlen := hg.blocks.tiles.pos a hin
    exact hfresh.not_given (Nat.le_refl a) (by omega)
      (hg.blocks.tiles.inside a hin a (Nat.le_refl a) (by omega))
  have haL : a ∉ L := fun hin => hnot (mem_headers.mpr ⟨by omega, .inl hin⟩)
  have haV : a ∉ V := fun hin => hnot (mem_headers.mpr ⟨by omega, .inr hin⟩)
  have hbytes : ∀ x, x ≠ a → bytes (h.setSize a nu).mem x = bytes h.mem x := by
    intro x hx
    rw [bytes, hother x hx, bytes]
  obtain ⟨-, htiles⟩ := hg.blocks.tiles.add (a := a) (n := 16 * nu.toNat) (by omega)
    (fun x hlo hhi => hfresh.not_given hlo hhi)
    (by rw [bytes, hself]) fun x hx => hbytes x fun e => hnot (e ▸ hx)
  have hheaders : headers base L (insert a V) = insert a (headers base L V) := by
    ext z
    rw [Finset.mem_insert, mem_headers, mem_headers, Finset.mem_insert]
    by_cases hz : z = a
    · have hab : a ≠ base := by omega
      simp [hz, hab]
    · simp [hz]
  refine ⟨haL, haV, ⟨?_, hg.blocks.sorted, hg.blocks.base_mem, ?_, ?_, ?_, ?_, ?_⟩, ?_, hg.freep, hg.base_pos⟩
  · refine cycle_congr (fun x hx => ?_) hg.blocks.cycle
    rw [hother x fun e => haL (e ▸ hx)]
  · rw [hother base (by omega)]
    exact hg.blocks.zero
  · intro x hx hxV
    rcases Finset.mem_insert.mp hxV with e | hxV
    · exact haL (e ▸ hx)
    · exact hg.blocks.disjoint x hx hxV
  · rw [hheaders]
    exact htiles
  · intro x hx
    obtain ⟨r, hr, hlo, hhi⟩ := hx
    rcases List.mem_cons.mp hr with rfl | hr
    · exact habove.trans hlo
    · exact hg.blocks.above x ⟨r, hr, hlo, hhi⟩
  · rw [List.map_cons, List.sum_cons, Nat.add_comm]
    exact hsmall
  · intro x hx y hy hxb heq
    rw [hbytes x fun e => haL (e ▸ hx)] at heq
    exact hg.gaps x hx y hy hxb heq

theorem Good.freep_pos (hg : Good base h L V R) : h.freep ≠ 0 := by
  intro e
  have hbase := hg.base_pos
  have hin : 0 ∈ headers base L V := mem_headers.mpr ⟨by omega, .inl (e ▸ hg.freep)⟩
  have := hg.blocks.base_lt hin
  omega

theorem atLeast4096_le (n : UInt32) : n ≤ atLeast4096 n ∧ atLeast4096 n ≠ 0 := by
  rw [atLeast4096]
  split
  · rename_i hlt
    exact ⟨UInt32.le_of_lt hlt, by decide⟩
  · rename_i hge
    refine ⟨UInt32.le_refl n, ?_⟩
    rintro rfl
    exact hge (by decide)

section
variable {σ : Type} {sbrk : BitVec 32 → σ → Option (Option ℕ × σ)}

/-- **`morecore`** puts the new piece in the list. -/
theorem morecore_spec (hg : Good base h L V R) (n : UInt32) {k k' : σ} {a : ℕ}
    (hsbrk : sbrk (sbrkArg (atLeast4096 n)) k = some (some a, k'))
    (hfresh : Fresh base R a (16 * (atLeast4096 n).toNat))
    (hsmall : (R.map Prod.snd).sum + 16 * (atLeast4096 n).toNat < 2 ^ 36) (hfuel : L.length ≤ fuel) :
    ∃ h' L', morecore sbrk fuel n h k = some (h'.freep, h', k') ∧
      Good base h' L' V ((a, 16 * (atLeast4096 n).toNat) :: R) ∧ L'.length ≤ L.length + 1 ∧
      (∃ x ∈ L', n ≤ (h'.mem x).size) ∧ ∀ v ∈ V, (h'.mem v).size = (h.mem v).size := by
  obtain ⟨hle, hne⟩ := atLeast4096_le n
  obtain ⟨haL, haV, hgood⟩ := good_given hg hne hfresh hsmall
  obtain ⟨h', L', p, hfree, hfreep, hp, hfreed⟩ := free_spec hgood (Finset.mem_insert_self a V) hfuel
  have hself : (h.setSize a (atLeast4096 n)).mem a = { h.mem a with size := atLeast4096 n } :=
    update_self _ _ _
  have hblocks := hfreed.blocks
  rw [Finset.erase_insert haV] at hblocks
  refine ⟨h', L', ?_, ⟨hblocks, hfreed.gaps, hfreep ▸ hfreed.place, hg.base_pos⟩, hfreed.length, ?_, ?_⟩
  · rw [morecore, hsbrk]
    show (free fuel (a + 16) (h.setSize a (atLeast4096 n))).bind _ = _
    rw [hfree]
    rfl
  · obtain ⟨x, hx, hbytes⟩ := hfreed.holds
    refine ⟨x, hx, ?_⟩
    rw [bytes, bytes, hself] at hbytes
    have hle' := UInt32.le_iff_toNat_le.mp hle
    have hbytes' : 16 * (atLeast4096 n).toNat ≤ 16 * (h'.mem x).size.toNat := hbytes
    exact UInt32.le_iff_toNat_le.mpr (by omega)
  · intro v hv
    have hva : v ≠ a := fun e => haV (e ▸ hv)
    have hvp : v ≠ p := fun e => hg.blocks.disjoint p hp (e ▸ hv)
    rw [hfreed.live v hvp hva]
    show (Function.update h.mem a _ v).size = _
    rw [update_of_ne hva]

/-- The heap after `malloc` for `n` units came back with `ap`, from the regions `R` to the regions `R'`. -/
inductive Malloced (base : ℕ) (h h' : Heap) (L' : List ℕ) (V : Finset ℕ) (R' : List (ℕ × ℕ)) (n : UInt32) :
    ℕ → Prop
  | null (hsame : h' = h) (hgood : Good base h' L' V R') : Malloced base h h' L' V R' n 0
  | block (y : ℕ) (hgood : Good base h' L' (insert y V) R') (hfresh : y ∉ V) (hsize : (h'.mem y).size = n)
      (hlive : ∀ v ∈ V, (h'.mem v).size = (h.mem v).size) : Malloced base h h' L' V R' n (y + 16)

theorem Taken.malloced {h₀ h' : Heap} {L' : List ℕ} {y : ℕ} {n : UInt32} (ht : Taken base h h' L L' V R y n)
    (hlive : ∀ v ∈ V, (h.mem v).size = (h₀.mem v).size) : Malloced base h₀ h' L' V R n (y + 16) :=
  .block y ht.good ht.fresh ht.size fun v hv => (ht.live v hv).trans (hlive v hv)

/-- The regions after an answer of `sbrk`. -/
def given (R : List (ℕ × ℕ)) (len : ℕ) : Option ℕ → List (ℕ × ℕ)
  | none => R
  | some a => (a, len) :: R

/-- **The loop of `malloc`** comes to its end.  It calls `sbrk` once, or not at all. -/
theorem mallocLoop_spec (hg : Good base h L V R) {n : UInt32} (hn : n ≠ 0) {k k' : σ} {answer : Option ℕ}
    (hsbrk : sbrk (sbrkArg (atLeast4096 n)) k = some (answer, k'))
    (hfresh : ∀ a, answer = some a → Fresh base R a (16 * (atLeast4096 n).toNat))
    (hsmall : (R.map Prod.snd).sum + 16 * (atLeast4096 n).toNat < 2 ^ 36) (hfuel : 2 * L.length + 1 ≤ fuel) :
    ∃ ap h' L', L'.length ≤ L.length + 1 ∧
      ((mallocLoop sbrk fuel n fuel h.freep (h.mem h.freep).ptr h k = some (ap, h', k) ∧
          Malloced base h h' L' V R n ap) ∨
        (mallocLoop sbrk fuel n fuel h.freep (h.mem h.freep).ptr h k = some (ap, h', k') ∧
          Malloced base h h' L' V (given R (16 * (atLeast4096 n).toNat) answer) n ap)) := by
  by_cases hbig : ∃ x ∈ L, n ≤ (h.mem x).size
  · obtain ⟨y, h', L', hloop, htaken⟩ := mallocLoop_found sbrk fuel hg hn hbig
      (show L.length ≤ fuel by omega) k
    exact ⟨y + 16, h', L', by have := htaken.length; omega, .inl ⟨hloop, htaken.malloced fun v _ => rfl⟩⟩
  · have hnone : ∀ x ∈ L, ¬ n ≤ (h.mem x).size := fun x hx hle => hbig ⟨x, hx, hle⟩
    obtain ⟨j, hj⟩ : ∃ j, fuel = j + L.length := ⟨fuel - L.length, by omega⟩
    have hloop := mallocLoop_none sbrk fuel hg hnone j k
    rw [← hj] at hloop
    cases answer with
    | none =>
      refine ⟨0, h, L, by omega, .inr ⟨?_, .null rfl hg⟩⟩
      rw [hloop, morecore, hsbrk]
      rfl
    | some a =>
      obtain ⟨h₁, L₁, hmore, hgood, hlen, hbig', hlive⟩ := morecore_spec hg n hsbrk (hfresh a rfl) hsmall
        (show L.length ≤ fuel by omega)
      obtain ⟨y, h', L', hfound, htaken⟩ := mallocLoop_found sbrk fuel hgood hn hbig'
        (show L₁.length ≤ j by omega) k'
      refine ⟨y + 16, h', L', by have := htaken.length; omega, .inr ⟨?_, htaken.malloced hlive⟩⟩
      rw [hloop, hmore, Option.bind_some, if_neg hgood.freep_pos, hfound]

end

/-! ### Runs -/

theorem Good.congr {h' : Heap} (hg : Good base h L V R) (hfreep : h'.freep = h.freep)
    (hL : ∀ a ∈ L, h'.mem a = h.mem a) (hV : ∀ a ∈ V, h'.mem a = h.mem a) : Good base h' L V R := by
  have hbytes : ∀ a ∈ headers base L V, bytes h'.mem a = bytes h.mem a := by
    intro a ha
    rcases (mem_headers.mp ha).2 with hin | hin
    · rw [bytes, hL a hin, bytes]
    · rw [bytes, hV a hin, bytes]
  refine ⟨⟨?_, hg.blocks.sorted, hg.blocks.base_mem, ?_, hg.blocks.disjoint, hg.blocks.tiles.congr hbytes,
    hg.blocks.above, hg.blocks.small⟩, ?_, ?_, hg.base_pos⟩
  · refine cycle_congr (fun a ha => ?_) hg.blocks.cycle
    rw [hL a ha]
  · rw [hL base hg.blocks.base_mem]
    exact hg.blocks.zero
  · intro a ha b hb hab heq
    rw [bytes, hL a ha] at heq
    exact hg.gaps a ha b hb hab heq
  · rw [hfreep]
    exact hg.freep

/-- The end of the block with header `a`. -/
def Heap.stop (h : Heap) (a : ℕ) : ℕ := a + 16 * h.units a

/-- The headers of the live blocks. -/
def St.headers (s : St) : List ℕ := s.live.map fun x => x.1 - 16

structure Kept (base : ℕ) (s : St) (L : List ℕ) : Prop where
  good : Good base s.heap L s.headers.toFinset s.regions
  nodup : s.headers.Nodup
  enough : ∀ x ∈ s.live, 16 ≤ x.1 ∧ x.1 + x.2 ≤ s.heap.stop (x.1 - 16)

/-- Before the first call of `malloc`, or with a free list of at most `n + 1` headers. -/
def Inv (base n : ℕ) (s : St) : Prop :=
  (s.heap.freep = 0 ∧ s.live = [] ∧ s.regions = []) ∨ ∃ L : List ℕ, L.length ≤ n + 1 ∧ Kept base s L

/-- `sbrk` gives memory above `base`, apart from what it gave before, and its argument is positive as an `int`;
`free` gets a pointer to a live block. -/
def Allowed (base : ℕ) (s : St) : Op → Prop
  | .malloc nbytes answers =>
    16 * (atLeast4096 (units nbytes)).toNat < 2 ^ 31 ∧
      ∀ a ∈ answers.head?.join, Fresh base s.regions a (16 * (atLeast4096 (units nbytes)).toNat)
  | .free ap => ap ∈ s.live.map Prod.fst
  | .store _ => True

instance decidableAllowed (base : ℕ) (s : St) : ∀ op : Op, Decidable (Allowed base s op)
  | .malloc _ _ => inferInstanceAs (Decidable (_ ∧ _))
  | .free _ => inferInstanceAs (Decidable (_ ∈ _))
  | .store _ => isTrue trivial

/-- The memory of the heap, with the piece `malloc` may ask for, has less than `2^32` units. -/
def Fits (s : St) : Op → Prop
  | .malloc nbytes _ => (s.regions.map Prod.snd).sum + 16 * (atLeast4096 (units nbytes)).toNat < 2 ^ 36
  | .free _ => True
  | .store _ => True

instance decidableFits (s : St) : ∀ op : Op, Decidable (Fits s op)
  | .malloc _ _ => inferInstanceAs (Decidable (_ < _))
  | .free _ => isTrue trivial
  | .store _ => isTrue trivial

theorem units_toNat (nbytes : UInt32) : (units nbytes).toNat = (nbytes.toNat + 15) / 16 + 1 := by
  have hlt := nbytes.toNat_lt
  rw [units, UInt32.toNat_ofNat']
  exact Nat.mod_eq_of_lt (by omega)

theorem units_ne_zero (nbytes : UInt32) : units nbytes ≠ 0 := by
  intro e
  have := units_toNat nbytes
  rw [e] at this
  exact absurd this (by simp)

theorem inv_begin {n : ℕ} {s : St} (hbase : 0 < base) (hs : Inv base n s) :
    ∃ L, L.length ≤ n + 1 ∧ Kept base { s with heap := s.heap.begin base } L := by
  rcases hs with ⟨hfreep, hlive, hregions⟩ | ⟨L, hlen, hk⟩
  · have hbegin : s.heap.begin base = ⟨Function.update s.heap.mem base ⟨base, 0⟩, base⟩ := by
      rw [Heap.begin, if_pos hfreep]
    have hself : Function.update s.heap.mem base ⟨base, 0⟩ base = (⟨base, 0⟩ : Header) :=
      update_self _ _ _
    have hheaders : headers base [base] ∅ = ∅ := by
      ext x
      rw [mem_headers]
      simp
    refine ⟨[base], by simp, ⟨?_, ?_, ?_⟩⟩
    · show Good base (s.heap.begin base) [base] (s.live.map fun x => x.1 - 16).toFinset s.regions
      rw [hbegin, hlive, hregions]
      refine ⟨⟨?_, List.pairwise_singleton _ _, List.mem_singleton_self _, ?_, fun _ _ => Finset.notMem_empty _,
        ?_, ?_, by decide⟩, ?_, List.mem_singleton_self _, hbase⟩
      · show (Function.update s.heap.mem base ⟨base, 0⟩ base).ptr = base
        rw [hself]
      · show (Function.update s.heap.mem base ⟨base, 0⟩ base).size = 0
        rw [hself]
      · show Tiles _ (headers base [base] ∅) []
        rw [hheaders]
        exact tiles_nil _
      · intro x hx
        obtain ⟨r, hr, -⟩ := hx
        exact absurd hr List.not_mem_nil
      · intro a ha b _ hab
        exact absurd (List.mem_singleton.mp ha) hab
    · show (s.live.map fun x => x.1 - 16).Nodup
      rw [hlive]
      exact List.nodup_nil
    · intro x hx
      have hx' : x ∈ s.live := hx
      rw [hlive] at hx'
      exact absurd hx' List.not_mem_nil
  · have hbegin : s.heap.begin base = s.heap := by
      rw [Heap.begin, if_neg hk.good.freep_pos]
    refine ⟨L, hlen, ?_⟩
    rw [hbegin]
    exact hk

theorem enough_of_units {h : Heap} {y : ℕ} {nbytes : UInt32} (hsize : (h.mem y).size = units nbytes) :
    y + 16 + nbytes.toNat ≤ h.stop y := by
  rw [Heap.stop, Heap.units, hsize, units_toNat]
  omega

theorem kept_malloced {s : St} {L' : List ℕ} {R' : List (ℕ × ℕ)} {ap : ℕ} {h' : Heap} {nbytes : UInt32}
    (hk : Kept base s L) (hm : Malloced base s.heap h' L' s.headers.toFinset R' (units nbytes) ap) :
    Kept base ⟨h', if ap = 0 then s.live else (ap, nbytes.toNat) :: s.live, R'⟩ L' := by
  cases hm with
  | null hsame hgood =>
    rw [if_pos rfl, hsame]
    rw [hsame] at hgood
    exact ⟨hgood, hk.nodup, hk.enough⟩
  | block y hgood hfresh hsize hlive =>
    rw [if_neg (Nat.succ_ne_zero _)]
    have hnew : St.headers ⟨h', (y + 16, nbytes.toNat) :: s.live, R'⟩ = y :: s.headers := rfl
    refine ⟨?_, ?_, ?_⟩
    · rw [hnew, List.toFinset_cons]
      exact hgood
    · rw [hnew]
      exact List.nodup_cons.mpr ⟨fun hin => hfresh (List.mem_toFinset.mpr hin), hk.nodup⟩
    · intro x hx
      rcases List.mem_cons.mp hx with rfl | hx
      · exact ⟨Nat.le_add_left 16 y, enough_of_units hsize⟩
      · obtain ⟨hlow, hstop⟩ := hk.enough x hx
        refine ⟨hlow, ?_⟩
        have hin : x.1 - 16 ∈ s.headers.toFinset := List.mem_toFinset.mpr (List.mem_map.mpr ⟨x, hx, rfl⟩)
        show x.1 + x.2 ≤ h'.stop (x.1 - 16)
        rw [Heap.stop, Heap.units, hlive _ hin]
        exact hstop

theorem sbrk_call (n : BitVec 32) (answers : List (Option ℕ)) (R : List (ℕ × ℕ)) :
    ∃ k', Sbrk.call n ⟨answers, R⟩ = some (answers.head?.join, k') ∧
      k'.regions = given R n.toNat answers.head?.join := by
  match answers with
  | [] => exact ⟨_, rfl, rfl⟩
  | none :: answers => exact ⟨_, rfl, rfl⟩
  | some a :: answers => exact ⟨_, rfl, rfl⟩

theorem sbrkArg_toNat {n : UInt32} (h : 16 * n.toNat < 2 ^ 32) : (sbrkArg n).toNat = 16 * n.toNat := by
  rw [sbrkArg, BitVec.toNat_ofNat, Nat.mod_eq_of_lt (by omega), Nat.mul_comm]

theorem malloc_step {n : ℕ} {s : St} {nbytes : UInt32} {answers : List (Option ℕ)} (hbase : 0 < base)
    (hs : Inv base n s) (ha : Allowed base s (.malloc nbytes answers)) (hf : Fits s (.malloc nbytes answers))
    (hfuel : 2 * (n + 1) + 1 ≤ fuel) :
    ∃ t, s.step base fuel (.malloc nbytes answers) = some t ∧ Inv base (n + 1) t := by
  obtain ⟨L, hlen, hk⟩ := inv_begin hbase hs
  obtain ⟨k', hcall, hregions⟩ := sbrk_call (sbrkArg (atLeast4096 (units nbytes))) answers s.regions
  obtain ⟨ap, h', L', hlen', hloop⟩ := mallocLoop_spec hk.good (units_ne_zero nbytes) hcall
    (fun a hans => ha.2 a hans) hf (show 2 * L.length + 1 ≤ fuel by omega)
  rcases hloop with ⟨hloop, hm⟩ | ⟨hloop, hm⟩
  · refine ⟨_, ?_, .inr ⟨L', by omega, kept_malloced hk hm⟩⟩
    show (mallocLoop Sbrk.call fuel (units nbytes) fuel _ _ _ _).map _ = _
    rw [hloop]
    rfl
  · have harg : (sbrkArg (atLeast4096 (units nbytes))).toNat = 16 * (atLeast4096 (units nbytes)).toNat :=
      sbrkArg_toNat (by have := ha.1; omega)
    rw [harg] at hregions
    rw [← hregions] at hm
    refine ⟨_, ?_, .inr ⟨L', by omega, kept_malloced hk hm⟩⟩
    show (mallocLoop Sbrk.call fuel (units nbytes) fuel _ _ _ _).map _ = _
    rw [hloop]
    rfl

theorem free_step {n ap : ℕ} {s : St} (hs : Inv base n s) (ha : Allowed base s (.free ap)) (hfuel : n + 1 ≤ fuel) :
    ∃ t, s.step base fuel (.free ap) = some t ∧ Inv base (n + 1) t := by
  obtain ⟨x, hx, rfl⟩ := List.mem_map.mp ha
  rcases hs with ⟨-, hlive, -⟩ | ⟨L, hlen, hk⟩
  · rw [hlive] at hx
    exact absurd hx List.not_mem_nil
  obtain ⟨hlow, -⟩ := hk.enough x hx
  obtain ⟨bp, hbp⟩ : ∃ bp, x.1 = bp + 16 := ⟨x.1 - 16, by omega⟩
  have hin : bp ∈ s.headers := List.mem_map.mpr ⟨x, hx, by rw [hbp, Nat.add_sub_cancel]⟩
  obtain ⟨h', L', p, hfree, hfreep, hp, hfreed⟩ :=
    free_spec hk.good (List.mem_toFinset.mpr hin) (show L.length ≤ fuel by omega)
  refine ⟨⟨h', s.live.filter (·.1 ≠ x.1), s.regions⟩, ?_, .inr ⟨L', ?_, ?_⟩⟩
  · show (free fuel x.1 s.heap).map _ = _
    rw [hbp, hfree]
    rfl
  · have := hfreed.length
    omega
  have hmem : ∀ y, y ∈ (s.live.filter (·.1 ≠ x.1)).map (fun x => x.1 - 16) ↔ y ≠ bp ∧ y ∈ s.headers := by
    intro y
    rw [St.headers, List.mem_map, List.mem_map]
    constructor
    · intro hy
      obtain ⟨z, hz, hzy⟩ := hy
      obtain ⟨hz, hne⟩ := List.mem_filter.mp hz
      have hne' : z.1 ≠ x.1 := of_decide_eq_true hne
      have hz16 := (hk.enough z hz).1
      exact ⟨by omega, z, hz, hzy⟩
    · intro hy
      obtain ⟨hne, z, hz, hzy⟩ := hy
      refine ⟨z, List.mem_filter.mpr ⟨hz, decide_eq_true ?_⟩, hzy⟩
      omega
  have hV : (St.headers ⟨h', s.live.filter (·.1 ≠ x.1), s.regions⟩).toFinset = s.headers.toFinset.erase bp := by
    ext y
    rw [List.mem_toFinset, Finset.mem_erase, List.mem_toFinset]
    exact hmem y
  refine ⟨?_, ?_, ?_⟩
  · rw [hV]
    exact ⟨hfreed.blocks, hfreed.gaps, hfreep ▸ hfreed.place, hk.good.base_pos⟩
  · exact hk.nodup.sublist (List.filter_sublist.map _)
  · intro z hz
    obtain ⟨hz', hne⟩ := List.mem_filter.mp hz
    obtain ⟨hz16, hstop⟩ := hk.enough z hz'
    obtain ⟨hzbp, hzin⟩ := (hmem (z.1 - 16)).mp (List.mem_map.mpr ⟨z, hz, rfl⟩)
    refine ⟨hz16, ?_⟩
    have hzp : z.1 - 16 ≠ p := fun e => hk.good.blocks.disjoint p hp (e ▸ List.mem_toFinset.mpr hzin)
    show z.1 + z.2 ≤ h'.stop (z.1 - 16)
    rw [Heap.stop, Heap.units, hfreed.live _ hzp hzbp]
    exact hstop

theorem not_touches {s : St} (hk : Kept base s L) {a : ℕ} (ha : a ∈ L ∨ a ∈ s.headers.toFinset) : ¬ s.touches a := by
  intro ht
  obtain ⟨x, hx, hlo, hhi⟩ := ht
  have hx16 := (hk.enough x hx).1
  have hxV : x.1 - 16 ∈ s.headers.toFinset := List.mem_toFinset.mpr (List.mem_map.mpr ⟨x, hx, rfl⟩)
  have hxbase : x.1 - 16 ≠ base := fun e => hk.good.blocks.base_notMem (e ▸ hxV)
  have hxin : x.1 - 16 ∈ headers base L s.headers.toFinset := mem_headers.mpr ⟨hxbase, .inr hxV⟩
  have hxlow := hk.good.blocks.base_lt hxin
  by_cases hab : a = base
  · omega
  · have hain := mem_headers.mpr ⟨hab, ha⟩
    have hpos := hk.good.blocks.tiles.pos a hain
    rw [bytes] at hpos
    rcases Nat.lt_trichotomy a (x.1 - 16) with hlt | heq | hgt
    · have := hk.good.blocks.tiles.apart a hain _ hxin hlt
      rw [bytes] at this
      omega
    · omega
    · have := hk.good.blocks.tiles.apart _ hxin a hain hgt
      rw [bytes] at this
      rw [Heap.units] at hlo
      omega

theorem store_step {n : ℕ} {s : St} {bytes : ℕ → Header} (hs : Inv base n s) :
    ∃ t, s.step base fuel (.store bytes) = some t ∧ Inv base (n + 1) t := by
  refine ⟨_, rfl, ?_⟩
  rcases hs with hstart | ⟨L, hlen, hk⟩
  · exact .inl hstart
  · have hsame : ∀ a, a ∈ L ∨ a ∈ s.headers.toFinset →
        (if s.touches a then bytes a else s.heap.mem a) = s.heap.mem a := fun a ha =>
      if_neg (not_touches hk ha)
    refine .inr ⟨L, by omega, ⟨?_, hk.nodup, ?_⟩⟩
    · exact hk.good.congr rfl (fun a ha => hsame a (.inl ha)) fun a ha => hsame a (.inr ha)
    · intro x hx
      have hxV : x.1 - 16 ∈ s.headers.toFinset := List.mem_toFinset.mpr (List.mem_map.mpr ⟨x, hx, rfl⟩)
      refine ⟨(hk.enough x hx).1, ?_⟩
      show x.1 + x.2 ≤ x.1 - 16 + 16 * (if s.touches (x.1 - 16) then bytes (x.1 - 16)
        else s.heap.mem (x.1 - 16)).size.toNat
      rw [hsame _ (.inr hxV)]
      exact (hk.enough x hx).2

/-- **One call keeps the invariant and comes to its end.** -/
theorem inv_step {n : ℕ} {s : St} {op : Op} (hbase : 0 < base) (hs : Inv base n s) (ha : Allowed base s op)
    (hf : Fits s op) (hfuel : 2 * n + 3 ≤ fuel) : ∃ t, s.step base fuel op = some t ∧ Inv base (n + 1) t := by
  cases op with
  | malloc nbytes answers => exact malloc_step hbase hs ha hf (by omega)
  | free ap => exact free_step hs ha (by omega)
  | store bytes => exact store_step hs

theorem inv_exec {s : St} {n : ℕ} {ls : List Op} (hbase : 0 < base) (hs : Inv base n s)
    (hls : Meets (St.step base fuel) (fun s op => Allowed base s op ∧ Fits s op) s ls)
    (hfuel : 2 * (n + ls.length) + 1 ≤ fuel) :
    ∃ t, exec (St.step base fuel) s ls = some t ∧ Inv base (n + ls.length) t := by
  induction ls generalizing s n with
  | nil => exact ⟨s, rfl, hs⟩
  | cons op ls ih =>
    rw [List.length_cons] at hfuel
    obtain ⟨t, hstep, ht⟩ := inv_step hbase hs hls.1.1 hls.1.2 (show 2 * n + 3 ≤ fuel by omega)
    obtain ⟨u, hrun, hu⟩ := ih ht (hls.2 t hstep) (by omega)
    refine ⟨u, exec_cons_of hstep hrun, ?_⟩
    rw [List.length_cons, ← Nat.add_assoc, Nat.add_right_comm]
    exact hu

/-! ### What the invariant says -/

/-- Two blocks do not overlap. -/
def Heap.Apart (h : Heap) (a b : ℕ) : Prop := h.stop a ≤ b ∨ h.stop b ≤ a

/-- `L` is the free list. -/
structure FreeList (base : ℕ) (s : St) (L : List ℕ) : Prop where
  cycle : Cycle (fun a => (s.heap.mem a).ptr) L
  sorted : L.Pairwise (· < ·)
  base_mem : base ∈ L
  freep_mem : s.heap.freep ∈ L
  disjoint : ∀ a ∈ L, ∀ b ∈ s.headers, s.heap.Apart a b
  gaps : ∀ a ∈ L, ∀ b ∈ L, a ≠ b → s.heap.stop a ≠ b
  total : 16 * ((L.map s.heap.units).sum + (s.headers.map s.heap.units).sum) = (s.regions.map Prod.snd).sum

structure Sound (base : ℕ) (s : St) : Prop where
  apart : s.headers.Pairwise s.heap.Apart
  inside : ∀ b ∈ s.headers, ∀ x, b ≤ x → x < s.heap.stop b → Given s.regions x
  enough : ∀ x ∈ s.live, 16 ≤ x.1 ∧ x.1 + x.2 ≤ s.heap.stop (x.1 - 16)
  list : s = St.start s.heap.mem ∨ ∃ L, FreeList base s L

theorem Good.apart (hg : Good base h L V R) {a b : ℕ} (ha : a ∈ headers base L V) (hb : b ∈ headers base L V)
    (hne : a ≠ b) : h.Apart a b := by
  rcases Nat.lt_or_gt_of_ne hne with hlt | hlt
  · exact .inl (hg.blocks.tiles.apart a ha b hb hlt)
  · exact .inr (hg.blocks.tiles.apart b hb a ha hlt)

theorem Kept.total {s : St} (hk : Kept base s L) :
    16 * ((L.map s.heap.units).sum + (s.headers.map s.heap.units).sum) = (s.regions.map Prod.snd).sum := by
  have hzero : bytes s.heap.mem base = 0 := by
    rw [bytes, hk.good.blocks.zero]
    rfl
  have hdisj : Disjoint L.toFinset s.headers.toFinset := Finset.disjoint_left.mpr fun a ha =>
    hk.good.blocks.disjoint a (List.mem_toFinset.mp ha)
  have hnodup : L.Nodup := hk.good.blocks.sorted.imp fun hlt => ne_of_lt hlt
  have hsum : ∀ l : List ℕ, l.Nodup → ∑ a ∈ l.toFinset, bytes s.heap.mem a = 16 * (l.map s.heap.units).sum := by
    intro l hl
    rw [List.sum_toFinset _ hl]
    show (l.map fun a => 16 * s.heap.units a).sum = _
    rw [List.sum_map_mul_left]
  rw [← hk.good.blocks.tiles.total, headers, Finset.sum_erase _ hzero, Finset.sum_union hdisj, hsum L hnodup,
    hsum s.headers hk.nodup, Nat.mul_add]

theorem sound_of_inv {n : ℕ} {s : St} (hs : Inv base n s) : Sound base s := by
  rcases hs with ⟨hfreep, hlive, hregions⟩ | ⟨L, -, hk⟩
  · have hstart : s = St.start s.heap.mem := by
      obtain ⟨⟨mem, freep⟩, live, regions⟩ := s
      have h₁ : freep = 0 := hfreep
      have h₂ : live = [] := hlive
      have h₃ : regions = [] := hregions
      rw [h₁, h₂, h₃]
      rfl
    have hnone : s.headers = [] := by
      rw [St.headers, hlive]
      rfl
    refine ⟨?_, ?_, ?_, .inl hstart⟩
    · rw [hnone]
      exact List.Pairwise.nil
    · intro b hb
      rw [hnone] at hb
      exact absurd hb List.not_mem_nil
    · intro x hx
      rw [hlive] at hx
      exact absurd hx List.not_mem_nil
  · have hin : ∀ b ∈ s.headers, b ∈ headers base L s.headers.toFinset := by
      intro b hb
      have hbV := List.mem_toFinset.mpr hb
      exact mem_headers.mpr ⟨fun e => hk.good.blocks.base_notMem (e ▸ hbV), .inr hbV⟩
    refine ⟨?_, ?_, hk.enough, .inr ⟨L, hk.good.blocks.cycle, hk.good.blocks.sorted, hk.good.blocks.base_mem,
      hk.good.freep, ?_, ?_, hk.total⟩⟩
    · exact List.Pairwise.imp_of_mem (fun ha hb hne => hk.good.apart (hin _ ha) (hin _ hb) hne) hk.nodup
    · intro b hb x hbx hx
      exact hk.good.blocks.tiles.inside b (hin b hb) x hbx hx
    · intro a ha b hb
      have hbV := List.mem_toFinset.mpr hb
      have hne : a ≠ b := fun e => hk.good.blocks.disjoint a ha (e ▸ hbV)
      by_cases hab : a = base
      · have hlow := hk.good.blocks.base_lt (hin b hb)
        refine .inl ?_
        rw [Heap.stop, Heap.units, hab, hk.good.blocks.zero]
        show base + 16 * 0 ≤ b
        omega
      · exact hk.good.apart (mem_headers.mpr ⟨hab, .inl ha⟩) (hin b hb) hne
    · intro a ha b hb hne heq
      by_cases hab : a = base
      · rw [Heap.stop, Heap.units, hab, hk.good.blocks.zero] at heq
        have heq' : base + 16 * 0 = b := heq
        omega
      · exact hk.good.gaps a ha b hb hab heq

/-- **The heap stays sound.**  Every sequence of calls, with stores to the live blocks between them, comes to its
end when the loops may go `2 * ls.length + 1` rounds, and leaves a sound heap. -/
theorem heap_stays_sound (hbase : 0 < base) (mem : ℕ → Header) {ls : List Op}
    (hls : Meets (St.step base fuel) (fun s op => Allowed base s op ∧ Fits s op) (St.start mem) ls)
    (hfuel : 2 * ls.length + 1 ≤ fuel) :
    ∃ s, exec (St.step base fuel) (St.start mem) ls = some s ∧ Sound base s := by
  obtain ⟨s, hrun, hs⟩ := inv_exec hbase (.inl ⟨rfl, rfl, rfl⟩ : Inv base 0 (St.start mem)) hls (by omega)
  exact ⟨s, hrun, sound_of_inv hs⟩

/-- Two blocks from one piece of memory, a block of its own piece, and a failure of `sbrk`. -/
def fewBlocks : List Op :=
  [.malloc 100 [some 0x4000], .malloc 40 [], .store fun _ => ⟨7, 7⟩, .malloc 0x20000 [some 0x14000],
    .free 0x13f90, .malloc 0x30000 [none], .free 0x14010]

theorem heap_stays_sound_fewBlocks : ∃ s,
    exec (St.step 0x1000 20) (St.start fun _ => ⟨0, 0⟩) fewBlocks = some s ∧ Sound 0x1000 s := by
  have hls : Meets (St.step 0x1000 20) (fun s op => Allowed 0x1000 s op ∧ Fits s op)
      (St.start fun _ => ⟨0, 0⟩) fewBlocks := by
    decide +kernel
  exact heap_stays_sound (by decide) (fun _ => ⟨0, 0⟩) hls (by decide)

/-- 33 blocks of `2^27 - 1` units, one behind the other; they are all freed. -/
def manyBlocks : List Op :=
  ((List.range 33).map fun i => .malloc 0x7fffffe0 [some (0x10000 + 0x7ffffff0 * i)]) ++
    (List.range 33).map fun i => .free (0x10000 + 0x7ffffff0 * i + 16)

/-- **A free block is counted in 32 bits.**  With more than `2^32` units in the heap, the sum of two sizes in
`free` wraps around: no block is live, one is free, and it has `2^32` units less than `sbrk` gave. -/
theorem coalesced_size_wraps :
    Meets (St.step 0x1000 100) (Allowed 0x1000) (St.start fun _ => ⟨0, 0⟩) manyBlocks ∧
    ∃ s, exec (St.step 0x1000 100) (St.start fun _ => ⟨0, 0⟩) manyBlocks = some s ∧ s.live = [] ∧
      Cycle (fun a => (s.heap.mem a).ptr) [0x1000, 0x10000] ∧
      16 * (([0x1000, 0x10000].map s.heap.units).sum + 2 ^ 32) = (s.regions.map Prod.snd).sum := by
  refine ⟨by decide +kernel, ?_⟩
  have hrun : (exec (St.step 0x1000 100) (St.start fun _ => ⟨0, 0⟩) manyBlocks).map
      (fun s => (s.live, (s.heap.mem 0x1000).ptr, (s.heap.mem 0x10000).ptr,
        [0x1000, 0x10000].map s.heap.units, (s.regions.map Prod.snd).sum)) =
      some ([], 0x10000, 0x1000, [0, 134217695], 70866959856) := by
    decide +kernel
  obtain ⟨s, hs, hval⟩ := Option.map_eq_some_iff.mp hrun
  simp only [Prod.mk.injEq] at hval
  obtain ⟨hlive, hptr, hptr', hunits, hsum⟩ := hval
  refine ⟨s, hs, hlive, ⟨hptr, hptr'⟩, ?_⟩
  rw [hunits, hsum]
  rfl

end Xv6.Umalloc
