import Xv6.PageTableMap

/-!
# Page tables over their life (`kernel/vm.c`)

`uvmunmap`, `uvmclear` and `walkaddr` in terms of the map a page table stands for, and the page tables
that `uvmcreate`, `mappages`, `uvmunmap` and `uvmclear` build.

`uvmunmap` with `do_free` hands physical pages to `kfree`, which overwrites them.  It does so without a
look at what they are, so the map survives only when they are `Disposable`: no page of the page table
itself, none that is free already, none handed over twice.  `uvmunmap_own_table` is a run without that.
-/

namespace Xv6.PageTable

open Xv6.Panics Xv6.RadixTree Xv6.Sv39 Xv6.PhysMem

variable {s t : Kmem} {kend pagetable va a stop : Addr} {doFree : Bool} {perm : Pte}

/-! ### `uvmunmap` -/

/-- The physical pages mapped in `[a, stop)` can be handed to `kfree`. -/
def Disposable (s : Kmem) (pagetable a stop : Addr) : Prop :=
  ∀ x pa f, Aligned x → a ≤ x → x < stop → x < MAXVA → view s pagetable x = some (pa, f) →
    pa ∉ tables s pagetable ∧ pa ∉ s.free ∧
    ∀ y g, Aligned y → a ≤ y → y < stop → y < MAXVA → view s pagetable y = some (pa, g) → y = x

/-- One page `a`, mapped to `pa`, has been removed. -/
structure Removed (doFree : Bool) (a pa : Addr) (s t : Kmem) (pagetable : Addr) : Prop where
  table : Table t pagetable
  tables : tables t pagetable = tables s pagetable
  free : t.free = if doFree then pa :: s.free else s.free
  frame : ∀ q, q ∉ PageTable.tables s pagetable → (doFree = true → q ≠ pa) → t.mem q = s.mem q
  view : ∀ x, Aligned a → Aligned x → x < MAXVA →
    view t pagetable x = Function.update (view s pagetable) a none x
  levels : Levels s pagetable → Levels t pagetable

theorem slot_congr (h : ∀ q ∈ tables s pagetable, t.mem q = s.mem q) (x : Addr) :
    slot t pagetable x = slot s pagetable x := find_congr h

theorem view_congr (h : ∀ q ∈ tables s pagetable, t.mem q = s.mem q) (x : Addr) :
    view t pagetable x = view s pagetable x := by
  have hs := slot_congr h x
  cases hx : slot s pagetable x with
  | none => rw [view_of_not_slot hx, view_of_not_slot (hs.trans hx)]
  | some pte =>
    rw [view_of_slot hx, view_of_slot (hs.trans hx), h pte.1 (find_mem hx).1]

theorem Table.congr (h : Table s pagetable) (hmem : ∀ q ∈ tables s pagetable, t.mem q = s.mem q)
    (hnd : (t.free : Multiset Addr).Nodup) (hfree : ∀ q ∈ t.free, q ∉ tables s pagetable)
    (hal : ∀ q ∈ t.free, Aligned q) : Table t pagetable := by
  refine ⟨?_, hal⟩
  have ht : tables t pagetable = tables s pagetable := pages_congr hmem
  rw [ht, Multiset.nodup_add]
  exact ⟨(Multiset.nodup_add.mp h.nodup).1, hnd,
    Multiset.disjoint_right.mpr fun hq => hfree _ (Multiset.mem_coe.mp hq)⟩

theorem kfree_table {pa : Addr} (h : Table s pagetable) (hpa : Aligned pa)
    (htab : pa ∉ tables s pagetable) (hfree : pa ∉ s.free) (hf : t.free = pa :: s.free)
    (hm : ∀ x, x ≠ pa → t.mem x = s.mem x) : Table t pagetable ∧ ∀ q ∈ tables s pagetable, t.mem q = s.mem q := by
  have hmem : ∀ q ∈ tables s pagetable, t.mem q = s.mem q := fun q hq =>
    hm q fun e => htab (e ▸ hq)
  obtain ⟨-, hnd, hdis⟩ := Multiset.nodup_add.mp h.nodup
  refine ⟨h.congr hmem ?_ ?_ ?_, hmem⟩
  · rw [hf, ← Multiset.cons_coe, Multiset.nodup_cons]
    exact ⟨fun hin => hfree (Multiset.mem_coe.mp hin), hnd⟩
  · intro q hq
    rw [hf] at hq
    rcases List.mem_cons.mp hq with rfl | hq
    · exact htab
    · exact Multiset.disjoint_right.mp hdis (Multiset.mem_coe.mpr hq)
  · intro q hq
    rw [hf] at hq
    rcases List.mem_cons.mp hq with rfl | hq
    · exact hpa
    · exact h.aligned q hq

theorem removed_put {pte : Addr × Fin 512} {pa : Addr} {u : Kmem} (hu : Table u pagetable)
    (hmem : ∀ q ∈ tables s pagetable, u.mem q = s.mem q) (hother : ∀ q, (doFree = true → q ≠ pa) → u.mem q = s.mem q)
    (hfree : u.free = if doFree then pa :: s.free else s.free)
    (hs : slot s pagetable a = some pte) (hmax : a < MAXVA) :
    Removed doFree a pa s (u.put pte.1 pte.2 0) pagetable := by
  have htab : tables u pagetable = tables s pagetable := pages_congr hmem
  have hsu : slot u pagetable a = some pte := (slot_congr hmem a).trans hs
  refine ⟨(keeps_put hu hsu 0).table, (tables_put hu hsu 0).trans htab, hfree, ?_, ?_,
    fun hl => (keeps_put hu hsu 0).levels (links_congr hmem hl)⟩
  · intro q hq hpa
    rw [← htab] at hq
    refine Eq.trans ?_ (hother q hpa)
    refine store_page u.mem pte.2 0 fun e => hq ?_
    rw [e]
    exact (find_mem hsu).1
  · intro x ha hx hxmax
    rw [view_put hu hsu ha hmax 0 hx hxmax, leaf_zero, funext (view_congr hmem)]

/-- **One turn of the loop.** -/
theorem unmapFrom_turn {n : ℕ} {Q : Unit → Kmem → Prop} {E : Panic → Prop}
    (h : Table s pagetable) (hlt : a < stop) (hwalk : MAXVA ≤ a → E .walk)
    (hnone : view s pagetable a = none → E .uvmunmapWalk ∧ E .uvmunmapNotMapped)
    (hleaf : ∀ pa, view s pagetable a = some (pa, PTE_V) → E .uvmunmapNotALeaf)
    (hkfree : doFree = true → ∀ pa f, view s pagetable a = some (pa, f) →
      (¬ (Aligned pa ∧ kend ≤ pa ∧ pa < PHYSTOP) → E .kfree) ∧ pa ∉ tables s pagetable ∧ pa ∉ s.free)
    (hgo : ∀ t pa f, view s pagetable a = some (pa, f) → Removed doFree a pa s t pagetable →
      Wp (unmapFrom kend pagetable stop doFree n (a + PGSIZE)) t Q E) :
    Wp (unmapFrom kend pagetable stop doFree (n + 1) a) s Q E := by
  unfold unmapFrom
  rw [if_pos hlt]
  refine wp_seq (walk_spec h hwalk) ?_
  rintro r t ⟨hmax, hr, -, -, hquiet, -⟩
  obtain rfl := hquiet rfl
  cases r with
  | none => exact wp_panic (hnone (view_of_not_slot hr.symm)).1
  | some pte =>
    have hs : slot t pagetable a = some pte := hr.symm
    have hview := view_of_slot hs
    refine wp_bind (wp_load ?_)
    split
    case isTrue hv =>
      rw [leaf, if_neg hv] at hview
      exact wp_panic (hnone hview).2
    case isFalse hv =>
    rw [not_not] at hv
    rw [leaf, if_pos hv] at hview
    split
    case isTrue hflags =>
      rw [hflags] at hview
      exact wp_panic (hleaf _ hview)
    case isFalse =>
    refine wp_bind (wp_onlyIf (fun hfree => ?_) fun hfree => ?_)
    · -- the page goes to the free list first
      obtain ⟨hE, htab, hnot⟩ := hkfree hfree _ _ hview
      refine wp_mono (kfree_spec t hE) ?_ fun _ he => he
      rintro - u ⟨hpa, -, -, hf, hm⟩
      obtain ⟨hu, hmem⟩ := kfree_table h hpa htab hnot hf hm
      refine wp_bind (wp_write (hgo _ _ _ hview (removed_put hu hmem ?_ ?_ hs hmax)))
      · exact fun q hq => hm q (hq hfree)
      · rw [if_pos hfree, hf]
    · refine wp_bind (wp_write (hgo _ _ _ hview (removed_put h ?_ ?_ ?_ hs hmax)))
      · exact fun _ _ => rfl
      · exact fun _ _ => rfl
      · rw [if_neg hfree]

theorem le_of_next_le {x : Addr} (hmax : a < MAXVA) (hx : a + PGSIZE ≤ x) : a ≤ x ∧ x ≠ a := by
  rw [BitVec.le_def, toNat_add_PGSIZE hmax] at hx
  refine ⟨?_, fun e => ?_⟩
  · rw [BitVec.le_def]
    omega
  · rw [e] at hx
    omega

theorem Removed.view_rest {pa x : Addr} (hr : Removed doFree a pa s t pagetable) (ha : Aligned a)
    (hmax : a < MAXVA) (hx : Aligned x) (hax : a + PGSIZE ≤ x) (hxmax : x < MAXVA) :
    PageTable.view t pagetable x = PageTable.view s pagetable x := by
  rw [hr.view x ha hx hxmax, Function.update_of_ne (le_of_next_le hmax hax).2]

theorem Disposable.rest {pa f : BitVec 64} (hd : Disposable s pagetable a stop) (ha : Aligned a)
    (hmax : a < MAXVA) (hlt : a < stop) (hview : view s pagetable a = some (pa, f))
    (hr : Removed doFree a pa s t pagetable) : Disposable t pagetable (a + PGSIZE) stop := by
  intro x pa' f' hx hax hxs hxmax hv
  rw [hr.view_rest ha hmax hx hax hxmax] at hv
  obtain ⟨hle, hne⟩ := le_of_next_le hmax hax
  obtain ⟨htab, hfree, huniq⟩ := hd x pa' f' hx hle hxs hxmax hv
  refine ⟨hr.tables ▸ htab, ?_, ?_⟩
  · rw [hr.free]
    split
    · rw [List.mem_cons, not_or]
      refine ⟨fun e => hne ?_, hfree⟩
      exact (huniq a f ha (BitVec.le_refl a) hlt hmax (e ▸ hview)).symm
    · exact hfree
  · intro y g hy hay hys hymax hvy
    rw [hr.view_rest ha hmax hy hay hymax] at hvy
    exact huniq y g hy (le_of_next_le hmax hay).1 hys hymax hvy

theorem unmapFrom_table {n : ℕ} : ∀ {a : Addr} {s : Kmem}, Table s pagetable → Aligned a →
    (doFree = true → Disposable s pagetable a stop) →
    Wp (unmapFrom kend pagetable stop doFree n a) s (fun _ t => Table t pagetable) fun _ => True := by
  induction n with
  | zero =>
    intro a s _ _ _
    exact wp_panic trivial
  | succ n ih =>
    intro a s h ha hd
    by_cases hlt : a < stop
    · by_cases hmax : a < MAXVA
      · refine unmapFrom_turn h hlt (fun _ => trivial) (fun _ => ⟨trivial, trivial⟩)
          (fun _ _ => trivial) (fun hfree pa f hv => ?_) fun t pa f hv hr => ?_
        · obtain ⟨htab, hnot, -⟩ := hd hfree a pa f ha (BitVec.le_refl a) hlt hmax hv
          exact ⟨fun _ => trivial, htab, hnot⟩
        · exact ih hr.table (aligned_add_PGSIZE ha) fun hfree => (hd hfree).rest ha hmax hlt hv hr
      · unfold unmapFrom
        rw [if_pos hlt]
        refine wp_bind ?_
        unfold walk
        rw [if_pos (BitVec.not_lt.mp hmax)]
        exact wp_panic trivial
    · unfold unmapFrom
      rw [if_neg hlt]
      exact wp_pure h

/-- The map `f` without the pages of `[a, stop)`. -/
def unmapped (f : Addr → Option (Addr × Pte)) (a stop x : Addr) : Option (Addr × Pte) :=
  if a ≤ x ∧ x < stop then none else f x

theorem unmapped_cons {f : Addr → Option (Addr × Pte)} {x : Addr} (ha : Aligned a)
    (hx : Aligned x) (hmax : a < MAXVA) (hlt : a < stop) :
    unmapped (Function.update f a none) (a + PGSIZE) stop x = unmapped f a stop x := by
  have hnext := toNat_add_PGSIZE hmax
  unfold unmapped Aligned at *
  simp only [BitVec.le_def, BitVec.lt_def] at *
  by_cases he : x = a
  · subst he
    rw [if_neg (by omega), Function.update_self, if_pos (by omega)]
  · have hne : x.toNat ≠ a.toNat := fun e => he (BitVec.eq_of_toNat_eq e)
    rw [Function.update_of_ne he]
    refine if_congr ?_ rfl rfl
    rw [hnext]
    omega

theorem unmapped_congr {f g : Addr → Option (Addr × Pte)} {x : Addr} (h : f x = g x) :
    unmapped f a stop x = unmapped g a stop x := by
  rw [unmapped, unmapped, h]

/-- Every page of `[a, stop)` is mapped by an entry that `uvmunmap` takes for a leaf. -/
def Leaves (s : Kmem) (pagetable a stop : Addr) : Prop :=
  ∀ x, Aligned x → a ≤ x → x < stop → ∃ pa f, view s pagetable x = some (pa, f) ∧ f ≠ PTE_V

/-- The physical pages mapped in `[a, stop)` pass the check of `kfree`. -/
def InRam (kend : Addr) (s : Kmem) (pagetable a stop : Addr) : Prop :=
  ∀ x pa f, Aligned x → a ≤ x → x < stop → view s pagetable x = some (pa, f) →
    Aligned pa ∧ kend ≤ pa ∧ pa < PHYSTOP

theorem unmapFrom_done {n : ℕ} {Q : Unit → Kmem → Prop} {E : Panic → Prop} (hge : ¬ a < stop)
    (h : Q () s) : Wp (unmapFrom kend pagetable stop doFree (n + 1) a) s Q E := by
  unfold unmapFrom
  rw [if_neg hge]
  exact wp_pure h

theorem unmapped_of_le (f : Addr → Option (Addr × Pte)) (hge : ¬ a < stop) (x : Addr) : unmapped f a stop x = f x :=
  if_neg fun hx => hge (Nat.lt_of_le_of_lt hx.1 hx.2)

/-- **The loop of `uvmunmap` removes its pages.** -/
theorem unmapFrom_spec {n : ℕ} (hstop : stop ≤ MAXVA) : ∀ {a : Addr} {s : Kmem}, Table s pagetable →
    Aligned a → stop.toNat ≤ a.toNat + n * 4096 → Leaves s pagetable a stop →
    (doFree = true → InRam kend s pagetable a stop ∧ Disposable s pagetable a stop) →
    Wp (unmapFrom kend pagetable stop doFree (n + 1) a) s (fun _ t => ∀ x, Aligned x → x < MAXVA →
      view t pagetable x = unmapped (view s pagetable) a stop x) fun _ => False := by
  induction n with
  | zero =>
    intro a s _ _ hn _ _
    have hge : ¬ a < stop := by
      rw [BitVec.lt_def]
      omega
    exact unmapFrom_done hge fun x _ _ => (unmapped_of_le _ hge x).symm
  | succ n ih =>
    intro a s h ha hn hleaves hfree
    by_cases hlt : a < stop
    · have hmax : a < MAXVA := Nat.lt_of_lt_of_le hlt hstop
      have hnext := toNat_add_PGSIZE hmax
      obtain ⟨pa₀, f₀, hv₀, hf₀⟩ := hleaves a ha (BitVec.le_refl a) hlt
      refine unmapFrom_turn h hlt (fun hge => ?_) (fun hnone => ?_) (fun pa hv => ?_)
        (fun hd pa f hv => ?_) fun t pa f hv hr => ?_
      · exact absurd hmax (BitVec.not_lt.mpr hge)
      · rw [hv₀] at hnone
        cases hnone
      · rw [hv₀] at hv
        exact hf₀ (Prod.mk.inj (Option.some.inj hv)).2
      · obtain ⟨htab, hnot, -⟩ := (hfree hd).2 a pa f ha (BitVec.le_refl a) hlt hmax hv
        exact ⟨fun hbad => hbad ((hfree hd).1 a pa f ha (BitVec.le_refl a) hlt hv), htab, hnot⟩
      · have hold : ∀ x, Aligned x → a + PGSIZE ≤ x → x < stop →
            view t pagetable x = view s pagetable x := fun x hx hax hxs =>
          hr.view_rest ha hmax hx hax (Nat.lt_of_lt_of_le hxs hstop)
        refine wp_mono (ih hr.table (aligned_add_PGSIZE ha) (by omega) ?_ ?_) ?_ fun _ he => he
        · intro x hx hax hxs
          rw [hold x hx hax hxs]
          exact hleaves x hx (le_of_next_le hmax hax).1 hxs
        · intro hd
          refine ⟨fun x pa' f' hx hax hxs hvx => ?_, (hfree hd).2.rest ha hmax hlt hv hr⟩
          rw [hold x hx hax hxs] at hvx
          exact (hfree hd).1 x pa' f' hx (le_of_next_le hmax hax).1 hxs hvx
        · intro _ u hu x hx hxmax
          rw [hu x hx hxmax, unmapped_congr (hr.view x ha hx hxmax), unmapped_cons ha hx hmax hlt]
    · exact unmapFrom_done hlt fun x _ _ => (unmapped_of_le _ hlt x).symm

/-! ### `uvmcreate`, `uvmclear` and `walkaddr` -/

/-- The free list as `kinit` and `kfree` keep it. -/
structure FreeList (s : Kmem) : Prop where
  nodup : s.free.Nodup
  aligned : ∀ q ∈ s.free, Aligned q

theorem uvmcreate_spec (h : FreeList s) (E : Panic → Prop) :
    Wp uvmcreate s (fun r t => ∀ q, r = some q → Table t q ∧ ∀ x, view t q x = none) E := by
  refine wp_seq (kalloc_spec s _) fun r t ht => ?_
  rcases ht with ⟨rfl, -, -⟩ | ⟨q, rest, rfl, hfree, hrest, -⟩
  · refine wp_pure fun q hq => ?_
    cases hq
  · refine wp_bind (wp_update (wp_pure fun p hp => ?_))
    obtain rfl := Option.some.inj hp
    have hblank : ∀ k, next ((t.fill q 0).mem q k) = none := fun k => by
      show next (Function.update t.mem q (fun _ => 0) q k) = none
      rw [Function.update_self, next_zero]
    have htab : tables (t.fill q 0) q = {q} := pages_of_empty hblank
    have hnd := h.nodup
    rw [hfree] at hnd
    refine ⟨⟨?_, fun x hx => h.aligned x ?_⟩, fun x => ?_⟩
    · rw [htab, Multiset.singleton_add]
      show (q ::ₘ (t.free : Multiset Addr)).Nodup
      rw [hrest, Multiset.cons_coe, Multiset.coe_nodup]
      exact hnd
    · rw [hfree, ← hrest]
      exact List.mem_cons_of_mem q hx
    · exact view_of_not_slot (find_of_not_child (hblank _))

theorem slot_PGROUNDDOWN (s : Kmem) (pagetable va : Addr) :
    slot s pagetable (PGROUNDDOWN va) = slot s pagetable va := by
  have hpath : path (PGROUNDDOWN va) = path va := funext fun level => PX_PGROUNDDOWN level va
  rw [slot, slot, hpath]

theorem view_PGROUNDDOWN (s : Kmem) (pagetable va : Addr) :
    view s pagetable (PGROUNDDOWN va) = view s pagetable va := by
  rw [view, view, slot_PGROUNDDOWN]

theorem PGROUNDDOWN_lt_MAXVA (h : va < MAXVA) : PGROUNDDOWN va < MAXVA := by
  rw [BitVec.lt_def] at *
  rw [toNat_PGROUNDDOWN]
  omega

/-- `*pte &= ~PTE_U` on what an address is mapped to. -/
def noUser : Addr × Pte → Addr × Pte := fun v => (v.1, v.2 &&& ~~~PTE_U)

theorem leaf_noUser (e : Pte) : leaf (e &&& ~~~PTE_U) = (leaf e).map noUser := by
  have hmask : ∀ i, i < 64 → (~~~PTE_U : Pte).getLsbD i = !decide (i = 4) := by decide
  have hvalid : Valid (e &&& ~~~PTE_U) ↔ Valid e := by
    rw [valid_iff, valid_iff, BitVec.getLsbD_and, hmask 0 (by decide)]
    simp
  unfold leaf
  by_cases hv : Valid e
  · rw [if_pos hv, if_pos (hvalid.mpr hv), Option.map_some, noUser]
    refine congrArg some (Prod.ext ?_ ?_)
    · -- the flag lies below the address
      refine BitVec.eq_of_getLsbD_eq fun i hi => ?_
      show (PTE2PA (e &&& ~~~PTE_U)).getLsbD i = (PTE2PA e).getLsbD i
      rw [PTE2PA, PTE2PA, BitVec.getLsbD_shiftLeft, BitVec.getLsbD_ushiftRight, BitVec.getLsbD_and,
        BitVec.getLsbD_shiftLeft, BitVec.getLsbD_ushiftRight]
      by_cases h : i < 12
      · simp [h]
      · have hne : 10 + (i - 12) ≠ 4 := by omega
        rw [hmask _ (by omega)]
        simp [hne]
    · show (e &&& ~~~PTE_U) &&& 0x3FF = (e &&& 0x3FF) &&& ~~~PTE_U
      rw [BitVec.and_assoc, BitVec.and_comm (~~~PTE_U), BitVec.and_assoc]
  · rw [if_neg hv, if_neg (mt hvalid.mp hv), Option.map_none]

theorem uvmclear_spec (h : Table s pagetable) :
    Wp (uvmclear pagetable va) s (fun _ t => Keeps s t pagetable ∧ ∀ x, Aligned x → x < MAXVA →
      view t pagetable x = Function.update (view s pagetable) (PGROUNDDOWN va) ((view s pagetable va).map noUser) x)
      fun _ => MAXVA ≤ va ∨ view s pagetable va = none := by
  refine wp_seq (walk_spec h fun hge => .inl hge) ?_
  rintro r t ⟨hmax, hr, -, -, hquiet, -⟩
  obtain rfl := hquiet rfl
  cases r with
  | none => exact wp_panic (.inr (view_of_not_slot hr.symm))
  | some pte =>
    have hs : slot t pagetable (PGROUNDDOWN va) = some pte := by
      rw [slot_PGROUNDDOWN]
      exact hr.symm
    refine wp_bind (wp_load (wp_write ⟨keeps_put h hs _, fun x hx hxmax => ?_⟩))
    rw [view_put h hs (aligned_PGROUNDDOWN va) (PGROUNDDOWN_lt_MAXVA hmax) _ hx hxmax, leaf_noUser,
      ← view_PGROUNDDOWN t pagetable va, view_of_slot hs]

/-- The value of `walkaddr` in terms of the map. -/
def userAddr : Option (Addr × Pte) → Addr
  | some (pa, f) => if f &&& PTE_U = 0 then 0 else pa
  | none => 0

theorem flags_user (e : Pte) : PTE_FLAGS e &&& PTE_U = e &&& PTE_U := by
  rw [PTE_FLAGS, BitVec.and_assoc]
  rfl

theorem walkFrom_reads (s : Kmem) (va : Addr) : ∀ (level : ℕ) (q : Addr),
    walkFrom va false level q s = .ok (find next s.mem level q (path va), s) := by
  intro level
  induction level with
  | zero => exact fun _ => rfl
  | succ level ih =>
    intro q
    have hload : load (q, PX (level + 1) va) s = .ok (s.mem q (PX (level + 1) va), s) := rfl
    unfold walkFrom
    rw [bind_of_ok hload]
    by_cases hv : Valid (s.mem q (PX (level + 1) va))
    · rw [if_pos hv, ih, find_of_child (next_of_valid hv)]
      rfl
    · rw [if_neg hv, find_of_not_child (next_of_not_valid hv)]
      rfl

theorem walkaddr_eq (s : Kmem) (pagetable va : Addr) : walkaddr pagetable va s =
    .ok (if va < MAXVA then userAddr (view s pagetable (PGROUNDDOWN va)) else 0, s) := by
  unfold walkaddr
  by_cases hmax : va < MAXVA
  · have hwalk : walk pagetable va false s = .ok (slot s pagetable va, s) := by
      rw [walk, if_neg (BitVec.not_le.mpr hmax)]
      exact walkFrom_reads s va 2 pagetable
    rw [if_neg (BitVec.not_le.mpr hmax), if_pos hmax, view_PGROUNDDOWN, bind_of_ok hwalk]
    cases hs : slot s pagetable va with
    | none =>
      rw [view_of_not_slot hs]
      rfl
    | some pte =>
      have hload : load pte s = .ok (s.mem pte.1 pte.2, s) := rfl
      rw [view_of_slot hs]
      show (load pte >>= _) s = _
      rw [bind_of_ok hload]
      by_cases hv : Valid (s.mem pte.1 pte.2)
      · rw [if_neg (not_not.mpr hv), leaf, if_pos hv, userAddr, flags_user]
        split
        · rfl
        · rfl
      · rw [if_pos hv, leaf, if_neg hv]
        rfl
  · rw [if_pos (BitVec.not_lt.mp hmax), if_neg hmax]
    rfl

/-- **`mappages` of one page** maps it, or finds no memory for the tables. -/
theorem mapPage_spec {pa : Addr} (hperm : perm.toNat < 1024) (h : Table s pagetable) (ha : Aligned a)
    (hmax : a < MAXVA) (hnone : view s pagetable a = none) :
    Wp (mappages pagetable a PGSIZE pa perm) s (fun r t => Keeps s t pagetable ∧
      ((r = 0 ∧ ∀ x, Aligned x → x < MAXVA → view t pagetable x =
          Function.update (view s pagetable) a (some (PGROUNDDOWN pa, perm ||| PTE_V)) x) ∨
        (r = -1 ∧ t.free = [] ∧ ∀ x, view t pagetable x = view s pagetable x))) fun _ => False := by
  have hlast : PGROUNDDOWN (a + PGSIZE - 1) = PGROUNDDOWN a := by
    have hlt := toNat_lt_of_lt_MAXVA hmax
    unfold Aligned at ha
    apply BitVec.eq_of_toNat_eq
    rw [toNat_PGROUNDDOWN, toNat_PGROUNDDOWN, BitVec.toNat_sub, toNat_add_PGSIZE hmax]
    show (2 ^ 64 - 1 + (a.toNat + 4096)) % 2 ^ 64 / 4096 * 4096 = _
    omega
  rw [mappages, hlast, PGROUNDDOWN_of_aligned ha]
  refine mapFrom_turn h (fun hge => ?_) (fun hv => hv hnone) ?_ ?_
  · exact absurd hmax (BitVec.not_lt.mpr hge)
  · intro t ht hview hempty
    exact ⟨ht, .inr ⟨rfl, hempty, hview⟩⟩
  · intro t ht hview
    rw [if_pos rfl]
    refine ⟨ht, .inl ⟨rfl, fun x hx hxmax => ?_⟩⟩
    rw [hview x ha hx hxmax, leaf_entry pa hperm]

/-! ### Page tables over their life -/

/-- The page tables that the functions of `vm.c` build.  In between, other parts of the kernel write other
pages, take pages from the free list and give pages back. -/
inductive Built (kend : Addr) : Kmem → Addr → Prop where
  | uvmcreate {s t : Kmem} {pagetable : Addr} (hfree : FreeList s)
      (hrun : uvmcreate s = .ok (some pagetable, t)) : Built kend t pagetable
  | mappages {s t : Kmem} {pagetable va size pa : Addr} {perm : Pte} {r : ℤ}
      (hs : Built kend s pagetable) (hrun : mappages pagetable va size pa perm s = .ok (r, t)) :
      Built kend t pagetable
  | uvmunmap {s t : Kmem} {pagetable va npages : Addr} {doFree : Bool} (hs : Built kend s pagetable)
      (hd : doFree = true → Disposable s pagetable va (va + npages * PGSIZE))
      (hrun : uvmunmap kend pagetable va npages doFree s = .ok ((), t)) : Built kend t pagetable
  | uvmclear {s t : Kmem} {pagetable va : Addr} (hs : Built kend s pagetable)
      (hrun : uvmclear pagetable va s = .ok ((), t)) : Built kend t pagetable
  | other {s t : Kmem} {pagetable : Addr} (hs : Built kend s pagetable)
      (hmem : ∀ q ∈ tables s pagetable, t.mem q = s.mem q) (hfree : FreeList t)
      (hapart : ∀ q ∈ t.free, q ∉ tables s pagetable) : Built kend t pagetable

/-- **Every page table keeps the invariant.** -/
theorem Built.table (h : Built kend s pagetable) : Table s pagetable := by
  induction h with
  | uvmcreate hfree hrun =>
    exact (ok_of_wp (uvmcreate_spec hfree fun _ => True) hrun _ rfl).1
  | mappages hs hrun ih => exact (ok_of_wp (mapFrom_keeps ih) hrun).table
  | @uvmunmap s t pagetable va npages doFree hs hd hrun ih =>
    by_cases ha : Aligned va
    · have hrun' : unmapFrom kend pagetable (va + npages * PGSIZE) doFree turns va s = .ok ((), t) := by
        rw [← hrun, PageTable.uvmunmap, if_neg (not_not.mpr ha)]
      have hwp : Wp (unmapFrom kend pagetable (va + npages * PGSIZE) doFree turns va) s
          (fun _ u => Table u pagetable) fun _ => True := unmapFrom_table ih ha hd
      rw [Wp, hrun'] at hwp
      exact hwp
    · rw [PageTable.uvmunmap, if_pos ha] at hrun
      cases hrun
  | uvmclear hs hrun ih => exact (ok_of_wp (uvmclear_spec ih) hrun).1.table
  | other hs hmem hfree hapart ih =>
    exact ih.congr hmem (Multiset.coe_nodup.mpr hfree.nodup) hapart hfree.aligned

/-- Four free pages, of which `uvmcreate` takes the first. -/
def fourPages : Kmem := ⟨fun _ _ => 0, [0x80010000, 0x80011000, 0x80012000, 0x80013000]⟩

def created : Kmem := after uvmcreate fourPages

theorem fourPages_freeList : FreeList fourPages := ⟨by decide +kernel, List.forall_iff_forall_mem.mp (by decide +kernel)⟩

theorem uvmcreate_fourPages : uvmcreate fourPages = .ok (some 0x80010000, created) :=
  ok_of_outcome (by decide +kernel)

theorem created_table : Table created 0x80010000 ∧ ∀ x, view created 0x80010000 x = none :=
  ok_of_wp (uvmcreate_spec fourPages_freeList fun _ => True) uvmcreate_fourPages _ rfl

/-- The page table maps its own root at address 0, and another page at address 4096. -/
def selfMapped : Kmem :=
  after (mappages 0x80010000 PGSIZE PGSIZE 0x80013000 PTE_R)
    (after (mappages 0x80010000 0 PGSIZE 0x80010000 PTE_R) created)

theorem selfMapped_built : Built 0x80000000 selfMapped 0x80010000 := by
  have h₀ : Built 0x80000000 created 0x80010000 := .uvmcreate fourPages_freeList uvmcreate_fourPages
  have h₁ := h₀.mappages (ok_of_outcome (a := 0)
    (m := mappages 0x80010000 0 PGSIZE 0x80010000 PTE_R) (by decide +kernel))
  exact h₁.mappages (ok_of_outcome (a := 0)
    (m := mappages 0x80010000 PGSIZE PGSIZE 0x80013000 PTE_R) (by decide +kernel))

/-- `uvmunmap` with `do_free` frees the page of the table that address 0 is mapped to, and the mapping of
address 4096 is gone with it. -/
theorem uvmunmap_own_table : ∃ s pagetable t, Built 0x80000000 s pagetable ∧
    view s pagetable 0 = some (pagetable, PTE_R ||| PTE_V) ∧
    view s pagetable PGSIZE = some (0x80013000, PTE_R ||| PTE_V) ∧
    uvmunmap 0x80000000 pagetable 0 1 true s = .ok ((), t) ∧ view t pagetable PGSIZE = none :=
  ⟨selfMapped, 0x80010000, after (uvmunmap 0x80000000 0x80010000 0 1 true) selfMapped,
    selfMapped_built, by decide +kernel, by decide +kernel, ok_of_outcome (by decide +kernel),
    by decide +kernel⟩

/-- **Page tables implement a map.**  On every page table, `mappages` at unmapped addresses succeeds and
updates the map at exactly its pages, or runs out of memory, and then a call for one page has changed
nothing; `uvmunmap` of mapped pages removes exactly those; `walk` changes nothing; and `walkaddr` is the
physical address of an address mapped with `PTE_U`, and 0 for every other one. -/
theorem page_table_is_map (h : Built kend s pagetable) (va pa : Addr) (hperm : perm.toNat < 1024) :
    (∀ size, PGROUNDDOWN va ≤ PGROUNDDOWN (va + size - 1) → PGROUNDDOWN (va + size - 1) < MAXVA →
      (∀ x, Aligned x → PGROUNDDOWN va ≤ x → x ≤ PGROUNDDOWN (va + size - 1) →
        view s pagetable x = none) →
      ∃ r t, mappages pagetable va size pa perm s = .ok (r, t) ∧
        ((r = 0 ∧ ∀ x, Aligned x → x < MAXVA → view t pagetable x =
            mapped (view s pagetable) (PGROUNDDOWN va) (PGROUNDDOWN (va + size - 1) + PGSIZE) pa perm x) ∨
          (r = -1 ∧ t.free = [] ∧ (PGROUNDDOWN va = PGROUNDDOWN (va + size - 1) →
            ∀ x, Aligned x → x < MAXVA → view t pagetable x = view s pagetable x)))) ∧
    (∀ npages doFree, Aligned va → va.toNat + npages.toNat * 4096 ≤ MAXVA.toNat →
      Leaves s pagetable va (va + npages * PGSIZE) →
      (doFree = true → InRam kend s pagetable va (va + npages * PGSIZE) ∧
        Disposable s pagetable va (va + npages * PGSIZE)) →
      ∃ t, uvmunmap kend pagetable va npages doFree s = .ok ((), t) ∧
        ∀ x, Aligned x → x < MAXVA →
          view t pagetable x = unmapped (view s pagetable) va (va + npages * PGSIZE) x) ∧
    (va < MAXVA → ∃ r t, walk pagetable va true s = .ok (r, t) ∧
      ∀ x, view t pagetable x = view s pagetable x) ∧
    walkaddr pagetable va s =
      .ok (if va < MAXVA then userAddr (view s pagetable (PGROUNDDOWN va)) else 0, s) := by
  have htable := h.table
  refine ⟨?_, ?_, ?_, walkaddr_eq s pagetable va⟩
  · intro size hle hmax hfree
    have hfuel : (PGROUNDDOWN (va + size - 1)).toNat < (PGROUNDDOWN va).toNat + turns * 4096 := by
      have hlt := toNat_lt_of_lt_MAXVA hmax
      rw [turns]
      omega
    obtain ⟨r, t, hrun, hpost⟩ := exists_of_wp (mapFrom_spec hperm
      (aligned_PGROUNDDOWN _) hmax htable (aligned_PGROUNDDOWN va) hle hfuel hfree)
    refine ⟨r, t, hrun, ?_⟩
    rcases hpost with hok | ⟨hr, hempty, b, hab, hbl, -, hb⟩
    · exact .inl hok
    · refine .inr ⟨hr, hempty, fun hone x hx hxmax => ?_⟩
      -- with one page there is nothing before the page that failed
      obtain rfl : b = PGROUNDDOWN va := by
        rw [BitVec.le_def] at hab hbl
        rw [← hone] at hbl
        exact BitVec.eq_of_toNat_eq (by omega)
      rw [hb x hx hxmax, mapped_empty]
  · intro npages doFree ha hrange hleaves hfree
    have hstop : (va + npages * PGSIZE).toNat = va.toNat + npages.toNat * 4096 := by
      rw [toNat_MAXVA] at hrange
      rw [BitVec.toNat_add, BitVec.toNat_mul, toNat_PGSIZE]
      omega
    have hle : va + npages * PGSIZE ≤ MAXVA := by
      rw [BitVec.le_def, hstop]
      exact hrange
    have hfuel : (va + npages * PGSIZE).toNat ≤ va.toNat + 2 ^ 26 * 4096 := by
      rw [toNat_MAXVA] at hrange
      omega
    obtain ⟨_, t, hrun, hpost⟩ := exists_of_wp (unmapFrom_spec hle htable ha hfuel hleaves hfree)
    refine ⟨t, ?_, hpost⟩
    rw [uvmunmap, if_neg (not_not.mpr ha)]
    exact hrun
  · intro hmax
    refine exists_of_wp (wp_mono (walk_spec htable fun hge => ?_) (fun _ _ ht => ht.2.2.2.1)
      fun _ hf => hf)
    exact absurd hmax (BitVec.not_lt.mpr hge)


theorem page_table_is_map_twoPages :
    Built 0x80000000 created 0x80010000 ∧
    ∃ t, mappages 0x80010000 0x1000 0x2000 0x80020000 (PTE_R ||| PTE_U) created = .ok (0, t) ∧
      ∀ x, Aligned x → x < MAXVA → view t 0x80010000 x =
        mapped (view created 0x80010000) 0x1000 0x3000 0x80020000 (PTE_R ||| PTE_U) x := by
  have hb : Built 0x80000000 created 0x80010000 := .uvmcreate fourPages_freeList uvmcreate_fourPages
  have hnone : ∀ x, view created 0x80010000 x = none :=
    (ok_of_wp (uvmcreate_spec fourPages_freeList fun _ => True) uvmcreate_fourPages _ rfl).2
  have hperm : (PTE_R ||| PTE_U).toNat < 1024 := by decide +kernel
  obtain ⟨r, t, hrun, hpost⟩ := (page_table_is_map hb 0x1000 0x80020000 hperm).1 0x2000
    (by decide +kernel) (by decide +kernel) fun x _ _ _ => hnone x
  have hzero : outcome (mappages 0x80010000 0x1000 0x2000 0x80020000 (PTE_R ||| PTE_U)) created =
      .ok 0 := by decide +kernel
  have hr : r = 0 := by
    have heq := (ok_of_outcome hzero).symm.trans hrun
    exact (Prod.mk.inj (Except.ok.inj heq)).1.symm
  have hfirst : PGROUNDDOWN 0x1000 = 0x1000 := by decide +kernel
  have hlast : PGROUNDDOWN (0x1000 + 0x2000 - 1) + PGSIZE = 0x3000 := by decide +kernel
  subst hr
  refine ⟨hb, t, hrun, fun x hx hxmax => ?_⟩
  rcases hpost with ⟨-, hview⟩ | ⟨hfail, -⟩
  · exact (hview x hx hxmax).trans (congrArg₂ (fun a stop =>
      mapped (view created 0x80010000) a stop 0x80020000 (PTE_R ||| PTE_U) x) hfirst hlast)
  · exact absurd hfail (by decide)

end Xv6.PageTable
