import Xv6.PageTableRuns

/-!
# The pages of an address space (`kernel/vm.c`)

Every physical page that the allocator has ever handed out or will hand out is in one place: it is a page
of the page table, a user page mapped by it, free, or held by somebody else.  `Space T s pagetable D H`
says so for the page table `pagetable`: `D` is the set of page numbers mapped in it, `H` the pages held by
others, and all of them together are `T`.  The functions that take and return pages then come with their
accounts, and what is the same on both sides of a specification is not lost and not doubled.

* `kalloc_space`, `kfree_space` — between the free list and what is held;
* `mapPage_space` — from what is held to the user pages;
* `unmapFrom_space` — from the user pages to the free list;
* `Ram.card_le` — there are no more than 32768 pages.
-/

namespace Xv6.UserSpace

open Xv6.Panics Xv6.RadixTree Xv6.Sv39 Xv6.PhysMem Xv6.PageTable

def KERNBASE : Addr := 0x80000000

def TRAMPOLINE : Addr := MAXVA - PGSIZE

def TRAPFRAME : Addr := TRAMPOLINE - PGSIZE

/-- The address of page number `i`. -/
def page (i : ℕ) : Addr := BitVec.ofNat 64 (4096 * i)

/-- The page number of `TRAPFRAME`; user memory is below. -/
def top : ℕ := 2 ^ 26 - 2

/-- What `kinit` hands to the allocator: distinct pages between the end of the kernel and `PHYSTOP`. -/
structure Ram (kend : Addr) (T : Multiset Addr) : Prop where
  base : KERNBASE ≤ kend
  nodup : T.Nodup
  range : ∀ q ∈ T, Aligned q ∧ kend ≤ q ∧ q < PHYSTOP

/-- The physical page of page number `i`. -/
def frame (s : Kmem) (pagetable : Addr) (i : ℕ) : Addr :=
  ((view s pagetable (page i)).map Prod.fst).getD 0

def userPages (s : Kmem) (pagetable : Addr) (D : Finset ℕ) : Multiset Addr :=
  ∑ i ∈ D, {frame s pagetable i}

structure Space (T : Multiset Addr) (s : Kmem) (pagetable : Addr) (D : Finset ℕ) (H : Multiset Addr) :
    Prop where
  total : tables s pagetable + userPages s pagetable D + (s.free : Multiset Addr) + H = T
  leaf : ∀ i ∈ D, ∃ v, view s pagetable (page i) = some v ∧ v.2 ≠ PTE_V
  none : ∀ i ∉ D, i < top → view s pagetable (page i) = none
  bound : ∀ i ∈ D, i < top

variable {s t : Kmem} {kend pagetable q : Addr} {T H : Multiset Addr} {D : Finset ℕ} {i : ℕ}

/-! ### Page numbers -/

theorem toNat_page (h : i < 2 ^ 52) : (page i).toNat = 4096 * i := by
  rw [page, BitVec.toNat_ofNat, Nat.mod_eq_of_lt (by omega)]

theorem aligned_page (i : ℕ) : Aligned (page i) := by
  show (page i).toNat % 4096 = 0
  rw [page, BitVec.toNat_ofNat]
  omega

theorem page_lt_MAXVA (h : i < 2 ^ 26) : page i < MAXVA := by
  rw [BitVec.lt_def, toNat_page (by omega), toNat_MAXVA]
  omega

theorem page_succ (i : ℕ) : page i + PGSIZE = page (i + 1) := by
  apply BitVec.eq_of_toNat_eq
  rw [page, page, BitVec.toNat_add, BitVec.toNat_ofNat, BitVec.toNat_ofNat, toNat_PGSIZE]
  omega

theorem page_inj {j : ℕ} (hi : i < 2 ^ 52) (hj : j < 2 ^ 52) (h : page i = page j) : i = j := by
  have heq := congrArg BitVec.toNat h
  rw [toNat_page hi, toNat_page hj] at heq
  omega

theorem top_eq : top = 67108862 := rfl

/-! ### Accounts -/

theorem Ram.card_le (h : Ram kend T) : T.card ≤ 32768 := by
  have hcard : T.toFinset.card = T.card := Multiset.toFinset_card_of_nodup h.nodup
  have hle := Finset.card_le_card_of_injOn (s := T.toFinset) (t := Finset.range 32768)
    (fun q : Addr => (q.toNat - 2147483648) / 4096) ?_ ?_
  · rw [hcard, Finset.card_range] at hle
    exact hle
  · intro q hq
    obtain ⟨-, hlow, hhigh⟩ := h.range q (Multiset.mem_toFinset.mp hq)
    have hlt : q.toNat < 2281701376 := hhigh
    refine Finset.mem_coe.mpr (Finset.mem_range.mpr ?_)
    show (q.toNat - 2147483648) / 4096 < 32768
    omega
  · intro q hq q' hq' heq
    obtain ⟨hal, hlow, -⟩ := h.range q (Multiset.mem_toFinset.mp hq)
    obtain ⟨hal', hlow', -⟩ := h.range q' (Multiset.mem_toFinset.mp hq')
    have hbase : 2147483648 ≤ q.toNat := Nat.le_trans h.base hlow
    have hbase' : 2147483648 ≤ q'.toNat := Nat.le_trans h.base hlow'
    have heq' : (q.toNat - 2147483648) / 4096 = (q'.toNat - 2147483648) / 4096 := heq
    unfold Aligned at hal hal'
    apply BitVec.eq_of_toNat_eq
    omega

theorem frame_congr (h : view t pagetable (page i) = view s pagetable (page i)) :
    frame t pagetable i = frame s pagetable i := by
  rw [frame, frame, h]

theorem frame_of_view {v : Addr × Pte} (h : view s pagetable (page i) = some v) : frame s pagetable i = v.1 := by
  rw [frame, h]
  rfl

theorem userPages_congr (h : ∀ i ∈ D, view t pagetable (page i) = view s pagetable (page i)) :
    userPages t pagetable D = userPages s pagetable D :=
  Finset.sum_congr rfl fun i hi => by rw [frame_congr (h i hi)]

theorem mem_userPages : q ∈ userPages s pagetable D ↔ ∃ i ∈ D, frame s pagetable i = q := by
  rw [userPages, Multiset.mem_sum]
  refine exists_congr fun i => and_congr_right fun _ => ?_
  rw [Multiset.mem_singleton]
  exact eq_comm

theorem card_userPages (s : Kmem) (pagetable : Addr) (D : Finset ℕ) : (userPages s pagetable D).card = D.card := by
  rw [userPages, Multiset.card_sum]
  exact Finset.sum_const_nat (fun _ _ => Multiset.card_singleton _) |>.trans (Nat.mul_one _)

theorem Space.nodup (hT : Ram kend T) (h : Space T s pagetable D H) :
    (tables s pagetable + userPages s pagetable D + (s.free : Multiset Addr) + H).Nodup :=
  h.total ▸ hT.nodup

theorem Space.table (hT : Ram kend T) (h : Space T s pagetable D H) : Table s pagetable := by
  have hle : tables s pagetable + (s.free : Multiset Addr) ≤
      tables s pagetable + userPages s pagetable D + (s.free : Multiset Addr) + H := by
    refine le_trans ?_ (Multiset.le_add_right _ _)
    exact add_le_add_left (Multiset.le_add_right _ _) _
  refine ⟨Multiset.nodup_of_le hle (h.nodup hT), fun q hq => (hT.range q ?_).1⟩
  rw [← h.total]
  exact Multiset.mem_add.mpr (.inl (Multiset.mem_add.mpr (.inr (Multiset.mem_coe.mpr hq))))

theorem Space.user_le (h : Space T s pagetable D H) : D.card ≤ T.card := by
  rw [← card_userPages s pagetable D, ← h.total, Multiset.card_add, Multiset.card_add, Multiset.card_add]
  omega

theorem Space.held (hT : Ram kend T) (h : Space T s pagetable D (q ::ₘ H)) :
    q ∉ tables s pagetable ∧ q ∉ userPages s pagetable D ∧ q ∉ s.free := by
  have hnd := (Multiset.nodup_add.mp (h.nodup hT)).2.2
  have hq : q ∉ tables s pagetable + userPages s pagetable D + (s.free : Multiset Addr) :=
    Multiset.disjoint_right.mp hnd (Multiset.mem_cons_self q H)
  rw [Multiset.mem_add, Multiset.mem_add, not_or, not_or, Multiset.mem_coe] at hq
  exact ⟨hq.1.1, hq.1.2, hq.2⟩

theorem Space.user (hT : Ram kend T) (h : Space T s pagetable D H) (hi : i ∈ D) :
    frame s pagetable i ∉ tables s pagetable ∧ frame s pagetable i ∉ s.free ∧
      frame s pagetable i ∉ H ∧ frame s pagetable i ∉ userPages s pagetable (D.erase i) := by
  have hnd := h.nodup hT
  have hsplit : userPages s pagetable D =
      {frame s pagetable i} + userPages s pagetable (D.erase i) :=
    (Finset.add_sum_erase D (fun j => {frame s pagetable j}) hi).symm
  have hperm : tables s pagetable + userPages s pagetable D + (s.free : Multiset Addr) + H =
      frame s pagetable i ::ₘ (tables s pagetable + userPages s pagetable (D.erase i) +
        (s.free : Multiset Addr) + H) := by
    rw [hsplit, ← Multiset.singleton_add]
    abel
  rw [hperm, Multiset.nodup_cons, Multiset.mem_add, Multiset.mem_add, Multiset.mem_add, not_or, not_or,
    not_or, Multiset.mem_coe] at hnd
  exact ⟨hnd.1.1.1.1, hnd.1.1.2, hnd.1.2, hnd.1.1.1.2⟩

theorem Space.move {H' : Multiset Addr} (h : Space T s pagetable D H)
    (hmem : ∀ q ∈ tables s pagetable, t.mem q = s.mem q)
    (hfree : (t.free : Multiset Addr) + H' = (s.free : Multiset Addr) + H) :
    Space T t pagetable D H' where
  total := by
    have htab : tables t pagetable = tables s pagetable := pages_congr hmem
    rw [htab, userPages_congr fun i _ => view_congr hmem (page i), add_assoc, hfree, ← add_assoc]
    exact h.total
  leaf := by
    intro i hi
    rw [view_congr hmem]
    exact h.leaf i hi
  none := by
    intro i hi hlt
    rw [view_congr hmem]
    exact h.none i hi hlt
  bound := h.bound

theorem uvmcreate_space (htotal : (s.free : Multiset Addr) + H = T) (E : Panic → Prop) :
    Wp uvmcreate s (fun r t => (r = none ∧ t = s) ∨ ∃ q, r = some q ∧ Space T t q ∅ H ∧
      (∀ x, view t q x = none) ∧ Levels t q ∧ s.free = q :: t.free ∧ ∀ x, x ≠ q → t.mem x = s.mem x) E := by
  refine wp_seq (kalloc_spec s E) ?_
  intro r t ht
  rcases ht with ⟨rfl, -, rfl⟩ | ⟨q, rest, rfl, hfree, hrest, hmem⟩
  · exact wp_pure (.inl ⟨rfl, rfl⟩)
  · refine wp_bind (wp_update (wp_pure (.inr ⟨q, rfl, ?_⟩)))
    have hblank : ∀ k, next ((t.fill q 0).mem q k) = none := fun k => by
      show next (Function.update t.mem q (fun _ => 0) q k) = none
      rw [Function.update_self, next_zero]
    have htab : tables (t.fill q 0) q = {q} := pages_of_empty hblank
    have hview : ∀ x, view (t.fill q 0) q x = none := fun x =>
      view_of_not_slot (find_of_not_child (hblank _))
    refine ⟨⟨?_, fun i hi => ?_, fun i _ _ => hview _, fun i hi => ?_⟩, hview, links_of_empty hblank, ?_, ?_⟩
    · show tables (t.fill q 0) q + 0 + (t.free : Multiset Addr) + H = T
      rw [htab, add_zero, ← htotal, hfree, hrest, Multiset.singleton_add, Multiset.cons_coe]
    · exact absurd hi (Finset.notMem_empty i)
    · exact absurd hi (Finset.notMem_empty i)
    · rw [hfree, ← hrest]
      rfl
    · intro x hx
      exact (Function.update_of_ne hx _ _).trans (hmem x hx)

/-! ### One page -/

theorem kalloc_space (hT : Ram kend T) (h : Space T s pagetable D H) (E : Panic → Prop) :
    Wp kalloc s (fun r t => (r = none ∧ s.free = [] ∧ t = s) ∨ ∃ q, r = some q ∧ q ∈ s.free ∧
      Space T t pagetable D (q ::ₘ H) ∧ (s.free : Multiset Addr) = q ::ₘ (t.free : Multiset Addr) ∧
      ∀ x, x ≠ q → t.mem x = s.mem x) E := by
  refine wp_mono (kalloc_spec s E) ?_ fun _ he => he
  rintro r t (⟨rfl, hempty, rfl⟩ | ⟨q, rest, rfl, hfree, hrest, hmem⟩)
  · exact .inl ⟨rfl, hempty, rfl⟩
  · have hq : q ∈ s.free := by
      rw [hfree]
      exact List.mem_cons_self
    have hcons : (s.free : Multiset Addr) = q ::ₘ (t.free : Multiset Addr) := by
      rw [hfree, hrest, Multiset.cons_coe]
    refine .inr ⟨q, rfl, hq, h.move (fun x hx => hmem x fun e => ?_) ?_, hcons, hmem⟩
    · obtain ⟨-, -, hdis⟩ := Multiset.nodup_add.mp (h.table hT).nodup
      exact Multiset.disjoint_left.mp hdis (e ▸ hx) (Multiset.mem_coe.mpr hq)
    · rw [hcons, Multiset.add_cons, Multiset.cons_add]

theorem fill_space (hT : Ram kend T) (h : Space T s pagetable D (q ::ₘ H)) (w : Pte) :
    Space T (s.fill q w) pagetable D (q ::ₘ H) := by
  refine h.move (fun x hx => ?_) rfl
  have hne : x ≠ q := fun e => (h.held hT).1 (e ▸ hx)
  exact Function.update_of_ne hne _ _

theorem kfree_space (hT : Ram kend T) (h : Space T s pagetable D (q ::ₘ H)) :
    Wp (kfree kend q) s (fun _ t => Space T t pagetable D H ∧ t.free = q :: s.free ∧
      ∀ x, x ≠ q → t.mem x = s.mem x) fun _ => False := by
  have hq : q ∈ T := by
    rw [← h.total]
    exact Multiset.mem_add.mpr (.inr (Multiset.mem_cons_self q H))
  refine wp_mono (kfree_spec s fun hbad => hbad (hT.range q hq)) ?_ fun _ he => he
  rintro - t ⟨-, -, -, hfree, hmem⟩
  refine ⟨h.move (fun x hx => hmem x fun e => (h.held hT).1 (e ▸ hx)) ?_, hfree, hmem⟩
  rw [hfree, ← Multiset.cons_coe, Multiset.add_cons, Multiset.cons_add]

theorem view_other {v : Option (Addr × Pte)} {j : ℕ} (hview : ∀ x, Aligned x → x < MAXVA →
      view t pagetable x = Function.update (view s pagetable) (page i) v x)
    (hi : i < 2 ^ 26) (hj : j < 2 ^ 26) (hne : j ≠ i) : view t pagetable (page j) = view s pagetable (page j) := by
  rw [hview _ (aligned_page j) (page_lt_MAXVA hj), Function.update_of_ne]
  exact fun e => hne (page_inj (by omega) (by omega) e)

theorem mapPage_space {perm : Pte} (hT : Ram kend T) (h : Space T s pagetable D (q ::ₘ H)) (hi : i ∉ D)
    (htop : i < top) (hperm : perm.toNat < 1024) (hleaf : perm ||| PTE_V ≠ PTE_V) :
    Wp (mappages pagetable (page i) PGSIZE q perm) s (fun r t => Keeps s t pagetable ∧
      ((r = 0 ∧ Space T t pagetable (insert i D) H ∧ ∀ x, Aligned x → x < MAXVA → view t pagetable x =
          Function.update (view s pagetable) (page i) (some (q, perm ||| PTE_V)) x) ∨
        (r = -1 ∧ Space T t pagetable D (q ::ₘ H) ∧ ∀ x, view t pagetable x = view s pagetable x)))
      fun _ => False := by
  have hlt : i < 2 ^ 26 := by
    rw [top_eq] at htop
    omega
  have hq : Aligned q := (hT.range q (by
    rw [← h.total]
    exact Multiset.mem_add.mpr (.inr (Multiset.mem_cons_self q H)))).1
  refine wp_mono (mapPage_spec hperm (h.table hT) (aligned_page i) (page_lt_MAXVA hlt) (h.none i hi htop))
    ?_ fun _ he => he
  rintro r t ⟨hkeeps, ⟨rfl, hview⟩ | ⟨rfl, -, hview⟩⟩
  · rw [PGROUNDDOWN_of_aligned hq] at hview
    have hother : ∀ j, j < top → j ≠ i → view t pagetable (page j) = view s pagetable (page j) :=
      fun j hj hne => view_other hview hlt (by rw [top_eq] at hj; omega) hne
    have hself : view t pagetable (page i) = some (q, perm ||| PTE_V) := by
      rw [hview _ (aligned_page i) (page_lt_MAXVA hlt), Function.update_self]
    refine ⟨hkeeps, .inl ⟨rfl, ⟨?_, ?_, ?_, ?_⟩, hview⟩⟩
    · have hold : userPages t pagetable D = userPages s pagetable D := userPages_congr fun j hj =>
        hother j (h.bound j hj) fun e => hi (e ▸ hj)
      have hnew : userPages t pagetable (insert i D) = {q} + userPages s pagetable D := by
        rw [userPages, Finset.sum_insert hi, frame_of_view hself]
        exact congrArg _ hold
      have htotal := h.total
      calc tables t pagetable + userPages t pagetable (insert i D) + (t.free : Multiset Addr) + H
          = (tables t pagetable + (t.free : Multiset Addr)) + userPages s pagetable D + ({q} + H) := by
            rw [hnew]
            abel
        _ = tables s pagetable + userPages s pagetable D + (s.free : Multiset Addr) + (q ::ₘ H) := by
            rw [hkeeps.pages, Multiset.singleton_add]
            abel
        _ = T := htotal
    · intro j hj
      rcases Finset.mem_insert.mp hj with rfl | hj
      · exact ⟨_, hself, hleaf⟩
      · rw [hother j (h.bound j hj) fun e => hi (e ▸ hj)]
        exact h.leaf j hj
    · intro j hj hjtop
      rw [Finset.mem_insert, not_or] at hj
      rw [hother j hjtop hj.1]
      exact h.none j hj.2 hjtop
    · intro j hj
      rcases Finset.mem_insert.mp hj with rfl | hj
      · exact htop
      · exact h.bound j hj
  · refine ⟨hkeeps, .inr ⟨rfl, ⟨?_, ?_, ?_, h.bound⟩, hview⟩⟩
    · rw [userPages_congr fun j _ => hview (page j), ← h.total]
      calc tables t pagetable + userPages s pagetable D + (t.free : Multiset Addr) + (q ::ₘ H)
          = (tables t pagetable + (t.free : Multiset Addr)) + userPages s pagetable D + (q ::ₘ H) := by
            abel
        _ = _ := by
            rw [hkeeps.pages]
            abel
    · intro j hj
      rw [hview]
      exact h.leaf j hj
    · intro j hj hjtop
      rw [hview]
      exact h.none j hj hjtop

/-! ### A range of pages -/

theorem removed_space (h : Space T s pagetable D H) (hi : i ∈ D)
    (hr : Removed true (page i) (frame s pagetable i) s t pagetable) : Space T t pagetable (D.erase i) H := by
  have htop := h.bound i hi
  rw [top_eq] at htop
  have hview : ∀ x, Aligned x → x < MAXVA →
      view t pagetable x = Function.update (view s pagetable) (page i) none x := fun x hx hxmax =>
    hr.view x (aligned_page i) hx hxmax
  have hother : ∀ j, j < top → j ≠ i → view t pagetable (page j) = view s pagetable (page j) :=
    fun j hj hne => view_other hview (by omega) (by rw [top_eq] at hj; omega) hne
  refine ⟨?_, ?_, ?_, ?_⟩
  · have hrest : userPages t pagetable (D.erase i) = userPages s pagetable (D.erase i) :=
      userPages_congr fun j hj =>
        hother j (h.bound j (Finset.mem_of_mem_erase hj)) (Finset.ne_of_mem_erase hj)
    have hsplit : userPages s pagetable D =
        {frame s pagetable i} + userPages s pagetable (D.erase i) :=
      (Finset.add_sum_erase D (fun j => {frame s pagetable j}) hi).symm
    have hfree : (t.free : Multiset Addr) = {frame s pagetable i} + (s.free : Multiset Addr) := by
      rw [hr.free, if_pos rfl, ← Multiset.cons_coe, Multiset.singleton_add]
    rw [hr.tables, hrest, hfree, ← h.total, hsplit]
    abel
  · intro j hj
    rw [hother j (h.bound j (Finset.mem_of_mem_erase hj)) (Finset.ne_of_mem_erase hj)]
    exact h.leaf j (Finset.mem_of_mem_erase hj)
  · intro j hj hjtop
    by_cases he : j = i
    · rw [he, hview _ (aligned_page i) (page_lt_MAXVA (by omega)), Function.update_self]
    · rw [hother j hjtop he]
      exact h.none j (fun hin => hj (Finset.mem_erase.mpr ⟨he, hin⟩)) hjtop
  · exact fun j hj => h.bound j (Finset.mem_of_mem_erase hj)

theorem Space.frame_ram (hT : Ram kend T) (h : Space T s pagetable D H) (hi : i ∈ D) :
    Aligned (frame s pagetable i) ∧ kend ≤ frame s pagetable i ∧ frame s pagetable i < PHYSTOP := by
  refine hT.range _ ?_
  rw [← h.total]
  refine Multiset.mem_add.mpr (.inl (Multiset.mem_add.mpr (.inl (Multiset.mem_add.mpr (.inr ?_)))))
  exact mem_userPages.mpr ⟨i, hi, rfl⟩

theorem page_lt_page {j : ℕ} (hi : i < 2 ^ 52) (hj : j < 2 ^ 52) : page i < page j ↔ i < j := by
  rw [BitVec.lt_def, toNat_page hi, toNat_page hj]
  omega

/-- What `uvmunmap` with `do_free` does to page numbers `[lo, hi)`. -/
structure Unmapped (T H : Multiset Addr) (s t : Kmem) (pagetable : Addr) (D : Finset ℕ) (lo hi : ℕ) :
    Prop where
  space : Space T t pagetable (D \ Finset.Ico lo hi) H
  tables : tables t pagetable = tables s pagetable
  view : ∀ x, Aligned x → x < MAXVA →
    view t pagetable x = unmapped (view s pagetable) (page lo) (page hi) x
  frame : ∀ q, q ∉ PageTable.tables s pagetable → q ∉ userPages s pagetable (Finset.Ico lo hi) →
    t.mem q = s.mem q

theorem Unmapped.refl (h : Space T s pagetable D H) (lo : ℕ) : Unmapped T H s s pagetable D lo lo where
  space := by
    rw [Finset.Ico_self, Finset.sdiff_empty]
    exact h
  tables := rfl
  view := fun x _ _ => (unmapped_of_le _ (BitVec.lt_irrefl _) x).symm
  frame := fun _ _ _ => rfl

/-- **The loop of `uvmunmap` gives its pages back.** -/
theorem unmapFrom_space (hT : Ram kend T) {hi : ℕ} (htop : hi ≤ top) {n : ℕ} :
    ∀ {lo : ℕ} {s : Kmem} {D : Finset ℕ}, Space T s pagetable D H → hi ≤ lo + n → lo ≤ hi →
    (∀ i, lo ≤ i → i < hi → i ∈ D) → Wp (unmapFrom kend pagetable (page hi) true (n + 1) (page lo)) s
      (fun _ t => Unmapped T H s t pagetable D lo hi) fun _ => False := by
  rw [top_eq] at htop
  induction n with
  | zero =>
    intro lo s D h hn hle _
    obtain rfl : lo = hi := by omega
    exact unmapFrom_done (BitVec.lt_irrefl _) (.refl h lo)
  | succ n ih =>
    intro lo s D h hn hle hall
    by_cases hlt : lo < hi
    · have hin := hall lo (Nat.le_refl lo) hlt
      have hmax : page lo < MAXVA := page_lt_MAXVA (by omega)
      have hpage : page lo < page hi := (page_lt_page (by omega) (by omega)).mpr hlt
      obtain ⟨v, hv, hflags⟩ := h.leaf lo hin
      obtain ⟨htab, hfree, -, hothers⟩ := h.user hT hin
      refine unmapFrom_turn (h.table hT) hpage (fun hge => ?_) (fun hnone => ?_) (fun pa hvpa => ?_)
        (fun _ pa f hvpa => ?_) fun t pa f hvpa hr => ?_
      · exact absurd hmax (BitVec.not_lt.mpr hge)
      · rw [hv] at hnone
        cases hnone
      · rw [hv] at hvpa
        exact hflags (congrArg Prod.snd (Option.some.inj hvpa))
      · obtain rfl : UserSpace.frame s pagetable lo = pa := frame_of_view hvpa
        exact ⟨fun hbad => hbad (h.frame_ram hT hin), htab, hfree⟩
      · obtain rfl : UserSpace.frame s pagetable lo = pa := frame_of_view hvpa
        have hnext := removed_space h hin hr
        rw [page_succ]
        refine wp_mono (ih hnext (by omega) hlt ?_) ?_ fun _ he => he
        · intro j hj hjhi
          exact Finset.mem_erase.mpr ⟨by omega, hall j (by omega) hjhi⟩
        · intro _ u hu
          have hview : ∀ x, Aligned x → x < MAXVA → PageTable.view t pagetable x =
              Function.update (PageTable.view s pagetable) (page lo) none x := fun x hx hxmax =>
            hr.view x (aligned_page lo) hx hxmax
          have hico : Finset.Ico lo hi = insert lo (Finset.Ico (lo + 1) hi) :=
            (Finset.insert_Ico_add_one_left_eq_Ico hlt).symm
          have hrest : userPages t pagetable (Finset.Ico (lo + 1) hi) =
              userPages s pagetable (Finset.Ico (lo + 1) hi) := userPages_congr fun j hj => by
            rw [Finset.mem_Ico] at hj
            exact view_other hview (by omega) (by omega) (by omega)
          refine ⟨?_, hu.tables.trans hr.tables, fun x hx hxmax => ?_, fun q hq hqu => ?_⟩
          · have hset : D \ Finset.Ico lo hi = D.erase lo \ Finset.Ico (lo + 1) hi := by
              rw [hico, Finset.sdiff_insert, Finset.erase_sdiff_comm]
            rw [hset]
            exact hu.space
          · rw [hu.view x hx hxmax, unmapped_congr (hview x hx hxmax), ← page_succ,
              unmapped_cons (aligned_page lo) hx hmax hpage]
          · rw [hico, userPages, Finset.sum_insert (by simp), Multiset.mem_add, not_or,
              Multiset.mem_singleton] at hqu
            have hqt : q ∉ PageTable.tables t pagetable := by
              rw [hr.tables]
              exact hq
            refine (hu.frame q hqt ?_).trans (hr.frame q hq fun _ => hqu.1)
            rw [hrest]
            exact hqu.2
    · obtain rfl : lo = hi := by omega
      exact unmapFrom_done (BitVec.lt_irrefl _) (.refl h lo)

end Xv6.UserSpace
