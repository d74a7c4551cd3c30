import Xv6.UserSpace

/-!
# Growing and shrinking a process (`kernel/vm.c`, `kernel/proc.c`)

`uvmalloc` and `uvmdealloc` bring user memory from one size to another, `growproc` does it for `sbrk`.
The process has a 64-bit size, `growproc` computes with `uint` and takes an `int`.

* `uvmalloc_space` — all pages up to the new size, zeroed, or everything as before;
* `uvmdealloc_space` — the pages above the new size are given back.
-/

namespace Xv6.UserGrow

open Xv6.Panics Xv6.RadixTree Xv6.Sv39 Xv6.PhysMem Xv6.PageTable Xv6.UserSpace

/-! ### The code -/

def uvmdealloc (kend pagetable oldsz newsz : Addr) : Call Addr :=
  if oldsz ≤ newsz then pure oldsz
  else do
    onlyIf (PGROUNDUP newsz < PGROUNDUP oldsz) do
      let npages : BitVec 32 := ((PGROUNDUP oldsz - PGROUNDUP newsz) / PGSIZE).setWidth 32
      uvmunmap kend pagetable (PGROUNDUP newsz) (npages.signExtend 64) true
    pure newsz

/-- `PTE_W|PTE_X|PTE_R|PTE_U` -/
def userPerm : Pte := PTE_W ||| PTE_X ||| PTE_R ||| PTE_U

/-- The loop of `uvmalloc`.  An address has 52 bits above the page offset, so `2 ^ 52` turns are never
exceeded. -/
def allocLoop (kend pagetable oldsz newsz : Addr) : ℕ → Addr → Call Addr
  | 0, _ => pure 0
  | turn + 1, a =>
    if a < newsz then do
      match ← kalloc with
      | none => do
        let _ ← uvmdealloc kend pagetable a oldsz
        pure 0
      | some mem => do
        update fun s => s.fill mem 0
        let r ← mappages pagetable a PGSIZE mem userPerm
        if r ≠ 0 then do
          kfree kend mem
          let _ ← uvmdealloc kend pagetable a oldsz
          pure 0
        else allocLoop kend pagetable oldsz newsz turn (a + PGSIZE)
    else pure newsz

def uvmalloc (kend pagetable oldsz newsz : Addr) : Call Addr :=
  if newsz < oldsz then pure oldsz
  else allocLoop kend pagetable (PGROUNDUP oldsz) newsz (2 ^ 52 + 1) (PGROUNDUP oldsz)

/-- A process: its page table and its size. -/
structure UserMem where
  kmem : Kmem
  pagetable : Addr
  sz : Addr

abbrev MCall := Prog UserMem Panic

def inKmem {α : Type} (m : Call α) : MCall α := zoom UserMem.kmem (fun p s => { p with kmem := s }) m

def setSz (sz : BitVec 32) : MCall Unit := update fun p => { p with sz := sz.setWidth 64 }

/-- `growproc`; `sz` is a `uint` and `n` an `int`. -/
def growproc (kend : Addr) (n : BitVec 32) : MCall ℤ := do
  let p ← gets id
  let sz : BitVec 32 := p.sz.setWidth 32
  if 0 < n.toInt then do
    let r ← inKmem (uvmalloc kend p.pagetable (sz.setWidth 64) ((sz + n).setWidth 64))
    if r.setWidth 32 = 0#32 then pure (-1)
    else do
      setSz (r.setWidth 32)
      pure 0
  else if n.toInt < 0 then do
    let r ← inKmem (uvmdealloc kend p.pagetable (sz.setWidth 64) ((sz + n).setWidth 64))
    setSz (r.setWidth 32)
    pure 0
  else do
    setSz sz
    pure 0

variable {s t : Kmem} {kend pagetable q oldsz newsz : Addr} {T H : Multiset Addr} {n m : ℕ}

/-! ### Sizes -/

/-- The number of pages of a memory of `sz` bytes. -/
def npages (sz : Addr) : ℕ := (sz.toNat + 4095) / 4096

theorem PGROUNDUP_eq {sz : Addr} (h : sz.toNat + 4096 ≤ 2 ^ 64) : PGROUNDUP sz = page (npages sz) := by
  show PGROUNDDOWN (sz + PGSIZE - 1) = _
  apply BitVec.eq_of_toNat_eq
  have hone : (1 : Addr).toNat = 1 := rfl
  rw [toNat_PGROUNDDOWN, toNat_page (by unfold npages; omega), npages, BitVec.toNat_sub,
    BitVec.toNat_add, toNat_PGSIZE, hone]
  omega

theorem npages_page (h : n < 2 ^ 52) : npages (page n) = n := by
  rw [npages, toNat_page h]
  omega

theorem Space_range_le (hT : Ram kend T) (h : Space T s pagetable (Finset.range n) H) : n ≤ 32768 := by
  have hle := h.user_le
  rw [Finset.card_range] at hle
  exact Nat.le_trans hle hT.card_le

/-! ### `uvmdealloc` -/

theorem toNat_signExtend {k : ℕ} (h : k < 2 ^ 31) : (((BitVec.ofNat 64 k).setWidth 32).signExtend 64).toNat = k := by
  have hk : ((BitVec.ofNat 64 k).setWidth 32).toNat = k := by
    rw [BitVec.toNat_setWidth, BitVec.toNat_ofNat]
    omega
  have hmsb : ((BitVec.ofNat 64 k).setWidth 32).msb = false := by
    rw [BitVec.msb_eq_decide, hk]
    simp only [decide_eq_false_iff_not, Nat.not_le]
    omega
  rw [BitVec.signExtend_eq_setWidth_of_msb_false hmsb, BitVec.toNat_setWidth, hk]
  omega

theorem uvmunmap_space (hT : Ram kend T) {D : Finset ℕ} (h : Space T s pagetable D H) {lo hi : ℕ}
    (hle : lo ≤ hi) (htop : hi ≤ top) (hall : ∀ i, lo ≤ i → i < hi → i ∈ D) {k : Addr} (hk : k.toNat = hi - lo) :
    Wp (uvmunmap kend pagetable (page lo) k true) s (fun _ t => Unmapped T H s t pagetable D lo hi)
      fun _ => False := by
  have hstop : page lo + k * PGSIZE = page hi := by
    rw [top_eq] at htop
    apply BitVec.eq_of_toNat_eq
    rw [BitVec.toNat_add, BitVec.toNat_mul, toNat_page (by omega), toNat_page (by omega), hk, toNat_PGSIZE]
    omega
  rw [uvmunmap, if_neg (not_not.mpr (aligned_page lo)), hstop]
  refine unmapFrom_space (n := 2 ^ 26) hT htop h ?_ hle hall
  rw [top_eq] at htop
  omega

theorem uvmdealloc_space (hT : Ram kend T) (h : Space T s pagetable (Finset.range (npages oldsz)) H)
    (hlt : newsz < oldsz) : Wp (uvmdealloc kend pagetable oldsz newsz) s (fun r t => r = newsz ∧
      Unmapped T H s t pagetable (Finset.range (npages oldsz)) (npages newsz) (npages oldsz)) fun _ => False := by
  have hmax := Space_range_le hT h
  have hlt' : newsz.toNat < oldsz.toNat := hlt
  have hold : npages oldsz = (oldsz.toNat + 4095) / 4096 := rfl
  have hnew : npages newsz = (newsz.toNat + 4095) / 4096 := rfl
  have hle : npages newsz ≤ npages oldsz := by omega
  rw [uvmdealloc, if_neg (BitVec.not_le.mpr hlt), PGROUNDUP_eq (by omega), PGROUNDUP_eq (by omega)]
  refine wp_bind (wp_onlyIf (fun hpages => ?_) fun hpages => ?_)
  · rw [page_lt_page (by omega) (by omega)] at hpages
    have hdiff : (page (npages oldsz) - page (npages newsz)) / PGSIZE =
        BitVec.ofNat 64 (npages oldsz - npages newsz) := by
      apply BitVec.eq_of_toNat_eq
      rw [BitVec.toNat_udiv, BitVec.toNat_sub, toNat_page (by omega), toNat_page (by omega), toNat_PGSIZE,
        BitVec.toNat_ofNat]
      omega
    rw [hdiff]
    refine wp_mono (uvmunmap_space hT h hle (by rw [top_eq]; omega) ?_ (toNat_signExtend (by omega))) ?_
      fun _ he => he
    · exact fun i _ hi => Finset.mem_range.mpr hi
    · exact fun _ t ht => wp_pure ⟨rfl, ht⟩
  · rw [page_lt_page (by omega) (by omega)] at hpages
    have heq : npages newsz = npages oldsz := by omega
    rw [heq]
    exact wp_pure ⟨rfl, .refl h _⟩

theorem range_sdiff_Ico (h : n ≤ m) : Finset.range m \ Finset.Ico n m = Finset.range n := by
  ext i
  rw [Finset.mem_sdiff, Finset.mem_range, Finset.mem_Ico, Finset.mem_range]
  omega

/-! ### `uvmalloc` -/

/-- What a new page is like: the flags it is mapped with, and its words. -/
abbrev Content := Pte × (Fin 512 → Pte)

/-- The pages of `uvmalloc`. -/
def zeroed : ℕ → Content := fun _ => (userPerm ||| PTE_V, fun _ => 0)

/-- User memory has grown from `n` to `m` pages, new page number `i` being like `w i`. -/
structure Grown (w : ℕ → Content) (T H : Multiset Addr) (s t : Kmem) (pagetable : Addr) (n m : ℕ) :
    Prop where
  space : Space T t pagetable (Finset.range m) H
  le : n ≤ m
  old : ∀ x, Aligned x → x < MAXVA → x < page n ∨ page m ≤ x → view t pagetable x = view s pagetable x
  new : ∀ i, n ≤ i → i < m → ∃ q, view t pagetable (page i) = some (q, (w i).1) ∧ t.mem q = (w i).2
  frame : ∀ q, q ∉ tables s pagetable → q ∉ s.free → t.mem q = s.mem q

variable {w : ℕ → Content}

theorem Grown.refl (h : Space T s pagetable (Finset.range n) H) : Grown w T H s s pagetable n n where
  space := h
  le := Nat.le_refl n
  old := fun _ _ _ _ => rfl
  new := fun _ hi hlt => absurd hlt (Nat.not_lt.mpr hi)
  frame := fun _ _ _ => rfl

theorem Grown.pages (hT : Ram kend T) (hs : Space T s pagetable (Finset.range n) H)
    (h : Grown w T H s t pagetable n m) :
    tables t pagetable + userPages t pagetable (Finset.Ico n m) + (t.free : Multiset Addr) =
      tables s pagetable + (s.free : Multiset Addr) := by
  have hmax := Space_range_le hT h.space
  have hle := h.le
  have hold : userPages t pagetable (Finset.range n) = userPages s pagetable (Finset.range n) :=
    userPages_congr fun i hi => by
      have hi' := Finset.mem_range.mp hi
      refine h.old _ (aligned_page i) (page_lt_MAXVA (by omega)) (.inl ?_)
      exact (page_lt_page (by omega) (by omega)).mpr hi'
  have hsplit : userPages t pagetable (Finset.range m) =
      userPages s pagetable (Finset.range n) + userPages t pagetable (Finset.Ico n m) := by
    rw [← hold]
    exact (Finset.sum_range_add_sum_Ico _ h.le).symm
  have heq := h.space.total.trans hs.total.symm
  rw [hsplit] at heq
  refine add_right_cancel (b := userPages s pagetable (Finset.range n) + H) ?_
  calc _ = tables t pagetable +
        (userPages s pagetable (Finset.range n) + userPages t pagetable (Finset.Ico n m)) +
          (t.free : Multiset Addr) + H := by abel
    _ = _ := by
        rw [heq]
        abel

theorem Grown.sub (hT : Ram kend T) (hs : Space T s pagetable (Finset.range n) H)
    (h : Grown w T H s t pagetable n m) {x : Addr} (htab : x ∉ tables s pagetable) (hfree : x ∉ s.free) :
    x ∉ tables t pagetable ∧ x ∉ userPages t pagetable (Finset.Ico n m) ∧ x ∉ t.free := by
  have hx : x ∉ tables s pagetable + (s.free : Multiset Addr) := by
    rw [Multiset.mem_add, not_or, Multiset.mem_coe]
    exact ⟨htab, hfree⟩
  rw [← h.pages hT hs, Multiset.mem_add, Multiset.mem_add, not_or, not_or, Multiset.mem_coe] at hx
  exact ⟨hx.1.1, hx.1.2, hx.2⟩

theorem Grown.keep (hT : Ram kend T) (hs : Space T s pagetable (Finset.range n) H)
    (h : Grown w T H s t pagetable n m) {u : Kmem} (hspace : Space T u pagetable (Finset.range m) H)
    (hview : ∀ x, view u pagetable x = view t pagetable x)
    (hmem : ∀ x, x ∉ tables t pagetable → x ∉ t.free → u.mem x = t.mem x) :
    Grown w T H s u pagetable n m where
  space := hspace
  le := h.le
  old := fun x hx hxmax hout => (hview x).trans (h.old x hx hxmax hout)
  new := by
    intro i hi hlt
    obtain ⟨q, hq, hwords⟩ := h.new i hi hlt
    obtain ⟨htab, hfree, -⟩ := h.space.user hT (Finset.mem_range.mpr hlt)
    rw [frame_of_view hq] at htab hfree
    exact ⟨q, (hview _).trans hq, (hmem q htab hfree).trans hwords⟩
  frame := by
    intro x htab hfree
    obtain ⟨htab', -, hfree'⟩ := h.sub hT hs htab hfree
    exact (hmem x htab' hfree').trans (h.frame x htab hfree)

theorem Grown.next (hT : Ram kend T) (hs : Space T s pagetable (Finset.range n) H)
    (h : Grown w T H s t pagetable n m) {u v : Kmem} (hq : q ∈ t.free)
    (hu : Space T u pagetable (Finset.range m) (q ::ₘ H)) (hviewu : ∀ x, view u pagetable x = view t pagetable x)
    (hmemu : ∀ x, x ≠ q → u.mem x = t.mem x) (hwords : u.mem q = (w m).2)
    (hsub : ∀ x, x ∉ tables t pagetable → x ∉ t.free → x ∉ tables u pagetable ∧ x ∉ u.free)
    (hkeeps : Keeps u v pagetable) (hv : Space T v pagetable (insert m (Finset.range m)) H)
    (hviewv : ∀ x, Aligned x → x < MAXVA → view v pagetable x =
      Function.update (view u pagetable) (page m) (some (q, (w m).1)) x) : Grown w T H s v pagetable n (m + 1) := by
  have hle := h.le
  have hspace : Space T v pagetable (Finset.range (m + 1)) H := by
    rw [Finset.range_add_one]
    exact hv
  have hmax := Space_range_le hT hspace
  have hother : ∀ x, Aligned x → x < MAXVA → x ≠ page m → view v pagetable x = view t pagetable x := by
    intro x hx hxmax hne
    rw [hviewv x hx hxmax, Function.update_of_ne hne, hviewu]
  refine ⟨hspace, by omega, ?_, ?_, ?_⟩
  · intro x hx hxmax hout
    have hne : x ≠ page m := fun e => by
      rw [e, page_lt_page (by omega) (by omega), BitVec.le_def, toNat_page (by omega),
        toNat_page (by omega)] at hout
      omega
    rw [hother x hx hxmax hne]
    refine h.old x hx hxmax (hout.imp_right fun hge => ?_)
    rw [BitVec.le_def, toNat_page (by omega)] at *
    omega
  · intro i hi hlt
    by_cases hm : i = m
    · obtain ⟨htab, -, hfree⟩ := hu.held hT
      refine ⟨q, ?_, ?_⟩
      · rw [hm, hviewv _ (aligned_page m) (page_lt_MAXVA (by omega)), Function.update_self]
      · rw [hm, hkeeps.frame q htab hfree]
        exact hwords
    · have him : i ∈ Finset.range m := Finset.mem_range.mpr (by omega)
      obtain ⟨q', hq', hz⟩ := h.new i hi (by omega)
      obtain ⟨htab, hfree, -⟩ := h.space.user hT him
      rw [frame_of_view hq'] at htab hfree
      obtain ⟨htab', hfree'⟩ := hsub q' htab hfree
      refine ⟨q', ?_, ?_⟩
      · refine (hother _ (aligned_page i) (page_lt_MAXVA (by omega)) fun e => hm ?_).trans hq'
        exact page_inj (by omega) (by omega) e
      · rw [hkeeps.frame q' htab' hfree', hmemu q' fun e => hfree (e ▸ hq)]
        exact hz
  · intro x htab hfree
    obtain ⟨htab', -, hfree'⟩ := h.sub hT hs htab hfree
    obtain ⟨htabu, hfreeu⟩ := hsub x htab' hfree'
    rw [hkeeps.frame x htabu hfreeu, hmemu x fun e => hfree' (e ▸ hq)]
    exact h.frame x htab hfree

/-- **Giving up.**  `uvmdealloc` of the new pages leaves everything as it was. -/
theorem Grown.undo (hT : Ram kend T) (hs : Space T s pagetable (Finset.range n) H)
    (h : Grown w T H s t pagetable n m) :
    Wp (uvmdealloc kend pagetable (page m) (page n)) t (fun _ u => Grown w T H s u pagetable n n) fun _ => False := by
  have hmax := Space_range_le hT h.space
  have hle := h.le
  by_cases hlt : n < m
  · have hspace : Space T t pagetable (Finset.range (npages (page m))) H := by
      rw [npages_page (by omega)]
      exact h.space
    refine wp_mono (uvmdealloc_space hT hspace ((page_lt_page (by omega) (by omega)).mpr hlt)) ?_
      fun _ he => he
    rintro - u ⟨-, hu⟩
    rw [npages_page (by omega), npages_page (by omega)] at hu
    refine ⟨range_sdiff_Ico hle ▸ hu.space, Nat.le_refl n, fun x hx hxmax _ => ?_, fun i hi hin => ?_,
      fun x htab hfree => ?_⟩
    · rw [hu.view x hx hxmax, unmapped]
      split
      case isTrue hin =>
        -- the pages between `n` and `m` were not mapped before
        obtain ⟨hlo, hhi⟩ := hin
        rw [BitVec.le_def, toNat_page (by omega)] at hlo
        rw [BitVec.lt_def, toNat_page (by omega)] at hhi
        have hx' : x = page (x.toNat / 4096) := by
          unfold Aligned at hx
          apply BitVec.eq_of_toNat_eq
          rw [toNat_page (by omega)]
          omega
        rw [hx', hs.none _ (by rw [Finset.mem_range]; omega) (by rw [top_eq]; omega)]
      case isFalse hout =>
        refine h.old x hx hxmax ?_
        by_contra hno
        rw [not_or, BitVec.not_lt, BitVec.not_le] at hno
        exact hout hno
    · omega
    · obtain ⟨htab', huser, -⟩ := h.sub hT hs htab hfree
      exact (hu.frame x htab' huser).trans (h.frame x htab hfree)
  · obtain rfl : n = m := by omega
    rw [uvmdealloc, if_pos (BitVec.le_refl _)]
    exact wp_pure h

theorem allocLoop_space (hT : Ram kend T) (hs : Space T s pagetable (Finset.range n) H) {turn : ℕ} :
    ∀ {t : Kmem} {m : ℕ}, Grown zeroed T H s t pagetable n m → m ≤ max n (npages newsz) →
    newsz.toNat ≤ 4096 * (m + turn) → Wp (allocLoop kend pagetable (page n) newsz (turn + 1) (page m)) t (fun r u =>
      (r = newsz ∧ Grown zeroed T H s u pagetable n (max n (npages newsz))) ∨
      (r = 0 ∧ Grown zeroed T H s u pagetable n n)) fun _ => False := by
  have hnew : npages newsz = (newsz.toNat + 4095) / 4096 := rfl
  induction turn with
  | zero =>
    intro t m h hm hturn
    have hmax := Space_range_le hT h.space
    have hle := h.le
    have hge : ¬ page m < newsz := by
      rw [BitVec.lt_def, toNat_page (by omega)]
      omega
    rw [allocLoop, if_neg hge]
    refine wp_pure (.inl ⟨rfl, ?_⟩)
    have heq : max n (npages newsz) = m := by omega
    rw [heq]
    exact h
  | succ turn ih =>
    intro t m h hm hturn
    have hmax := Space_range_le hT h.space
    have hle := h.le
    rw [allocLoop]
    by_cases hlt : page m < newsz
    · rw [if_pos hlt]
      rw [BitVec.lt_def, toNat_page (by omega)] at hlt
      refine wp_seq (kalloc_space hT h.space _) ?_
      rintro r u (⟨rfl, -, rfl⟩ | ⟨q, rfl, hq, hu, hfree, hmem⟩)
      · exact wp_seq (h.undo hT hs) fun _ v hv => wp_pure (.inr ⟨rfl, hv⟩)
      · have hq' : q ∉ tables t pagetable := by
          obtain ⟨-, -, hdis⟩ := Multiset.nodup_add.mp (h.space.table hT).nodup
          exact Multiset.disjoint_right.mp hdis (Multiset.mem_coe.mpr hq)
        have hmemu : ∀ x, x ≠ q → (u.fill q 0).mem x = t.mem x := fun x hx =>
          (Function.update_of_ne hx _ _).trans (hmem x hx)
        have htabmem : ∀ x ∈ tables t pagetable, (u.fill q 0).mem x = t.mem x := fun x hx =>
          hmemu x fun e => hq' (e ▸ hx)
        have htabu : tables (u.fill q 0) pagetable = tables t pagetable := pages_congr htabmem
        have hsub : ∀ x, x ∉ tables t pagetable → x ∉ t.free →
            x ∉ tables (u.fill q 0) pagetable ∧ x ∉ (u.fill q 0).free := by
          intro x htab hnot
          refine ⟨htabu ▸ htab, fun hin => hnot ?_⟩
          rw [← Multiset.mem_coe, hfree]
          exact Multiset.mem_cons_of_mem (Multiset.mem_coe.mpr hin)
        have hzeroed := fill_space hT hu 0
        refine wp_bind (wp_update ?_)
        refine wp_seq (mapPage_space hT hzeroed (i := m) (by simp) (by rw [top_eq]; omega)
          (by decide +kernel) (by decide +kernel)) ?_
        rintro r v ⟨hkeeps, ⟨rfl, hv, hviewv⟩ | ⟨rfl, hv, hviewv⟩⟩
        · rw [if_neg (not_not.mpr rfl), page_succ]
          refine ih (h.next hT hs hq hzeroed (view_congr htabmem) hmemu ?_ hsub hkeeps hv
            hviewv) (by omega) (by omega)
          exact Function.update_self q _ u.mem
        · rw [if_pos (by decide)]
          refine wp_seq (kfree_space hT hv) fun _ w hw => ?_
          obtain ⟨hwspace, -, hwmem⟩ := hw
          have hvq := (hv.held hT).1
          have hgrown : Grown zeroed T H s w pagetable n m := by
            refine h.keep hT hs hwspace (fun x => ?_) fun x htab hnot => ?_
            · rw [view_congr (fun y hy => hwmem y fun e => hvq (e ▸ hy)), hviewv,
                view_congr htabmem]
            · obtain ⟨htab', hnot'⟩ := hsub x htab hnot
              have hne : x ≠ q := fun e => hnot (e ▸ hq)
              rw [hwmem x hne, hkeeps.frame x htab' hnot', hmemu x hne]
          exact wp_seq (hgrown.undo hT hs) fun _ v hv => wp_pure (.inr ⟨rfl, hv⟩)
    · rw [if_neg hlt]
      rw [BitVec.lt_def, toNat_page (by omega)] at hlt
      refine wp_pure (.inl ⟨rfl, ?_⟩)
      have heq : max n (npages newsz) = m := by omega
      rw [heq]
      exact h

/-- **`uvmalloc`** maps zeroed pages up to the new size, or leaves everything as it was. -/
theorem uvmalloc_space (hT : Ram kend T) (hs : Space T s pagetable (Finset.range (npages oldsz)) H)
    (hle : oldsz ≤ newsz) : Wp (uvmalloc kend pagetable oldsz newsz) s (fun r t =>
      (r = newsz ∧ Grown zeroed T H s t pagetable (npages oldsz) (npages newsz)) ∨
      (r = 0 ∧ Grown zeroed T H s t pagetable (npages oldsz) (npages oldsz))) fun _ => False := by
  have hmax := Space_range_le hT hs
  have hle' : oldsz.toNat ≤ newsz.toNat := hle
  have hold : npages oldsz = (oldsz.toNat + 4095) / 4096 := rfl
  have hnew : npages newsz = (newsz.toNat + 4095) / 4096 := rfl
  have heq : max (npages oldsz) (npages newsz) = npages newsz := by omega
  have hlt := newsz.isLt
  rw [uvmalloc, if_neg (BitVec.not_lt.mpr hle), PGROUNDUP_eq (by omega)]
  rw [← heq]
  exact allocLoop_space hT hs (.refl hs) (by omega) (by omega)

/-! ### `growproc` -/

/-- A page number whose page and contents are the same in both. -/
def SamePage (p p' : UserMem) (i : ℕ) : Prop :=
  view p'.kmem p'.pagetable (page i) = view p.kmem p.pagetable (page i) ∧
    p'.kmem.mem (frame p.kmem p.pagetable i) = p.kmem.mem (frame p.kmem p.pagetable i)

/-- What a call of `growproc` that returns -1 has done. -/
structure Refused (p p' : UserMem) : Prop where
  size : p'.sz = p.sz
  view : ∀ x, Aligned x → x < MAXVA → view p'.kmem p'.pagetable x = view p.kmem p.pagetable x
  kept : ∀ i, i < npages p.sz → SamePage p p' i
  pages : tables p'.kmem p'.pagetable + (p'.kmem.free : Multiset Addr) =
    tables p.kmem p.pagetable + (p.kmem.free : Multiset Addr)

end Xv6.UserGrow
