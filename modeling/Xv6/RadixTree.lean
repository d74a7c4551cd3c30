import Mathlib.Algebra.BigOperators.Group.Finset.Basic
import Mathlib.Algebra.Order.Group.Multiset
import Mathlib.Data.Fintype.Basic
import Mathlib.Tactic

/-!
# Radix trees in memory

Memory is a map from pages to the words in their slots.  A radix tree of height `l` is a page of it
and what hangs below: above level 0 a word may point at a page one level down (`child`), and the words
of the pages at level 0 are the tree's values.  A key is a path, the slot to take at each level.

* `find` follows a path to its slot at level 0;
* `pages` counts the pages of a tree, each as often as it is reached, so that `(pages …).Nodup` says
  that no two paths share a page they need not share;
* `pages_congr`, `find_congr` — a tree depends on its own pages only;
* `pages_graft`, `find_graft` — what a change below one slot of the root does;
* `pages_store`, `find_store` — a store into a level-0 slot changes neither;
* `find_inj` — without sharing, two paths that meet in a slot are one path;
* `Links` — what holds of every word that points at a page;
* `Grown` — a tree that took free pages for new nodes, with no value of it changed, and the rules for
  it: `Grown.trans`, `Grown.graft` for a change below one slot, `grown_link` for one new node.
-/

namespace Xv6.RadixTree

open Function (update_self update_of_ne)

set_option linter.unusedSectionVars false

variable {P K W : Type} [DecidableEq P] [DecidableEq K] [Fintype K]

abbrev Memory (P K W : Type) := P → K → W

def store (m : Memory P K W) (p : P) (k : K) (w : W) : Memory P K W :=
  Function.update m p (Function.update (m p) k w)

theorem store_self (m : Memory P K W) (p : P) (k : K) (w : W) : store m p k w p k = w := by
  rw [store, update_self, update_self]

theorem store_slot (m : Memory P K W) {p : P} {k k' : K} (w : W) (h : k' ≠ k) : store m p k w p k' = m p k' := by
  rw [store, update_self, update_of_ne h]

theorem store_page (m : Memory P K W) {p q : P} (k : K) (w : W) (h : q ≠ p) :
    store m p k w q = m q := update_of_ne h _ _

variable (child : W → Option P)

def find (m : Memory P K W) : ℕ → P → (ℕ → K) → Option (P × K)
  | 0, p, path => some (p, path 0)
  | l + 1, p, path => (child (m p (path (l + 1)))).bind fun q => find m l q path

def pages (m : Memory P K W) : ℕ → P → Multiset P
  | 0, p => {p}
  | l + 1, p => p ::ₘ ∑ k, (child (m p k)).elim 0 (pages m l)

def below (m : Memory P K W) (l : ℕ) (p : P) (k : K) : Multiset P :=
  (child (m p k)).elim 0 (pages child m l)

def beside (m : Memory P K W) (l : ℕ) (p : P) (k : K) : Multiset P :=
  ∑ k' ∈ Finset.univ.erase k, below child m l p k'

variable {child} {m m' : Memory P K W} {l : ℕ} {p q : P} {k : K} {w : W} {path path' : ℕ → K}

theorem pages_succ (m : Memory P K W) (l : ℕ) (p : P) (k : K) :
    pages child m (l + 1) p = p ::ₘ (below child m l p k + beside child m l p k) := by
  rw [beside, Finset.add_sum_erase _ _ (Finset.mem_univ k)]
  rfl

theorem pages_eq (m : Memory P K W) (l : ℕ) (p : P) :
    pages child m (l + 1) p = p ::ₘ ∑ k, below child m l p k := rfl

theorem root_mem_pages : p ∈ pages child m l p := by
  cases l with
  | zero => exact Multiset.mem_singleton_self p
  | succ l => exact Multiset.mem_cons_self p _

theorem find_of_child (h : child (m p (path (l + 1))) = some q) :
    find child m (l + 1) p path = find child m l q path := by
  rw [find, h, Option.bind_some]

theorem find_of_not_child (h : child (m p (path (l + 1))) = none) : find child m (l + 1) p path = none := by
  rw [find, h, Option.bind_none]

theorem below_of_child (h : child (m p k) = some q) : below child m l p k = pages child m l q := by
  rw [below, h, Option.elim_some]

theorem below_of_not_child (h : child (m p k) = none) : below child m l p k = 0 := by
  rw [below, h, Option.elim_none]

/-! ### Frame -/

/-- **A tree depends on its own pages only.** -/
theorem pages_congr : ∀ {l : ℕ} {p : P}, (∀ q ∈ pages child m l p, m' q = m q) →
    pages child m' l p = pages child m l p := by
  intro l
  induction l with
  | zero =>
    intro p _
    rfl
  | succ l ih =>
    intro p h
    show p ::ₘ ∑ k, below child m' l p k = p ::ₘ ∑ k, below child m l p k
    congr 1
    refine Finset.sum_congr rfl fun k _ => ?_
    have hp : m' p k = m p k := congrFun (h p root_mem_pages) k
    cases hc : child (m p k) with
    | none => rw [below_of_not_child hc, below_of_not_child (hp ▸ hc)]
    | some c =>
      rw [below_of_child hc, below_of_child (hp ▸ hc)]
      refine ih fun q hq => h q (Multiset.mem_cons_of_mem ?_)
      exact Multiset.mem_sum.mpr ⟨k, Finset.mem_univ k, by rw [hc]; exact hq⟩

theorem mem_pages_of_child (hc : child (m p k) = some q) {x : P} (hx : x ∈ pages child m l q) :
    x ∈ pages child m (l + 1) p := by
  rw [pages_succ m l p k, below_of_child hc]
  exact Multiset.mem_cons_of_mem (Multiset.mem_add.mpr (.inl hx))

theorem find_congr : ∀ {l : ℕ} {p : P}, (∀ q ∈ pages child m l p, m' q = m q) →
    find child m' l p path = find child m l p path := by
  intro l
  induction l with
  | zero =>
    intro p _
    rfl
  | succ l ih =>
    intro p h
    have hp : m' p (path (l + 1)) = m p (path (l + 1)) := congrFun (h p root_mem_pages) _
    cases hc : child (m p (path (l + 1))) with
    | none => rw [find_of_not_child hc, find_of_not_child (hp ▸ hc)]
    | some c =>
      rw [find_of_child hc, find_of_child (hp ▸ hc)]
      exact ih fun q hq => h q (mem_pages_of_child hc hq)

theorem find_mem {k : K} : ∀ {l : ℕ} {p : P}, find child m l p path = some (q, k) →
    q ∈ pages child m l p ∧ k = path 0 := by
  intro l
  induction l with
  | zero =>
    intro p h
    obtain ⟨rfl, rfl⟩ := Prod.mk.inj (Option.some.inj h)
    exact ⟨root_mem_pages, rfl⟩
  | succ l ih =>
    intro p h
    cases hc : child (m p (path (l + 1))) with
    | none =>
      rw [find_of_not_child hc] at h
      cases h
    | some c =>
      rw [find_of_child hc] at h
      obtain ⟨hq, hk⟩ := ih h
      exact ⟨mem_pages_of_child hc hq, hk⟩

theorem find_mem_beside {i : K} (hk : path (l + 1) ≠ k)
    (h : find child m (l + 1) p path = some (q, i)) : q ∈ beside child m l p k := by
  cases hc : child (m p (path (l + 1))) with
  | none =>
    rw [find_of_not_child hc] at h
    cases h
  | some c =>
    rw [find_of_child hc] at h
    refine Multiset.mem_sum.mpr ⟨path (l + 1), Finset.mem_erase.mpr ⟨hk, Finset.mem_univ _⟩, ?_⟩
    rw [below_of_child hc]
    exact (find_mem h).1

/-! ### A change below one slot -/

theorem beside_congr (hp : ∀ k' ≠ k, m' p k' = m p k') (h : ∀ q ∈ beside child m l p k, m' q = m q) :
    beside child m' l p k = beside child m l p k := by
  refine Finset.sum_congr rfl fun k' hk' => ?_
  have hne := (Finset.mem_erase.mp hk').1
  have hmem : ∀ q ∈ below child m l p k', m' q = m q := fun q hq =>
    h q (Multiset.mem_sum.mpr ⟨k', hk', hq⟩)
  cases hc : child (m p k') with
  | none => rw [below_of_not_child hc, below_of_not_child (hp k' hne ▸ hc)]
  | some c =>
    rw [below_of_child hc] at hmem ⊢
    rw [below_of_child (hp k' hne ▸ hc)]
    exact pages_congr hmem

/-- **Grafting.**  When nothing beside slot `k` changes, the tree changes as the part below `k` does. -/
theorem pages_graft (hp : ∀ k' ≠ k, m' p k' = m p k') (h : ∀ q ∈ beside child m l p k, m' q = m q) :
    pages child m' (l + 1) p + below child m l p k = pages child m (l + 1) p + below child m' l p k := by
  rw [pages_succ m' l p k, pages_succ m l p k, beside_congr hp h, Multiset.cons_add,
    Multiset.cons_add]
  congr 1
  abel

theorem find_graft (hp : ∀ k' ≠ k, m' p k' = m p k')
    (h : ∀ q ∈ beside child m l p k, m' q = m q) (hk : path (l + 1) ≠ k) :
    find child m' (l + 1) p path = find child m (l + 1) p path := by
  have hpk := hp _ hk
  cases hc : child (m p (path (l + 1))) with
  | none => rw [find_of_not_child hc, find_of_not_child (hpk ▸ hc)]
  | some c =>
    rw [find_of_child hc, find_of_child (hpk ▸ hc)]
    refine find_congr fun q hq => h q ?_
    refine Multiset.mem_sum.mpr ⟨path (l + 1), Finset.mem_erase.mpr ⟨hk, Finset.mem_univ _⟩, ?_⟩
    rwa [below_of_child hc]

/-! ### Trees without sharing -/

theorem nodup_child (h : (pages child m (l + 1) p).Nodup) (hc : child (m p k) = some q) :
    (pages child m l q).Nodup ∧ p ∉ pages child m l q ∧ p ∉ beside child m l p k ∧
      Disjoint (pages child m l q) (beside child m l p k) := by
  rw [pages_succ m l p k, below_of_child hc, Multiset.nodup_cons, Multiset.nodup_add] at h
  obtain ⟨hp, hq, -, hdis⟩ := h
  rw [Multiset.mem_add, not_or] at hp
  exact ⟨hq, hp.1, hp.2, hdis⟩

theorem nodup_below {F : Multiset P} (h : (pages child m (l + 1) p + F).Nodup)
    (hc : child (m p k) = some q) : (pages child m l q + F).Nodup := by
  refine Multiset.nodup_of_le (Multiset.add_le_add_right ?_) h
  rw [pages_succ m l p k, below_of_child hc]
  exact (Multiset.le_add_right _ _).trans (Multiset.le_cons_self _ _)

theorem find_inj {k k' : K} : ∀ {l : ℕ} {p : P}, (pages child m l p).Nodup →
    find child m l p path = some (q, k) → find child m l p path' = some (q, k') →
    ∀ i, 0 < i → i ≤ l → path i = path' i := by
  intro l
  induction l with
  | zero =>
    intro p _ _ _ i hpos hle
    omega
  | succ l ih =>
    intro p hnd h h' i hpos hle
    cases hc : child (m p (path (l + 1))) with
    | none =>
      rw [find_of_not_child hc] at h
      cases h
    | some c =>
    rw [find_of_child hc] at h
    obtain ⟨hcnd, hpc, hpb, hdis⟩ := nodup_child hnd hc
    have heq : path' (l + 1) = path (l + 1) := by
      by_contra hne
      exact Multiset.disjoint_left.mp hdis (find_mem h).1 (find_mem_beside hne h')
    rw [find_of_child (heq ▸ hc)] at h'
    rcases Nat.lt_or_ge i (l + 1) with hlt | hge
    · exact ih hcnd h h' i hpos (by omega)
    · obtain rfl : i = l + 1 := by omega
      exact heq.symm

theorem store_frame {F : Multiset P} (hq : q ∈ F) {B : Multiset P}
    (hdis : Disjoint F B) (k : K) (w : W) : ∀ x ∈ B, store m q k w x = m x := by
  intro x hx
  refine store_page m k w fun h => ?_
  exact Multiset.disjoint_left.mp hdis hq (h ▸ hx)

/-- **Level 0 holds values only.**  A store there changes neither the pages of the tree … -/
theorem pages_store {k : K} : ∀ {l : ℕ} {p : P}, (pages child m l p).Nodup → find child m l p path = some (q, k) →
    pages child (store m q k w) l p = pages child m l p := by
  intro l
  induction l with
  | zero =>
    intro p _ _
    rfl
  | succ l ih =>
    intro p hnd h
    cases hc : child (m p (path (l + 1))) with
    | none =>
      rw [find_of_not_child hc] at h
      cases h
    | some c =>
    rw [find_of_child hc] at h
    obtain ⟨hcnd, hpc, hpb, hdis⟩ := nodup_child hnd hc
    have hqc := (find_mem h).1
    have hpq : p ≠ q := fun e => hpc (e ▸ hqc)
    have hp : store m q k w p = m p := store_page m k w hpq
    have hgraft := pages_graft (fun k' (_ : k' ≠ path (l + 1)) => congrFun hp k')
      (store_frame hqc hdis k w)
    rw [below_of_child hc, below_of_child (congrFun hp (path (l + 1)) ▸ hc), ih hcnd h] at hgraft
    exact Multiset.add_left_inj.mp hgraft

theorem find_store {k : K} {x : ℕ → K} : ∀ {l : ℕ} {p : P}, (pages child m l p).Nodup →
    find child m l p path = some (q, k) → find child (store m q k w) l p x = find child m l p x := by
  intro l
  induction l with
  | zero =>
    intro p _ _
    rfl
  | succ l ih =>
    intro p hnd h
    cases hc : child (m p (path (l + 1))) with
    | none =>
      rw [find_of_not_child hc] at h
      cases h
    | some c =>
    rw [find_of_child hc] at h
    obtain ⟨hcnd, hpc, hpb, hdis⟩ := nodup_child hnd hc
    have hqc := (find_mem h).1
    have hpq : p ≠ q := fun e => hpc (e ▸ hqc)
    have hp : store m q k w p = m p := store_page m k w hpq
    by_cases hx : x (l + 1) = path (l + 1)
    · have hxc : child (m p (x (l + 1))) = some c := hx ▸ hc
      rw [find_of_child hxc, find_of_child (q := c) (by rw [hp, hxc])]
      exact ih hcnd h
    · exact find_graft (fun k' _ => congrFun hp k') (store_frame hqc hdis k w) hx

/-! ### Growth -/

theorem pages_of_empty (h : ∀ k, child (m p k) = none) : pages child m l p = {p} := by
  cases l with
  | zero => rfl
  | succ l =>
    show p ::ₘ ∑ k, below child m l p k = {p}
    rw [Finset.sum_eq_zero fun k _ => below_of_not_child (h k)]
    rfl

theorem find_of_empty (h : ∀ k, child (m p k) = none) (hf : find child m l p path = some (q, k)) : q = p := by
  cases l with
  | zero => exact (Prod.mk.inj (Option.some.inj hf)).1.symm
  | succ l =>
    rw [find_of_not_child (h _)] at hf
    cases hf

/-- **Growth.**  From memory `m` with free pages `F` the tree at `p` has grown to what it is in `m'`
with `F'` free: pages went from one to the other, paths that led to a slot lead there still and find the
same word, and the new slots are `blank`. -/
structure Grown (child : W → Option P) (blank : W) (m m' : Memory P K W) (F F' : Multiset P)
    (l : ℕ) (p : P) : Prop where
  pages : pages child m' l p + F' = pages child m l p + F
  kept : ∀ x q k, find child m l p x = some (q, k) →
    find child m' l p x = some (q, k) ∧ m' q k = m q k
  fresh : ∀ x q k, find child m l p x = none → find child m' l p x = some (q, k) → m' q k = blank
  frame : ∀ q, q ∉ RadixTree.pages child m l p → q ∉ F → m' q = m q

variable {blank : W} {m₁ m₂ : Memory P K W} {F F₁ F₂ F' : Multiset P}

namespace Grown

theorem refl (m : Memory P K W) (F : Multiset P) (l : ℕ) (p : P) :
    Grown child blank m m F F l p where
  pages := rfl
  kept _ _ _ h := ⟨h, rfl⟩
  fresh x q k h h' := by
    rw [h] at h'
    cases h'
  frame _ _ _ := rfl

theorem trans (h₁ : Grown child blank m m₁ F F₁ l p) (h₂ : Grown child blank m₁ m₂ F₁ F₂ l p) :
    Grown child blank m m₂ F F₂ l p where
  pages := h₂.pages.trans h₁.pages
  kept x q k h := by
    obtain ⟨hf₁, hm₁⟩ := h₁.kept x q k h
    obtain ⟨hf₂, hm₂⟩ := h₂.kept x q k hf₁
    exact ⟨hf₂, hm₂.trans hm₁⟩
  fresh x q k h h' := by
    cases hf₁ : find child m₁ l p x with
    | none => exact h₂.fresh x q k hf₁ h'
    | some r =>
      obtain ⟨hf₂, hm₂⟩ := h₂.kept x r.1 r.2 hf₁
      obtain rfl : r = (q, k) := Option.some.inj (hf₂.symm.trans h')
      exact hm₂.trans (h₁.fresh x q k h hf₁)
  frame q hq hF := by
    have hmem : q ∉ RadixTree.pages child m₁ l p + F₁ := by
      rw [h₁.pages, Multiset.mem_add, not_or]
      exact ⟨hq, hF⟩
    rw [Multiset.mem_add, not_or] at hmem
    exact (h₂.frame q hmem.1 hmem.2).trans (h₁.frame q hq hF)

theorem root (hnd : (RadixTree.pages child m (l + 1) p + F).Nodup) (hc : child (m p k) = some q)
    (h : Grown child blank m m' F F' l q) : m' p = m p := by
  obtain ⟨htree, -, hfree⟩ := Multiset.nodup_add.mp hnd
  obtain ⟨-, hpq, -, -⟩ := nodup_child htree hc
  exact h.frame p hpq (Multiset.disjoint_left.mp hfree root_mem_pages)

theorem find_child (hnd : (RadixTree.pages child m (l + 1) p + F).Nodup)
    (hc : child (m p (path (l + 1))) = some q) (h : Grown child blank m m' F F' l q) :
    find child m' (l + 1) p path = find child m' l q path :=
  find_of_child (by rw [h.root hnd hc, hc])

theorem graft (hnd : (RadixTree.pages child m (l + 1) p + F).Nodup) (hc : child (m p k) = some q)
    (h : Grown child blank m m' F F' l q) : Grown child blank m m' F F' (l + 1) p := by
  obtain ⟨htree, -, hfree⟩ := Multiset.nodup_add.mp hnd
  obtain ⟨-, -, -, hdis⟩ := nodup_child htree hc
  have hp : m' p = m p := h.root hnd hc
  have hslot : ∀ k' ≠ k, m' p k' = m p k' := fun k' _ => congrFun hp k'
  have hc' : child (m' p k) = some q := by rw [hp, hc]
  have hbeside : ∀ x ∈ beside child m l p k, m' x = m x := by
    intro x hx
    have hxt : x ∈ RadixTree.pages child m (l + 1) p := by
      rw [pages_succ m l p k]
      exact Multiset.mem_cons_of_mem (Multiset.mem_add.mpr (.inr hx))
    exact h.frame x (fun hxq => Multiset.disjoint_left.mp hdis hxq hx)
      (Multiset.disjoint_left.mp hfree hxt)
  refine ⟨?_, ?_, ?_, ?_⟩
  · have hg := pages_graft hslot hbeside
    rw [below_of_child hc, below_of_child hc'] at hg
    apply add_right_cancel (b := RadixTree.pages child m l q)
    calc RadixTree.pages child m' (l + 1) p + F' + RadixTree.pages child m l q
        = RadixTree.pages child m' (l + 1) p + RadixTree.pages child m l q + F' := by abel
      _ = RadixTree.pages child m (l + 1) p + (RadixTree.pages child m' l q + F') := by rw [hg]; abel
      _ = RadixTree.pages child m (l + 1) p + F + RadixTree.pages child m l q := by rw [h.pages]; abel
  · intro x r i hf
    by_cases hx : x (l + 1) = k
    · rw [find_of_child (q := q) (by rw [hx, hc])] at hf
      rw [find_of_child (q := q) (by rw [hx, hc'])]
      exact h.kept x r i hf
    · rw [find_graft hslot hbeside hx]
      exact ⟨hf, congrFun (hbeside r (find_mem_beside hx hf)) i⟩
  · intro x r i hf hf'
    by_cases hx : x (l + 1) = k
    · rw [find_of_child (q := q) (by rw [hx, hc])] at hf
      rw [find_of_child (q := q) (by rw [hx, hc'])] at hf'
      exact h.fresh x r i hf hf'
    · rw [find_graft hslot hbeside hx, hf] at hf'
      cases hf'
  · intro x hx hxF
    exact h.frame x (fun hxq => hx (mem_pages_of_child hc hxq)) hxF

end Grown

/-- **One new node.**  A blank free page is linked into an empty slot of the root. -/
theorem grown_link (hnd : (pages child m (l + 1) p + (q ::ₘ F)).Nodup)
    (hblank : child blank = none) (hempty : child (m p k) = none) (hw : child w = some q)
    (hroot : m' p = Function.update (m p) k w) (hnew : m' q = fun _ => blank)
    (hframe : ∀ x, x ≠ p → x ≠ q → m' x = m x) : Grown child blank m m' (q ::ₘ F) F (l + 1) p := by
  obtain ⟨htree, -, hfree⟩ := Multiset.nodup_add.mp hnd
  have hq : q ∉ pages child m (l + 1) p := fun hq =>
    Multiset.disjoint_left.mp hfree hq (Multiset.mem_cons_self q F)
  have hp : p ∉ beside child m l p k := by
    rw [pages_succ m l p k, Multiset.nodup_cons, Multiset.mem_add, not_or] at htree
    exact htree.1.2
  have hslot : ∀ k' ≠ k, m' p k' = m p k' := fun k' hk => by
    rw [hroot, update_of_ne hk]
  have hc : child (m' p k) = some q := by rw [hroot, update_self, hw]
  have hnone : ∀ i, child (m' q i) = none := fun i => by rw [hnew, hblank]
  have hbeside : ∀ x ∈ beside child m l p k, m' x = m x := by
    intro x hx
    have hxt : x ∈ pages child m (l + 1) p := by
      rw [pages_succ m l p k]
      exact Multiset.mem_cons_of_mem (Multiset.mem_add.mpr (.inr hx))
    exact hframe x (fun e => hp (e ▸ hx)) fun e => hq (e ▸ hxt)
  refine ⟨?_, ?_, ?_, ?_⟩
  · have hg := pages_graft hslot hbeside
    rw [below_of_not_child hempty, below_of_child hc, pages_of_empty hnone, add_zero] at hg
    rw [hg, add_assoc, Multiset.singleton_add]
  · intro x r i hf
    have hx : x (l + 1) ≠ k := fun hx => by
      rw [find_of_not_child (hx ▸ hempty)] at hf
      cases hf
    rw [find_graft hslot hbeside hx]
    exact ⟨hf, congrFun (hbeside r (find_mem_beside hx hf)) i⟩
  · intro x r i hf hf'
    by_cases hx : x (l + 1) = k
    · rw [find_of_child (q := q) (by rw [hx, hc])] at hf'
      rw [find_of_empty hnone hf', hnew]
    · rw [find_graft hslot hbeside hx, hf] at hf'
      cases hf'
  · intro x hx hxF
    refine hframe x (fun e => hx (e ▸ root_mem_pages)) fun e => hxF ?_
    rw [e]
    exact Multiset.mem_cons_self q F

/-! ### The words above level 0 -/

/-- Every word that points at a page is `good` for its level and slot. -/
def Links (child : W → Option P) (good : ℕ → K → W → Prop) (m : Memory P K W) : ℕ → P → Prop
  | 0, _ => True
  | l + 1, p => ∀ k q, child (m p k) = some q → good (l + 1) k (m p k) ∧ Links child good m l q

variable {good : ℕ → K → W → Prop}

theorem links_of_empty (h : ∀ k, child (m p k) = none) : Links child good m l p := by
  cases l with
  | zero => trivial
  | succ l =>
    intro k q hc
    rw [h k] at hc
    cases hc

theorem links_congr : ∀ {l : ℕ} {p : P}, (∀ q ∈ pages child m l p, m' q = m q) →
    Links child good m l p → Links child good m' l p := by
  intro l
  induction l with
  | zero => exact fun _ _ => trivial
  | succ l ih =>
    intro p h hlinks k q hc
    have hp : m' p k = m p k := congrFun (h p root_mem_pages) k
    rw [hp] at hc ⊢
    obtain ⟨hgood, hbelow⟩ := hlinks k q hc
    exact ⟨hgood, ih (fun x hx => h x (mem_pages_of_child hc hx)) hbelow⟩

theorem links_graft (hp : ∀ k' ≠ k, m' p k' = m p k')
    (h : ∀ q ∈ beside child m l p k, m' q = m q) (hlinks : Links child good m (l + 1) p)
    (hk : ∀ q, child (m' p k) = some q → good (l + 1) k (m' p k) ∧ Links child good m' l q) :
    Links child good m' (l + 1) p := by
  intro k' q hc
  by_cases he : k' = k
  · rw [he] at hc ⊢
    exact hk q hc
  · rw [hp k' he] at hc ⊢
    obtain ⟨hgood, hbelow⟩ := hlinks k' q hc
    refine ⟨hgood, links_congr (fun x hx => h x ?_) hbelow⟩
    refine Multiset.mem_sum.mpr ⟨k', Finset.mem_erase.mpr ⟨he, Finset.mem_univ _⟩, ?_⟩
    rw [below_of_child hc]
    exact hx

theorem links_store {k : K} : ∀ {l : ℕ} {p : P}, (pages child m l p).Nodup →
    find child m l p path = some (q, k) → Links child good m l p → Links child good (store m q k w) l p := by
  intro l
  induction l with
  | zero => exact fun _ _ _ => trivial
  | succ l ih =>
    intro p hnd h hlinks
    cases hc : child (m p (path (l + 1))) with
    | none =>
      rw [find_of_not_child hc] at h
      cases h
    | some c =>
    rw [find_of_child hc] at h
    obtain ⟨hcnd, hpc, hpb, hdis⟩ := nodup_child hnd hc
    have hqc := (find_mem h).1
    have hp : store m q k w p = m p := store_page m k w fun e => hpc (e ▸ hqc)
    refine links_graft (k := path (l + 1)) (fun k' _ => congrFun hp k') (store_frame hqc hdis k w) hlinks ?_
    intro c' hc'
    rw [hp] at hc' ⊢
    obtain ⟨hgood, hbelow⟩ := hlinks _ c' hc'
    obtain rfl : c = c' := Option.some.inj (hc.symm.trans hc')
    exact ⟨hgood, ih hcnd h hbelow⟩

theorem links_link (hnd : (pages child m (l + 1) p + (q ::ₘ F)).Nodup)
    (hblank : child blank = none) (hw : child w = some q)
    (hroot : m' p = Function.update (m p) k w) (hnew : m' q = fun _ => blank)
    (hframe : ∀ x, x ≠ p → x ≠ q → m' x = m x) (hgood : good (l + 1) k w)
    (hlinks : Links child good m (l + 1) p) : Links child good m' (l + 1) p := by
  obtain ⟨htree, -, hfree⟩ := Multiset.nodup_add.mp hnd
  have hq : q ∉ pages child m (l + 1) p := fun hq =>
    Multiset.disjoint_left.mp hfree hq (Multiset.mem_cons_self q F)
  have hp : p ∉ beside child m l p k := by
    rw [pages_succ m l p k, Multiset.nodup_cons, Multiset.mem_add, not_or] at htree
    exact htree.1.2
  refine links_graft (k := k) (fun k' hk => ?_) (fun x hx => ?_) hlinks fun c hc => ?_
  · rw [hroot, update_of_ne hk]
  · have hxt : x ∈ pages child m (l + 1) p := by
      rw [pages_succ m l p k]
      exact Multiset.mem_cons_of_mem (Multiset.mem_add.mpr (.inr hx))
    exact hframe x (fun e => hp (e ▸ hx)) fun e => hq (e ▸ hxt)
  · rw [hroot, update_self] at hc ⊢
    obtain rfl : q = c := Option.some.inj (hw.symm.trans hc)
    refine ⟨hgood, links_of_empty fun i => ?_⟩
    rw [hnew, hblank]

theorem Grown.links (hnd : (RadixTree.pages child m (l + 1) p + F).Nodup) (hc : child (m p k) = some q)
    (h : Grown child blank m m' F F' l q) (hbelow : Links child good m' l q)
    (hlinks : Links child good m (l + 1) p) : Links child good m' (l + 1) p := by
  obtain ⟨htree, -, hfree⟩ := Multiset.nodup_add.mp hnd
  obtain ⟨-, -, -, hdis⟩ := nodup_child htree hc
  have hp : m' p = m p := h.root hnd hc
  refine links_graft (k := k) (fun k' _ => congrFun hp k') (fun x hx => ?_) hlinks fun q' hq' => ?_
  · have hxt : x ∈ RadixTree.pages child m (l + 1) p := by
      rw [pages_succ m l p k]
      exact Multiset.mem_cons_of_mem (Multiset.mem_add.mpr (.inr hx))
    exact h.frame x (fun hxq => Multiset.disjoint_left.mp hdis hxq hx)
      (Multiset.disjoint_left.mp hfree hxt)
  · rw [hp] at hq' ⊢
    obtain rfl : q = q' := Option.some.inj (hc.symm.trans hq')
    exact ⟨(hlinks k q hc).1, hbelow⟩

attribute [irreducible] pages

end Xv6.RadixTree
