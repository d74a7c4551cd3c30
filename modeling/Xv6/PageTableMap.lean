import Xv6.PageTable

/-!
# Page tables as maps (`kernel/vm.c`)

`view` reads a page table as a partial map from page-aligned virtual addresses below `MAXVA` to physical
addresses and flags.  `Table` is the invariant under which the three levels act as that map: no page of
the table is reached twice, and none is free.

* `walk_spec` — `walk` finds the slot of an address, and the tables it allocates on the way change no
  mapping;
* `view_put` — a store into the slot of one address changes the map at that address only;
* `mapFrom_spec` — the loop of `mappages` as an update of the map.
-/

namespace Xv6.PageTable

open Xv6.Panics Xv6.RadixTree Xv6.Sv39 Xv6.PhysMem
open Function (update_self update_of_ne)

structure Table (s : Kmem) (pagetable : Addr) : Prop where
  nodup : (tables s pagetable + (s.free : Multiset Addr)).Nodup
  aligned : ∀ q ∈ s.free, Aligned q

variable {s t : Kmem} {kend pagetable va a : Addr} {alloc : Bool} {perm : Pte}

/-! ### Interior entries -/

theorem next_zero : next 0 = none := if_neg not_valid_zero

theorem next_of_not_valid {e : Pte} (h : ¬ Valid e) : next e = none := if_neg h

theorem next_of_valid {e : Pte} (h : Valid e) : next e = some (PTE2PA e) := if_pos h

theorem next_table {q : Addr} (h : Aligned q) : next (PA2PTE q ||| PTE_V) = some q := by
  rw [next_of_valid (valid_or_PTE_V _), PTE2PA_leaf (by decide), PGROUNDDOWN_of_aligned h]

theorem wp_load {pte : Addr × Fin 512} {Q : Pte → Kmem → Prop} {E : Panic → Prop}
    (h : Q (s.mem pte.1 pte.2) s) : Wp (load pte) s Q E := h

theorem wp_write {pte : Addr × Fin 512} {w : Pte} {Q : Unit → Kmem → Prop} {E : Panic → Prop}
    (h : Q () (s.put pte.1 pte.2 w)) : Wp (write pte w) s Q E := h

/-! ### `walk` -/

/-- An entry above level 0: it is no leaf, and below `MAXVA` if it is in the root. -/
def Inner (level : ℕ) (k : Fin 512) (e : Pte) : Prop :=
  e &&& (PTE_R ||| PTE_W ||| PTE_X) = 0 ∧ (level = 2 → k.val < 256)

/-- A three-level table: no leaf above level 0. -/
def Levels (s : Kmem) (pagetable : Addr) : Prop := Links next Inner s.mem 2 pagetable

theorem PX_lt (h : va < MAXVA) : (PX 2 va).val < 256 := by
  have hlt := toNat_lt_of_lt_MAXVA h
  rw [PX_val]
  omega

theorem inner_table (q : Addr) (level : ℕ) (h : va < MAXVA) : Inner level (PX level va) (PA2PTE q ||| PTE_V) := by
  refine ⟨BitVec.eq_of_getLsbD_eq fun i hi => ?_, fun e => by rw [e]; exact PX_lt h⟩
  have hmask : (PTE_R ||| PTE_W ||| PTE_X : Pte).getLsbD i = decide (i = 1 ∨ i = 2 ∨ i = 3) := by
    revert i
    decide
  have hone : (PTE_V : Pte).getLsbD i = decide (i = 0) := by
    revert i
    decide
  rw [BitVec.getLsbD_and, BitVec.getLsbD_or, getLsbD_PA2PTE q hi, hmask, hone]
  by_cases h3 : i = 1 ∨ i = 2 ∨ i = 3
  · have hten : ¬ 10 ≤ i := by omega
    have hzero : i ≠ 0 := by omega
    simp [hten, hzero]
  · simp [h3]

/-- What a walk from `p` at `level` does. -/
structure Walked (va : Addr) (alloc : Bool) (level : ℕ) (p : Addr) (s : Kmem)
    (r : Option (Addr × Fin 512)) (t : Kmem) : Prop where
  slot : r = find next t.mem level p (path va)
  grown : Grown next 0 s.mem t.mem s.free t.free level p
  free : ∀ q ∈ t.free, q ∈ s.free
  quiet : alloc = false → t = s
  empty : r = none → alloc = true → t.free = []
  links : va < MAXVA → Links next Inner s.mem level p → Links next Inner t.mem level p

theorem walkFrom_spec : ∀ {level : ℕ} {p : Addr} {s : Kmem},
    (pages next s.mem level p + (s.free : Multiset Addr)).Nodup → (∀ q ∈ s.free, Aligned q) →
    Wp (walkFrom va alloc level p) s (Walked va alloc level p s) fun _ => False := by
  intro level
  induction level with
  | zero =>
    intro p s _ _
    exact wp_pure ⟨rfl, .refl _ _ _ _, fun _ hq => hq, fun _ => rfl, fun h => (by cases h),
      fun _ hl => hl⟩
  | succ level ih =>
    intro p s hnd hal
    show Wp (load (p, PX (level + 1) va) >>= _) s _ _
    refine wp_bind (wp_load ?_)
    split
    case isTrue hv =>
      -- the table one level down exists
      have hc := next_of_valid hv
      refine wp_mono (ih (nodup_below hnd hc) hal) ?_ fun _ h => h
      intro r t ht
      exact ⟨ht.slot.trans (ht.grown.find_child hnd hc).symm, ht.grown.graft hnd hc, ht.free,
        ht.quiet, ht.empty, fun hmax hl => ht.grown.links hnd hc (ht.links hmax (hl _ _ hc).2) hl⟩
    case isFalse hv =>
    have hempty := next_of_not_valid hv
    cases alloc with
    | false =>
      refine wp_pure ⟨?_, .refl _ _ _ _, fun _ hq => hq, fun _ => rfl, fun _ h => (by cases h),
        fun _ hl => hl⟩
      exact (find_of_not_child hempty).symm
    | true =>
    refine wp_seq (kalloc_spec s _) fun r t ht => ?_
    rcases ht with ⟨rfl, hfree, rfl⟩ | ⟨q, rest, rfl, hfree, hrest, hmem⟩
    · refine wp_pure ⟨?_, .refl _ _ _ _, fun _ hq => hq, fun _ => rfl, fun _ _ => hfree, fun _ hl => hl⟩
      exact (find_of_not_child hempty).symm
    · -- a new table, blank and linked in
      have hq : Aligned q := hal q (by rw [hfree]; exact List.mem_cons_self)
      refine wp_bind (wp_update (wp_bind (wp_write ?_)))
      set u := (t.fill q 0).put p (PX (level + 1) va) (PA2PTE q ||| PTE_V) with hu
      have hufree : u.free = rest := hrest
      have hnd' : (pages next s.mem (level + 1) p + (q ::ₘ (rest : Multiset Addr))).Nodup := by
        rw [Multiset.cons_coe, ← hfree]
        exact hnd
      have hpq : p ≠ q := fun e => by
        refine Multiset.disjoint_left.mp (Multiset.nodup_add.mp hnd').2.2 root_mem_pages ?_
        rw [e]
        exact Multiset.mem_cons_self q _
      have hroot : u.mem p = Function.update (s.mem p) (PX (level + 1) va) (PA2PTE q ||| PTE_V) := by
        show store (Function.update t.mem q _) p _ _ p = _
        rw [store, update_self, update_of_ne hpq, hmem p hpq]
      have hnew : u.mem q = fun _ => 0 := by
        show store (Function.update t.mem q _) p _ _ q = _
        rw [store_page _ _ _ hpq.symm, update_self]
      have hother : ∀ x, x ≠ p → x ≠ q → u.mem x = s.mem x := by
        intro x hxp hxq
        show store (Function.update t.mem q _) p _ _ x = _
        rw [store_page _ _ _ hxp, update_of_ne hxq, hmem x hxq]
      have hlink : Grown next 0 s.mem u.mem s.free u.free (level + 1) p := by
        rw [hufree, hfree, ← Multiset.cons_coe]
        exact grown_link hnd' next_zero hempty (next_table hq) hroot hnew hother
      have hc : next (u.mem p (PX (level + 1) va)) = some q := by
        show next (store _ p _ _ p _) = some q
        rw [store_self, next_table hq]
      have hndu : (pages next u.mem (level + 1) p + (u.free : Multiset Addr)).Nodup := by
        rw [hlink.pages]
        exact hnd
      have hsub : ∀ x ∈ u.free, x ∈ s.free := fun x hx => by
        rw [hfree]
        exact List.mem_cons_of_mem q (hufree ▸ hx)
      refine wp_mono (ih (nodup_below hndu hc) fun x hx => hal x (hsub x hx)) ?_ fun _ h => h
      intro r v hv
      refine ⟨hv.slot.trans (hv.grown.find_child hndu hc).symm, hlink.trans (hv.grown.graft hndu hc),
        fun x hx => hsub x (hv.free x hx), ?_, hv.empty, fun hmax hl => ?_⟩
      · intro h
        cases h
      · have hnone : ∀ k, next (u.mem q k) = none := fun k => by
          rw [hnew]
          exact next_zero
        have hlu : Links next Inner u.mem (level + 1) p :=
          links_link hnd' next_zero (next_table hq) hroot hnew hother
            (inner_table q (level + 1) hmax) hl
        exact hv.grown.links hndu hc (hv.links hmax (links_of_empty hnone)) hlu

/-- The invariant is kept, pages went between the table and the free list only, and no other page was
written. -/
structure Keeps (s t : Kmem) (pagetable : Addr) : Prop where
  table : Table t pagetable
  pages : tables t pagetable + (t.free : Multiset Addr) = tables s pagetable + (s.free : Multiset Addr)
  frame : ∀ q, q ∉ tables s pagetable → q ∉ s.free → t.mem q = s.mem q
  levels : Levels s pagetable → Levels t pagetable

theorem Table.keeps (h : Table s pagetable) : Keeps s s pagetable :=
  ⟨h, rfl, fun _ _ _ => rfl, fun hl => hl⟩

theorem Keeps.trans {u : Kmem} (h : Keeps s t pagetable) (h' : Keeps t u pagetable) :
    Keeps s u pagetable where
  table := h'.table
  pages := h'.pages.trans h.pages
  frame q hq hf := by
    have hmem : q ∉ tables t pagetable + (t.free : Multiset Addr) := by
      rw [h.pages, Multiset.mem_add, not_or]
      exact ⟨hq, hf⟩
    rw [Multiset.mem_add, not_or] at hmem
    exact (h'.frame q hmem.1 hmem.2).trans (h.frame q hq hf)
  levels hl := h'.levels (h.levels hl)

theorem leaf_zero : leaf 0 = none := if_neg not_valid_zero

theorem view_of_slot {pte : Addr × Fin 512} (h : slot s pagetable va = some pte) :
    view s pagetable va = leaf (s.mem pte.1 pte.2) := by
  rw [view, h, Option.bind_some]

theorem view_of_not_slot (h : slot s pagetable va = none) : view s pagetable va = none := by
  rw [view, h, Option.bind_none]

theorem view_grown (h : Grown next 0 s.mem t.mem s.free t.free 2 pagetable) (x : Addr) :
    view t pagetable x = view s pagetable x := by
  cases hs : slot s pagetable x with
  | some pte =>
    obtain ⟨hslot, hmem⟩ := h.kept (path x) pte.1 pte.2 hs
    have hslot' : slot t pagetable x = some pte := hslot
    rw [view_of_slot hs, view_of_slot hslot', hmem]
  | none =>
    rw [view_of_not_slot hs]
    cases ht : slot t pagetable x with
    | none => exact view_of_not_slot ht
    | some pte => rw [view_of_slot ht, h.fresh (path x) pte.1 pte.2 hs ht, leaf_zero]

theorem walk_spec (h : Table s pagetable) {E : Panic → Prop} (hE : MAXVA ≤ va → E .walk) :
    Wp (walk pagetable va alloc) s (fun r t => va < MAXVA ∧ r = slot t pagetable va ∧
      Keeps s t pagetable ∧ (∀ x, view t pagetable x = view s pagetable x) ∧
      (alloc = false → t = s) ∧ (r = none → alloc = true → t.free = [])) E := by
  unfold walk
  split
  case isTrue hle => exact wp_panic (hE hle)
  case isFalse hlt =>
    refine wp_mono (walkFrom_spec h.nodup h.aligned) ?_ fun _ hf => hf.elim
    intro r t ht
    have hkeeps : Keeps s t pagetable := by
      refine ⟨⟨?_, fun q hq => h.aligned q (ht.free q hq)⟩, ht.grown.pages, ?_,
        fun hl => ht.links (BitVec.not_le.mp hlt) hl⟩
      · show (tables t pagetable + (t.free : Multiset Addr)).Nodup
        exact ht.grown.pages ▸ h.nodup
      · intro q hq hf
        exact ht.grown.frame q hq hf
    exact ⟨BitVec.not_le.mp hlt, ht.slot, hkeeps, view_grown ht.grown, ht.quiet, ht.empty⟩

/-! ### Stores into a slot -/

theorem slot_put {pte : Addr × Fin 512} (h : Table s pagetable) (hs : slot s pagetable va = some pte)
    (w : Pte) (x : Addr) : slot (s.put pte.1 pte.2 w) pagetable x = slot s pagetable x :=
  find_store (Multiset.nodup_add.mp h.nodup).1 hs

theorem tables_put {pte : Addr × Fin 512} (h : Table s pagetable) (hs : slot s pagetable va = some pte) (w : Pte) :
    tables (s.put pte.1 pte.2 w) pagetable = tables s pagetable :=
  pages_store (Multiset.nodup_add.mp h.nodup).1 hs

theorem keeps_put {pte : Addr × Fin 512} (h : Table s pagetable) (hs : slot s pagetable va = some pte) (w : Pte) :
    Keeps s (s.put pte.1 pte.2 w) pagetable := by
  have ht := tables_put h hs w
  refine ⟨⟨?_, h.aligned⟩, ?_, ?_, fun hl => links_store (Multiset.nodup_add.mp h.nodup).1 hs hl⟩
  · rw [ht]
    exact h.nodup
  · rw [ht]
    rfl
  · intro q hq _
    refine store_page s.mem pte.2 w fun e => hq ?_
    rw [e]
    exact (find_mem hs).1

/-- **A store into the slot of one address changes the map there only.** -/
theorem view_put {pte : Addr × Fin 512} (h : Table s pagetable) (hs : slot s pagetable a = some pte)
    (ha : Aligned a) (hmax : a < MAXVA) (w : Pte) {x : Addr} (hx : Aligned x) (hxmax : x < MAXVA) :
    view (s.put pte.1 pte.2 w) pagetable x = Function.update (view s pagetable) a (leaf w) x := by
  by_cases he : x = a
  · subst he
    rw [update_self, view_of_slot ((slot_put h hs w x).trans hs)]
    exact congrArg leaf (store_self s.mem pte.1 pte.2 w)
  · rw [update_of_ne he]
    cases hsx : slot s pagetable x with
    | none => rw [view_of_not_slot hsx, view_of_not_slot ((slot_put h hs w x).trans hsx)]
    | some pte' =>
      rw [view_of_slot hsx, view_of_slot ((slot_put h hs w x).trans hsx)]
      refine congrArg leaf ?_
      show store s.mem pte.1 pte.2 w pte'.1 pte'.2 = s.mem pte'.1 pte'.2
      by_cases hp : pte'.1 = pte.1
      · -- one page at level 0: the addresses differ in the last index
        rw [hp]
        refine store_slot s.mem w fun hk => he ?_
        have hsx' : slot s pagetable x = some (pte.1, pte'.2) := by rw [hsx, ← hp]
        have hinj := find_inj (Multiset.nodup_add.mp h.nodup).1 hsx' hs
        refine eq_of_PX hx ha hxmax hmax fun i hi => ?_
        rcases Nat.eq_zero_or_pos i with rfl | hpos
        · have hk' : pte'.2 = path x 0 := (find_mem hsx').2
          have hk'' : pte.2 = path a 0 := (find_mem (k := pte.2) hs).2
          exact (hk'.symm.trans hk).trans hk''
        · exact hinj i hpos hi
      · rw [store_page s.mem pte.2 w hp]

/-! ### `mappages` -/

/-- The map `f` with the pages of `[a, stop)` mapped to physical memory from `pa` on. -/
def mapped (f : Addr → Option (Addr × Pte)) (a stop pa : Addr) (perm : Pte) (x : Addr) :
    Option (Addr × Pte) :=
  if a ≤ x ∧ x < stop then some (PGROUNDDOWN (pa + (x - a)), perm ||| PTE_V) else f x

theorem leaf_entry (pa : Addr) (hperm : perm.toNat < 1024) :
    leaf (PA2PTE pa ||| perm ||| PTE_V) = some (PGROUNDDOWN pa, perm ||| PTE_V) := by
  have hlt := toNat_or_PTE_V_lt hperm
  rw [leaf, if_pos (valid_or_PTE_V _), BitVec.or_assoc, PTE2PA_leaf hlt, PTE_FLAGS_leaf hlt]

/-- **One turn of the loop.** -/
theorem mapFrom_turn {last pa : Addr} {n : ℕ} {Q : ℤ → Kmem → Prop} {E : Panic → Prop}
    (h : Table s pagetable) (hwalk : MAXVA ≤ a → E .walk) (hremap : view s pagetable a ≠ none → E .remap)
    (hfull : ∀ t, Keeps s t pagetable → (∀ x, view t pagetable x = view s pagetable x) → t.free = [] → Q (-1) t)
    (hgo : ∀ t, Keeps s t pagetable → (∀ x, Aligned a → Aligned x → x < MAXVA → view t pagetable x =
        Function.update (view s pagetable) a (leaf (PA2PTE pa ||| perm ||| PTE_V)) x) → if a = last then Q 0 t else
        Wp (mapFrom pagetable last perm n (a + PGSIZE) (pa + PGSIZE)) t Q E) :
    Wp (mapFrom pagetable last perm (n + 1) a pa) s Q E := by
  show Wp (walk pagetable a true >>= _) s Q E
  refine wp_seq (walk_spec h hwalk) ?_
  rintro r t ⟨hmax, hr, hkeeps, hview, -, hempty⟩
  cases r with
  | none => exact wp_pure (hfull t hkeeps hview (hempty rfl rfl))
  | some pte =>
    have hs : slot t pagetable a = some pte := hr.symm
    refine wp_bind (wp_load ?_)
    split
    case isTrue hv =>
      refine wp_panic (hremap ?_)
      rw [← hview, view_of_slot hs, leaf, if_pos hv]
      exact Option.some_ne_none _
    case isFalse =>
      refine wp_bind (wp_write ?_)
      have hgo := hgo _ (hkeeps.trans (keeps_put hkeeps.table hs (PA2PTE pa ||| perm ||| PTE_V)))
        fun x ha hx hxmax => by rw [view_put hkeeps.table hs ha hmax _ hx hxmax, funext hview]
      by_cases hlast : a = last
      · rw [if_pos hlast] at hgo ⊢
        exact wp_pure hgo
      · rw [if_neg hlast] at hgo ⊢
        exact hgo

theorem mapFrom_keeps {last : Addr} {n : ℕ} : ∀ {a pa : Addr} {s : Kmem}, Table s pagetable →
    Wp (mapFrom pagetable last perm n a pa) s (fun _ t => Keeps s t pagetable) fun _ => True := by
  induction n with
  | zero =>
    intro a pa s _
    exact wp_panic trivial
  | succ n ih =>
    intro a pa s h
    refine mapFrom_turn h (fun _ => trivial) (fun _ => trivial) (fun t ht _ _ => ht) ?_
    intro t ht _
    split
    · exact ht
    · exact wp_mono (ih ht.table) (fun _ _ hu => ht.trans hu) fun _ _ => trivial

theorem mapped_cons {f : Addr → Option (Addr × Pte)} {a stop pa x : Addr} (ha : Aligned a)
    (hx : Aligned x) (hmax : a < MAXVA) (hlt : a < stop) :
    mapped (Function.update f a (some (PGROUNDDOWN pa, perm ||| PTE_V))) (a + PGSIZE) stop
      (pa + PGSIZE) perm x = mapped f a stop pa perm x := by
  have hnext := toNat_add_PGSIZE hmax
  unfold mapped Aligned at *
  simp only [BitVec.le_def, BitVec.lt_def] at *
  by_cases he : x = a
  · subst he
    rw [if_neg (by omega), update_self, if_pos (by omega), BitVec.sub_self, BitVec.add_zero]
  · have hne : x.toNat ≠ a.toNat := fun e => he (BitVec.eq_of_toNat_eq e)
    have hiff : ((a + PGSIZE).toNat ≤ x.toNat ∧ x.toNat < stop.toNat) ↔
        (a.toNat ≤ x.toNat ∧ x.toNat < stop.toNat) := by
      rw [hnext]
      omega
    have hsum : pa + PGSIZE + (x - (a + PGSIZE)) = pa + (x - a) := by grind
    rw [update_of_ne he, hsum]
    exact if_congr hiff rfl rfl

theorem mapped_empty (f : Addr → Option (Addr × Pte)) (a pa x : Addr) : mapped f a a pa perm x = f x := by
  refine if_neg fun h => ?_
  exact absurd (Nat.lt_of_le_of_lt h.1 h.2) (BitVec.lt_irrefl a)

theorem mapped_congr {f g : Addr → Option (Addr × Pte)} {a stop pa x : Addr} (h : f x = g x) :
    mapped f a stop pa perm x = mapped g a stop pa perm x := by
  rw [mapped, mapped, h]

/-- **The loop of `mappages` maps its pages**, or those before the one for which memory ran out. -/
theorem mapFrom_spec {last : Addr} (hperm : perm.toNat < 1024) (hlast : Aligned last)
    (hmax : last < MAXVA) {n : ℕ} : ∀ {a pa : Addr} {s : Kmem}, Table s pagetable → Aligned a →
    a ≤ last → last.toNat < a.toNat + n * 4096 → (∀ x, Aligned x → a ≤ x → x ≤ last → view s pagetable x = none) →
    Wp (mapFrom pagetable last perm n a pa) s (fun r t => (r = 0 ∧ ∀ x, Aligned x → x < MAXVA →
        view t pagetable x = mapped (view s pagetable) a (last + PGSIZE) pa perm x) ∨
      (r = -1 ∧ t.free = [] ∧ ∃ b, a ≤ b ∧ b ≤ last ∧ Aligned b ∧ ∀ x, Aligned x → x < MAXVA →
        view t pagetable x = mapped (view s pagetable) a b pa perm x)) fun _ => False := by
  have hstop := toNat_add_PGSIZE hmax
  induction n with
  | zero =>
    intro a pa s _ _ hle hn _
    rw [BitVec.le_def] at hle
    omega
  | succ n ih =>
    intro a pa s h ha hle hn hfree
    have hamax : a < MAXVA := Nat.lt_of_le_of_lt hle hmax
    refine mapFrom_turn h (fun hge => ?_) (fun hv => ?_) ?_ ?_
    · exact absurd hamax (BitVec.not_lt.mpr hge)
    · exact hv (hfree a ha (BitVec.le_refl a) hle)
    · intro t _ hview hempty
      refine .inr ⟨rfl, hempty, a, BitVec.le_refl a, hle, ha, fun x _ _ => ?_⟩
      rw [mapped_empty, hview]
    · intro t ht hview
      have hstep : ∀ x, Aligned x → x < MAXVA → view t pagetable x =
          Function.update (view s pagetable) a (some (PGROUNDDOWN pa, perm ||| PTE_V)) x := by
        intro x hx hxmax
        rw [hview x ha hx hxmax, leaf_entry pa hperm]
      have hnext := toNat_add_PGSIZE hamax
      rw [BitVec.le_def] at hle
      by_cases hend : a = last
      · rw [if_pos hend]
        refine .inl ⟨rfl, fun x hx hxmax => ?_⟩
        have hlt : a < last + PGSIZE := by
          rw [BitVec.lt_def]
          omega
        rw [hstep x hx hxmax, ← mapped_cons ha hx hamax hlt, ← hend, mapped_empty]
      · rw [if_neg hend]
        have hne : a.toNat ≠ last.toNat := fun e => hend (BitVec.eq_of_toNat_eq e)
        unfold Aligned at ha hlast
        have hle' : a + PGSIZE ≤ last := by
          rw [BitVec.le_def]
          omega
        refine wp_mono (ih ht.table (aligned_add_PGSIZE ha) hle' (by omega) ?_) ?_ fun _ hf => hf
        · intro x hx hax hxl
          rw [BitVec.le_def] at hax
          have hxa : x ≠ a := fun e => by
            rw [e] at hax
            omega
          rw [hstep x hx (Nat.lt_of_le_of_lt hxl hmax), update_of_ne hxa]
          refine hfree x hx ?_ hxl
          rw [BitVec.le_def]
          omega
        · rintro r u (⟨rfl, hu⟩ | ⟨rfl, hempty, b, hab, hbl, hb, hu⟩)
          · refine .inl ⟨rfl, fun x hx hxmax => ?_⟩
            have hlt : a < last + PGSIZE := by
              rw [BitVec.lt_def]
              omega
            rw [hu x hx hxmax, mapped_congr (hstep x hx hxmax), mapped_cons ha hx hamax hlt]
          · rw [BitVec.le_def] at hab
            have hlt : a < b := by
              rw [BitVec.lt_def]
              omega
            refine .inr ⟨rfl, hempty, b, BitVec.le_of_lt hlt, hbl, hb, fun x hx hxmax => ?_⟩
            rw [hu x hx hxmax, mapped_congr (hstep x hx hxmax), mapped_cons ha hx hamax hlt]

end Xv6.PageTable
