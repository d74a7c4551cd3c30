import Xv6.VirtioMachine

/-!
# The descriptor table

What the functions on descriptors do: `alloc3_desc` takes three free descriptors or leaves `disk.free` as
it was (`alloc3Desc_spec`), and `free_chain` gives the three descriptors of a chain back without a panic
(`freeChain_spec`).
-/

namespace Xv6.VirtioMachine

open Function (update_self update_of_ne)

/-- Three different descriptors. -/
structure Chain.Valid (c : Chain) : Prop where
  nodup : c.list.Nodup
  lt : ∀ i ∈ c.list, i < NUM

/-- The descriptors are chained one to the next. -/
structure Table.Linked (t : Table) (c : Chain) : Prop where
  next0 : (t.desc c.d0).hasNext = true ∧ (t.desc c.d0).next = c.d1
  next1 : (t.desc c.d1).hasNext = true ∧ (t.desc c.d1).next = c.d2
  last : (t.desc c.d2).hasNext = false

/-- What `alloc3_desc` does to the table. -/
inductive Alloc3 (t : Table) : Option Chain × Table × Bool → Prop where
  | ok (c : Chain) : c.Valid → (∀ i ∈ c.list, t.free i = true) →
      Alloc3 t (some c, { t with free := fun i => if i ∈ c.list then false else t.free i }, false)
  | fail (u : Table) (woke : Bool) : u.free = t.free →
      (∀ i, t.free i = false → u.desc i = t.desc i) → Alloc3 t (none, u, woke)

theorem allocDesc_some {t u : Table} {i : ℕ} (h : t.allocDesc = some (i, u)) :
    i < NUM ∧ t.free i = true ∧ u.desc = t.desc ∧ u.free = Function.update t.free i false := by
  obtain ⟨j, hfind, hj⟩ := Option.map_eq_some_iff.mp h
  cases hj
  exact ⟨List.mem_range.mp (List.mem_of_find?_eq_some hfind), List.find?_some hfind, rfl, rfl⟩

theorem freeDesc_ok {t : Table} {i : ℕ} (hlt : i < NUM) (hused : t.free i = false) :
    ∃ u, t.freeDesc i = .ok u ∧ u.free = Function.update t.free i true ∧ (∀ k, k ≠ i → u.desc k = t.desc k) ∧
      ∀ k, (u.desc k).hasNext = (t.desc k).hasNext ∧ (u.desc k).next = (t.desc k).next := by
  refine ⟨⟨Function.update t.desc i { t.desc i with addr := .null }, Function.update t.free i true⟩,
    ?_, rfl, ?_, ?_⟩
  · rw [Table.freeDesc, if_neg (Nat.not_le.mpr hlt), hused]
    rfl
  · intro k hk
    exact update_of_ne hk _ _
  · intro k
    by_cases hk : k = i
    · rw [hk]
      dsimp only
      rw [update_self]
      exact ⟨rfl, rfl⟩
    · dsimp only
      rw [update_of_ne hk]
      exact ⟨rfl, rfl⟩

theorem alloc3Desc_spec (t : Table) : ∃ r, t.alloc3Desc = .ok r ∧ Alloc3 t r := by
  unfold Table.alloc3Desc
  cases h₁ : t.allocDesc with
  | none => exact ⟨_, rfl, .fail t false rfl fun _ _ => rfl⟩
  | some r₁ =>
    obtain ⟨i, t₁⟩ := r₁
    obtain ⟨hi, hfi, hd₁, hf₁⟩ := allocDesc_some h₁
    dsimp only
    cases h₂ : t₁.allocDesc with
    | none =>
      obtain ⟨u, hu, hfree, hdesc, -⟩ := freeDesc_ok hi (by rw [hf₁, update_self])
      dsimp only
      rw [hu]
      refine ⟨_, rfl, .fail u true ?_ ?_⟩
      · rw [hfree, hf₁, Function.update_idem, ← hfi, Function.update_eq_self]
      · intro k hk
        have hne : k ≠ i := fun heq => by rw [heq, hfi] at hk; cases hk
        rw [hdesc k hne, hd₁]
    | some r₂ =>
      obtain ⟨j, t₂⟩ := r₂
      obtain ⟨hj, hfj, hd₂, hf₂⟩ := allocDesc_some h₂
      have hji : j ≠ i := by
        rintro rfl
        rw [hf₁, update_self] at hfj
        cases hfj
      rw [hf₁, update_of_ne hji] at hfj
      rw [hf₁] at hf₂
      rw [hd₁] at hd₂
      dsimp only
      cases h₃ : t₂.allocDesc with
      | none =>
        obtain ⟨u, hu, hfree, hdesc, -⟩ := freeDesc_ok hi
          (by rw [hf₂, update_of_ne hji.symm, update_self])
        obtain ⟨v, hv, hfree', hdesc', -⟩ := freeDesc_ok hj
          (by rw [hfree, update_of_ne hji, hf₂, update_self])
        dsimp only
        rw [hu]
        dsimp only [Except.bind]
        rw [hv]
        refine ⟨_, rfl, .fail v true ?_ ?_⟩
        · funext k
          rw [hfree', hfree, hf₂]
          by_cases hkj : k = j
          · rw [hkj, update_self, hfj]
          · by_cases hki : k = i
            · rw [hki, update_of_ne hji.symm, update_self, hfi]
            · rw [update_of_ne hkj, update_of_ne hki, update_of_ne hkj,
                update_of_ne hki]
        · intro k hk
          have hki : k ≠ i := fun heq => by rw [heq, hfi] at hk; cases hk
          have hkj : k ≠ j := fun heq => by rw [heq, hfj] at hk; cases hk
          rw [hdesc' k hkj, hdesc k hki, hd₂]
      | some r₃ =>
        obtain ⟨k, t₃⟩ := r₃
        obtain ⟨hk, hfk, hd₃, hf₃⟩ := allocDesc_some h₃
        have hkj : k ≠ j := by
          rintro rfl
          rw [hf₂, update_self] at hfk
          cases hfk
        rw [hf₂, update_of_ne hkj] at hfk
        have hki : k ≠ i := by
          rintro rfl
          rw [update_self] at hfk
          cases hfk
        rw [update_of_ne hki] at hfk
        have hfree : t₃.free = fun m => if m ∈ (Chain.mk i j k).list then false else t.free m := by
          rw [hf₃, hf₂]
          funext m
          by_cases hmk : m = k
          · simp [hmk, Chain.list]
          · by_cases hmj : m = j
            · simp [hmj, Chain.list, hkj.symm]
            · by_cases hmi : m = i
              · simp [hmi, Chain.list, hki.symm, hji.symm]
              · simp [hmk, hmj, hmi, Chain.list]
        have htable : t₃ = { t with free := fun m =>
            if m ∈ (Chain.mk i j k).list then false else t.free m } := by
          rw [← hfree, ← hd₂, ← hd₃]
        refine ⟨_, rfl, ?_⟩
        rw [htable]
        refine .ok ⟨i, j, k⟩ ⟨?_, ?_⟩ ?_
        · simp [Chain.list, hji.symm, hki.symm, hkj.symm]
        · simp [Chain.list, hi, hj, hk]
        · simp [Chain.list, hfi, hfj, hfk]

theorem freeChain_succ {t u : Table} {fuel i : ℕ} (h : t.freeDesc i = .ok u) : t.freeChain (fuel + 1) i =
      if (u.desc i).hasNext then u.freeChain fuel (u.desc i).next else .ok u := by
  rw [Table.freeChain, h]
  rfl

/-- **`free_chain` gives a chain back.** -/
theorem freeChain_spec {t : Table} {c : Chain} (hv : c.Valid) (hused : ∀ i ∈ c.list, t.free i = false)
    (hl : t.Linked c) : ∃ u, t.freeChain (NUM + 1) c.d0 = .ok u ∧
      (u.free = fun i => if i ∈ c.list then true else t.free i) ∧ ∀ i, i ∉ c.list → u.desc i = t.desc i := by
  obtain ⟨⟨hn0, he0⟩, ⟨hn1, he1⟩, hn2⟩ := hl
  have hnodup := hv.nodup
  simp only [Chain.list, List.nodup_cons, List.mem_cons, List.not_mem_nil, or_false, not_or,
    List.nodup_nil, and_true, not_false_eq_true] at hnodup
  obtain ⟨⟨h01, h02⟩, h12⟩ := hnodup
  have hmem0 : c.d0 ∈ c.list := by simp [Chain.list]
  have hmem1 : c.d1 ∈ c.list := by simp [Chain.list]
  have hmem2 : c.d2 ∈ c.list := by simp [Chain.list]
  obtain ⟨t₁, ht₁, hf₁, hd₁, hl₁⟩ := freeDesc_ok (hv.lt _ hmem0) (hused _ hmem0)
  obtain ⟨t₂, ht₂, hf₂, hd₂, hl₂⟩ := freeDesc_ok (t := t₁) (hv.lt _ hmem1)
    (by rw [hf₁, update_of_ne (Ne.symm h01), hused _ hmem1])
  obtain ⟨t₃, ht₃, hf₃, hd₃, hl₃⟩ := freeDesc_ok (t := t₂) (hv.lt _ hmem2)
    (by rw [hf₂, update_of_ne (Ne.symm h12), hf₁, update_of_ne (Ne.symm h02),
      hused _ hmem2])
  refine ⟨t₃, ?_, ?_, ?_⟩
  · change t.freeChain (NUM - 2 + 1 + 1 + 1) c.d0 = _
    rw [freeChain_succ ht₁, (hl₁ c.d0).1, hn0, if_pos rfl, (hl₁ c.d0).2, he0]
    rw [freeChain_succ ht₂, (hl₂ c.d1).1, (hl₁ c.d1).1, hn1, if_pos rfl, (hl₂ c.d1).2, (hl₁ c.d1).2, he1]
    rw [freeChain_succ ht₃, (hl₃ c.d2).1, (hl₂ c.d2).1, (hl₁ c.d2).1, hn2]
    rfl
  · rw [hf₃, hf₂, hf₁]
    funext m
    by_cases hm2 : m = c.d2
    · simp [hm2, Chain.list]
    · by_cases hm1 : m = c.d1
      · simp [hm1, Chain.list, h12]
      · by_cases hm0 : m = c.d0
        · simp [hm0, Chain.list, h01, h02]
        · simp [hm0, hm1, hm2, Chain.list]
  · intro i hi
    simp only [Chain.list, List.mem_cons, List.not_mem_nil, or_false, not_or] at hi
    rw [hd₃ i hi.2.2, hd₂ i hi.2.1, hd₁ i hi.1]

end Xv6.VirtioMachine
