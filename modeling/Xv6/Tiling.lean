import Mathlib.Algebra.BigOperators.Group.Finset.Basic
import Mathlib.Algebra.Order.BigOperators.Group.Finset
import Mathlib.Order.Interval.Finset.Nat
import Mathlib.Tactic

/-!
# Blocks that tile memory

Memory is given in regions, and cut into blocks.  A block is known by its first address, and `len` is the number
of its bytes.  `Tiles len B R` says that the blocks with first addresses in `B` do not overlap, lie in the regions
`R` and have together as many bytes.  Cutting a block (`Tiles.cut`), joining two neighbours (`Tiles.join`) and
adding a region (`Tiles.add`) keep it so.
-/

namespace Xv6.Tiling

/-- Address `x` is in one of the regions, given by their start and length. -/
def Given (R : List (ℕ × ℕ)) (x : ℕ) : Prop := ∃ r ∈ R, r.1 ≤ x ∧ x < r.1 + r.2

structure Tiles (len : ℕ → ℕ) (B : Finset ℕ) (R : List (ℕ × ℕ)) : Prop where
  pos : ∀ a ∈ B, 0 < len a
  apart : ∀ a ∈ B, ∀ b ∈ B, a < b → a + len a ≤ b
  inside : ∀ a ∈ B, ∀ x, a ≤ x → x < a + len a → Given R x
  total : ∑ a ∈ B, len a = (R.map Prod.snd).sum

variable {len len' : ℕ → ℕ} {B : Finset ℕ} {R : List (ℕ × ℕ)} {a b : ℕ}

theorem tiles_nil (len : ℕ → ℕ) : Tiles len ∅ [] where
  pos := fun a ha => absurd ha (Finset.notMem_empty a)
  apart := fun a ha => absurd ha (Finset.notMem_empty a)
  inside := fun a ha => absurd ha (Finset.notMem_empty a)
  total := rfl

theorem Tiles.congr (h : Tiles len B R) (hlen : ∀ x ∈ B, len' x = len x) : Tiles len' B R where
  pos := by
    intro x hx
    rw [hlen x hx]
    exact h.pos x hx
  apart := by
    intro x hx y hy hxy
    rw [hlen x hx]
    exact h.apart x hx y hy hxy
  inside := by
    intro x hx y hy hlt
    rw [hlen x hx] at hlt
    exact h.inside x hx y hy hlt
  total := by
    rw [Finset.sum_congr rfl hlen]
    exact h.total

theorem Tiles.len_le (h : Tiles len B R) {s : Finset ℕ} (hs : s ⊆ B) : ∑ x ∈ s, len x ≤ (R.map Prod.snd).sum := by
  rw [← h.total]
  exact Finset.sum_le_sum_of_subset hs

/-- What was given below `n` is at most `n` bytes: the blocks are apart. -/
theorem Tiles.total_le (h : Tiles len B R) {n : ℕ} (hn : ∀ x, Given R x → x < n) : (R.map Prod.snd).sum ≤ n := by
  have hdisj : (B : Set ℕ).PairwiseDisjoint fun a => Finset.Ico a (a + len a) := by
    intro x hx y hy hne
    refine Finset.disjoint_left.mpr fun z hzx hzy => ?_
    rw [Finset.mem_Ico] at hzx hzy
    rcases Nat.lt_or_gt_of_ne hne with hlt | hlt
    · have := h.apart x hx y hy hlt
      omega
    · have := h.apart y hy x hx hlt
      omega
  have hsub : (B.biUnion fun a => Finset.Ico a (a + len a)) ⊆ Finset.range n := by
    intro z hz
    obtain ⟨x, hx, hzx⟩ := Finset.mem_biUnion.mp hz
    rw [Finset.mem_Ico] at hzx
    exact Finset.mem_range.mpr (hn z (h.inside x hx z hzx.1 hzx.2))
  have hcard := Finset.card_le_card hsub
  rw [Finset.card_biUnion hdisj, Finset.card_range] at hcard
  rw [← h.total]
  refine le_trans (le_of_eq (Finset.sum_congr rfl fun a _ => ?_)) hcard
  rw [Nat.card_Ico, Nat.add_sub_cancel_left]

theorem Tiles.join (h : Tiles len B R) (ha : a ∈ B) (hb : b ∈ B) (hab : a + len a = b)
    (hlen : len' a = len a + len b) (hother : ∀ x ∈ B, x ≠ a → x ≠ b → len' x = len x) :
    Tiles len' (B.erase b) R := by
  have hpos := h.pos a ha
  have hne : a ≠ b := by omega
  have hlen' : ∀ x ∈ B.erase b, len' x = if x = a then len a + len b else len x := by
    intro x hx
    obtain ⟨hxb, hxB⟩ := Finset.mem_erase.mp hx
    by_cases hxa : x = a
    · rw [if_pos hxa, hxa, hlen]
    · rw [if_neg hxa, hother x hxB hxa hxb]
  refine ⟨?_, ?_, ?_, ?_⟩
  · intro x hx
    rw [hlen' x hx]
    split
    · omega
    · exact h.pos x (Finset.mem_of_mem_erase hx)
  · intro x hx y hy hxy
    rw [hlen' x hx]
    obtain ⟨hyb, hyB⟩ := Finset.mem_erase.mp hy
    split
    · rename_i hxa
      have hay := h.apart a ha y hyB (by omega)
      have hby := h.apart b hb y hyB (by omega)
      omega
    · exact h.apart x (Finset.mem_of_mem_erase hx) y hyB hxy
  · intro x hx y hy hlt
    rw [hlen' x hx] at hlt
    split at hlt
    · rename_i hxa
      by_cases hya : y < a + len a
      · exact h.inside a ha y (by omega) hya
      · exact h.inside b hb y (by omega) (by omega)
    · exact h.inside x (Finset.mem_of_mem_erase hx) y hy hlt
  · have ha' : a ∈ B.erase b := Finset.mem_erase.mpr ⟨hne, ha⟩
    have hrest : ∑ x ∈ (B.erase b).erase a, len' x = ∑ x ∈ (B.erase b).erase a, len x := by
      refine Finset.sum_congr rfl fun x hx => ?_
      obtain ⟨hxa, hx'⟩ := Finset.mem_erase.mp hx
      rw [hlen' x hx', if_neg hxa]
    rw [← Finset.add_sum_erase _ _ ha', hrest, hlen, ← h.total, ← Finset.add_sum_erase _ _ hb,
      ← Finset.add_sum_erase _ _ ha']
    omega

theorem Tiles.cut (len' : ℕ → ℕ) (h : Tiles len B R) (ha : a ∈ B) (hab : a < b) (hba : b < a + len a)
    (hlen : len' a = b - a) (hlen' : len' b = a + len a - b)
    (hother : ∀ x ∈ B, x ≠ a → len' x = len x) : b ∉ B ∧ Tiles len' (insert b B) R := by
  have hb : b ∉ B := by
    intro hb
    have := h.apart a ha b hb hab
    omega
  have hval : ∀ x ∈ insert b B, len' x = if x = a then b - a else if x = b then a + len a - b else len x := by
    intro x hx
    by_cases hxa : x = a
    · rw [if_pos hxa, hxa, hlen]
    · rw [if_neg hxa]
      rcases Finset.mem_insert.mp hx with hxb | hxB
      · rw [if_pos hxb, hxb, hlen']
      · rw [if_neg (fun e : x = b => hb (e ▸ hxB)), hother x hxB hxa]
  refine ⟨hb, ?_, ?_, ?_, ?_⟩
  · intro x hx
    rw [hval x hx]
    split
    · omega
    · split
      · omega
      · rcases Finset.mem_insert.mp hx with hxb | hxB
        · exact absurd hxb ‹_›
        · exact h.pos x hxB
  · intro x hx y hy hxy
    rw [hval x hx]
    have hbefore : ∀ z ∈ B, z ≠ a → z < b → z + len z ≤ b := by
      intro z hz hza hzb
      by_cases hlt : z < a
      · have := h.apart z hz a ha hlt
        omega
      · have := h.apart a ha z hz (by omega)
        omega
    have hafter : ∀ z ∈ B, b < z → a + len a ≤ z := by
      intro z hz hbz
      exact h.apart a ha z hz (by omega)
    rcases Finset.mem_insert.mp hy with hyb | hyB
    · split
      · omega
      · rcases Finset.mem_insert.mp hx with hxb | hxB
        · omega
        · rw [if_neg (fun e : x = b => hb (e ▸ hxB)), hyb]
          exact hbefore x hxB ‹_› (by omega)
    · split
      · rename_i hxa
        have := h.apart a ha y hyB (by omega)
        omega
      · split
        · have := hafter y hyB (by omega)
          omega
        · rcases Finset.mem_insert.mp hx with hxb | hxB
          · exact absurd hxb ‹_›
          · exact h.apart x hxB y hyB hxy
  · intro x hx y hy hlt
    rw [hval x hx] at hlt
    split at hlt
    · exact h.inside a ha y (by omega) (by omega)
    · split at hlt
      · exact h.inside a ha y (by omega) (by omega)
      · rcases Finset.mem_insert.mp hx with hxb | hxB
        · exact absurd hxb ‹_›
        · exact h.inside x hxB y hy hlt
  · have hrest : ∑ x ∈ B.erase a, len' x = ∑ x ∈ B.erase a, len x := by
      refine Finset.sum_congr rfl fun x hx => ?_
      obtain ⟨hxa, hxB⟩ := Finset.mem_erase.mp hx
      exact hother x hxB hxa
    rw [Finset.sum_insert hb, ← Finset.add_sum_erase _ _ ha, hrest, hlen, hlen', ← h.total,
      ← Finset.add_sum_erase _ _ ha]
    omega

theorem Tiles.add (h : Tiles len B R) {n : ℕ} (hn : 0 < n)
    (hfresh : ∀ x, a ≤ x → x < a + n → ¬ Given R x) (hlen : len' a = n)
    (hother : ∀ x ∈ B, len' x = len x) : a ∉ B ∧ Tiles len' (insert a B) ((a, n) :: R) := by
  have hapart : ∀ x ∈ B, x + len x ≤ a ∨ a + n ≤ x := by
    intro x hx
    have hpos := h.pos x hx
    by_contra hno
    rw [not_or, Nat.not_le, Nat.not_le] at hno
    by_cases hle : a ≤ x
    · exact hfresh x hle (by omega) (h.inside x hx x (Nat.le_refl x) (by omega))
    · exact hfresh a (Nat.le_refl a) (by omega) (h.inside x hx a (by omega) (by omega))
  have ha : a ∉ B := by
    intro ha
    have hpos := h.pos a ha
    rcases hapart a ha with h' | h'
    · omega
    · omega
  refine ⟨ha, ?_, ?_, ?_, ?_⟩
  · intro x hx
    rcases Finset.mem_insert.mp hx with hxa | hxB
    · rw [hxa, hlen]
      exact hn
    · rw [hother x hxB]
      exact h.pos x hxB
  · intro x hx y hy hxy
    rcases Finset.mem_insert.mp hx with hxa | hxB
    · rcases Finset.mem_insert.mp hy with hya | hyB
      · omega
      · have hpos := h.pos y hyB
        rw [hxa, hlen]
        rcases hapart y hyB with h' | h'
        · omega
        · exact h'
    · rw [hother x hxB]
      rcases Finset.mem_insert.mp hy with hya | hyB
      · rcases hapart x hxB with h' | h'
        · omega
        · omega
      · exact h.apart x hxB y hyB hxy
  · intro x hx y hy hlt
    rcases Finset.mem_insert.mp hx with hxa | hxB
    · rw [hxa, hlen] at hlt
      exact ⟨(a, n), List.mem_cons_self, by omega, hlt⟩
    · rw [hother x hxB] at hlt
      obtain ⟨r, hr, hin⟩ := h.inside x hxB y hy hlt
      exact ⟨r, List.mem_cons_of_mem _ hr, hin⟩
  · rw [Finset.sum_insert ha, hlen, Finset.sum_congr rfl hother, h.total, List.map_cons, List.sum_cons]

end Xv6.Tiling
