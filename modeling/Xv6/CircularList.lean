import Mathlib.Data.List.Basic
import Mathlib.Order.Basic
import Mathlib.Tactic

/-!
# Circular lists by a successor function

A circular list is a function `next` on the places and the list of the places it runs through.  `Path next a l z`
says that from `a` it runs through `l` and then arrives at `z`, and `Cycle next l` that it runs through `l` and
comes back.  A cycle may be read from any of its places (`cycle_rotate`), so every change is described at its
place: what follows `p` is taken out (`path_skip`) or put in (`path_insert`).
-/

namespace Xv6.CircularList

variable {P : Type}

/-- From `a` through the places of the list to `z`. -/
def Path (next : P → P) : P → List P → P → Prop
  | a, [], z => next a = z
  | a, b :: l, z => next a = b ∧ Path next b l z

def Cycle (next : P → P) : List P → Prop
  | [] => True
  | a :: l => Path next a l a

variable {next next' : P → P} {a b p q z : P} {l l' : List P}

theorem path_append : Path next a (l ++ b :: l') z ↔ Path next a l b ∧ Path next b l' z := by
  induction l generalizing a with
  | nil => exact Iff.rfl
  | cons c l ih =>
    show next a = c ∧ Path next c (l ++ b :: l') z ↔ (next a = c ∧ Path next c l b) ∧ Path next b l' z
    rw [ih, and_assoc]

theorem path_congr (h : ∀ x ∈ a :: l, next' x = next x) (hp : Path next a l z) : Path next' a l z := by
  induction l generalizing a with
  | nil =>
    show next' a = z
    rw [h a List.mem_cons_self]
    exact hp
  | cons c l ih =>
    refine ⟨?_, ih (fun x hx => h x (List.mem_cons_of_mem a hx)) hp.2⟩
    rw [h a List.mem_cons_self]
    exact hp.1

theorem path_last (h : Path next a l z) : next ((a :: l).getLast (List.cons_ne_nil a l)) = z := by
  induction l generalizing a with
  | nil => exact h
  | cons b l ih =>
    rw [List.getLast_cons (List.cons_ne_nil b l)]
    exact ih h.2

theorem path_prefix {c d : List P} {x : P} (h : Path next a l z) (heq : l ++ [z] = c ++ x :: d) :
    Path next a c x := by
  rcases List.eq_nil_or_concat d with rfl | ⟨d, w, rfl⟩
  · obtain ⟨rfl, hz⟩ := List.append_inj' heq rfl
    rw [← (List.cons.inj hz).1]
    exact h
  · have heq' : l ++ [z] = (c ++ x :: d) ++ [w] := by
      rw [heq]
      simp
    obtain ⟨rfl, -⟩ := List.append_inj' heq' rfl
    exact (path_append.mp h).1

theorem cycle_congr (h : ∀ x ∈ l, next' x = next x) (hp : Cycle next l) : Cycle next' l := by
  cases l with
  | nil => trivial
  | cons a l => exact path_congr h hp

/-- **A cycle may be read from any of its places.** -/
theorem cycle_rotate (h : Cycle next (l ++ l')) : Cycle next (l' ++ l) := by
  cases l with
  | nil =>
    rw [List.append_nil]
    exact h
  | cons a l =>
    cases l' with
    | nil =>
      rw [List.append_nil] at h
      exact h
    | cons b l' =>
      obtain ⟨hl, hl'⟩ := path_append.mp h
      exact path_append.mpr ⟨hl', hl⟩

theorem next_of_cycle (h : Cycle next (l ++ p :: l')) : (l' ++ (l ++ [p])).head? = some (next p) := by
  have hp : Path next p (l' ++ l) p := cycle_rotate h
  rw [← List.append_assoc]
  cases hrest : l' ++ l with
  | nil =>
    rw [hrest] at hp
    exact congrArg some hp.symm
  | cons b r =>
    rw [hrest] at hp
    exact congrArg some hp.1.symm

theorem next_mem (h : Cycle next l) (hp : p ∈ l) : next p ∈ l := by
  obtain ⟨A, B, rfl⟩ := List.append_of_mem hp
  have hmem := List.mem_of_head? (next_of_cycle h)
  simp only [List.mem_append, List.mem_cons, List.not_mem_nil, or_false] at hmem ⊢
  tauto

theorem path_skip (next' : P → P) (h : Path next p (q :: l) p) (hnext : next' p = next q)
    (hother : ∀ x ∈ l, next' x = next x) : Path next' p l p := by
  obtain ⟨-, hq⟩ := h
  cases l with
  | nil =>
    show next' p = p
    rw [hnext]
    exact hq
  | cons c l => exact ⟨hnext.trans hq.1, path_congr hother hq.2⟩

theorem path_insert (next' : P → P) (h : Path next p l p) (hnext : next' p = b) (hb : next' b = next p)
    (hother : ∀ x ∈ l, next' x = next x) : Path next' p (b :: l) p := by
  refine ⟨hnext, ?_⟩
  cases l with
  | nil =>
    show next' b = p
    rw [hb]
    exact h
  | cons c l => exact ⟨hb.trans h.1, path_congr hother h.2⟩

/-! ### Sorted cycles -/

/-- In a sorted cycle, what follows `p`: the next larger place, or the smallest. -/
theorem next_of_sorted [LinearOrder P] (hs : (l ++ p :: l').Pairwise (· < ·)) (h : Cycle next (l ++ p :: l')) :
    (∃ q r, l' = q :: r ∧ next p = q ∧ p < q) ∨ (l' = [] ∧ next p ≤ p ∧ ∀ x ∈ l, next p ≤ x) := by
  have hnext := next_of_cycle h
  cases l' with
  | cons q r =>
    refine .inl ⟨q, r, rfl, (Option.some.inj hnext).symm, ?_⟩
    have hp := (List.pairwise_append.mp hs).2.1
    exact (List.pairwise_cons.mp hp).1 q List.mem_cons_self
  | nil =>
    refine .inr ⟨rfl, ?_⟩
    cases l with
    | nil =>
      have hself : p = next p := Option.some.inj hnext
      exact ⟨le_of_eq hself.symm, fun x hx => absurd hx List.not_mem_nil⟩
    | cons a l =>
      have ha : a = next p := Option.some.inj hnext
      have hsorted := List.pairwise_append.mp hs
      refine ⟨?_, fun x hx => ?_⟩
      · rw [← ha]
        exact le_of_lt (hsorted.2.2 a List.mem_cons_self p List.mem_cons_self)
      · rw [← ha]
        rcases List.mem_cons.mp hx with rfl | hx
        · exact le_refl _
        · exact le_of_lt ((List.pairwise_cons.mp hsorted.1).1 x hx)

end Xv6.CircularList
