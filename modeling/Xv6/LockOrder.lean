import Mathlib.Logic.Relation
import Mathlib.Order.Basic

/-!
# Deadlocks and lock orders

`wants a` is the lock that `a` waits for and `holder q` who has lock `q`.  A deadlock is a cycle of the
wait-for relation.  When everybody waits for locks of a higher rank than those they hold, there is none
(`acyclic_of_rank`); the rank may be different in every state.
-/

namespace Xv6.LockOrder

open Relation

variable {α κ ρ : Type*}

def WaitsFor (wants : α → Option κ) (holder : κ → Option α) (a b : α) : Prop :=
  ∃ q, wants a = some q ∧ holder q = some b

variable [Preorder ρ] {wants : α → Option κ} {holder : κ → Option α} (rank : κ → ρ)

theorem rank_lt_of_path (h : ∀ a q r, wants a = some q → holder r = some a → rank r < rank q)
    {a b : α} (hpath : TransGen (WaitsFor wants holder) a b) {q r : κ} (hq : wants a = some q)
    (hr : wants b = some r) : rank q < rank r := by
  induction hpath generalizing r with
  | single hstep =>
    obtain ⟨q', hq', hhold⟩ := hstep
    rw [hq, Option.some.injEq] at hq'
    exact h _ r q hr (hq' ▸ hhold)
  | tail _ hstep ih =>
    obtain ⟨q', hq', hhold⟩ := hstep
    exact (ih hq').trans (h _ r q' hr hhold)

/-- **No deadlock.** -/
theorem acyclic_of_rank (h : ∀ a q r, wants a = some q → holder r = some a → rank r < rank q) (a : α) :
    ¬ TransGen (WaitsFor wants holder) a a := by
  intro hpath
  obtain ⟨b, ⟨q, hq, -⟩, -⟩ := TransGen.head'_iff.mp hpath
  exact lt_irrefl _ (rank_lt_of_path rank h hpath hq hq)

theorem cycle_of_pair {a b : α} {q r : κ} (hq : wants a = some q) (hb : holder q = some b)
    (hr : wants b = some r) (ha : holder r = some a) : TransGen (WaitsFor wants holder) a a :=
  .tail (.single ⟨q, hq, hb⟩) ⟨r, hr, ha⟩

end Xv6.LockOrder
