import Xv6.ProcFamily
import Xv6.ProcSched

/-!
# The process tree

`fork` sets `np->parent` before the slot becomes `RUNNABLE`, `reparent` replaces it by `initproc` before the parent
becomes a zombie, and `freeproc` clears it with the rest of the slot.  So every process but the first has a parent that
has not exited, and the parents lead back to `initproc`.
-/

namespace Xv6.ProcTree

open Xv6.LabelledRuns Xv6.ProcMachine Xv6.ProcMoves Xv6.ProcPlaces Xv6.ProcMoved Xv6.ProcInv Xv6.ProcFamily
open Xv6.ProcSched

variable {n m : ℕ} {initproc : Fin n} {s t : St n m} {c : Fin m} {q : Fin n} {a : Act n} {mv : Move n}

def ParentOf (s : St n m) (p q : Fin n) : Prop := (s.proc q).parent = some p

def Parented (initproc : Fin n) (s : St n m) : Prop :=
  ∀ q, q ≠ initproc → (s.proc q).state ≠ .unused → (s.proc q).parent ≠ none

theorem parent_moved (h : Inv initproc s) (hm : Moved initproc s c a mv t) (hu : (t.proc q).state ≠ .unused)
    (hold : (s.proc q).state ≠ .unused → (s.proc q).parent ≠ none) : (t.proc q).parent ≠ none := by
  have hrun : (modeOf s (s.active c)).own = some q → (s.proc q).parent ≠ none :=
    fun hx => hold (alive_of_on h (on_of_own hx))
  have hw := wrote_moved h hm q
  generalize t.proc q = y at hw hu
  cases hw with
  | same | tidied _ | numbered _ _ _ => exact hold hu
  | woken hst | dispatched _ hst => exact hold (by rw [hst]; intro he; cases he)
  | slain _ _ _ =>
    refine hold fun hz => hu ?_
    show (if (s.proc q).state = .sleeping then _ else _) = _
    rw [hz]
    rfl
  | yielded hx _ | slept hx _ _ | exited hx _ _ _ _ _ => exact hrun (by rw [hx]; rfl)
  | born p _ _ | adopted p _ _ _ _ => intro he; cases he
  | freed _ | reaped _ _ _ _ _ => exact absurd rfl hu

/-- **Run lemma.** -/
theorem parented_run (hrun : Reachable (St.step initproc) (St.boot initproc) s) : Parented initproc s := by
  refine run_rule ?_ ?_ hrun
  · intro q hq hu
    simp only [St.boot, if_neg hq] at hu
    exact absurd rfl hu
  · intro s c a t h _ hp hs q hq hu
    obtain ⟨mv, hm⟩ | ⟨hsame, -⟩ := moved_or_same hs
    · exact parent_moved h hm hu (hp q hq)
    · rw [hsame.proc] at hu ⊢
      exact hp q hq hu

/-- Births go up along the relation. -/
theorem birth_of_descends (hfam : Family initproc s) {p : Fin n} (hd : Relation.TransGen (ParentOf s) p q) :
    s.birth p < s.birth q := by
  induction hd with
  | single hp => exact hfam.older _ _ hp
  | tail _ hp ih => exact ih.trans (hfam.older _ _ hp)

theorem descends_of_init (hfam : Family initproc s) (hpar : Parented initproc s) :
    ∀ k q, s.birth q = k → (s.proc q).state ≠ .unused → Relation.ReflTransGen (ParentOf s) initproc q := by
  intro k
  induction k using Nat.strong_induction_on with
  | _ k ih =>
    intro q hk hu
    by_cases hq : q = initproc
    · rw [hq]
    · obtain ⟨p, hp⟩ := Option.ne_none_iff_exists'.mp (hpar q hq hu)
      exact (ih (s.birth p) (hk ▸ hfam.older p q hp) p rfl (hfam.live p q hp).1).tail hp

/-- **The processes form a tree** with root `initproc`, in every state of every interleaving: a process other than the
first has a parent, which is no zombie; from `initproc` the children reach every process; and nobody is its own
ancestor. -/
theorem processes_form_tree (initproc : Fin n) (s : St n m)
    (hrun : Reachable (St.step initproc) (St.boot initproc) s) :
    (∀ q, (s.proc q).state ≠ .unused → q ≠ initproc → ∃ p, ParentOf s p q ∧
      (s.proc p).state ≠ .unused ∧ (s.proc p).state ≠ .zombie) ∧
    (∀ q, (s.proc q).state ≠ .unused → Relation.ReflTransGen (ParentOf s) initproc q) ∧
    (∀ p, ¬ ParentOf s p initproc) ∧ ∀ p, ¬ Relation.TransGen (ParentOf s) p p := by
  have hfam := family_run hrun
  have hpar := parented_run hrun
  refine ⟨?_, fun q hu => descends_of_init hfam hpar _ q rfl hu, ?_, ?_⟩
  · intro q hu hq
    obtain ⟨p, hp⟩ := Option.ne_none_iff_exists'.mp (hpar q hq hu)
    exact ⟨p, hp, hfam.live p q hp⟩
  · intro p hp
    have hlt := hfam.older p initproc hp
    rw [hfam.root.2.2] at hlt
    exact Nat.not_lt_zero _ hlt
  · intro p hp
    exact Nat.lt_irrefl _ (birth_of_descends hfam hp)

def oneChild : List (Fin 2 × Act 2) := does 0 .go 2 ++ does 0 .fork 8

theorem processes_form_tree_oneChild : ∃ s : St 2 2, exec (St.step 0) (St.boot 0) oneChild = some s ∧
    (s.proc 1).state = .runnable ∧ Relation.ReflTransGen (ParentOf s) 0 1 := by
  have hend : (exec (St.step 0) (St.boot 0 : St 2 2) oneChild).any (fun s => (s.proc 1).state = .runnable) = true := by
    decide +kernel
  obtain ⟨s, hs, hst⟩ := (Option.any_eq_true _ _).mp hend
  have hst := of_decide_eq_true hst
  exact ⟨s, hs, hst, (processes_form_tree 0 s ⟨oneChild, hs⟩).2.1 1 (by rw [hst]; intro he; cases he)⟩

end Xv6.ProcTree
