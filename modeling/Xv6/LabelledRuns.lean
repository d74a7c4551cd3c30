import Mathlib.Tactic

/-!
# Executable labelled transition systems

A system is a partial function `step : σ → ℓ → Option σ`.  The label resolves every
choice that the environment makes (which process moves, which value it writes, where the
machine crashes), so a run is a list of labels and `exec` evaluates it.  A label that is not
enabled gives `none`.

Three rules turn facts about one step into facts about whole runs:

* `exec_invariant` — an invariant kept by every step that meets a side condition holds at the
  end of every run whose steps all meet it;
* `exec_history` — the same for a property of the state *and* of the labels taken so far;
* `exec_prefix` — a run can be cut after any prefix of its labels.
-/

namespace Xv6.LabelledRuns

variable {σ ℓ : Type*}

/-- The state after the labels `ls`, or `none` when one of them is not enabled. -/
def exec (step : σ → ℓ → Option σ) : σ → List ℓ → Option σ
  | s, [] => some s
  | s, l :: ls => (step s l).bind fun t => exec step t ls

/-- A state some run from `s₀` ends in. -/
def Reachable (step : σ → ℓ → Option σ) (s₀ s : σ) : Prop :=
  ∃ ls, exec step s₀ ls = some s

/-! Small systems, for runs that are evaluated. -/

instance neZero_one : NeZero 1 := ⟨Nat.one_ne_zero⟩

instance neZero_two : NeZero 2 := ⟨by decide⟩

instance neZero_three : NeZero 3 := ⟨by decide⟩

def final (step : σ → ℓ → Option σ) (s : σ) (ls : List ℓ) : σ := (exec step s ls).getD s

/-- Every step of the run meets `ok` in the state it is taken from. -/
def Meets (step : σ → ℓ → Option σ) (ok : σ → ℓ → Prop) : σ → List ℓ → Prop
  | _, [] => True
  | s, l :: ls => ok s l ∧ ∀ t, step s l = some t → Meets step ok t ls

instance decidableMeets (step : σ → ℓ → Option σ) (ok : σ → ℓ → Prop) [∀ s l, Decidable (ok s l)] :
    ∀ (s : σ) (ls : List ℓ), Decidable (Meets step ok s ls)
  | _, [] => isTrue trivial
  | s, l :: ls =>
    match h : step s l with
    | none => decidable_of_iff (ok s l) ⟨fun hl => ⟨hl, fun t ht => by rw [h] at ht; cases ht⟩, And.left⟩
    | some t =>
      have := decidableMeets step ok t ls
      decidable_of_iff (ok s l ∧ Meets step ok t ls)
        ⟨fun hl => ⟨hl.1, fun u hu => by rw [h] at hu; cases hu; exact hl.2⟩,
          fun hl => ⟨hl.1, hl.2 t h⟩⟩

variable {step : σ → ℓ → Option σ} {ok : σ → ℓ → Prop}

theorem some_of_guard {c : Prop} [Decidable c] {s t : σ} (h : (if c then some s else none) = some t) : c ∧ t = s := by
  obtain ⟨hc, hs⟩ := Option.ite_none_right_eq_some.mp h
  exact ⟨hc, (Option.some.inj hs).symm⟩

@[simp] theorem exec_nil (s : σ) : exec step s [] = some s := rfl

theorem exec_cons (s : σ) (l : ℓ) (ls : List ℓ) :
    exec step s (l :: ls) = (step s l).bind fun t => exec step t ls := rfl

theorem exec_cons_some {s u : σ} {l : ℓ} {ls : List ℓ} (h : exec step s (l :: ls) = some u) :
    ∃ t, step s l = some t ∧ exec step t ls = some u :=
  Option.bind_eq_some_iff.mp h

theorem exec_cons_of {s t u : σ} {l : ℓ} {ls : List ℓ} (h : step s l = some t)
    (hls : exec step t ls = some u) : exec step s (l :: ls) = some u := by
  rw [exec_cons, h, Option.bind_some, hls]

theorem exec_append (s : σ) (ls ks : List ℓ) :
    exec step s (ls ++ ks) = (exec step s ls).bind fun t => exec step t ks := by
  induction ls generalizing s with
  | nil => rfl
  | cons l ls ih =>
    rw [List.cons_append, exec_cons, exec_cons, Option.bind_assoc]
    congr 1
    funext t
    exact ih t

theorem exec_final (step : σ → ℓ → Option σ) {s : σ} {l : List ℓ} (h : (exec step s l).isSome) :
    exec step s l = some (final step s l) := by
  obtain ⟨t, ht⟩ := Option.isSome_iff_exists.mp h
  rw [final, ht, Option.getD_some]

/-- **Prefixes of runs are runs.** -/
theorem exec_prefix {s u : σ} {ls ks : List ℓ} (h : exec step s (ls ++ ks) = some u) :
    ∃ t, exec step s ls = some t ∧ exec step t ks = some u := by
  rw [exec_append] at h
  exact Option.bind_eq_some_iff.mp h

theorem exec_snoc {s u : σ} {ls : List ℓ} {l : ℓ} (h : exec step s (ls ++ [l]) = some u) :
    ∃ t, exec step s ls = some t ∧ step t l = some u := by
  obtain ⟨t, ht, hl⟩ := exec_prefix h
  refine ⟨t, ht, ?_⟩
  obtain ⟨v, hv, hnil⟩ := exec_cons_some hl
  rw [exec_nil, Option.some.injEq] at hnil
  rw [hv, hnil]

theorem exec_snoc_of {s t u : σ} {ls : List ℓ} {l : ℓ} (h : exec step s ls = some t)
    (hl : step t l = some u) : exec step s (ls ++ [l]) = some u := by
  rw [exec_append, h, Option.bind_some, exec_cons, hl]
  rfl

theorem meets_append {s : σ} {ls ks : List ℓ} (h : Meets step ok s (ls ++ ks)) :
    Meets step ok s ls ∧ ∀ t, exec step s ls = some t → Meets step ok t ks := by
  induction ls generalizing s with
  | nil =>
    refine ⟨trivial, ?_⟩
    intro t ht
    rw [exec_nil, Option.some.injEq] at ht
    exact ht ▸ h
  | cons l ls ih =>
    refine ⟨⟨h.1, fun t ht => (ih (h.2 t ht)).1⟩, ?_⟩
    intro u hu
    obtain ⟨t, ht, hu⟩ := exec_cons_some hu
    exact (ih (h.2 t ht)).2 u hu

theorem meets_of_forall (h : ∀ s l, ok s l) : ∀ (ls : List ℓ) (s : σ), Meets step ok s ls
  | [], _ => trivial
  | l :: ls, s => ⟨h s l, fun t _ => meets_of_forall h ls t⟩

theorem meets_snoc {s : σ} {ls : List ℓ} {l : ℓ} (h : Meets step ok s (ls ++ [l])) :
    Meets step ok s ls ∧ ∀ t, exec step s ls = some t → ok t l :=
  ⟨(meets_append h).1, fun t ht => ((meets_append h).2 t ht).1⟩

/-- **Invariant rule.**  The side condition `ok` is available at every step. -/
theorem exec_invariant {Inv : σ → Prop} (hstep : ∀ s l t, Inv s → ok s l → step s l = some t → Inv t)
    {s t : σ} {ls : List ℓ} (hs : Inv s) (hok : Meets step ok s ls) (hrun : exec step s ls = some t) : Inv t := by
  induction ls generalizing s with
  | nil =>
    rw [exec_nil, Option.some.injEq] at hrun
    exact hrun ▸ hs
  | cons l ls ih =>
    obtain ⟨u, hu, hrun⟩ := exec_cons_some hrun
    exact ih (hstep s l u hs hok.1 hu) (hok.2 u hu) hrun

theorem reachable_invariant {Inv : σ → Prop} (hstep : ∀ s l t, Inv s → step s l = some t → Inv t)
    {s t : σ} (hs : Inv s) (hrun : Reachable step s t) : Inv t := by
  obtain ⟨ls, hls⟩ := hrun
  have hall : Meets step (fun _ _ => True) s ls := meets_of_forall (fun _ _ => trivial) ls s
  exact exec_invariant (fun s l t hi _ h => hstep s l t hi h) hs hall hls

/-- **History rule.**  The property may speak of the labels taken so far: the induction is on
the run, from its end. -/
theorem exec_history {P : List ℓ → σ → Prop} {s₀ : σ} (h₀ : P [] s₀)
    (hstep : ∀ ls s l t, exec step s₀ ls = some s → P ls s → ok s l → step s l = some t → P (ls ++ [l]) t)
    {ls : List ℓ} {t : σ} (hok : Meets step ok s₀ ls) (hrun : exec step s₀ ls = some t) : P ls t := by
  induction ls using List.reverseRecOn generalizing t with
  | nil =>
    rw [exec_nil, Option.some.injEq] at hrun
    exact hrun ▸ h₀
  | append_singleton ls l ih =>
    obtain ⟨s, hs, hl⟩ := exec_snoc hrun
    obtain ⟨hok', hlast⟩ := meets_snoc hok
    exact hstep ls s l t hs (ih hok' hs) (hlast s hs) hl

theorem exec_history_all {P : List ℓ → σ → Prop} {s₀ : σ} (h₀ : P [] s₀)
    (hstep : ∀ ls s l t, exec step s₀ ls = some s → P ls s → step s l = some t → P (ls ++ [l]) t)
    {ls : List ℓ} {t : σ} (hrun : exec step s₀ ls = some t) : P ls t := by
  have hall : Meets step (fun _ _ => True) s₀ ls := meets_of_forall (fun _ _ => trivial) ls s₀
  exact exec_history h₀ (fun ls s l t hls hs _ hl => hstep ls s l t hls hs hl) hall hrun

end Xv6.LabelledRuns
