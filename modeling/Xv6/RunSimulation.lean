import Xv6.LabelledRuns

/-!
# Runs that simulate runs

A system refines another one along an abstraction `abs` when each of its steps is, in the other one, the
step `event` names, or no step at all.  `trace` collects the events of a run, and `exec_trace` is the
rule: a run is, seen through `abs`, the abstract run of its trace.
-/

namespace Xv6.RunSimulation

open LabelledRuns

variable {σ ℓ τ ε : Type*}

/-- The events of a run, in order. -/
def trace (step : σ → ℓ → Option σ) (event : σ → ℓ → Option ε) : σ → List ℓ → List ε
  | _, [] => []
  | s, l :: ls => (event s l).toList ++ (step s l).elim [] fun t => trace step event t ls

variable {step : σ → ℓ → Option σ} {event : σ → ℓ → Option ε} {abstractStep : τ → ε → Option τ}
  {ok : σ → ℓ → Prop} {Inv : σ → Prop} {abs : σ → τ}

/-- **Simulation rule.**  The invariant and the side condition are available at every step. -/
theorem exec_trace (hinv : ∀ s l t, Inv s → ok s l → step s l = some t → Inv t)
    (hsim : ∀ s l t, Inv s → ok s l → step s l = some t → exec abstractStep (abs s) (event s l).toList = some (abs t))
    {s t : σ} {ls : List ℓ} (hs : Inv s) (hok : Meets step ok s ls) (hrun : exec step s ls = some t) :
    exec abstractStep (abs s) (trace step event s ls) = some (abs t) := by
  induction ls generalizing s with
  | nil =>
    rw [exec_nil, Option.some.injEq] at hrun
    rw [trace, exec_nil, hrun]
  | cons l ls ih =>
    obtain ⟨u, hu, hrun⟩ := exec_cons_some hrun
    rw [trace, exec_append, hsim s l u hs hok.1 hu, Option.bind_some, hu]
    exact ih (hinv s l u hs hok.1 hu) (hok.2 u hu) hrun

end Xv6.RunSimulation
