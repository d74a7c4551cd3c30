import Mathlib.Tactic

/-!
# Programs that return or panic

Kernel code runs on a state, returns a value, or stops in `panic`.  `Prog σ ε α` is such a program
with states `σ` and panics `ε`, written in `do` notation.  `Wp m s Q E` is its weakest
precondition in state `s`: the program returns with `Q`, or panics with `E`.  Nothing is said about
the state a panic leaves behind, since nobody sees it.

The rules follow the program: `wp_bind` for a sequence, `wp_mono` to use a specification, and one
rule for each primitive.  Loops are recursive functions and need no rule of their own.
-/

namespace Xv6.Panics

def Prog (σ ε α : Type) := σ → Except ε (α × σ)

variable {σ ε α β : Type}

instance : Monad (Prog σ ε) where
  pure a := fun s => .ok (a, s)
  bind m f := fun s =>
    match m s with
    | .ok (a, t) => f a t
    | .error e => .error e

/-- `panic(msg)`. -/
def panic (e : ε) : Prog σ ε α := fun _ => .error e

def gets (f : σ → α) : Prog σ ε α := fun s => .ok (f s, s)

def update (f : σ → σ) : Prog σ ε Unit := fun s => .ok ((), f s)

def zoom {τ : Type} (get : τ → σ) (set : τ → σ → τ) (m : Prog σ ε α) : Prog τ ε α := fun s =>
  match m (get s) with
  | .ok (a, t) => .ok (a, set s t)
  | .error e => .error e

/-- `if(c) m`. -/
def onlyIf (c : Prop) [Decidable c] (m : Prog σ ε Unit) : Prog σ ε Unit := if c then m else pure ()

def Wp (m : Prog σ ε α) (s : σ) (Q : α → σ → Prop) (E : ε → Prop) : Prop :=
  match m s with
  | .ok (a, t) => Q a t
  | .error e => E e

variable {m : Prog σ ε α} {f : α → Prog σ ε β} {s : σ} {Q : α → σ → Prop} {E : ε → Prop}

theorem wp_pure {a : α} (h : Q a s) : Wp (pure a) s Q E := h

theorem wp_panic {e : ε} (h : E e) : Wp (panic e) s Q E := h

theorem wp_gets {g : σ → α} (h : Q (g s) s) : Wp (gets g) s Q E := h

theorem wp_update {g : σ → σ} {Q : Unit → σ → Prop} (h : Q () (g s)) : Wp (update g) s Q E := h

theorem wp_bind {R : β → σ → Prop} (h : Wp m s (fun a t => Wp (f a) t R E) E) : Wp (m >>= f) s R E := by
  unfold Wp at h ⊢
  change match (match m s with | .ok (a, t) => f a t | .error e => .error e) with
    | .ok (a, t) => R a t
    | .error e => E e
  cases hm : m s with
  | ok r | error e =>
    rw [hm] at h
    exact h

theorem bind_of_ok {a : α} {t : σ} (h : m s = .ok (a, t)) : (m >>= f) s = f a t := by
  change (match m s with | .ok (a, t) => f a t | .error e => .error e) = f a t
  rw [h]

theorem bind_of_error {e : ε} (h : m s = .error e) : (m >>= f) s = .error e := by
  change (match m s with | .ok (a, t) => f a t | .error e => .error e) = .error e
  rw [h]

theorem wp_onlyIf {c : Prop} [Decidable c] {m : Prog σ ε Unit} {Q : Unit → σ → Prop}
    (h : c → Wp m s Q E) (h' : ¬ c → Q () s) : Wp (onlyIf c m) s Q E := by
  unfold onlyIf
  by_cases hc : c
  · rw [if_pos hc]
    exact h hc
  · rw [if_neg hc]
    exact wp_pure (h' hc)

theorem wp_mono {Q' : α → σ → Prop} {E' : ε → Prop} (h : Wp m s Q E)
    (hQ : ∀ a t, Q a t → Q' a t) (hE : ∀ e, E e → E' e) : Wp m s Q' E' := by
  unfold Wp at h ⊢
  cases hm : m s with
  | ok r =>
    rw [hm] at h
    exact hQ r.1 r.2 h
  | error e =>
    rw [hm] at h
    exact hE e h

theorem wp_seq {R : β → σ → Prop} (h : Wp m s Q E) (hf : ∀ a t, Q a t → Wp (f a) t R E) : Wp (m >>= f) s R E :=
  wp_bind (wp_mono h hf fun _ he => he)

theorem wp_true : Wp m s (fun _ _ => True) fun _ => True := by
  unfold Wp
  split <;> trivial

theorem wp_of_eq {m' : Prog σ ε α} {s' : σ} (h : m s = m' s') (h' : Wp m' s' Q E) : Wp m s Q E := by
  unfold Wp at h' ⊢
  rwa [h]

theorem wp_and {Q' : α → σ → Prop} (h : Wp m s Q E) (h' : Wp m s Q' E) : Wp m s (fun a t => Q a t ∧ Q' a t) E := by
  unfold Wp at h h' ⊢
  cases hm : m s with
  | ok r =>
    rw [hm] at h h'
    exact ⟨h, h'⟩
  | error e =>
    rw [hm] at h
    exact h

theorem wp_zoom {τ : Type} {get : τ → σ} {set : τ → σ → τ} {u : τ} {Q : α → τ → Prop}
    (h : Wp m (get u) (fun a t => Q a (set u t)) E) : Wp (zoom get set m) u Q E := by
  unfold Wp zoom at *
  cases hm : m (get u) with
  | ok r | error e =>
    rw [hm] at h
    exact h

theorem ok_of_wp {a : α} {t : σ} (h : Wp m s Q E) (hm : m s = .ok (a, t)) : Q a t := by
  unfold Wp at h
  rwa [hm] at h

theorem error_of_wp {e : ε} (h : Wp m s Q E) (hm : m s = .error e) : E e := by
  unfold Wp at h
  rwa [hm] at h

theorem exists_of_wp (h : Wp m s Q fun _ => False) : ∃ a t, m s = .ok (a, t) ∧ Q a t := by
  unfold Wp at h
  cases hm : m s with
  | ok r =>
    rw [hm] at h
    exact ⟨r.1, r.2, rfl, h⟩
  | error e =>
    rw [hm] at h
    exact h.elim

/-! ### Outcomes -/

/-- What the program returns or how it panics. -/
def outcome (m : Prog σ ε α) (s : σ) : Except ε α := (m s).map Prod.fst

/-- The state it leaves behind. -/
def after (m : Prog σ ε α) (s : σ) : σ :=
  match m s with
  | .ok (_, t) => t
  | .error _ => s

theorem after_of_ok {a : α} {t : σ} (h : m s = .ok (a, t)) : after m s = t := by
  unfold after
  rw [h]

theorem ok_of_outcome {a : α} (h : outcome m s = .ok a) : m s = .ok (a, after m s) := by
  unfold outcome at h
  unfold after
  cases hm : m s with
  | ok r =>
    rw [hm] at h
    obtain rfl := Except.ok.inj h
    rfl
  | error e =>
    rw [hm] at h
    cases h

theorem error_of_outcome {e : ε} (h : outcome m s = .error e) : m s = .error e := by
  unfold outcome at h
  cases hm : m s with
  | ok r =>
    rw [hm] at h
    cases h
  | error e' =>
    rw [hm] at h
    obtain rfl := Except.error.inj h
    rfl

end Xv6.Panics
