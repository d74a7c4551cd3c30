import Mathlib.Tactic

/-!
# Arrays of a fixed size and the strings in them

An array is a function of the index together with its `size`; a load or store at an index beyond the size gives
`none`, so a computation that gives `some` has stayed inside its arrays.  `Holds a p w` says that the values `w`
stand at `p`, and `CString` that a string with its terminator does, in any memory that can be loaded from.
-/

namespace Xv6.Buffers

variable {α : Type*}

/-- What a program may load; `none` elsewhere. -/
abbrev Mem := ℕ → Option UInt8

def load (size : ℕ) (a : ℕ → α) (i : ℕ) : Option α := if i < size then some (a i) else none

def store (size : ℕ) (a : ℕ → α) (i : ℕ) (v : α) : Option (ℕ → α) :=
  if i < size then some (Function.update a i v) else none

def loads (size : ℕ) (a : ℕ → α) : ℕ → ℕ → Option (List α)
  | _, 0 => some []
  | p, n + 1 => do
    let v ← load size a p
    let vs ← loads size a (p + 1) n
    return v :: vs

def stores (size : ℕ) : (ℕ → α) → ℕ → List α → Option (ℕ → α)
  | a, _, [] => some a
  | a, p, v :: vs => do
    let a ← store size a p v
    stores size a (p + 1) vs

/-- The array has the values `w` at `p`. -/
def Holds (a : ℕ → α) : ℕ → List α → Prop
  | _, [] => True
  | p, v :: w => a p = v ∧ Holds a (p + 1) w

/-- The string `w` starts at `p`. -/
def CString (mem : Mem) : ℕ → List UInt8 → Prop
  | p, [] => mem p = some 0
  | p, c :: w => mem p = some c ∧ c ≠ 0 ∧ CString mem (p + 1) w

section
variable {size : ℕ} {a b : ℕ → α} {p q : ℕ} {w v : List α}

theorem load_of_lt (h : p < size) : load size a p = some (a p) := if_pos h

theorem store_of_lt (h : p < size) (x : α) : store size a p x = some (Function.update a p x) := if_pos h

theorem holds_append : Holds a p (w ++ v) ↔ Holds a p w ∧ Holds a (p + w.length) v := by
  induction w generalizing p with
  | nil => exact ⟨fun h => ⟨trivial, h⟩, fun h => h.2⟩
  | cons c w ih =>
    show a p = c ∧ Holds a (p + 1) (w ++ v) ↔ (a p = c ∧ Holds a (p + 1) w) ∧ _
    rw [ih, List.length_cons, show p + (w.length + 1) = p + 1 + w.length by omega, and_assoc]

theorem Holds.shift (h : Holds a p w) (hsame : ∀ i, i < w.length → b (q + i) = a (p + i)) : Holds b q w := by
  induction w generalizing p q with
  | nil => trivial
  | cons c w ih =>
    rw [List.length_cons] at hsame
    refine ⟨(hsame 0 (Nat.succ_pos _)).trans h.1, ih h.2 fun i hi => ?_⟩
    have hnext := hsame (i + 1) (by omega)
    rwa [show q + (i + 1) = q + 1 + i by omega, show p + (i + 1) = p + 1 + i by omega] at hnext

theorem Holds.congr (h : Holds a p w) (hsame : ∀ i, p ≤ i → i < p + w.length → b i = a i) : Holds b p w :=
  h.shift fun i hi => hsame (p + i) (by omega) (by omega)

theorem loads_of_holds (h : Holds a p w) (hlt : p + w.length ≤ size) : loads size a p w.length = some w := by
  induction w generalizing p with
  | nil => rfl
  | cons c w ih =>
    rw [List.length_cons] at hlt ⊢
    rw [loads, load_of_lt (by omega), h.1, ih h.2 (by omega)]
    rfl

theorem stores_spec (size : ℕ) (w : List α) : ∀ (a : ℕ → α) (p : ℕ), p + w.length ≤ size →
    ∃ b, stores size a p w = some b ∧ Holds b p w ∧ ∀ i, i < p → b i = a i := by
  induction w with
  | nil => exact fun a p _ => ⟨a, rfl, trivial, fun i _ => rfl⟩
  | cons c w ih =>
    intro a p hlt
    rw [List.length_cons] at hlt
    obtain ⟨b, hstores, hholds, hsame⟩ := ih (Function.update a p c) (p + 1) (by omega)
    refine ⟨b, ?_, ⟨?_, hholds⟩, fun i hi => ?_⟩
    · rw [stores, store_of_lt (by omega)]
      exact hstores
    · rw [hsame p (Nat.lt_succ_self p), Function.update_self]
    · rw [hsame i (by omega), Function.update_of_ne (Nat.ne_of_lt hi)]

end

/-! ### Strings -/

variable {mem : Mem} {size p : ℕ} {w : List UInt8}

theorem CString.load (h : CString mem p w) : mem p = some (w.head?.getD 0) := by
  cases w with
  | nil => exact h
  | cons c w => exact h.1

theorem CString.head_eq_zero (h : CString mem p w) : w.head?.getD 0 = 0 ↔ w = [] := by
  cases w with
  | nil => exact ⟨fun _ => rfl, fun _ => rfl⟩
  | cons c w => exact ⟨fun e => absurd e h.2.1, fun e => absurd e (List.cons_ne_nil c w)⟩

theorem CString.not_mem (h : CString mem p w) : 0 ∉ w := by
  induction w generalizing p with
  | nil => exact List.not_mem_nil
  | cons c w ih =>
    intro hmem
    rcases List.mem_cons.mp hmem with he | hmem
    · exact h.2.1 he.symm
    · exact ih h.2.2 hmem

theorem cstring_of_holds {a : ℕ → UInt8} (h : Holds a p w) (hnul : 0 ∉ w) (hend : a (p + w.length) = 0)
    (hlt : p + w.length < size) : CString (Buffers.load size a) p w := by
  induction w generalizing p with
  | nil =>
    show Buffers.load size a p = some 0
    rw [load_of_lt (Nat.lt_of_le_of_lt (Nat.le_add_right p _) hlt)]
    exact congrArg some hend
  | cons c w ih =>
    rw [List.length_cons, ← Nat.add_assoc, Nat.add_right_comm] at hend hlt
    refine ⟨?_, fun e => hnul (e ▸ List.mem_cons_self), ih h.2 (fun hm => hnul (List.mem_cons_of_mem c hm)) hend hlt⟩
    rw [load_of_lt (by omega), h.1]

theorem CString.holds {a : ℕ → UInt8} (h : CString (Buffers.load size a) p w) :
    Holds a p w ∧ p + w.length < size := by
  induction w generalizing p with
  | nil => exact ⟨trivial, (Option.ite_none_right_eq_some.mp h).1⟩
  | cons c w ih =>
    obtain ⟨hlt, hc⟩ := Option.ite_none_right_eq_some.mp h.1
    obtain ⟨hholds, hend⟩ := ih h.2.2
    refine ⟨⟨Option.some.inj hc, hholds⟩, ?_⟩
    rw [List.length_cons]
    omega

theorem CString.congr {a b : ℕ → UInt8} (h : CString (Buffers.load size a) p w)
    (hsame : ∀ i, p ≤ i → i ≤ p + w.length → b i = a i) : CString (Buffers.load size b) p w := by
  induction w generalizing p with
  | nil =>
    have hload : Buffers.load size a p = some 0 := h
    show Buffers.load size b p = some 0
    rw [← hload, Buffers.load, Buffers.load, hsame p (Nat.le_refl p) (Nat.le_add_right p _)]
  | cons c w ih =>
    rw [List.length_cons] at hsame
    refine ⟨?_, h.2.1, ih h.2.2 fun i hi hi' => hsame i (by omega) (by omega)⟩
    rw [← h.1, Buffers.load, Buffers.load, hsame p (Nat.le_refl p) (by omega)]

theorem CString.drop {u v : List UInt8} (h : CString mem p (u ++ v)) : CString mem (p + u.length) v := by
  induction u generalizing p with
  | nil => exact h
  | cons c u ih =>
    have hrest := ih h.2.2
    rwa [List.length_cons, show p + (u.length + 1) = p + 1 + u.length by omega]

end Xv6.Buffers
