import Mathlib.Computability.Language
import Xv6.Buffers

/-!
# The matcher of `grep` (`user/grep.c`)

`match`, `matchhere` and `matchstar` on pointers into two memories, that of the pattern and that of the text.  A
load outside a memory ends the run, and so does `n`, which bounds the depth of the calls; for C strings neither
happens.

A pattern is a sequence of items, a byte or a byte with a star, between an optional `^` and an optional `$`.
`Matches` says what it means, with the languages of the items; `matchhere` decides it at one place of the text.
-/

namespace Xv6.Grep

open Computability Xv6.Buffers

section
variable (rm tm : Mem)

mutual

/-- `42` is `'*'`, `36` is `'$'` and `46` is `'.'`. -/
def matchhere : ℕ → ℕ → ℕ → Option Bool
  | 0, _, _ => none
  | n + 1, re, text => do
    let c ← rm re
    if c = 0 then return true
    let c' ← rm (re + 1)
    if c' = 42 then matchstar n c (re + 2) text
    else
      let t ← tm text
      if c = 36 ∧ c' = 0 then return t == 0
      else if t ≠ 0 ∧ (c = 46 ∨ c = t) then matchhere n (re + 1) (text + 1)
      else return false

def matchstar : ℕ → UInt8 → ℕ → ℕ → Option Bool
  | 0, _, _, _ => none
  | n + 1, c, re, text => do
    let found ← matchhere n re text
    if found then return true
    let t ← tm text
    if t ≠ 0 ∧ (t = c ∨ c = 46) then matchstar n c re (text + 1) else return false

end

/-- The loop of `match`. -/
def matchloop : ℕ → ℕ → ℕ → Option Bool
  | 0, _, _ => none
  | n + 1, re, text => do
    let found ← matchhere rm tm n re text
    if found then return true
    let t ← tm text
    if t ≠ 0 then matchloop n re (text + 1) else return false

/-- `match(re, text)`; `94` is `'^'`. -/
def matchText (n re text : ℕ) : Option Bool := do
  let c ← rm re
  if c = 94 then matchhere rm tm n (re + 1) text else matchloop rm tm n re text

end

/-! ### What a pattern means -/

inductive Item where
  | one (c : UInt8)
  | star (c : UInt8)
deriving DecidableEq

/-- The items of a pattern, and whether a `$` anchors it at the end.  A star belongs to the byte before it. -/
def items : List UInt8 → List Item × Bool
  | [] => ([], false)
  | [c] => if c = 36 then ([], true) else ([.one c], false)
  | c :: d :: re =>
    if d = 42 then (.star c :: (items re).1, (items re).2)
    else (.one c :: (items (d :: re)).1, (items (d :: re)).2)

def Fits (c x : UInt8) : Prop := c = 46 ∨ c = x

def Item.lang : Item → Language UInt8
  | .one c => {w | ∃ x, Fits c x ∧ w = [x]}
  | .star c => ({w | ∃ x, Fits c x ∧ w = [x]} : Language UInt8)∗

def lang (re : List UInt8) : Language UInt8 := ((items re).1.map Item.lang).prod

/-- A `^` at the start. -/
def anchored (re : List UInt8) : Bool := re.head? == some 94

def body (re : List UInt8) : List UInt8 := if anchored re then re.tail else re

/-- The text has a substring in the language of the pattern; a `^` at the start holds it to the start of the text,
and a `$` at the end to the end. -/
def Matches (re text : List UInt8) : Prop :=
  ∃ before w rest, text = before ++ w ++ rest ∧ w ∈ lang (body re) ∧
    (anchored re = true → before = []) ∧ ((items (body re)).2 = true → rest = [])

/-! ### A pattern at one place of the text -/

def Here (re text : List UInt8) : Prop := ∃ w rest, text = w ++ rest ∧ w ∈ lang re ∧ ((items re).2 = true → rest = [])

variable {re text : List UInt8} {c : UInt8}

theorem mem_star {w : List UInt8} : w ∈ (Item.star c).lang ↔ ∀ x ∈ w, Fits c x := by
  constructor
  · rintro ⟨parts, rfl, hparts⟩ x hx
    obtain ⟨part, hpart, hxpart⟩ := List.mem_flatten.mp hx
    obtain ⟨y, hy, rfl⟩ := hparts part hpart
    rw [List.mem_singleton.mp hxpart]
    exact hy
  · intro hw
    have hflat : (w.map fun x => [x]).flatten = w := by
      clear hw
      induction w with
      | nil => rfl
      | cons x w ih => rw [List.map_cons, List.flatten_cons, ih, List.singleton_append]
    refine ⟨w.map fun x => [x], hflat.symm, ?_⟩
    intro part hpart
    obtain ⟨x, hx, rfl⟩ := List.mem_map.mp hpart
    exact ⟨x, hw x hx, rfl⟩

theorem here_nil (text : List UInt8) : Here [] text :=
  ⟨[], text, rfl, rfl, fun e => absurd e Bool.false_ne_true⟩

theorem here_dollar : Here [36] text ↔ text = [] := by
  constructor
  · rintro ⟨w, rest, rfl, hw, hrest⟩
    have hw' : w = [] := hw
    rw [hw', hrest rfl]
    rfl
  · rintro rfl
    exact ⟨[], [], rfl, rfl, fun _ => rfl⟩

theorem lang_star : lang (c :: 42 :: re) = (Item.star c).lang * lang re := by
  rw [lang, items, if_pos rfl, List.map_cons, List.prod_cons]
  rfl

theorem here_star : Here (c :: 42 :: re) text ↔
    Here re text ∨ ∃ t ts, text = t :: ts ∧ Fits c t ∧ Here (c :: 42 :: re) ts := by
  have hend : (items (c :: 42 :: re)).2 = (items re).2 := by rw [items, if_pos rfl]
  unfold Here
  rw [lang_star, hend]
  constructor
  · rintro ⟨w, rest, rfl, hw, hrest⟩
    obtain ⟨a, ha, b, hb, rfl⟩ := Language.mem_mul.mp hw
    have hall := mem_star.mp ha
    cases a with
    | nil => exact .inl ⟨b, rest, rfl, hb, hrest⟩
    | cons x a =>
      refine .inr ⟨x, a ++ b ++ rest, rfl, hall x List.mem_cons_self, a ++ b, rest, rfl, ?_, hrest⟩
      exact Language.mem_mul.mpr ⟨a, mem_star.mpr fun y hy => hall y (List.mem_cons_of_mem x hy), b, hb, rfl⟩
  · rintro (⟨w, rest, rfl, hw, hrest⟩ | ⟨t, ts, rfl, ht, w, rest, rfl, hw, hrest⟩)
    · exact ⟨w, rest, rfl, Language.mem_mul.mpr ⟨[], mem_star.mpr fun _ h => absurd h List.not_mem_nil, w, hw, rfl⟩,
        hrest⟩
    · obtain ⟨a, ha, b, hb, rfl⟩ := Language.mem_mul.mp hw
      refine ⟨t :: (a ++ b), rest, rfl, ?_, hrest⟩
      refine Language.mem_mul.mpr ⟨t :: a, mem_star.mpr fun x hx => ?_, b, hb, rfl⟩
      rcases List.mem_cons.mp hx with rfl | hx
      · exact ht
      · exact mem_star.mp ha x hx

theorem items_one (hstar : re.head? ≠ some 42) (hdollar : ¬ (c = 36 ∧ re = [])) :
    items (c :: re) = (.one c :: (items re).1, (items re).2) := by
  cases re with
  | nil =>
    show (if c = 36 then ([], true) else ([Item.one c], false)) = _
    rw [if_neg fun e => hdollar ⟨e, rfl⟩]
    rfl
  | cons d re => rw [items, if_neg fun e => hstar (congrArg some e)]

theorem here_one (hstar : re.head? ≠ some 42) (hdollar : ¬ (c = 36 ∧ re = [])) : Here (c :: re) text ↔
    ∃ t ts, text = t :: ts ∧ Fits c t ∧ Here re ts := by
  have hitems := items_one hstar hdollar
  have hlang : lang (c :: re) = (Item.one c).lang * lang re := by
    rw [lang, hitems, List.map_cons, List.prod_cons]
    rfl
  unfold Here
  rw [hlang, hitems]
  constructor
  · rintro ⟨w, rest, rfl, hw, hrest⟩
    obtain ⟨a, ⟨x, hx, rfl⟩, b, hb, rfl⟩ := Language.mem_mul.mp hw
    exact ⟨x, b ++ rest, rfl, hx, b, rest, rfl, hb, hrest⟩
  · rintro ⟨t, ts, rfl, ht, w, rest, rfl, hw, hrest⟩
    exact ⟨t :: w, rest, rfl, Language.mem_mul.mpr ⟨[t], ⟨t, ht, rfl⟩, w, hw, rfl⟩, hrest⟩

/-! ### The matcher -/

variable {rm tm : Mem} {n p q : ℕ}

/-- A call returns, and says whether `P` holds. -/
def Decides (r : Option Bool) (P : Prop) : Prop := ∃ b, r = some b ∧ (b = true ↔ P)

theorem decides_true {P : Prop} (h : P) : Decides (some true) P := ⟨true, rfl, iff_of_true rfl h⟩

theorem decides_false {P : Prop} (h : ¬ P) : Decides (some false) P := ⟨false, rfl, iff_of_false Bool.false_ne_true h⟩

theorem Decides.congr {r : Option Bool} {P Q : Prop} (h : Decides r P) (hPQ : P ↔ Q) : Decides r Q := by
  obtain ⟨b, hr, hb⟩ := h
  exact ⟨b, hr, hb.trans hPQ⟩

theorem decides_or {found rest : Option Bool} {P Q R : Prop} {goon : Prop} [Decidable goon] (hfound : Decides found P)
    (hrest : goon → Decides rest Q) (hR : R ↔ P ∨ goon ∧ Q) :
    Decides (found.bind fun b => if b then some true else if goon then rest else some false) R := by
  obtain ⟨b, rfl, hb⟩ := hfound
  cases b with
  | true => exact decides_true (hR.mpr (.inl (hb.mp rfl)))
  | false =>
    have hP : ¬ P := fun h => Bool.false_ne_true (hb.mpr h)
    show Decides (if goon then rest else some false) R
    by_cases hg : goon
    · rw [if_pos hg]
      refine (hrest hg).congr ?_
      rw [hR]
      exact ⟨fun h => .inr ⟨hg, h⟩, fun h => (h.resolve_left hP).2⟩
    · rw [if_neg hg]
      refine decides_false fun h => ?_
      rcases hR.mp h with h | h
      · exact hP h
      · exact hg h.1

/-- What holds of the calls at one depth.  In a call of `matchhere` the pattern or the text gets shorter, and a call
of `matchstar` that goes on shortens the text. -/
structure SpecAt (rm tm : Mem) (n : ℕ) : Prop where
  here : ∀ re text p q, CString rm p re → CString tm q text → re.length + text.length < n →
    Decides (matchhere rm tm n p q) (Here re text)
  star : ∀ c re text p q, CString rm p re → CString tm q text → re.length + text.length + 1 < n →
    Decides (matchstar rm tm n c p q) (Here (c :: 42 :: re) text)

theorem star_step (ih : SpecAt rm tm n) (hre : CString rm p re) (htext : CString tm q text)
    (hn : re.length + text.length + 1 < n + 1) :
    Decides (matchstar rm tm (n + 1) c p q) (Here (c :: 42 :: re) text) := by
  unfold matchstar
  rw [htext.load]
  refine decides_or (ih.here re text p q hre htext (by omega)) (Q := ∃ t ts, text = t :: ts ∧ Here (c :: 42 :: re) ts)
    ?_ ?_
  · rintro ⟨hne, -⟩
    cases text with
    | nil => exact absurd rfl hne
    | cons t ts =>
      rw [List.length_cons] at hn
      refine (ih.star c re ts p (q + 1) hre htext.2.2 (by omega)).congr ?_
      constructor
      · exact fun h => ⟨t, ts, rfl, h⟩
      · rintro ⟨t', ts', he, h⟩
        cases he
        exact h
  · rw [here_star]
    refine or_congr Iff.rfl ?_
    constructor
    · rintro ⟨t, ts, rfl, hfits, h⟩
      exact ⟨⟨htext.2.1, hfits.symm.imp Eq.symm id⟩, t, ts, rfl, h⟩
    · rintro ⟨⟨hne, hfits⟩, t, ts, rfl, h⟩
      exact ⟨t, ts, rfl, hfits.symm.imp id Eq.symm, h⟩

theorem matchhere_eq {c c' t : UInt8} (hc : rm p = some c) (hne : c ≠ 0) (hc' : rm (p + 1) = some c')
    (ht : tm q = some t) : matchhere rm tm (n + 1) p q = if c' = 42 then matchstar rm tm n c (p + 2) q
      else if c = 36 ∧ c' = 0 then some (t == 0)
      else if t ≠ 0 ∧ (c = 46 ∨ c = t) then matchhere rm tm n (p + 1) (q + 1) else some false := by
  rw [matchhere, hc]
  show (if c = 0 then some true else _) = _
  rw [if_neg hne, hc', ht]
  rfl

theorem here_step (ih : SpecAt rm tm n) (hre : CString rm p re) (htext : CString tm q text)
    (hn : re.length + text.length < n + 1) : Decides (matchhere rm tm (n + 1) p q) (Here re text) := by
  cases re with
  | nil =>
    rw [matchhere, hre.load]
    exact decides_true (here_nil text)
  | cons c re =>
    rw [matchhere_eq hre.1 hre.2.1 hre.2.2.load htext.load]
    rw [List.length_cons] at hn
    by_cases hstar : re.head? = some 42
    · cases re with
      | nil => cases hstar
      | cons d re =>
        cases hstar
        rw [List.length_cons] at hn
        exact ih.star c re text (p + 2) q hre.2.2.2.2 htext (by omega)
    have hne : re.head?.getD 0 ≠ 42 := by
      cases re with
      | nil => decide
      | cons d re => exact fun e => hstar (congrArg some e)
    rw [if_neg hne]
    by_cases hdollar : c = 36 ∧ re = []
    · rw [if_pos ⟨hdollar.1, hre.2.2.head_eq_zero.mpr hdollar.2⟩, hdollar.1, hdollar.2]
      refine ⟨_, rfl, ?_⟩
      rw [here_dollar, beq_iff_eq]
      exact htext.head_eq_zero
    rw [if_neg fun e => hdollar ⟨e.1, hre.2.2.head_eq_zero.mp e.2⟩]
    by_cases hfits : text.head?.getD 0 ≠ 0 ∧ (c = 46 ∨ c = text.head?.getD 0)
    · rw [if_pos hfits]
      cases text with
      | nil => exact absurd rfl hfits.1
      | cons t ts =>
        rw [List.length_cons] at hn
        refine (ih.here re ts (p + 1) (q + 1) hre.2.2 htext.2.2 (by omega)).congr ?_
        rw [here_one hstar hdollar]
        constructor
        · exact fun h => ⟨t, ts, rfl, hfits.2, h⟩
        · rintro ⟨t', ts', he, -, h⟩
          cases he
          exact h
    · rw [if_neg hfits]
      refine decides_false fun h => ?_
      obtain ⟨t, ts, rfl, ht, -⟩ := (here_one hstar hdollar).mp h
      exact hfits ⟨htext.2.1, ht⟩

theorem spec_at (n : ℕ) : SpecAt rm tm n := by
  induction n with
  | zero =>
    exact ⟨fun re text p q _ _ hn => absurd hn (Nat.not_lt_zero _),
      fun c re text p q _ _ hn => absurd hn (Nat.not_lt_zero _)⟩
  | succ n ih =>
    exact ⟨fun re text p q hre htext hn => here_step ih hre htext hn,
      fun c re text p q hre htext hn => star_step ih hre htext hn⟩

theorem loop_spec (hre : CString rm p re) (n : ℕ) : ∀ (text : List UInt8) (q : ℕ), CString tm q text →
    re.length + text.length + 1 < n →
    Decides (matchloop rm tm n p q) (∃ before rest, text = before ++ rest ∧ Here re rest) := by
  induction n with
  | zero => exact fun text q _ hn => absurd hn (Nat.not_lt_zero _)
  | succ n ih =>
    intro text q htext hn
    unfold matchloop
    rw [htext.load]
    refine decides_or ((spec_at n).here re text p q hre htext (by omega))
      (Q := ∃ t ts, text = t :: ts ∧ ∃ before rest, ts = before ++ rest ∧ Here re rest) ?_ ?_
    · intro hne
      cases text with
      | nil => exact absurd rfl hne
      | cons t ts =>
        rw [List.length_cons] at hn
        refine (ih ts (q + 1) htext.2.2 (by omega)).congr ?_
        constructor
        · exact fun h => ⟨t, ts, rfl, h⟩
        · rintro ⟨t', ts', he, h⟩
          cases he
          exact h
    · constructor
      · rintro ⟨before, rest, rfl, h⟩
        cases before with
        | nil => exact .inl h
        | cons t before => exact .inr ⟨htext.2.1, t, before ++ rest, rfl, before, rest, rfl, h⟩
      · rintro (h | ⟨-, t, ts, rfl, before, rest, rfl, h⟩)
        · exact ⟨[], text, rfl, h⟩
        · exact ⟨t :: before, rest, rfl, h⟩

theorem matchText_spec {re text : List UInt8} (hre : CString rm p re) (htext : CString tm q text)
    (hn : re.length + text.length + 1 < n) : Decides (matchText rm tm n p q) (Matches re text) := by
  unfold matchText
  rw [hre.load]
  show Decides (if re.head?.getD 0 = 94 then matchhere rm tm n (p + 1) q else matchloop rm tm n p q) _
  by_cases hanchor : re.head? = some 94
  · cases re with
    | nil => cases hanchor
    | cons c re =>
      cases hanchor
      rw [if_pos (show (94 :: re).head?.getD 0 = 94 from rfl)]
      rw [List.length_cons] at hn
      refine ((spec_at n).here re text (p + 1) q hre.2.2 htext (by omega)).congr ?_
      constructor
      · rintro ⟨w, rest, rfl, hw, hrest⟩
        exact ⟨[], w, rest, rfl, hw, fun _ => rfl, hrest⟩
      · rintro ⟨before, w, rest, rfl, hw, hbefore, hrest⟩
        rw [hbefore rfl]
        exact ⟨w, rest, rfl, hw, hrest⟩
  · have hfalse : anchored re = false := by
      rw [anchored]
      exact beq_eq_false_iff_ne.mpr hanchor
    have hne : re.head?.getD 0 ≠ 94 := by
      cases re with
      | nil => decide
      | cons d re => exact fun e => hanchor (congrArg some e)
    rw [if_neg hne]
    refine (loop_spec hre n text q htext hn).congr ?_
    unfold Matches body
    rw [hfalse]
    constructor
    · rintro ⟨before, rest, rfl, w, rest, rfl, hw, hrest⟩
      exact ⟨before, w, rest, (List.append_assoc ..).symm, hw, fun e => absurd e Bool.false_ne_true, hrest⟩
    · rintro ⟨before, w, rest, rfl, hw, -, hrest⟩
      exact ⟨before, w ++ rest, List.append_assoc .., w, rest, rfl, hw, hrest⟩

/-- **`match` decides whether the text has a substring in the language of the pattern**, and returns. -/
theorem match_decides {re text : List UInt8} (hre : CString rm p re) (htext : CString tm q text)
    (hn : re.length + text.length + 1 < n) : Decides (matchText rm tm n p q) (Matches re text) :=
  matchText_spec hre htext hn

/-- `b*c` in `abbc`. -/
theorem match_decides_bsc : Decides (matchText (fun i => [98, 42, 99, 0][i]?) (fun i => [97, 98, 98, 99, 0][i]?) 20 0 0)
    (Matches [98, 42, 99] [97, 98, 98, 99]) ∧ Matches [98, 42, 99] [97, 98, 98, 99] := by
  have hre : CString (fun i => [98, 42, 99, 0][i]?) 0 [98, 42, 99] := by simp [CString]
  have htext : CString (fun i => [97, 98, 98, 99, 0][i]?) 0 [97, 98, 98, 99] := by simp [CString]
  have hdecides := match_decides hre htext (show 3 + 4 + 1 < 20 by decide)
  obtain ⟨b, hb, hiff⟩ := hdecides
  have hrun : matchText (fun i => [98, 42, 99, 0][i]?) (fun i => [97, 98, 98, 99, 0][i]?) 20 0 0 = some true := by
    decide
  rw [hrun] at hb
  exact ⟨⟨b, hrun.trans hb, hiff⟩, hiff.mp (Option.some.inj hb).symm⟩

end Xv6.Grep
