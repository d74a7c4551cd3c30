import Xv6.Buffers

/-!
# String functions of the user library (`user/ulib.c`)

The functions load through a memory; `strcpy` stores into an array.  The first argument of type `ℕ` bounds the
number of turns of the loop, and for a string one more than its length is enough.
-/

namespace Xv6.Ulib

open Xv6.Buffers

/-- `strcpy(s, t)`, from `mem` into an array. -/
def strcpy (size : ℕ) (mem : Mem) : ℕ → (ℕ → UInt8) → ℕ → ℕ → Option (ℕ → UInt8)
  | 0, _, _, _ => none
  | n + 1, a, s, t => do
    let c ← mem t
    let a ← store size a s c
    if c ≠ 0 then strcpy size mem n a (s + 1) (t + 1) else return a

/-- `strlen(s)`. -/
def strlen (mem : Mem) : ℕ → ℕ → Option ℕ
  | 0, _ => none
  | n + 1, s => do
    let c ← mem s
    if c ≠ 0 then
      let m ← strlen mem n (s + 1)
      return m + 1
    else return 0

/-- `strcmp(p, q)`, with a memory for each of the strings. -/
def strcmp (pm qm : Mem) : ℕ → ℕ → ℕ → Option ℤ
  | 0, _, _ => none
  | n + 1, p, q => do
    let c ← pm p
    let d ← qm q
    if c ≠ 0 ∧ c = d then strcmp pm qm n (p + 1) (q + 1) else return c.toNat - d.toNat

/-- `strchr(s, c)`. -/
def strchr (mem : Mem) (c : UInt8) : ℕ → ℕ → Option (Option ℕ)
  | 0, _ => none
  | n + 1, s => do
    let b ← mem s
    if b = 0 then return none
    else if b = c then return some s
    else strchr mem c n (s + 1)

variable {mem : Mem} {size n s p q : ℕ} {w : List UInt8}

theorem strcpy_spec (h : CString mem p w) {a : ℕ → UInt8} (hlt : s + w.length < size) (hn : w.length < n) :
    ∃ b, strcpy size mem n a s p = some b ∧ Holds b s (w ++ [0]) ∧ ∀ i, i < s → b i = a i := by
  induction w generalizing p s n a with
  | nil =>
    obtain ⟨n, rfl⟩ := Nat.exists_eq_add_one_of_ne_zero (Nat.ne_of_gt hn)
    refine ⟨Function.update a s 0, ?_, ⟨Function.update_self .., trivial⟩,
      fun i hi => Function.update_of_ne (Nat.ne_of_lt hi) _ _⟩
    rw [strcpy, show mem p = some 0 from h]
    show (store size a s 0 >>= _) = _
    rw [store_of_lt (show s < size from hlt)]
    rfl
  | cons c w ih =>
    obtain ⟨n, rfl⟩ := Nat.exists_eq_add_one_of_ne_zero (Nat.ne_of_gt (Nat.zero_lt_of_lt hn))
    rw [List.length_cons] at hlt hn
    obtain ⟨b, hb, hholds, hsame⟩ := ih (s := s + 1) (n := n) (a := Function.update a s c) h.2.2 (by omega) (by omega)
    refine ⟨b, ?_, ⟨?_, hholds⟩, fun i hi => ?_⟩
    · rw [strcpy, h.1]
      show (store size a s c >>= _) = _
      rw [store_of_lt (by omega)]
      show (if c ≠ 0 then strcpy size mem n (Function.update a s c) (s + 1) (p + 1) else _) = _
      rw [if_pos h.2.1, hb]
    · rw [hsame s (Nat.lt_succ_self s), Function.update_self]
    · rw [hsame i (by omega), Function.update_of_ne (Nat.ne_of_lt hi)]

theorem strlen_spec (h : CString mem p w) (hn : w.length < n) : strlen mem n p = some w.length := by
  induction w generalizing p n with
  | nil =>
    obtain ⟨n, rfl⟩ := Nat.exists_eq_add_one_of_ne_zero (Nat.ne_of_gt hn)
    rw [strlen, show mem p = some 0 from h]
    rfl
  | cons c w ih =>
    obtain ⟨n, rfl⟩ := Nat.exists_eq_add_one_of_ne_zero (Nat.ne_of_gt (Nat.zero_lt_of_lt hn))
    rw [List.length_cons] at hn
    rw [strlen, h.1]
    show (if c ≠ 0 then (strlen mem n (p + 1) >>= _) else _) = _
    rw [if_pos h.2.1, ih h.2.2 (by omega)]
    rfl

/-- `strcmp` returns, and returns 0 for equal strings only. -/
theorem strcmp_spec {pm qm : Mem} {v : List UInt8} (hp : CString pm p w) (hq : CString qm q v) (hn : w.length < n) :
    ∃ r, strcmp pm qm n p q = some r ∧ (r = 0 ↔ w = v) := by
  induction w generalizing p q n v with
  | nil =>
    obtain ⟨n, rfl⟩ := Nat.exists_eq_add_one_of_ne_zero (Nat.ne_of_gt hn)
    refine ⟨(0 : UInt8).toNat - (v.head?.getD 0).toNat, ?_, ?_⟩
    · rw [strcmp, show pm p = some 0 from hp, hq.load]
      rfl
    · have hzero : ((0 : UInt8).toNat : ℤ) - (v.head?.getD 0).toNat = 0 ↔ v.head?.getD 0 = 0 := by
        rw [sub_eq_zero, Nat.cast_inj, UInt8.toNat_inj, eq_comm]
      rw [hzero, hq.head_eq_zero, eq_comm]
  | cons c w ih =>
    obtain ⟨n, rfl⟩ := Nat.exists_eq_add_one_of_ne_zero (Nat.ne_of_gt (Nat.zero_lt_of_lt hn))
    rw [List.length_cons] at hn
    by_cases hc : c = v.head?.getD 0
    · cases v with
      | nil => exact absurd hc hp.2.1
      | cons d v =>
        have hcd : c = d := hc
        obtain ⟨r, hr, hiff⟩ := ih (n := n) hp.2.2 hq.2.2 (by omega)
        refine ⟨r, ?_, ?_⟩
        · rw [strcmp, hp.1, hq.1]
          show (if c ≠ 0 ∧ c = d then strcmp pm qm n (p + 1) (q + 1) else _) = _
          rw [if_pos ⟨hp.2.1, hcd⟩, hr]
        · rw [hiff, hcd, List.cons.injEq]
          exact ⟨fun h => ⟨rfl, h⟩, And.right⟩
    · refine ⟨c.toNat - (v.head?.getD 0).toNat, ?_, ?_⟩
      · rw [strcmp, hp.1, hq.load]
        show (if c ≠ 0 ∧ c = v.head?.getD 0 then _ else _) = _
        rw [if_neg fun h => hc h.2]
        rfl
      · refine iff_of_false (fun e => hc ?_) (fun e => hc ?_)
        · rwa [sub_eq_zero, Nat.cast_inj, UInt8.toNat_inj] at e
        · rw [← e]
          rfl

/-- **Copies of strings.**  `strcpy` of a string that fits returns and stores nothing before its destination.  The copy
is a string: `strlen` of it is the length of the source, and `strcmp` of it with any string is 0 exactly when the source
is that string. -/
theorem strcpy_copies (mem : Mem) (size s p : ℕ) (w : List UInt8) (a : ℕ → UInt8) (h : CString mem p w)
    (hfit : s + w.length < size) :
    ∃ b, strcpy size mem (w.length + 1) a s p = some b ∧ (∀ i, i < s → b i = a i) ∧
      strlen (load size b) (w.length + 1) s = some w.length ∧
      ∀ qm q v, CString qm q v → ∃ r, strcmp (load size b) qm (w.length + 1) s q = some r ∧ (r = 0 ↔ w = v) := by
  have hn := Nat.lt_succ_self w.length
  obtain ⟨b, hb, hholds, hsame⟩ := strcpy_spec (a := a) h hfit hn
  rw [holds_append] at hholds
  have hcopy : CString (load size b) s w := cstring_of_holds hholds.1 h.not_mem hholds.2.1 hfit
  exact ⟨b, hb, hsame, strlen_spec hcopy hn, fun qm q v hq => strcmp_spec hcopy hq hn⟩

theorem strcpy_copies_ls : ∃ b, strcpy 4 (load 3 fun i => [108, 115, 0].getD i 0) 3 (fun _ => 7) 1 0 = some b ∧ b 0 = 7 ∧
    strlen (load 4 b) 3 1 = some 2 := by
  obtain ⟨b, hb, hsame, hlen, -⟩ := strcpy_copies (load 3 fun i => [108, 115, 0].getD i 0) 4 1 0 [108, 115] (fun _ => 7)
    ⟨rfl, by decide, rfl, by decide, rfl⟩ (by decide)
  exact ⟨b, hb, hsame 0 (by decide), hlen⟩

theorem strchr_found {c : UInt8} {l r : List UInt8} (h : CString mem p (l ++ c :: r)) (hl : c ∉ l)
    (hn : l.length < n) : strchr mem c n p = some (some (p + l.length)) := by
  induction l generalizing p n with
  | nil =>
    obtain ⟨n, rfl⟩ := Nat.exists_eq_add_one_of_ne_zero (Nat.ne_of_gt hn)
    rw [strchr, h.1]
    show (if c = 0 then some none else if c = c then some (some p) else _) = _
    rw [if_neg h.2.1, if_pos rfl]
    rfl
  | cons d l ih =>
    obtain ⟨n, rfl⟩ := Nat.exists_eq_add_one_of_ne_zero (Nat.ne_of_gt (Nat.zero_lt_of_lt hn))
    rw [List.length_cons] at hn ⊢
    have hd : d ≠ c := fun e => hl (e ▸ List.mem_cons_self)
    rw [strchr, h.1]
    show (if d = 0 then some none else if d = c then some (some p) else strchr mem c n (p + 1)) = _
    rw [if_neg h.2.1, if_neg hd, ih h.2.2 (fun hm => hl (List.mem_cons_of_mem d hm)) (by omega),
      show p + 1 + l.length = p + (l.length + 1) by omega]

theorem strchr_none {c : UInt8} (h : CString mem p w) (hw : c ∉ w) (hn : w.length < n) :
    strchr mem c n p = some none := by
  induction w generalizing p n with
  | nil =>
    obtain ⟨n, rfl⟩ := Nat.exists_eq_add_one_of_ne_zero (Nat.ne_of_gt hn)
    rw [strchr, show mem p = some 0 from h]
    rfl
  | cons d w ih =>
    obtain ⟨n, rfl⟩ := Nat.exists_eq_add_one_of_ne_zero (Nat.ne_of_gt (Nat.zero_lt_of_lt hn))
    rw [List.length_cons] at hn
    have hd : d ≠ c := fun e => hw (e ▸ List.mem_cons_self)
    rw [strchr, h.1]
    show (if d = 0 then some none else if d = c then some (some p) else strchr mem c n (p + 1)) = _
    rw [if_neg h.2.1, if_neg hd, ih h.2.2 (fun hm => hw (List.mem_cons_of_mem d hm)) (by omega)]

end Xv6.Ulib
