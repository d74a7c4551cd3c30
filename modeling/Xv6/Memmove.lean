import Mathlib.Tactic

/-!
# `memmove` (`kernel/string.c`, `user/ulib.c`)

Two implementations.  The kernel copies backwards if the destination begins inside the source, the user library if
the source is not above the destination.  A copy forwards is right unless the destination begins inside the source,
a copy backwards unless it begins below the source and ends inside it; both tests stay clear of the bad cases.
-/

namespace Xv6.Memmove

abbrev Mem := UInt64 → UInt8

/-- `while(n-- > 0) *d++ = *s++;`. -/
def forward : ℕ → UInt64 → UInt64 → Mem → Mem
  | 0, _, _, mem => mem
  | n + 1, d, s, mem => forward n (d + 1) (s + 1) (Function.update mem d (mem s))

/-- `while(n-- > 0) *--d = *--s;`. -/
def backward : ℕ → UInt64 → UInt64 → Mem → Mem
  | 0, _, _, mem => mem
  | n + 1, d, s, mem => backward n (d - 1) (s - 1) (Function.update mem (d - 1) (mem (s - 1)))

/-- `memmove` of `kernel/string.c`. -/
def kernelMemmove (dst src : UInt64) (n : UInt32) (mem : Mem) : Mem :=
  if src < dst ∧ src + n.toUInt64 > dst then backward n.toNat (dst + n.toUInt64) (src + n.toUInt64) mem
  else forward n.toNat dst src mem

/-- `memmove` of `user/ulib.c`, with an `int` for the length. -/
def userMemmove (dst src : UInt64) (n : BitVec 32) (mem : Mem) : Mem :=
  if src > dst then forward n.toInt.toNat dst src mem
  else
    backward n.toInt.toNat (dst + UInt64.ofBitVec (n.signExtend 64)) (src + UInt64.ofBitVec (n.signExtend 64)) mem

/-! ### Addresses -/

/-- Address `p` and the `n` behind it do not wrap. -/
def NoWrap (p : UInt64) (n : ℕ) : Prop := p.toNat + n < 2 ^ 64

instance (p : UInt64) (n : ℕ) : Decidable (NoWrap p n) := inferInstanceAs (Decidable (_ < _))

theorem toNat_add {p : UInt64} {n k : ℕ} (h : NoWrap p n) (hk : k ≤ n) : (p + UInt64.ofNat k).toNat = p.toNat + k := by
  have hlt : p.toNat + n < 2 ^ 64 := h
  rw [UInt64.toNat_add, UInt64.toNat_ofNat', Nat.mod_eq_of_lt (show k < 2 ^ 64 by omega), Nat.mod_eq_of_lt (by omega)]

theorem add_eq_iff {p q : UInt64} {n m k j : ℕ} (hp : NoWrap p n) (hk : k ≤ n) (hq : NoWrap q m) (hj : j ≤ m) :
    p + UInt64.ofNat k = q + UInt64.ofNat j ↔ p.toNat + k = q.toNat + j := by
  rw [← UInt64.toNat_inj, toNat_add hp hk, toNat_add hq hj]

theorem add_succ (p : UInt64) (k : ℕ) : p + 1 + UInt64.ofNat k = p + UInt64.ofNat (k + 1) := by
  rw [UInt64.ofNat_add, UInt64.add_assoc, UInt64.add_comm (UInt64.ofNat k)]
  rfl

theorem add_pred (p : UInt64) (n : ℕ) : p + UInt64.ofNat (n + 1) - 1 = p + UInt64.ofNat n := by
  rw [← add_succ, UInt64.add_assoc, UInt64.add_comm 1, ← UInt64.add_assoc, UInt64.add_sub_cancel]

theorem NoWrap.succ {p : UInt64} {n : ℕ} (h : NoWrap p (n + 1)) : NoWrap (p + 1) n := by
  have hone : (p + 1).toNat = p.toNat + 1 := toNat_add h (show 1 ≤ n + 1 by omega)
  have hlt : p.toNat + (n + 1) < 2 ^ 64 := h
  unfold NoWrap
  omega

theorem NoWrap.pred {p : UInt64} {n : ℕ} (h : NoWrap p (n + 1)) : NoWrap p n :=
  Nat.lt_of_succ_lt h

/-! ### The two copies -/

/-- The `n` bytes at `dst` are those that were at `src`, and no other byte has changed. -/
structure Moved (dst src : UInt64) (n : ℕ) (mem mem' : Mem) : Prop where
  copied : ∀ k, k < n → mem' (dst + UInt64.ofNat k) = mem (src + UInt64.ofNat k)
  other : ∀ a, (∀ k, k < n → a ≠ dst + UInt64.ofNat k) → mem' a = mem a

theorem moved_zero (dst src : UInt64) (mem : Mem) : Moved dst src 0 mem mem :=
  ⟨fun k hk => absurd hk (Nat.not_lt_zero k), fun _ _ => rfl⟩

theorem Moved.unique {dst src : UInt64} {n : ℕ} {mem m₁ m₂ : Mem} (h₁ : Moved dst src n mem m₁)
    (h₂ : Moved dst src n mem m₂) : m₁ = m₂ := by
  funext a
  by_cases ha : ∀ k, k < n → a ≠ dst + UInt64.ofNat k
  · rw [h₁.other a ha, h₂.other a ha]
  · push Not at ha
    obtain ⟨k, hk, rfl⟩ := ha
    rw [h₁.copied k hk, h₂.copied k hk]

theorem forward_moved (n : ℕ) : ∀ (d s : UInt64) (mem : Mem), NoWrap d n → NoWrap s n →
    (d.toNat ≤ s.toNat ∨ s.toNat + n ≤ d.toNat) → Moved d s n mem (forward n d s mem) := by
  induction n with
  | zero => exact fun d s mem _ _ _ => moved_zero d s mem
  | succ n ih =>
    intro d s mem hd hs hapart
    have hd1 : (d + 1).toNat = d.toNat + 1 := toNat_add hd (show 1 ≤ n + 1 by omega)
    have hs1 : (s + 1).toNat = s.toNat + 1 := toNat_add hs (show 1 ≤ n + 1 by omega)
    have hrest := ih (d + 1) (s + 1) (Function.update mem d (mem s)) hd.succ hs.succ (by omega)
    -- the byte that is overwritten is not read later
    have hkeep : ∀ k, k < n → s + UInt64.ofNat (k + 1) ≠ d := by
      intro k hk e
      have hat := toNat_add hs (show k + 1 ≤ n + 1 by omega)
      rw [e] at hat
      omega
    have hself : ∀ k, k < n → d ≠ d + 1 + UInt64.ofNat k := by
      intro k hk e
      have hat := toNat_add hd (show k + 1 ≤ n + 1 by omega)
      rw [← add_succ, ← e] at hat
      omega
    refine ⟨fun k hk => ?_, fun a ha => ?_⟩
    · cases k with
      | zero =>
        show forward n (d + 1) (s + 1) _ (d + 0) = mem (s + 0)
        rw [UInt64.add_zero, UInt64.add_zero, hrest.other d hself, Function.update_self]
      | succ k =>
        have hcopied := hrest.copied k (by omega)
        rw [add_succ, add_succ, Function.update_of_ne (hkeep k (by omega))] at hcopied
        exact hcopied
    · have hd0 : a ≠ d := by
        have hzero := ha 0 (Nat.succ_pos n)
        rwa [show d + UInt64.ofNat 0 = d from UInt64.add_zero d] at hzero
      have hother := hrest.other a fun k hk => by
        rw [add_succ]
        exact ha (k + 1) (by omega)
      rw [Function.update_of_ne hd0] at hother
      exact hother

theorem backward_moved (n : ℕ) : ∀ (d s : UInt64) (mem : Mem), NoWrap d n → NoWrap s n →
    (s.toNat ≤ d.toNat ∨ d.toNat + n ≤ s.toNat) →
    Moved d s n mem (backward n (d + UInt64.ofNat n) (s + UInt64.ofNat n) mem) := by
  induction n with
  | zero => exact fun d s mem _ _ _ => moved_zero d s mem
  | succ n ih =>
    intro d s mem hd hs hapart
    show Moved d s (n + 1) mem (backward n (d + UInt64.ofNat (n + 1) - 1) (s + UInt64.ofNat (n + 1) - 1)
      (Function.update mem (d + UInt64.ofNat (n + 1) - 1) (mem (s + UInt64.ofNat (n + 1) - 1))))
    rw [add_pred, add_pred]
    have hrest := ih d s (Function.update mem (d + UInt64.ofNat n) (mem (s + UInt64.ofNat n))) hd.pred hs.pred
      (by omega)
    have hkeep : ∀ k, k < n → s + UInt64.ofNat k ≠ d + UInt64.ofNat n := by
      intro k hk e
      have hat := (add_eq_iff hs.pred (Nat.le_of_lt hk) hd.pred (Nat.le_refl n)).mp e
      omega
    have hself : ∀ k, k < n → d + UInt64.ofNat n ≠ d + UInt64.ofNat k := by
      intro k hk e
      have hat := (add_eq_iff hd.pred (Nat.le_refl n) hd.pred (Nat.le_of_lt hk)).mp e
      omega
    refine ⟨fun k hk => ?_, fun a ha => ?_⟩
    · rcases Nat.lt_succ_iff_lt_or_eq.mp hk with hlt | rfl
      · rw [hrest.copied k hlt, Function.update_of_ne (hkeep k hlt)]
      · rw [hrest.other _ hself, Function.update_self]
    · rw [hrest.other a fun k hk => ha k (by omega), Function.update_of_ne (ha n (Nat.lt_succ_self n))]

/-! ### The two tests -/

theorem kernelMemmove_moved {dst src : UInt64} {n : UInt32} (hd : NoWrap dst n.toNat) (hs : NoWrap src n.toNat)
    (mem : Mem) : Moved dst src n.toNat mem (kernelMemmove dst src n mem) := by
  have hn : n.toUInt64 = UInt64.ofNat n.toNat := by
    rw [← UInt64.toNat_inj, UInt32.toNat_toUInt64, UInt64.toNat_ofNat',
      Nat.mod_eq_of_lt (n.toNat_lt.trans (by decide))]
  have hend : (src + n.toUInt64).toNat = src.toNat + n.toNat := by
    rw [hn]
    exact toNat_add hs (Nat.le_refl _)
  unfold kernelMemmove
  by_cases hback : src < dst ∧ src + n.toUInt64 > dst
  · rw [if_pos hback, hn]
    exact backward_moved n.toNat dst src mem hd hs (.inl (Nat.le_of_lt (UInt64.lt_iff_toNat_lt.mp hback.1)))
  · rw [if_neg hback]
    refine forward_moved n.toNat dst src mem hd hs ?_
    by_cases hlt : src < dst
    · have hle := mt (fun h => And.intro hlt h) hback
      rw [gt_iff_lt, UInt64.lt_iff_toNat_lt, hend] at hle
      exact .inr (Nat.le_of_not_lt hle)
    · rw [UInt64.lt_iff_toNat_lt] at hlt
      exact .inl (Nat.le_of_not_lt hlt)

theorem userMemmove_moved {dst src : UInt64} {n : ℕ} {c : BitVec 32} (hc : c.toInt = n) (hd : NoWrap dst n)
    (hs : NoWrap src n) (mem : Mem) : Moved dst src n mem (userMemmove dst src c mem) := by
  have hcount : c.toInt.toNat = n := by rw [hc, Int.toNat_natCast]
  have hext : UInt64.ofBitVec (c.signExtend 64) = UInt64.ofNat n := by
    rw [← UInt64.toNat_inj, UInt64.toNat_ofNat']
    show (c.signExtend 64).toNat = n % 2 ^ 64
    have hint : (c.signExtend 64).toInt = n := by
      rw [BitVec.toInt_signExtend_of_le (by decide), hc]
    rw [BitVec.toInt_eq_toNat_cond] at hint
    have hlt := (c.signExtend 64).isLt
    split at hint
    · omega
    · omega
  unfold userMemmove
  rw [hcount, hext]
  by_cases hfor : src > dst
  · rw [if_pos hfor]
    exact forward_moved n dst src mem hd hs (.inl (Nat.le_of_lt (UInt64.lt_iff_toNat_lt.mp hfor)))
  · rw [if_neg hfor]
    refine backward_moved n dst src mem hd hs (.inl ?_)
    rw [gt_iff_lt, UInt64.lt_iff_toNat_lt] at hfor
    exact Nat.le_of_not_lt hfor

/-- **`memmove` is right for every overlap.**  Each of the two, given a length `n` that its parameter can hold,
leaves the bytes of the source in the destination and changes nothing else; so they agree. -/
theorem memmove_moves {dst src : UInt64} {n : ℕ} (hd : NoWrap dst n) (hs : NoWrap src n) (mem : Mem) :
    (∀ c : UInt32, c.toNat = n → Moved dst src n mem (kernelMemmove dst src c mem)) ∧
    (∀ c : BitVec 32, c.toInt = n → Moved dst src n mem (userMemmove dst src c mem)) ∧
    ∀ (c : UInt32) (c' : BitVec 32), c.toNat = n → c'.toInt = n →
      kernelMemmove dst src c mem = userMemmove dst src c' mem := by
  have hkernel : ∀ c : UInt32, c.toNat = n → Moved dst src n mem (kernelMemmove dst src c mem) := by
    rintro c rfl
    exact kernelMemmove_moved hd hs mem
  have huser : ∀ c : BitVec 32, c.toInt = n → Moved dst src n mem (userMemmove dst src c mem) :=
    fun c hc => userMemmove_moved hc hd hs mem
  exact ⟨hkernel, huser, fun c c' hc hc' => (hkernel c hc).unique (huser c' hc')⟩

/-- Three bytes one place up. -/
theorem memmove_moves_overlap : kernelMemmove 2 1 3 (fun a => a.toUInt8) 4 = 3 ∧
    userMemmove 2 1 3 (fun a => a.toUInt8) 4 = 3 := by
  have hmoves := memmove_moves (show NoWrap 2 3 by decide) (show NoWrap 1 3 by decide) fun a => a.toUInt8
  exact ⟨(hmoves.1 3 rfl).copied 2 (by decide), (hmoves.2.1 3 rfl).copied 2 (by decide)⟩

end Xv6.Memmove
