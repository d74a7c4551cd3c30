import Mathlib.Tactic

/-!
# Bitmaps in byte arrays

Bit `b` of a byte array is bit `b % 8` of byte `b / 8`, selected by the mask `1 << (b % 8)`.
Setting a bit is `|=` with the mask and clearing it is `&=` with its complement; `testBit_setBit`
and `testBit_clearBit` say that exactly this bit changes.
-/

namespace Xv6.ByteBitmap

/-- `1 << (b % 8)`. -/
def mask (b : ℕ) : UInt8 := 1 <<< UInt8.ofNat (b % 8)

/-- `(data[b/8] & m) != 0`. -/
def testBit (f : ℕ → UInt8) (b : ℕ) : Bool := f (b / 8) &&& mask b != 0

/-- `data[b/8] |= m`. -/
def setBit (f : ℕ → UInt8) (b : ℕ) : ℕ → UInt8 :=
  Function.update f (b / 8) (f (b / 8) ||| mask b)

/-- `data[b/8] &= ~m`. -/
def clearBit (f : ℕ → UInt8) (b : ℕ) : ℕ → UInt8 :=
  Function.update f (b / 8) (f (b / 8) &&& ~~~ mask b)

theorem toBitVec_mask (b : ℕ) : (mask b).toBitVec = BitVec.twoPow 8 (b % 8) := by
  have h : b % 8 < 8 := Nat.mod_lt _ (by decide)
  unfold mask
  generalize b % 8 = k at h
  interval_cases k <;> rfl

theorem and_mask_eq_zero (x : UInt8) (b : ℕ) : x &&& mask b = 0 ↔ x.toBitVec.getLsbD (b % 8) = false := by
  have h : b % 8 < 8 := Nat.mod_lt _ (by decide)
  rw [← UInt8.toBitVec_inj, UInt8.toBitVec_and, toBitVec_mask, BitVec.and_twoPow]
  constructor
  · intro hz
    by_contra hc
    rw [if_pos (by simpa using hc)] at hz
    have hnat := congrArg BitVec.toNat hz
    rw [BitVec.toNat_twoPow] at hnat
    simp only [UInt8.toBitVec_ofNat, BitVec.toNat_ofNat, Nat.reducePow, Nat.zero_mod] at hnat
    generalize b % 8 = k at h hnat
    interval_cases k <;> simp at hnat
  · intro hf
    simp [hf]

theorem testBit_eq (f : ℕ → UInt8) (b : ℕ) : testBit f b = (f (b / 8)).toBitVec.getLsbD (b % 8) := by
  cases hb : (f (b / 8)).toBitVec.getLsbD (b % 8) with
  | false => simp [testBit, (and_mask_eq_zero _ _).mpr hb]
  | true =>
    have hne : f (b / 8) &&& mask b ≠ 0 := by
      intro hz
      rw [and_mask_eq_zero, hb] at hz
      cases hz
    simp [testBit, hne]

theorem eq_of_div_mod {b c : ℕ} (hd : c / 8 = b / 8) (hm : c % 8 = b % 8) : c = b := by omega

/-- **Exactly one bit is set.** -/
theorem testBit_setBit (f : ℕ → UInt8) (b c : ℕ) : testBit (setBit f b) c = (testBit f c || decide (c = b)) := by
  rw [testBit_eq, testBit_eq]
  have hlt : b % 8 < 8 := Nat.mod_lt _ (by decide)
  by_cases hd : c / 8 = b / 8
  · rw [setBit, hd, Function.update_self, UInt8.toBitVec_or, toBitVec_mask, BitVec.getLsbD_or,
      BitVec.getLsbD_twoPow]
    have hiff : (b % 8 = c % 8) ↔ c = b :=
      ⟨fun hm => eq_of_div_mod hd hm.symm, fun he => by rw [he]⟩
    simp [hlt, hiff]
  · have hne : c ≠ b := fun he => hd (by rw [he])
    simp [setBit, Function.update_of_ne hd, hne]

end Xv6.ByteBitmap
