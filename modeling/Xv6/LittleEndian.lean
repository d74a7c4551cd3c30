import Mathlib.Tactic

/-!
# Little-endian fields in a byte array

A byte array is a total function `ℕ → UInt8`; the code that uses it only ever looks at the
indices below its own size.  `getLE f off w` is the `w`-byte unsigned number stored at offset
`off`, `setLE f off w v` stores one.  A C structure laid out in a block or a page is read and
written field by field with these two, and everything the rest of the development needs about
layout is here:

* `getLE_setLE` — a field reads back what was stored in it;
* `getLE_setLE_disjoint` — a store leaves every field that does not overlap it alone;
* `getLE_congr` — a field only depends on its own bytes.
-/

namespace Xv6.LittleEndian

/-- The `w`-byte unsigned little-endian number at offset `off`. -/
def getLE (f : ℕ → UInt8) (off : ℕ) : ℕ → ℕ
  | 0 => 0
  | w + 1 => (f off).toNat + 256 * getLE f (off + 1) w

/-- Store the low `8 * w` bits of `v` at offset `off`. -/
def setLE (f : ℕ → UInt8) (off w v : ℕ) : ℕ → UInt8 := fun k =>
  if off ≤ k ∧ k < off + w then UInt8.ofNat (v / 256 ^ (k - off)) else f k

/-- Store the bytes `g 0 … g (n - 1)` at offset `off`. -/
def setBytes (f : ℕ → UInt8) (off n : ℕ) (g : ℕ → UInt8) : ℕ → UInt8 := fun k =>
  if off ≤ k ∧ k < off + n then g (k - off) else f k

theorem setLE_outside (f : ℕ → UInt8) {off w v k : ℕ} (h : k < off ∨ off + w ≤ k) : setLE f off w v k = f k := by
  unfold setLE
  rw [if_neg]
  omega

theorem setBytes_inside (f : ℕ → UInt8) {off n k : ℕ} (g : ℕ → UInt8) (h : k < n) :
    setBytes f off n g (off + k) = g k := by
  unfold setBytes
  rw [if_pos (by omega)]
  congr 1
  omega

theorem setBytes_outside (f : ℕ → UInt8) {off n k : ℕ} (g : ℕ → UInt8)
    (h : k < off ∨ off + n ≤ k) : setBytes f off n g k = f k := by
  unfold setBytes
  rw [if_neg]
  omega

theorem getLE_congr {f g : ℕ → UInt8} {w off : ℕ}
    (h : ∀ k, off ≤ k → k < off + w → f k = g k) : getLE f off w = getLE g off w := by
  induction w generalizing off with
  | zero => rfl
  | succ w ih =>
    rw [getLE, getLE, h off (by omega) (by omega), ih (fun k h1 h2 => h k (by omega) (by omega))]

theorem getLE_lt (f : ℕ → UInt8) : ∀ (w off : ℕ), getLE f off w < 256 ^ w
  | 0, _ => by simp [getLE]
  | w + 1, off => by
    have hrec := getLE_lt f w (off + 1)
    have hbyte := (f off).toNat_lt
    rw [getLE, pow_succ]
    omega

/-- The field whose bytes are the base-256 digits of `v` holds `v`, cut to its width. -/
theorem getLE_of_digits (f : ℕ → UInt8) : ∀ (w off v : ℕ),
    (∀ i, i < w → f (off + i) = UInt8.ofNat (v / 256 ^ i)) → getLE f off w = v % 256 ^ w
  | 0, _, v, _ => by simp [getLE, Nat.mod_one]
  | w + 1, off, v, h => by
    have hhead : f off = UInt8.ofNat v := by simpa using h 0 (by omega)
    have htail : getLE f (off + 1) w = v / 256 % 256 ^ w := by
      apply getLE_of_digits
      intro i hi
      rw [show off + 1 + i = off + (i + 1) from by omega, h (i + 1) (by omega),
        Nat.div_div_eq_div_mul, ← pow_succ']
    have hpow : 256 ^ (w + 1) = 256 * 256 ^ w := pow_succ' 256 w
    rw [getLE, hhead, htail, UInt8.toNat_ofNat', hpow, Nat.mod_mul]

/-- **Read back.** -/
theorem getLE_setLE (f : ℕ → UInt8) {off w v : ℕ} (hv : v < 256 ^ w) : getLE (setLE f off w v) off w = v := by
  rw [getLE_of_digits _ w off v, Nat.mod_eq_of_lt hv]
  intro i hi
  unfold setLE
  rw [if_pos (by omega), Nat.add_sub_cancel_left]

/-- **Disjoint fields do not interfere.** -/
theorem getLE_setLE_disjoint (f : ℕ → UInt8) {off w v off' w' : ℕ} (h : off' + w' ≤ off ∨ off + w ≤ off') :
    getLE (setLE f off w v) off' w' = getLE f off' w' := by
  apply getLE_congr
  intro k h1 h2
  exact setLE_outside f (by omega)

theorem digit_getLE (f : ℕ → UInt8) : ∀ (w off i : ℕ), i < w →
    UInt8.ofNat (getLE f off w / 256 ^ i) = f (off + i)
  | 0, _, _, h => absurd h (Nat.not_lt_zero _)
  | w + 1, off, 0, _ => by
    apply UInt8.toNat_inj.mp
    have hbyte := (f off).toNat_lt
    rw [getLE, UInt8.toNat_ofNat', pow_zero, Nat.div_one]
    show _ = (f off).toNat
    omega
  | w + 1, off, i + 1, h => by
    have hbyte := (f off).toNat_lt
    have htail : getLE f off (w + 1) / 256 = getLE f (off + 1) w := by
      rw [getLE]
      omega
    rw [pow_succ', ← Nat.div_div_eq_div_mul, htail, digit_getLE f w (off + 1) i (by omega)]
    congr 1
    omega

theorem getLE_zero : ∀ (w off : ℕ), getLE (fun _ => 0) off w = 0
  | 0, _ => rfl
  | w + 1, off => by rw [getLE, getLE_zero w]; rfl

example : getLE (setLE (fun _ => 7) 4 4 0x10203040) 4 4 = 0x10203040 := by decide

end Xv6.LittleEndian
