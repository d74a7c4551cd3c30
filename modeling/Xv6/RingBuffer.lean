import Mathlib.Tactic

/-!
# Ring buffers with free-running counters

A ring of `N` slots with two `b`-bit counters that only ever go up and wrap around: `r` counts what was
taken out and `w` what was put in.  A counter's slot is its value modulo `N`.  When `N` divides `2 ^ b`,
wrapping a counter does not move it in the ring, and the ring is a queue of `(w - r) mod 2 ^ b` elements:

* `size_push`, `size_pop` — the number of elements;
* `contents_push` — storing at `w` appends, as long as fewer than `N` elements are in;
* `contents_pop`, `contents_back` — the element at `r` is the oldest one, the one before `w` the newest;
* `contents_append` — a third counter between the two cuts the queue in two.
-/

namespace Xv6.RingBuffer

variable {α : Type*} {N b : ℕ}

def size (r w : BitVec b) : ℕ := (w - r).toNat

theorem size_self (r : BitVec b) : size r r = 0 := by
  rw [size, BitVec.sub_self, BitVec.toNat_zero]

theorem size_eq_zero {r w : BitVec b} : size r w = 0 ↔ r = w := by
  constructor
  · intro h
    have hsub : w - r = 0#b := BitVec.eq_of_toNat_eq (h.trans BitVec.toNat_zero.symm)
    rw [BitVec.sub_eq_iff_eq_add.mp hsub, BitVec.zero_add]
  · rintro rfl
    exact size_self r

theorem size_push {r w : BitVec b} (h : size r w + 1 < 2 ^ b) : size r (w + 1) = size r w + 1 := by
  have hb : 0 < b := Nat.pos_of_ne_zero (by rintro rfl; omega)
  have hone : (1#b).toNat = 1 := BitVec.toNat_one hb
  have hadd : w + 1 - r = (w - r) + 1#b := by grind
  rw [size, hadd, BitVec.toNat_add_of_lt (by rwa [hone]), hone, size]

theorem toNat_eq_pred_add_one {x : BitVec b} (h : x.toNat ≠ 0) : x.toNat = (x - 1#b).toNat + 1 := by
  have hlt := x.isLt
  have hb : 0 < b := Nat.pos_of_ne_zero (by rintro rfl; omega)
  have hone : (1#b).toNat = 1 := BitVec.toNat_one hb
  have hpos := Nat.one_le_iff_ne_zero.mpr h
  rw [BitVec.toNat_sub_of_le (BitVec.le_def.mpr (hone.trans_le hpos)), hone]
  exact (Nat.sub_add_cancel hpos).symm

theorem size_pop {r w : BitVec b} (h : r ≠ w) : size r w = size (r + 1) w + 1 := by
  have hsub : w - (r + 1) = (w - r) - 1#b := by grind
  rw [size, size, hsub]
  exact toNat_eq_pred_add_one fun h0 => h (size_eq_zero.mp h0)

theorem size_back {r w : BitVec b} (h : r ≠ w) : size r w = size r (w - 1) + 1 := by
  have hsub : w - 1 - r = (w - r) - 1#b := by grind
  rw [size, size, hsub]
  exact toNat_eq_pred_add_one fun h0 => h (size_eq_zero.mp h0)

theorem size_between {r w e : BitVec b} (h : size r w ≤ size r e) : size r e = size r w + size w e := by
  have hsub : e - w = (e - r) - (w - r) := by grind
  have hle : w - r ≤ e - r := BitVec.le_def.mpr h
  have hwe : size w e = size r e - size r w := by
    rw [size, hsub, BitVec.toNat_sub_of_le hle]
    rfl
  omega

theorem add_size (r w : BitVec b) : r + BitVec.ofNat b (size r w) = w := by
  rw [size, BitVec.ofNat_toNat, BitVec.setWidth_eq]
  grind

variable [NeZero N]

def slot (N : ℕ) [NeZero N] (c : BitVec b) : Fin N := Fin.ofNat N c.toNat

theorem slot_add (hN : N ∣ 2 ^ b) (c : BitVec b) (k : ℕ) :
    (slot N (c + BitVec.ofNat b k)).val = (c.toNat + k) % N := by
  change (c + BitVec.ofNat b k).toNat % N = _
  rw [BitVec.toNat_add, BitVec.toNat_ofNat, Nat.add_mod_mod, Nat.mod_mod_of_dvd _ hN]

theorem slot_add_ne (hN : N ∣ 2 ^ b) (c : BitVec b) {j k : ℕ} (hjk : j < k) (hk : k < N) :
    slot N (c + BitVec.ofNat b j) ≠ slot N (c + BitVec.ofNat b k) := by
  intro heq
  have hmod : (c.toNat + j) % N = (c.toNat + k) % N := by
    rw [← slot_add hN, ← slot_add hN, heq]
  have hmodEq : j ≡ k [MOD N] := Nat.ModEq.add_left_cancel' c.toNat hmod
  have hj : j % N = k % N := hmodEq
  rw [Nat.mod_eq_of_lt (hjk.trans hk), Nat.mod_eq_of_lt hk] at hj
  omega

def contents (data : Fin N → α) (r w : BitVec b) : List α :=
  (List.range (size r w)).map fun k => data (slot N (r + BitVec.ofNat b k))

theorem length_contents (data : Fin N → α) (r w : BitVec b) : (contents data r w).length = size r w := by
  rw [contents, List.length_map, List.length_range]

theorem contents_self (data : Fin N → α) (r : BitVec b) : contents data r r = [] := by
  rw [contents, size_self, List.range_zero, List.map_nil]

/-- **Storing at `w` appends.** -/
theorem contents_push (hN : N ∣ 2 ^ b) {r w : BitVec b} (h : size r w < N) (hlt : size r w + 1 < 2 ^ b)
    (data : Fin N → α) (x : α) :
    contents (Function.update data (slot N w) x) r (w + 1) = contents data r w ++ [x] := by
  rw [contents, size_push hlt, List.range_succ, List.map_append, List.map_singleton, add_size,
    Function.update_self, contents]
  congr 1
  apply List.map_congr_left
  intro k hk
  have hne : slot N (r + BitVec.ofNat b k) ≠ slot N w := by
    have := slot_add_ne hN r (List.mem_range.mp hk) h
    rwa [add_size] at this
  exact Function.update_of_ne hne _ _

/-- **The element at `r` comes first.** -/
theorem contents_pop {r w : BitVec b} (h : r ≠ w) (data : Fin N → α) :
    contents data r w = data (slot N r) :: contents data (r + 1) w := by
  rw [contents, size_pop h, List.range_succ_eq_map, List.map_cons, List.map_map, contents]
  congr 1
  · rw [BitVec.add_zero]
  · apply List.map_congr_left
    intro k _
    change data (slot N (r + BitVec.ofNat b (k + 1))) = _
    rw [BitVec.ofNat_add, ← BitVec.add_assoc]
    congr 2
    grind

/-- **A third counter cuts the queue in two.** -/
theorem contents_append {r w e : BitVec b} (h : size r w ≤ size r e) (data : Fin N → α) :
    contents data r e = contents data r w ++ contents data w e := by
  rw [contents, size_between h, List.range_add, List.map_append, List.map_map, contents, contents]
  congr 1
  apply List.map_congr_left
  intro k _
  change data (slot N (r + BitVec.ofNat b (size r w + k))) = _
  rw [BitVec.ofNat_add, ← BitVec.add_assoc, add_size]

/-- **The element before `w` comes last.** -/
theorem contents_back {r w : BitVec b} (h : r ≠ w) (data : Fin N → α) :
    contents data r w = contents data r (w - 1) ++ [data (slot N (w - 1))] := by
  have hsize := size_back h
  have hle : size r (w - 1) ≤ size r w := by omega
  have hne : w - 1 ≠ w := by
    intro heq
    rw [heq] at hsize
    omega
  have hnext : w - 1 + 1 = w := by grind
  rw [contents_append hle, contents_pop hne, hnext, contents_self]

theorem contents_update (hN : N ∣ 2 ^ b) {r w e : BitVec b} (h : size r w ≤ size r e)
    (hlt : size r e < N) (data : Fin N → α) (x : α) :
    contents (Function.update data (slot N e) x) r w = contents data r w := by
  rw [contents, contents]
  apply List.map_congr_left
  intro k hk
  have hne : slot N (r + BitVec.ofNat b k) ≠ slot N e := by
    have := slot_add_ne hN r (lt_of_lt_of_le (List.mem_range.mp hk) h) hlt
    rwa [add_size] at this
  exact Function.update_of_ne hne _ _

end Xv6.RingBuffer
