import Mathlib.Tactic

/-!
# Sv39 addresses and page-table entries (`kernel/riscv.h`)

A virtual address has a 12-bit offset and three 9-bit indices; a page-table entry has ten flag bits
below the physical page number.

* `PTE2PA_leaf`, `PTE_FLAGS_leaf` — the address and the flags put into an entry are the ones read from
  it, the address rounded down to its page;
* `eq_of_PX` — two page-aligned addresses below `MAXVA` with the same indices are equal.
-/

namespace Xv6.Sv39

/-- `uint64`, as an address. -/
abbrev Addr := BitVec 64

/-- `pte_t`. -/
abbrev Pte := BitVec 64

def PGSIZE : Addr := 4096

def PGROUNDUP (sz : Addr) : Addr := (sz + PGSIZE - 1) &&& ~~~(PGSIZE - 1)

def PGROUNDDOWN (a : Addr) : Addr := a &&& ~~~(PGSIZE - 1)

def PTE_V : Pte := 1

def PTE_R : Pte := 2

def PTE_W : Pte := 4

def PTE_X : Pte := 8

def PTE_U : Pte := 16

def PA2PTE (pa : Addr) : Pte := (pa >>> 12) <<< 10

def PTE2PA (pte : Pte) : Addr := (pte >>> 10) <<< 12

def PTE_FLAGS (pte : Pte) : Pte := pte &&& 0x3FF

def PXSHIFT (level : ℕ) : ℕ := 12 + 9 * level

def PX (level : ℕ) (va : Addr) : Fin 512 :=
  ⟨(va >>> PXSHIFT level).toNat % 512, Nat.mod_lt _ (by decide)⟩

def MAXVA : Addr := 1 <<< (9 + 9 + 9 + 12 - 1)

/-- `*pte & PTE_V`. -/
def Valid (pte : Pte) : Prop := pte &&& PTE_V ≠ 0

instance (pte : Pte) : Decidable (Valid pte) := inferInstanceAs (Decidable (_ ≠ _))

/-! ### Rounding -/

def Aligned (a : Addr) : Prop := a.toNat % 4096 = 0

instance (a : Addr) : Decidable (Aligned a) := inferInstanceAs (Decidable (_ = _))

theorem toNat_PGSIZE : PGSIZE.toNat = 4096 := rfl

theorem toNat_MAXVA : MAXVA.toNat = 274877906944 := rfl

theorem PGROUNDDOWN_eq (a : Addr) : PGROUNDDOWN a = (a >>> 12) <<< 12 := by
  refine BitVec.eq_of_getLsbD_eq fun i hi => ?_
  have hmask : (~~~(PGSIZE - 1) : Addr).getLsbD i = decide (12 ≤ i) := by
    revert i
    decide
  rw [PGROUNDDOWN, BitVec.getLsbD_and, hmask, BitVec.getLsbD_shiftLeft, BitVec.getLsbD_ushiftRight]
  by_cases h : 12 ≤ i
  · have h' : ¬ i < 12 := by omega
    simp [hi, h, h', Nat.add_sub_of_le h]
  · have h' : i < 12 := by omega
    simp [h, h']

theorem toNat_PGROUNDDOWN (a : Addr) : (PGROUNDDOWN a).toNat = a.toNat / 4096 * 4096 := by
  rw [PGROUNDDOWN_eq, BitVec.toNat_shiftLeft, BitVec.toNat_ushiftRight, Nat.shiftRight_eq_div_pow,
    Nat.shiftLeft_eq]
  have := a.isLt
  omega

theorem aligned_PGROUNDDOWN (a : Addr) : Aligned (PGROUNDDOWN a) := by
  show (PGROUNDDOWN a).toNat % 4096 = 0
  rw [toNat_PGROUNDDOWN, Nat.mul_mod_left]

theorem PGROUNDDOWN_of_aligned {a : Addr} (h : Aligned a) : PGROUNDDOWN a = a := by
  apply BitVec.eq_of_toNat_eq
  rw [toNat_PGROUNDDOWN, Nat.div_mul_cancel (Nat.dvd_of_mod_eq_zero h)]

theorem aligned_add_PGSIZE {a : Addr} (h : Aligned a) : Aligned (a + PGSIZE) := by
  unfold Aligned at *
  rw [BitVec.toNat_add, toNat_PGSIZE]
  omega

/-! ### Entries -/

theorem not_valid_zero : ¬ Valid 0 := fun h => h rfl

theorem valid_iff (pte : Pte) : Valid pte ↔ pte.getLsbD 0 = true := by
  have hone : ∀ i, i < 64 → (PTE_V : Pte).getLsbD i = decide (i = 0) := by decide
  constructor
  · intro h
    by_contra hbit
    refine h (BitVec.eq_of_getLsbD_eq fun i hi => ?_)
    rw [BitVec.getLsbD_and, hone i hi]
    by_cases hz : i = 0
    · subst hz
      simpa using hbit
    · simp [hz]
  · intro h hz
    have hbit := congrArg (fun x : Pte => x.getLsbD 0) hz
    rw [BitVec.getLsbD_and, h, hone 0 (by decide)] at hbit
    simp at hbit

theorem getLsbD_PA2PTE (pa : Addr) {i : ℕ} (hi : i < 64) :
    (PA2PTE pa).getLsbD i = (decide (10 ≤ i) && pa.getLsbD (i + 2)) := by
  rw [PA2PTE, BitVec.getLsbD_shiftLeft, BitVec.getLsbD_ushiftRight]
  by_cases h : 10 ≤ i
  · have h' : ¬ i < 10 := by omega
    have he : 12 + (i - 10) = i + 2 := by omega
    simp [hi, h, h', he]
  · have h' : i < 10 := by omega
    simp [h, h']

theorem getLsbD_of_lt {perm : Pte} (hperm : perm.toNat < 1024) {i : ℕ} (hi : 10 ≤ i) : perm.getLsbD i = false := by
  rw [BitVec.getLsbD]
  refine Nat.testBit_lt_two_pow (lt_of_lt_of_le hperm ?_)
  exact Nat.pow_le_pow_right (n := 2) (by omega) hi

/-- **The address survives the round trip through an entry.** -/
theorem PTE2PA_leaf {pa : Addr} {perm : Pte} (hperm : perm.toNat < 1024) :
    PTE2PA (PA2PTE pa ||| perm) = PGROUNDDOWN pa := by
  rw [PGROUNDDOWN_eq]
  refine BitVec.eq_of_getLsbD_eq fun i hi => ?_
  rw [PTE2PA, BitVec.getLsbD_shiftLeft, BitVec.getLsbD_ushiftRight, BitVec.getLsbD_or,
    BitVec.getLsbD_shiftLeft, BitVec.getLsbD_ushiftRight]
  by_cases h : i < 12
  · simp [h]
  · have hlow : 10 + (i - 12) < 64 := by omega
    have he : 10 + (i - 12) + 2 = 12 + (i - 12) := by omega
    have hge : 10 ≤ 10 + (i - 12) := by omega
    rw [getLsbD_of_lt hperm hge, getLsbD_PA2PTE pa hlow, he]
    simp

/-- **So do the flags.** -/
theorem PTE_FLAGS_leaf {pa : Addr} {perm : Pte} (hperm : perm.toNat < 1024) :
    PTE_FLAGS (PA2PTE pa ||| perm) = perm := by
  refine BitVec.eq_of_getLsbD_eq fun i hi => ?_
  have hmask : (0x3FF : Pte).getLsbD i = decide (i < 10) := by
    revert i
    decide
  rw [PTE_FLAGS, BitVec.getLsbD_and, BitVec.getLsbD_or, getLsbD_PA2PTE pa hi, hmask]
  by_cases h : i < 10
  · have h' : ¬ 10 ≤ i := by omega
    simp [h, h']
  · rw [getLsbD_of_lt hperm (by omega)]
    simp [h]

theorem aligned_PTE2PA (pte : Pte) : Aligned (PTE2PA pte) := by
  show (PTE2PA pte).toNat % 4096 = 0
  rw [PTE2PA, BitVec.toNat_shiftLeft, Nat.shiftLeft_eq]
  omega

theorem toNat_or_PTE_V_lt {perm : Pte} (hperm : perm.toNat < 1024) : (perm ||| PTE_V).toNat < 1024 := by
  rw [BitVec.toNat_or]
  exact Nat.or_lt_two_pow (n := 10) hperm (by decide)

theorem valid_or_PTE_V (pte : Pte) : Valid (pte ||| PTE_V) := by
  rw [valid_iff, BitVec.getLsbD_or]
  simp [PTE_V]

/-! ### Indices -/

theorem PX_val (level : ℕ) (va : Addr) : (PX level va).val = va.toNat / 2 ^ (12 + 9 * level) % 512 := by
  show (va >>> PXSHIFT level).toNat % 512 = _
  rw [BitVec.toNat_ushiftRight, Nat.shiftRight_eq_div_pow, PXSHIFT]

theorem PX_PGROUNDDOWN (level : ℕ) (va : Addr) : PX level (PGROUNDDOWN va) = PX level va := by
  apply Fin.ext
  rw [PX_val, PX_val, toNat_PGROUNDDOWN, pow_add, ← Nat.div_div_eq_div_mul, ← Nat.div_div_eq_div_mul]
  norm_num

theorem toNat_lt_of_lt_MAXVA {va : Addr} (h : va < MAXVA) : va.toNat < 274877906944 := h

theorem toNat_add_PGSIZE {a : Addr} (h : a < MAXVA) : (a + PGSIZE).toNat = a.toNat + 4096 := by
  have hlt := toNat_lt_of_lt_MAXVA h
  rw [BitVec.toNat_add, toNat_PGSIZE]
  omega

/-- **Distinct pages have distinct paths.** -/
theorem eq_of_PX {va va' : Addr} (h : Aligned va) (h' : Aligned va') (hlt : va < MAXVA)
    (hlt' : va' < MAXVA) (heq : ∀ i ≤ 2, PX i va = PX i va') : va = va' := by
  have h0 := congrArg Fin.val (heq 0 (by omega))
  have h1 := congrArg Fin.val (heq 1 (by omega))
  have h2 := congrArg Fin.val (heq 2 (by omega))
  rw [PX_val, PX_val] at h0 h1 h2
  norm_num at h0 h1 h2
  have hb := toNat_lt_of_lt_MAXVA hlt
  have hb' := toNat_lt_of_lt_MAXVA hlt'
  unfold Aligned at h h'
  apply BitVec.eq_of_toNat_eq
  omega

end Xv6.Sv39
