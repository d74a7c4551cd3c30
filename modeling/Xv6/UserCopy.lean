import Xv6.LittleEndian
import Xv6.PageTableRuns

/-!
# Copies between the kernel and user memory (`kernel/vm.c`)

`copyout`, `copyin` and `copyinstr` go through the user range page by page: each turn asks `walkaddr`
for the physical page and moves the part of the range that lies in it.  The kernel buffer is memory of
its own, a function from offsets to bytes, and no page of the user.

`userByte s pagetable` is the memory that a user program sees, byte by byte.  The byte-wise copies
`putBytes`, `takeBytes` and `takeString` on such a memory say what the three functions are for.

* `copyout_eq`, `copyin_eq`, `copyinstr_eq` — the page-wise loops compute the byte-wise copies.
-/

namespace Xv6.UserCopy

open Xv6.Panics Xv6.LittleEndian Xv6.RadixTree Xv6.Sv39 Xv6.PhysMem Xv6.PageTable
open Function (update_self update_of_ne)

/-! ### Bytes of physical pages -/

/-- The byte at offset `d` of page `p`. -/
def pageByte (s : Kmem) (p : Addr) (d : ℕ) : UInt8 :=
  UInt8.ofNat ((s.mem p (Fin.ofNat 512 (d / 8))).toNat / 256 ^ (d % 8))

/-- The memory in which page `p` has the bytes `f`. -/
def setPage (s : Kmem) (p : Addr) (f : ℕ → UInt8) : Kmem :=
  { s with mem := Function.update s.mem p fun k => BitVec.ofNat 64 (getLE f (8 * k) 8) }

/-- `memmove(pa, src, n)`, for a range that does not leave its page. -/
def memmoveTo (pa : Addr) (src : ℕ → UInt8) (n : Addr) : Call Unit := update fun s =>
  setPage s (PGROUNDDOWN pa)
    (setBytes (pageByte s (PGROUNDDOWN pa)) (pa.toNat % 4096) n.toNat src)

/-- The bytes from `pa` on, up to the end of its page. -/
def bytesAt (pa : Addr) : Call (ℕ → UInt8) := gets fun s k =>
  pageByte s (PGROUNDDOWN pa) (pa.toNat % 4096 + k)

/-! ### The three functions -/

/-- `n = PGSIZE - (va - va0); if(n > len) n = len;` -/
def chunk (va len : Addr) : Addr :=
  if len < PGSIZE - (va - PGROUNDDOWN va) then len else PGSIZE - (va - PGROUNDDOWN va)

/-- The loop of `copyout`, with `src` at offset `i` of the buffer.  Every turn copies a byte at least, so
there are no more than `len` turns. -/
def copyoutLoop (pagetable : Addr) (src : ℕ → UInt8) : ℕ → Addr → ℕ → Addr → Call ℤ
  | 0, _, _, _ => pure 0
  | turn + 1, dstva, i, len =>
    if 0 < len then do
      let va0 := PGROUNDDOWN dstva
      let pa0 ← walkaddr pagetable va0
      if pa0 = 0 then pure (-1)
      else do
        let n := chunk dstva len
        memmoveTo (pa0 + (dstva - va0)) (fun k => src (i + k)) n
        copyoutLoop pagetable src turn (va0 + PGSIZE) (i + n.toNat) (len - n)
    else pure 0

def copyout (pagetable dstva : Addr) (src : ℕ → UInt8) (len : Addr) : Call ℤ :=
  copyoutLoop pagetable src len.toNat dstva 0 len

/-- The loop of `copyin`; the contents of the buffer are returned with the result. -/
def copyinLoop (pagetable : Addr) :
    ℕ → (ℕ → UInt8) → ℕ → Addr → Addr → Call (ℤ × (ℕ → UInt8))
  | 0, dst, _, _, _ => pure (0, dst)
  | turn + 1, dst, i, srcva, len =>
    if 0 < len then do
      let va0 := PGROUNDDOWN srcva
      let pa0 ← walkaddr pagetable va0
      if pa0 = 0 then pure (-1, dst)
      else do
        let n := chunk srcva len
        let p ← bytesAt (pa0 + (srcva - va0))
        copyinLoop pagetable turn (setBytes dst i n.toNat p) (i + n.toNat) (va0 + PGSIZE) (len - n)
    else pure (0, dst)

def copyin (pagetable : Addr) (dst : ℕ → UInt8) (srcva len : Addr) : Call (ℤ × (ℕ → UInt8)) :=
  copyinLoop pagetable len.toNat dst 0 srcva len

/-- The inner loop of `copyinstr`: `n` more bytes from `p`, to the buffer from offset `i` on.  It returns
`got_null` and the buffer. -/
def strLoop : ℕ → (ℕ → UInt8) → (ℕ → UInt8) → ℕ → Bool × (ℕ → UInt8)
  | 0, _, dst, _ => (false, dst)
  | n + 1, p, dst, i =>
    if p 0 = 0 then (true, Function.update dst i 0)
    else strLoop n (fun k => p (k + 1)) (Function.update dst i (p 0)) (i + 1)

/-- The loop of `copyinstr`. -/
def copyinstrLoop (pagetable : Addr) :
    ℕ → (ℕ → UInt8) → ℕ → Addr → Addr → Call (ℤ × (ℕ → UInt8))
  | 0, dst, _, _, _ => pure (-1, dst)
  | turn + 1, dst, i, srcva, max =>
    if 0 < max then do
      let va0 := PGROUNDDOWN srcva
      let pa0 ← walkaddr pagetable va0
      if pa0 = 0 then pure (-1, dst)
      else do
        let n := chunk srcva max
        let p ← bytesAt (pa0 + (srcva - va0))
        let r := strLoop n.toNat p dst i
        if r.1 then pure (0, r.2)
        else copyinstrLoop pagetable turn r.2 (i + n.toNat) (va0 + PGSIZE) (max - n)
    else pure (-1, dst)

def copyinstr (pagetable : Addr) (dst : ℕ → UInt8) (srcva max : Addr) :
    Call (ℤ × (ℕ → UInt8)) :=
  copyinstrLoop pagetable max.toNat dst 0 srcva max

/-! ### User memory -/

/-- The physical page of the user address `x`. -/
def userPage (s : Kmem) (pagetable : Addr) (x : ℕ) : Option Addr :=
  if x < MAXVA.toNat then
    (view s pagetable (BitVec.ofNat 64 x)).bind fun v => if v.2 &&& PTE_U = 0 then none else some v.1
  else none

/-- The byte at the user address `x`. -/
def userByte (s : Kmem) (pagetable : Addr) (x : ℕ) : Option UInt8 :=
  (userPage s pagetable x).map fun p => pageByte s p (x % 4096)

/-- The user pages are mapped to distinct nonzero pages. -/
structure Separate (s : Kmem) (pagetable : Addr) : Prop where
  nonzero : ∀ x p, userPage s pagetable x = some p → p ≠ 0
  distinct : ∀ x y p, userPage s pagetable x = some p → userPage s pagetable y = some p →
    x / 4096 = y / 4096

/-- Nor is one of them a page of the page table. -/
def Apart (s : Kmem) (pagetable : Addr) : Prop :=
  ∀ x p, userPage s pagetable x = some p → p ∉ tables s pagetable

/-! ### Byte-wise copies -/

/-- Copy `len` bytes of `src` from offset `i` on to address `va` on. -/
def putBytes (src : ℕ → UInt8) : ℕ → (ℕ → Option UInt8) → ℕ → ℕ → ℤ × (ℕ → Option UInt8)
  | 0, u, _, _ => (0, u)
  | len + 1, u, va, i =>
    if (u va).isSome then putBytes src len (Function.update u va (some (src i))) (va + 1) (i + 1)
    else (-1, u)

/-- Copy `len` bytes from address `va` on to the buffer from offset `i` on. -/
def takeBytes (u : ℕ → Option UInt8) : ℕ → (ℕ → UInt8) → ℕ → ℕ → ℤ × (ℕ → UInt8)
  | 0, dst, _, _ => (0, dst)
  | len + 1, dst, i, va =>
    match u va with
    | some b => takeBytes u len (Function.update dst i b) (i + 1) (va + 1)
    | none => (-1, dst)

/-- Copy bytes up to the first zero, no more than `max`. -/
def takeString (u : ℕ → Option UInt8) : ℕ → (ℕ → UInt8) → ℕ → ℕ → ℤ × (ℕ → UInt8)
  | 0, dst, _, _ => (-1, dst)
  | max + 1, dst, i, va =>
    match u va with
    | some b =>
      if b = 0 then (0, Function.update dst i 0)
      else takeString u max (Function.update dst i b) (i + 1) (va + 1)
    | none => (-1, dst)

variable {s t : Kmem} {pagetable p va len : Addr}

/-! ### Bytes of a page that is written -/

theorem pageByte_setPage (s : Kmem) (p : Addr) (f : ℕ → UInt8) {d : ℕ} (hd : d < 4096) :
    pageByte (setPage s p f) p d = f d := by
  have hk : (Fin.ofNat 512 (d / 8)).val = d / 8 := Nat.mod_eq_of_lt (by omega)
  have hlt : getLE f (8 * (d / 8)) 8 < 2 ^ 64 := getLE_lt f 8 _
  rw [pageByte, setPage]
  show UInt8.ofNat ((Function.update s.mem p _ p _).toNat / _) = _
  rw [update_self, hk, BitVec.toNat_ofNat, Nat.mod_eq_of_lt hlt,
    digit_getLE f 8 _ _ (Nat.mod_lt d (by omega)), Nat.div_add_mod]

theorem setPage_mem (s : Kmem) (f : ℕ → UInt8) {q : Addr} (h : q ≠ p) : (setPage s p f).mem q = s.mem q :=
  update_of_ne h _ _

theorem pageByte_congr {q : Addr} (h : t.mem q = s.mem q) (d : ℕ) : pageByte t q d = pageByte s q d := by
  rw [pageByte, pageByte, h]

/-! ### User pages -/

theorem userPage_lt {x : ℕ} (h : userPage s pagetable x = some p) : x < 274877906944 := by
  unfold userPage at h
  split at h
  · assumption
  · cases h

theorem userPage_of_div {x y : ℕ} (h : x / 4096 = y / 4096) : userPage s pagetable x = userPage s pagetable y := by
  unfold userPage
  rw [toNat_MAXVA]
  by_cases hx : x < 274877906944
  · have hround : PGROUNDDOWN (BitVec.ofNat 64 x) = PGROUNDDOWN (BitVec.ofNat 64 y) := by
      apply BitVec.eq_of_toNat_eq
      rw [toNat_PGROUNDDOWN, toNat_PGROUNDDOWN, BitVec.toNat_ofNat, BitVec.toNat_ofNat]
      omega
    rw [if_pos hx, if_pos (by omega), ← view_PGROUNDDOWN, hround, view_PGROUNDDOWN]
  · rw [if_neg hx, if_neg (by omega)]

theorem aligned_of_view {x : Addr} {v : Addr × Pte} (h : view s pagetable x = some v) : Aligned v.1 := by
  obtain ⟨pte, -, hleaf⟩ := Option.bind_eq_some_iff.mp h
  unfold leaf at hleaf
  split at hleaf
  · obtain rfl := Option.some.inj hleaf
    exact aligned_PTE2PA _
  · cases hleaf

theorem aligned_of_userPage {x : ℕ} (h : userPage s pagetable x = some p) : Aligned p := by
  have hlt : x < MAXVA.toNat := userPage_lt h
  rw [userPage, if_pos hlt] at h
  obtain ⟨v, hv, hp⟩ := Option.bind_eq_some_iff.mp h
  split at hp
  · cases hp
  · obtain rfl := Option.some.inj hp
    exact aligned_of_view hv

theorem walkaddr_userPage (s : Kmem) (pagetable va : Addr) : walkaddr pagetable (PGROUNDDOWN va) s =
    .ok ((userPage s pagetable va.toNat).getD 0, s) := by
  rw [walkaddr_eq, PGROUNDDOWN_of_aligned (aligned_PGROUNDDOWN va), view_PGROUNDDOWN, userPage,
    BitVec.ofNat_toNat, BitVec.setWidth_eq]
  by_cases hmax : va < MAXVA
  · rw [if_pos (PGROUNDDOWN_lt_MAXVA hmax), if_pos (BitVec.lt_def.mp hmax)]
    cases view s pagetable va with
    | none => rfl
    | some v =>
      show Except.ok (if v.2 &&& PTE_U = 0 then 0 else v.1, s) =
        Except.ok ((if v.2 &&& PTE_U = 0 then none else some v.1).getD 0, s)
      split
      · rfl
      · rfl
  · have hround : ¬ PGROUNDDOWN va < MAXVA := by
      rw [BitVec.lt_def, toNat_MAXVA] at *
      rw [toNat_PGROUNDDOWN]
      omega
    rw [if_neg hround, if_neg (mt BitVec.lt_def.mpr hmax)]
    rfl

/-! ### One turn -/

theorem toNat_offset (va : Addr) : (va - PGROUNDDOWN va).toNat = va.toNat % 4096 := by
  have := va.isLt
  rw [BitVec.toNat_sub, toNat_PGROUNDDOWN]
  omega

theorem toNat_add_offset (h : Aligned p) (va : Addr) :
    (p + (va - PGROUNDDOWN va)).toNat = p.toNat + va.toNat % 4096 := by
  have := p.isLt
  unfold Aligned at h
  rw [BitVec.toNat_add, toNat_offset]
  omega

theorem PGROUNDDOWN_add_offset (h : Aligned p) (va : Addr) : PGROUNDDOWN (p + (va - PGROUNDDOWN va)) = p := by
  apply BitVec.eq_of_toNat_eq
  rw [toNat_PGROUNDDOWN, toNat_add_offset h]
  unfold Aligned at h
  omega

theorem toNat_chunk (va len : Addr) : (chunk va len).toNat = min (4096 - va.toNat % 4096) len.toNat := by
  have hrest : (PGSIZE - (va - PGROUNDDOWN va)).toNat = 4096 - va.toNat % 4096 := by
    rw [BitVec.toNat_sub, toNat_offset, toNat_PGSIZE]
    omega
  unfold chunk
  split
  case isTrue h =>
    rw [BitVec.lt_def, hrest] at h
    omega
  case isFalse h =>
    rw [BitVec.lt_def, hrest] at h
    rw [hrest]
    omega

theorem toNat_rest (va len : Addr) : (len - chunk va len).toNat = len.toNat - (chunk va len).toNat := by
  have hn := toNat_chunk va len
  have := len.isLt
  rw [BitVec.toNat_sub]
  omega

theorem next_turn (h : userPage s pagetable va.toNat = some p) : (len - chunk va len).toNat = 0 ∨
    (PGROUNDDOWN va + PGSIZE).toNat = va.toNat + (chunk va len).toNat := by
  have hlt := userPage_lt h
  rw [toNat_rest, BitVec.toNat_add, toNat_PGROUNDDOWN, toNat_PGSIZE, toNat_chunk]
  omega

theorem userByte_turn (h : userPage s pagetable va.toNat = some p) {k : ℕ} (hk : k < (chunk va len).toNat) :
    userByte s pagetable (va.toNat + k) = some (pageByte s p (va.toNat % 4096 + k)) := by
  rw [toNat_chunk] at hk
  have hdiv : (va.toNat + k) / 4096 = va.toNat / 4096 := by omega
  have hmod : (va.toNat + k) % 4096 = va.toNat % 4096 + k := by omega
  rw [userByte, userPage_of_div hdiv, h, hmod]
  rfl

theorem bytesAt_turn (h : userPage s pagetable va.toNat = some p) :
    bytesAt (p + (va - PGROUNDDOWN va)) s = .ok (fun k => pageByte s p (va.toNat % 4096 + k), s) := by
  have hal := aligned_of_userPage h
  unfold bytesAt gets
  rw [PGROUNDDOWN_add_offset hal, toNat_add_offset hal]
  have hmod : (p.toNat + va.toNat % 4096) % 4096 = va.toNat % 4096 := by
    unfold Aligned at hal
    omega
  rw [hmod]

/-! ### Reading, page by page and byte by byte -/

theorem setBytes_zero (f g : ℕ → UInt8) (off : ℕ) : setBytes f off 0 g = f := by
  funext k
  exact setBytes_outside f g (by omega)

theorem setBytes_succ (f g : ℕ → UInt8) (off n : ℕ) :
    setBytes f off (n + 1) g = setBytes (Function.update f off (g 0)) (off + 1) n fun k => g (k + 1) := by
  funext k
  unfold setBytes
  by_cases hk : k = off
  · subst hk
    rw [if_pos (by omega), if_neg (by omega), update_self, Nat.sub_self]
  · by_cases hin : off ≤ k ∧ k < off + (n + 1)
    · rw [if_pos hin, if_pos (by omega)]
      congr 1
      omega
    · rw [if_neg hin, if_neg (by omega), update_of_ne hk]

theorem takeBytes_add (u : ℕ → Option UInt8) (m : ℕ) : ∀ (n : ℕ) (g dst : ℕ → UInt8) (i va : ℕ),
    (∀ k < n, u (va + k) = some (g k)) →
    takeBytes u (n + m) dst i va = takeBytes u m (setBytes dst i n g) (i + n) (va + n) := by
  intro n
  induction n with
  | zero =>
    intro g dst i va _
    rw [setBytes_zero, Nat.zero_add]
    rfl
  | succ n ih =>
    intro g dst i va h
    have hhead : u va = some (g 0) := h 0 (by omega)
    rw [Nat.add_right_comm, takeBytes, hhead]
    show takeBytes u (n + m) _ (i + 1) (va + 1) = _
    rw [ih (fun k => g (k + 1)), ← setBytes_succ, Nat.add_right_comm i, Nat.add_right_comm va]
    · rfl
    · intro k hk
      rw [Nat.add_right_comm]
      exact h (k + 1) (by omega)

theorem takeString_add (u : ℕ → Option UInt8) (m : ℕ) : ∀ (n : ℕ) (g dst : ℕ → UInt8) (i va : ℕ),
    (∀ k < n, u (va + k) = some (g k)) → takeString u (n + m) dst i va =
      if (strLoop n g dst i).1 then (0, (strLoop n g dst i).2)
      else takeString u m (strLoop n g dst i).2 (i + n) (va + n) := by
  intro n
  induction n with
  | zero =>
    intro g dst i va _
    rw [Nat.zero_add]
    rfl
  | succ n ih =>
    intro g dst i va h
    have hhead : u va = some (g 0) := h 0 (by omega)
    rw [Nat.add_right_comm, takeString, hhead, strLoop]
    show (if g 0 = 0 then _ else takeString u (n + m) _ (i + 1) (va + 1)) = _
    by_cases hz : g 0 = 0
    · rw [if_pos hz, if_pos hz]
      rfl
    · rw [if_neg hz, if_neg hz, ih fun k => g (k + 1)]
      · rw [Nat.add_right_comm i, Nat.add_right_comm va]
        rfl
      · intro k hk
        rw [Nat.add_right_comm]
        exact h (k + 1) (by omega)

theorem takeBytes_next (u : ℕ → Option UInt8) {m a b : ℕ} (h : m = 0 ∨ a = b) (dst : ℕ → UInt8)
    (i : ℕ) : takeBytes u m dst i a = takeBytes u m dst i b := by
  rcases h with rfl | rfl
  · rfl
  · rfl

theorem takeString_next (u : ℕ → Option UInt8) {m a b : ℕ} (h : m = 0 ∨ a = b) (dst : ℕ → UInt8)
    (i : ℕ) : takeString u m dst i a = takeString u m dst i b := by
  rcases h with rfl | rfl
  · rfl
  · rfl

theorem userByte_none (h : userPage s pagetable va.toNat = none) : userByte s pagetable va.toNat = none := by
  rw [userByte, h]
  rfl

/-- **`copyin` is the byte-wise copy.** -/
theorem copyinLoop_eq (h : Separate s pagetable) : ∀ (turn : ℕ) (dst : ℕ → UInt8) (i : ℕ)
    (va len : Addr), len.toNat ≤ turn → copyinLoop pagetable turn dst i va len s =
      .ok (takeBytes (userByte s pagetable) len.toNat dst i va.toNat, s) := by
  intro turn
  induction turn with
  | zero =>
    intro dst i va len hlen
    rw [Nat.le_zero.mp hlen]
    rfl
  | succ turn ih =>
    intro dst i va len hlen
    unfold copyinLoop
    by_cases hpos : 0 < len
    · have hpos' : 0 < len.toNat := hpos
      rw [if_pos hpos, bind_of_ok (walkaddr_userPage s pagetable va)]
      cases hp : userPage s pagetable va.toNat with
      | none =>
        obtain ⟨m, hm⟩ : ∃ m, len.toNat = m + 1 := ⟨len.toNat - 1, by omega⟩
        rw [hm, takeBytes, userByte_none hp]
        rfl
      | some p =>
        have hn := toNat_chunk va len
        have hrest := toNat_rest va len
        have hsplit : len.toNat = (chunk va len).toNat + (len - chunk va len).toNat := by omega
        show (if p = 0 then _ else bytesAt (p + (va - PGROUNDDOWN va)) >>= _) s = _
        rw [if_neg (h.nonzero _ _ hp), bind_of_ok (bytesAt_turn hp), ih _ _ _ _ (by omega), hsplit,
          takeBytes_add _ _ _ _ _ _ _ fun k hk => userByte_turn hp hk,
          takeBytes_next _ (next_turn hp)]
    · have hzero : len.toNat = 0 := Nat.le_zero.mp (Nat.not_lt.mp hpos)
      rw [if_neg hpos, hzero]
      rfl

theorem copyin_eq (h : Separate s pagetable) (dst : ℕ → UInt8) (va len : Addr) : copyin pagetable dst va len s =
      .ok (takeBytes (userByte s pagetable) len.toNat dst 0 va.toNat, s) :=
  copyinLoop_eq h len.toNat dst 0 va len (Nat.le_refl _)

/-- **`copyinstr` is the byte-wise copy.** -/
theorem copyinstrLoop_eq (h : Separate s pagetable) : ∀ (turn : ℕ) (dst : ℕ → UInt8) (i : ℕ)
    (va max : Addr), max.toNat ≤ turn → copyinstrLoop pagetable turn dst i va max s =
      .ok (takeString (userByte s pagetable) max.toNat dst i va.toNat, s) := by
  intro turn
  induction turn with
  | zero =>
    intro dst i va max hmax
    rw [Nat.le_zero.mp hmax]
    rfl
  | succ turn ih =>
    intro dst i va max hmax
    unfold copyinstrLoop
    by_cases hpos : 0 < max
    · have hpos' : 0 < max.toNat := hpos
      rw [if_pos hpos, bind_of_ok (walkaddr_userPage s pagetable va)]
      cases hp : userPage s pagetable va.toNat with
      | none =>
        obtain ⟨m, hm⟩ : ∃ m, max.toNat = m + 1 := ⟨max.toNat - 1, by omega⟩
        rw [hm, takeString, userByte_none hp]
        rfl
      | some p =>
        have hn := toNat_chunk va max
        have hrest := toNat_rest va max
        have hsplit : max.toNat = (chunk va max).toNat + (max - chunk va max).toNat := by omega
        show (if p = 0 then _ else bytesAt (p + (va - PGROUNDDOWN va)) >>= _) s = _
        rw [if_neg (h.nonzero _ _ hp), bind_of_ok (bytesAt_turn hp), hsplit,
          takeString_add _ _ _ _ _ _ _ fun k hk => userByte_turn hp hk]
        split
        · rfl
        · rw [ih _ _ _ _ (by omega), takeString_next _ (next_turn hp)]
    · have hzero : max.toNat = 0 := Nat.le_zero.mp (Nat.not_lt.mp hpos)
      rw [if_neg hpos, hzero]
      rfl

theorem copyinstr_eq (h : Separate s pagetable) (dst : ℕ → UInt8) (va max : Addr) : copyinstr pagetable dst va max s =
      .ok (takeString (userByte s pagetable) max.toNat dst 0 va.toNat, s) :=
  copyinstrLoop_eq h max.toNat dst 0 va max (Nat.le_refl _)

/-! ### Writing -/

/-- A memory with the bytes of `src` from offset `i` on at the addresses from `va` on. -/
def overwritten (u : ℕ → Option UInt8) (va n : ℕ) (src : ℕ → UInt8) (i : ℕ) : ℕ → Option UInt8 := fun x =>
  if va ≤ x ∧ x < va + n then some (src (i + (x - va))) else u x

theorem overwritten_succ (u : ℕ → Option UInt8) (va n : ℕ) (src : ℕ → UInt8) (i : ℕ) :
    overwritten (Function.update u va (some (src i))) (va + 1) n src (i + 1) = overwritten u va (n + 1) src i := by
  funext x
  unfold overwritten
  by_cases hx : x = va
  · subst hx
    rw [if_neg (by omega), if_pos (by omega), update_self, Nat.sub_self, Nat.add_zero]
  · by_cases hin : va ≤ x ∧ x < va + (n + 1)
    · rw [if_pos (by omega), if_pos hin]
      congr 2
      omega
    · rw [if_neg (by omega), if_neg hin, update_of_ne hx]

theorem putBytes_add (src : ℕ → UInt8) (m : ℕ) : ∀ (n : ℕ) (u : ℕ → Option UInt8) (va i : ℕ),
    (∀ k < n, (u (va + k)).isSome) →
    putBytes src (n + m) u va i = putBytes src m (overwritten u va n src i) (va + n) (i + n) := by
  intro n
  induction n with
  | zero =>
    intro u va i _
    have hnone : overwritten u va 0 src i = u := funext fun x => if_neg (by omega)
    rw [hnone, Nat.zero_add]
    rfl
  | succ n ih =>
    intro u va i h
    have hhead : (u va).isSome := h 0 (by omega)
    rw [Nat.add_right_comm, putBytes, if_pos hhead, ih, overwritten_succ,
      Nat.add_right_comm i, Nat.add_right_comm va]
    · rfl
    · intro k hk
      rw [update_of_ne (by omega), Nat.add_right_comm]
      exact h (k + 1) (by omega)

theorem putBytes_next (src : ℕ → UInt8) {m a b : ℕ} (h : m = 0 ∨ a = b) (u : ℕ → Option UInt8) (i : ℕ) :
    putBytes src m u a i = putBytes src m u b i := by
  rcases h with rfl | rfl
  · rfl
  · rfl

theorem userPage_congr (h : ∀ q ∈ tables s pagetable, t.mem q = s.mem q) (x : ℕ) :
    userPage t pagetable x = userPage s pagetable x := by
  rw [userPage, userPage, view_congr h]

theorem Separate.congr (h : Separate s pagetable)
    (hpage : ∀ x, userPage t pagetable x = userPage s pagetable x) : Separate t pagetable where
  nonzero := by
    intro x p hp
    rw [hpage] at hp
    exact h.nonzero x p hp
  distinct := by
    intro x y p hx hy
    rw [hpage] at hx hy
    exact h.distinct x y p hx hy

/-- What a copy to user memory leaves alone. -/
structure Moved (s t : Kmem) (pagetable : Addr) : Prop where
  free : t.free = s.free
  table : ∀ q ∈ tables s pagetable, t.mem q = s.mem q
  frame : ∀ q, (∀ x, userPage s pagetable x ≠ some q) → t.mem q = s.mem q

theorem Moved.page (h : Moved s t pagetable) (x : ℕ) : userPage t pagetable x = userPage s pagetable x :=
  userPage_congr h.table x

theorem Moved.refl (s : Kmem) (pagetable : Addr) : Moved s s pagetable :=
  ⟨rfl, fun _ _ => rfl, fun _ _ => rfl⟩

theorem Moved.trans {v : Kmem} (h : Moved s t pagetable) (h' : Moved t v pagetable) :
    Moved s v pagetable where
  free := h'.free.trans h.free
  table := by
    intro q hq
    have htables : tables t pagetable = tables s pagetable := pages_congr h.table
    exact (h'.table q (htables ▸ hq)).trans (h.table q hq)
  frame := by
    intro q hq
    refine (h'.frame q fun x hx => hq x ?_).trans (h.frame q hq)
    rw [← h.page]
    exact hx

theorem Moved.apart (h : Moved s t pagetable) (ha : Apart s pagetable) : Apart t pagetable := by
  intro x p hp
  have htables : tables t pagetable = tables s pagetable := pages_congr h.table
  rw [h.page] at hp
  rw [htables]
  exact ha x p hp

theorem memmove_turn (h : Separate s pagetable) (ha : Apart s pagetable)
    (hp : userPage s pagetable va.toNat = some p) (len : Addr) (src : ℕ → UInt8) (i : ℕ) :
    ∃ t, memmoveTo (p + (va - PGROUNDDOWN va)) (fun k => src (i + k)) (chunk va len) s = .ok ((), t) ∧
      Moved s t pagetable ∧ userByte t pagetable =
        overwritten (userByte s pagetable) va.toNat (chunk va len).toNat src i := by
  have hal := aligned_of_userPage hp
  have hmod : (p + (va - PGROUNDDOWN va)).toNat % 4096 = va.toNat % 4096 := by
    rw [toNat_add_offset hal]
    unfold Aligned at hal
    omega
  have hmoved : ∀ f, Moved s (setPage s p f) pagetable := fun f => by
    refine ⟨rfl, fun q hq => setPage_mem s f fun e => ?_, fun q hq => setPage_mem s f fun e => ?_⟩
    · exact ha _ p hp (e ▸ hq)
    · exact hq _ (e ▸ hp)
  refine ⟨_, rfl, ?_, ?_⟩
  · rw [PGROUNDDOWN_add_offset hal]
    exact hmoved _
  · rw [PGROUNDDOWN_add_offset hal, hmod]
    have hn := toNat_chunk va len
    funext x
    rw [userByte, (hmoved _).page]
    unfold overwritten
    cases hx : userPage s pagetable x with
    | none =>
      rw [if_neg, userByte, hx]
      · rfl
      · rintro hin
        have hdiv : x / 4096 = va.toNat / 4096 := by omega
        rw [userPage_of_div hdiv, hp] at hx
        cases hx
    | some q =>
      rw [Option.map_some]
      by_cases hq : q = p
      · -- the page of this turn, since no two pages are mapped to the same one
        subst hq
        have hdiv := h.distinct _ _ _ hx hp
        rw [pageByte_setPage _ _ _ (Nat.mod_lt x (by omega)), setBytes]
        by_cases hin : va.toNat ≤ x ∧ x < va.toNat + (chunk va len).toNat
        · have hoff : x % 4096 - va.toNat % 4096 = x - va.toNat := by omega
          rw [if_pos hin, if_pos (by omega), hoff]
        · rw [if_neg hin, if_neg (by omega), userByte, hx]
          rfl
      · rw [if_neg, pageByte_congr (setPage_mem s _ hq), userByte, hx]
        · rfl
        · rintro hin
          have hdiv : x / 4096 = va.toNat / 4096 := by omega
          rw [userPage_of_div hdiv, hp] at hx
          exact hq (Option.some.inj hx).symm

/-- **`copyout` is the byte-wise copy.** -/
theorem copyoutLoop_eq (src : ℕ → UInt8) : ∀ (turn : ℕ) (s : Kmem) (va : Addr) (i : ℕ) (len : Addr),
    Separate s pagetable → Apart s pagetable → len.toNat ≤ turn → ∃ t, copyoutLoop pagetable src turn va i len s =
        .ok ((putBytes src len.toNat (userByte s pagetable) va.toNat i).1, t) ∧ Moved s t pagetable ∧
      userByte t pagetable = (putBytes src len.toNat (userByte s pagetable) va.toNat i).2 := by
  intro turn
  induction turn with
  | zero =>
    intro s va i len _ _ hlen
    rw [Nat.le_zero.mp hlen]
    exact ⟨s, rfl, .refl s pagetable, rfl⟩
  | succ turn ih =>
    intro s va i len h ha hlen
    unfold copyoutLoop
    by_cases hpos : 0 < len
    · have hpos' : 0 < len.toNat := hpos
      rw [if_pos hpos, bind_of_ok (walkaddr_userPage s pagetable va)]
      cases hp : userPage s pagetable va.toNat with
      | none =>
        obtain ⟨m, hm⟩ : ∃ m, len.toNat = m + 1 := ⟨len.toNat - 1, by omega⟩
        rw [hm, putBytes, userByte_none hp]
        exact ⟨s, rfl, .refl s pagetable, rfl⟩
      | some p =>
        have hn := toNat_chunk va len
        have hrest := toNat_rest va len
        have hsplit : len.toNat = (chunk va len).toNat + (len - chunk va len).toNat := by omega
        obtain ⟨t, hrun, hmoved, hbytes⟩ := memmove_turn h ha hp len src i
        obtain ⟨v, hrun', hmoved', hbytes'⟩ := ih t (PGROUNDDOWN va + PGSIZE)
          (i + (chunk va len).toNat) (len - chunk va len) (h.congr hmoved.page) (hmoved.apart ha)
          (by omega)
        have hsome : ∀ k < (chunk va len).toNat,
            (userByte s pagetable (va.toNat + k)).isSome := fun k hk => by
          rw [userByte_turn hp hk]
          rfl
        rw [hbytes, putBytes_next _ (next_turn hp), ← putBytes_add _ _ _ _ _ _ hsome, ← hsplit]
          at hrun' hbytes'
        refine ⟨v, ?_, hmoved.trans hmoved', hbytes'⟩
        show (if p = 0 then _ else memmoveTo (p + (va - PGROUNDDOWN va)) _ _ >>= _) s = _
        rw [if_neg (h.nonzero _ _ hp), bind_of_ok hrun]
        exact hrun'
    · have hzero : len.toNat = 0 := Nat.le_zero.mp (Nat.not_lt.mp hpos)
      rw [if_neg hpos, hzero]
      exact ⟨s, rfl, .refl s pagetable, rfl⟩

theorem copyout_eq (h : Separate s pagetable) (ha : Apart s pagetable) (va : Addr) (src : ℕ → UInt8)
    (len : Addr) : ∃ t, copyout pagetable va src len s =
        .ok ((putBytes src len.toNat (userByte s pagetable) va.toNat 0).1, t) ∧ Moved s t pagetable ∧
      userByte t pagetable = (putBytes src len.toNat (userByte s pagetable) va.toNat 0).2 :=
  copyoutLoop_eq src len.toNat s va 0 len h ha (Nat.le_refl _)

end Xv6.UserCopy
