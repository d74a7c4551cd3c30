import Xv6.UserCopy

/-!
# User copies respect the mapping

What the byte-wise copies do, and with it what `copyout`, `copyin` and `copyinstr` do on every page
table whose user pages are distinct, nonzero and none of the table's own.  A page table that maps one of
its own pages for the user is not covered: `copyout_own_table` is a `copyout` that unmaps a page.
-/

namespace Xv6.UserCopy

open Xv6.Panics Xv6.LittleEndian Xv6.RadixTree Xv6.Sv39 Xv6.PhysMem Xv6.PageTable
open Function (update_self update_of_ne)

variable {s t : Kmem} {pagetable p va len : Addr}

/-! ### The byte-wise copies -/

theorem putBytes_spec (src : ℕ → UInt8) : ∀ (len : ℕ) (u : ℕ → Option UInt8) (va i : ℕ),
    ((putBytes src len u va i).1 = 0 ∧ (∀ k < len, (u (va + k)).isSome) ∧
      (putBytes src len u va i).2 = overwritten u va len src i) ∨
    ((putBytes src len u va i).1 = -1 ∧ ∃ m < len, u (va + m) = none ∧
      (putBytes src len u va i).2 = overwritten u va m src i) := by
  intro len
  induction len with
  | zero =>
    intro u va i
    refine .inl ⟨rfl, fun k hk => absurd hk (Nat.not_lt_zero k), ?_⟩
    exact funext fun x => (if_neg (by omega)).symm
  | succ len ih =>
    intro u va i
    unfold putBytes
    by_cases hsome : (u va).isSome
    · rw [if_pos hsome]
      have hbeyond : ∀ k, Function.update u va (some (src i)) (va + 1 + k) = u (va + (k + 1)) :=
        fun k => by rw [update_of_ne (by omega), Nat.add_right_comm]; rfl
      rcases ih (Function.update u va (some (src i))) (va + 1) (i + 1) with
        ⟨hr, hall, hu⟩ | ⟨hr, m, hm, hnone, hu⟩
      · refine .inl ⟨hr, fun k hk => ?_, hu.trans (overwritten_succ u va len src i)⟩
        cases k with
        | zero => exact hsome
        | succ k =>
          rw [← hbeyond]
          exact hall k (by omega)
      · rw [hbeyond] at hnone
        exact .inr ⟨hr, m + 1, by omega, hnone, hu.trans (overwritten_succ u va m src i)⟩
    · rw [if_neg hsome]
      refine .inr ⟨rfl, 0, by omega, Option.not_isSome_iff_eq_none.mp hsome, ?_⟩
      exact funext fun x => (if_neg (by omega)).symm

theorem takeBytes_outside (u : ℕ → Option UInt8) : ∀ (len : ℕ) (dst : ℕ → UInt8) (i va k : ℕ),
    k < i ∨ i + len ≤ k → (takeBytes u len dst i va).2 k = dst k := by
  intro len
  induction len with
  | zero => exact fun _ _ _ _ _ => rfl
  | succ len ih =>
    intro dst i va k hk
    unfold takeBytes
    cases u va with
    | none => rfl
    | some b =>
      show (takeBytes u len _ (i + 1) (va + 1)).2 k = dst k
      rw [ih _ _ _ _ (by omega), update_of_ne (by omega)]

theorem takeBytes_spec (u : ℕ → Option UInt8) : ∀ (len : ℕ) (dst : ℕ → UInt8) (i va : ℕ),
    ((takeBytes u len dst i va).1 = 0 ∧ ∀ k < len, u (va + k) = some ((takeBytes u len dst i va).2 (i + k))) ∨
    ((takeBytes u len dst i va).1 = -1 ∧ ∃ m < len, u (va + m) = none) := by
  intro len
  induction len with
  | zero => exact fun _ _ _ => .inl ⟨rfl, fun k hk => absurd hk (Nat.not_lt_zero k)⟩
  | succ len ih =>
    intro dst i va
    unfold takeBytes
    cases hu : u va with
    | none => exact .inr ⟨rfl, 0, by omega, hu⟩
    | some b =>
      rcases ih (Function.update dst i b) (i + 1) (va + 1) with ⟨hr, hall⟩ | ⟨hr, m, hm, hnone⟩
      · refine .inl ⟨hr, fun k hk => ?_⟩
        show u (va + k) = some ((takeBytes u len _ (i + 1) (va + 1)).2 (i + k))
        cases k with
        | zero =>
          rw [takeBytes_outside _ _ _ _ _ _ (.inl (by omega)), Nat.add_zero, Nat.add_zero,
            update_self]
          exact hu
        | succ k =>
          have hk' := hall k (by omega)
          rw [Nat.add_right_comm va, Nat.add_right_comm i] at hk'
          exact hk'
      · rw [Nat.add_right_comm] at hnone
        exact .inr ⟨hr, m + 1, by omega, hnone⟩

/-- The first zero byte from address `va` on is at `va + k`, and everything before it can be read. -/
def NulAt (u : ℕ → Option UInt8) (va k : ℕ) : Prop :=
  u (va + k) = some 0 ∧ ∀ j < k, ∃ b, u (va + j) = some b ∧ b ≠ 0

theorem nulAt_succ {u : ℕ → Option UInt8} {va k : ℕ} {b : UInt8} (hu : u va = some b) (hb : b ≠ 0) :
    NulAt u va (k + 1) ↔ NulAt u (va + 1) k := by
  unfold NulAt
  rw [Nat.add_right_comm va 1 k]
  refine and_congr_right fun _ => ⟨fun h j hj => ?_, fun h j hj => ?_⟩
  · rw [Nat.add_right_comm]
    exact h (j + 1) (by omega)
  · cases j with
    | zero => exact ⟨b, hu, hb⟩
    | succ j =>
      have hj' := h j (by omega)
      rw [Nat.add_right_comm] at hj'
      exact hj'

theorem takeString_outside (u : ℕ → Option UInt8) : ∀ (max : ℕ) (dst : ℕ → UInt8) (i va k : ℕ),
    k < i ∨ i + max ≤ k → (takeString u max dst i va).2 k = dst k := by
  intro max
  induction max with
  | zero => exact fun _ _ _ _ _ => rfl
  | succ max ih =>
    intro dst i va k hk
    unfold takeString
    cases u va with
    | none => rfl
    | some b =>
      show (if b = 0 then _ else takeString u max _ (i + 1) (va + 1)).2 k = dst k
      split
      · exact update_of_ne (by omega) _ _
      · rw [ih _ _ _ _ (by omega), update_of_ne (by omega)]

theorem takeString_spec (u : ℕ → Option UInt8) : ∀ (max : ℕ) (dst : ℕ → UInt8) (i va : ℕ),
    ((takeString u max dst i va).1 = 0 ∧ ∃ k < max, NulAt u va k ∧
      ∀ j ≤ k, u (va + j) = some ((takeString u max dst i va).2 (i + j))) ∨
    ((takeString u max dst i va).1 = -1 ∧ ∀ k < max, ¬ NulAt u va k) := by
  intro max
  induction max with
  | zero => exact fun _ _ _ => .inr ⟨rfl, fun k hk => absurd hk (Nat.not_lt_zero k)⟩
  | succ max ih =>
    intro dst i va
    cases hu : u va with
    | none =>
      have hstep : takeString u (max + 1) dst i va = (-1, dst) := by rw [takeString, hu]
      rw [hstep]
      refine .inr ⟨rfl, fun k _ hnul => ?_⟩
      cases k with
      | zero => exact absurd (hu.symm.trans hnul.1) (by simp)
      | succ k =>
        obtain ⟨b, hb, -⟩ := hnul.2 0 (by omega)
        exact absurd (hu.symm.trans hb) (by simp)
    | some b =>
      by_cases hb : b = 0
      · subst hb
        have hstep : takeString u (max + 1) dst i va = (0, Function.update dst i 0) := by
          rw [takeString, hu]
          rfl
        rw [hstep]
        refine .inl ⟨rfl, 0, by omega, ⟨hu, fun j hj => absurd hj (Nat.not_lt_zero j)⟩, ?_⟩
        intro j hj
        rw [Nat.le_zero.mp hj, Nat.add_zero, Nat.add_zero]
        show _ = some (Function.update dst i 0 i)
        rw [update_self]
        exact hu
      · have hstep : takeString u (max + 1) dst i va =
            takeString u max (Function.update dst i b) (i + 1) (va + 1) := by
          rw [takeString, hu]
          exact if_neg hb
        rw [hstep]
        rcases ih (Function.update dst i b) (i + 1) (va + 1) with
          ⟨hr, k, hk, hnul, hall⟩ | ⟨hr, hno⟩
        · refine .inl ⟨hr, k + 1, by omega, (nulAt_succ hu hb).mpr hnul, fun j hj => ?_⟩
          cases j with
          | zero =>
            rw [takeString_outside _ _ _ _ _ _ (.inl (by omega)), Nat.add_zero, Nat.add_zero,
              update_self]
            exact hu
          | succ j =>
            have hj' := hall j (by omega)
            rw [Nat.add_right_comm va, Nat.add_right_comm i] at hj'
            exact hj'
        · refine .inr ⟨hr, fun k hk hnul => ?_⟩
          cases k with
          | zero => exact hb (Option.some.inj (hu.symm.trans hnul.1))
          | succ k => exact hno k (by omega) ((nulAt_succ hu hb).mp hnul)

/-! ### The kernel's copies -/

/-- Memory with the same page table and the same user pages. -/
def SameUser (s s' : Kmem) (pagetable : Addr) : Prop :=
  ∀ q, (q ∈ tables s pagetable ∨ ∃ x, userPage s pagetable x = some q) → s'.mem q = s.mem q

theorem SameUser.page {s' : Kmem} (h : SameUser s s' pagetable) (x : ℕ) :
    userPage s' pagetable x = userPage s pagetable x :=
  userPage_congr (fun q hq => h q (.inl hq)) x

theorem SameUser.byte {s' : Kmem} (h : SameUser s s' pagetable) : userByte s' pagetable = userByte s pagetable := by
  funext x
  rw [userByte, userByte, h.page]
  cases hx : userPage s pagetable x with
  | none => rfl
  | some q =>
    rw [Option.map_some, Option.map_some, pageByte_congr (h q (.inr ⟨x, hx⟩))]

theorem isSome_userByte (s : Kmem) (pagetable : Addr) (x : ℕ) :
    (userByte s pagetable x).isSome = (userPage s pagetable x).isSome := by
  rw [userByte, Option.isSome_map]

theorem not_readable {n m : ℕ} (hm : m < n) (hnone : userByte s pagetable (va.toNat + m) = none) :
    ¬ ∀ k < n, (userPage s pagetable (va.toNat + k)).isSome := by
  intro hall
  have hsome := hall m hm
  rw [← isSome_userByte, hnone] at hsome
  exact absurd hsome (by simp)

theorem copyin_spec (h : Separate s pagetable) (dst : ℕ → UInt8) (va len : Addr) :
    ∃ r dst', copyin pagetable dst va len s = .ok ((r, dst'), s) ∧ (r = 0 ∨ r = -1) ∧
      (r = 0 ↔ ∀ k < len.toNat, (userPage s pagetable (va.toNat + k)).isSome) ∧
      (r = 0 → ∀ k < len.toNat, userByte s pagetable (va.toNat + k) = some (dst' k)) ∧
      (∀ k, len.toNat ≤ k → dst' k = dst k) ∧
      ∀ s', SameUser s s' pagetable → copyin pagetable dst va len s' = .ok ((r, dst'), s') := by
  refine ⟨_, _, copyin_eq h dst va len, ?_⟩
  have houtside : ∀ k, len.toNat ≤ k →
      (takeBytes (userByte s pagetable) len.toNat dst 0 va.toNat).2 k = dst k := fun k hk =>
    takeBytes_outside _ _ _ _ _ _ (.inr (by omega))
  have hsame : ∀ s', SameUser s s' pagetable → copyin pagetable dst va len s' =
      .ok (takeBytes (userByte s pagetable) len.toNat dst 0 va.toNat, s') := fun s' hs' => by
    rw [copyin_eq (h.congr hs'.page), hs'.byte]
  rcases takeBytes_spec (userByte s pagetable) len.toNat dst 0 va.toNat with
    ⟨hr, hall⟩ | ⟨hr, m, hm, hnone⟩
  · refine ⟨.inl hr, ⟨fun _ k hk => ?_, fun _ => hr⟩, fun _ k hk => ?_, houtside, hsame⟩
    · rw [← isSome_userByte, hall k hk]
      rfl
    · rw [hall k hk, Nat.zero_add]
  · have hne : (takeBytes (userByte s pagetable) len.toNat dst 0 va.toNat).1 ≠ 0 := by
      rw [hr]
      decide
    exact ⟨.inr hr, ⟨fun hz => absurd hz hne, fun hall => absurd hall (not_readable hm hnone)⟩,
      fun hz => absurd hz hne, houtside, hsame⟩

theorem copyinstr_spec (h : Separate s pagetable) (dst : ℕ → UInt8) (va max : Addr) :
    ∃ r dst', copyinstr pagetable dst va max s = .ok ((r, dst'), s) ∧ (r = 0 ∨ r = -1) ∧
      (r = 0 ↔ ∃ k < max.toNat, NulAt (userByte s pagetable) va.toNat k) ∧
      (r = 0 → ∃ k < max.toNat, NulAt (userByte s pagetable) va.toNat k ∧
        ∀ j ≤ k, userByte s pagetable (va.toNat + j) = some (dst' j)) ∧ (∀ k, max.toNat ≤ k → dst' k = dst k) ∧
      ∀ s', SameUser s s' pagetable → copyinstr pagetable dst va max s' = .ok ((r, dst'), s') := by
  refine ⟨_, _, copyinstr_eq h dst va max, ?_⟩
  have houtside : ∀ k, max.toNat ≤ k →
      (takeString (userByte s pagetable) max.toNat dst 0 va.toNat).2 k = dst k := fun k hk =>
    takeString_outside _ _ _ _ _ _ (.inr (by omega))
  have hsame : ∀ s', SameUser s s' pagetable → copyinstr pagetable dst va max s' =
      .ok (takeString (userByte s pagetable) max.toNat dst 0 va.toNat, s') := fun s' hs' => by
    rw [copyinstr_eq (h.congr hs'.page), hs'.byte]
  rcases takeString_spec (userByte s pagetable) max.toNat dst 0 va.toNat with
    ⟨hr, k, hk, hnul, hall⟩ | ⟨hr, hno⟩
  · refine ⟨.inl hr, ⟨fun _ => ⟨k, hk, hnul⟩, fun _ => hr⟩, fun _ => ⟨k, hk, hnul, fun j hj => ?_⟩,
      houtside, hsame⟩
    rw [hall j hj, Nat.zero_add]
  · have hne : (takeString (userByte s pagetable) max.toNat dst 0 va.toNat).1 ≠ 0 := by
      rw [hr]
      decide
    refine ⟨.inr hr, ⟨fun hz => absurd hz hne, fun hnul => ?_⟩, fun hz => absurd hz hne, houtside, hsame⟩
    obtain ⟨k, hk, hnul⟩ := hnul
    exact absurd hnul (hno k hk)

theorem copyout_spec (h : Separate s pagetable) (ha : Apart s pagetable) (va : Addr) (src : ℕ → UInt8)
    (len : Addr) : ∃ r t, copyout pagetable va src len s = .ok (r, t) ∧ (r = 0 ∨ r = -1) ∧
      (r = 0 ↔ ∀ k < len.toNat, (userPage s pagetable (va.toNat + k)).isSome) ∧
      (r = 0 → ∀ k < len.toNat, userByte t pagetable (va.toNat + k) = some (src k)) ∧
      (∀ x, x < va.toNat ∨ va.toNat + len.toNat ≤ x → userByte t pagetable x = userByte s pagetable x) ∧
      Moved s t pagetable := by
  obtain ⟨t, hrun, hmoved, hbytes⟩ := copyout_eq h ha va src len
  refine ⟨_, t, hrun, ?_⟩
  rcases putBytes_spec src len.toNat (userByte s pagetable) va.toNat 0 with
    ⟨hr, hall, hu⟩ | ⟨hr, m, hm, hnone, hu⟩
  · rw [hu] at hbytes
    refine ⟨.inl hr, ⟨fun _ k hk => ?_, fun _ => hr⟩, fun _ k hk => ?_, fun x hx => ?_, hmoved⟩
    · rw [← isSome_userByte]
      exact hall k hk
    · rw [hbytes, overwritten, if_pos (by omega), Nat.zero_add, Nat.add_sub_cancel_left]
    · rw [hbytes, overwritten, if_neg (by omega)]
  · rw [hu] at hbytes
    have hne : (putBytes src len.toNat (userByte s pagetable) va.toNat 0).1 ≠ 0 := by
      rw [hr]
      decide
    refine ⟨.inr hr, ⟨fun hz => absurd hz hne, fun hall => absurd hall (not_readable hm hnone)⟩,
      fun hz => absurd hz hne, fun x hx => ?_, hmoved⟩
    rw [hbytes, overwritten, if_neg (by omega)]

/-- **User copies respect the mapping.**  On a page table whose user pages are distinct, nonzero and none
of the table's own, `copyin` and `copyout` return 0 iff every byte of the range is in a page that is
mapped for the user, and have then copied the range; `copyinstr` returns 0 iff there is a string to copy,
and has then copied it.  In every case the other bytes of the buffer and of user memory are as they were,
no page but user pages is written, and the result only depends on the page table and the user pages. -/
theorem user_copies_respect_mapping (h : Separate s pagetable) (ha : Apart s pagetable)
    (va len : Addr) :
    (∀ dst, ∃ r dst', copyin pagetable dst va len s = .ok ((r, dst'), s) ∧ (r = 0 ∨ r = -1) ∧
      (r = 0 ↔ ∀ k < len.toNat, (userPage s pagetable (va.toNat + k)).isSome) ∧
      (r = 0 → ∀ k < len.toNat, userByte s pagetable (va.toNat + k) = some (dst' k)) ∧
      (∀ k, len.toNat ≤ k → dst' k = dst k) ∧
      ∀ s', SameUser s s' pagetable → copyin pagetable dst va len s' = .ok ((r, dst'), s')) ∧
    (∀ dst, ∃ r dst', copyinstr pagetable dst va len s = .ok ((r, dst'), s) ∧ (r = 0 ∨ r = -1) ∧
      (r = 0 ↔ ∃ k < len.toNat, NulAt (userByte s pagetable) va.toNat k) ∧
      (r = 0 → ∃ k < len.toNat, NulAt (userByte s pagetable) va.toNat k ∧
        ∀ j ≤ k, userByte s pagetable (va.toNat + j) = some (dst' j)) ∧
      (∀ k, len.toNat ≤ k → dst' k = dst k) ∧
      ∀ s', SameUser s s' pagetable → copyinstr pagetable dst va len s' = .ok ((r, dst'), s')) ∧
    (∀ src, ∃ r t, copyout pagetable va src len s = .ok (r, t) ∧ (r = 0 ∨ r = -1) ∧
      (r = 0 ↔ ∀ k < len.toNat, (userPage s pagetable (va.toNat + k)).isSome) ∧
      (r = 0 → ∀ k < len.toNat, userByte t pagetable (va.toNat + k) = some (src k)) ∧
      (∀ x, x < va.toNat ∨ va.toNat + len.toNat ≤ x →
        userByte t pagetable x = userByte s pagetable x) ∧
      (∀ x, userPage t pagetable x = userPage s pagetable x) ∧ t.free = s.free ∧
      ∀ q, (∀ x, userPage s pagetable x ≠ some q) → t.mem q = s.mem q) := by
  refine ⟨fun dst => copyin_spec h dst va len, fun dst => copyinstr_spec h dst va len, fun src => ?_⟩
  obtain ⟨r, t, hrun, hcode, hiff, hcopied, hother, hmoved⟩ := copyout_spec h ha va src len
  exact ⟨r, t, hrun, hcode, hiff, hcopied, hother, hmoved.page, hmoved.free, hmoved.frame⟩

/-! ### Two page tables -/

theorem userPage_eq (s : Kmem) (pagetable : Addr) {x : ℕ} (hx : x < 274877906944) :
    userPage s pagetable x = (view s pagetable (PGROUNDDOWN (BitVec.ofNat 64 x))).bind fun v =>
      if v.2 &&& PTE_U = 0 then none else some v.1 := by
  have hlt : x < MAXVA.toNat := hx
  rw [userPage, if_pos hlt, view_PGROUNDDOWN]

theorem userPage_update {a pa : Addr} {f : Pte} (ha : Aligned a) (hmax : a < MAXVA)
    (hf : f &&& PTE_U ≠ 0) (hview : ∀ x, Aligned x → x < MAXVA → view t pagetable x =
      Function.update (view s pagetable) a (some (pa, f)) x) (x : ℕ) : userPage t pagetable x =
      if x / 4096 = a.toNat / 4096 then some pa else userPage s pagetable x := by
  have hlt := toNat_lt_of_lt_MAXVA hmax
  unfold Aligned at ha
  by_cases hx : x < 274877906944
  · have hround : (PGROUNDDOWN (BitVec.ofNat 64 x)).toNat = x / 4096 * 4096 := by
      rw [toNat_PGROUNDDOWN, BitVec.toNat_ofNat]
      omega
    have hroundlt : PGROUNDDOWN (BitVec.ofNat 64 x) < MAXVA := by
      rw [BitVec.lt_def, hround, toNat_MAXVA]
      omega
    rw [userPage_eq t pagetable hx, userPage_eq s pagetable hx,
      hview _ (aligned_PGROUNDDOWN _) hroundlt]
    by_cases hd : x / 4096 = a.toNat / 4096
    · have heq : PGROUNDDOWN (BitVec.ofNat 64 x) = a := BitVec.eq_of_toNat_eq (by omega)
      rw [heq, update_self, if_pos hd, Option.bind_some, if_neg hf]
    · have hne : PGROUNDDOWN (BitVec.ofNat 64 x) ≠ a := fun e => by
        rw [e] at hround
        omega
      rw [update_of_ne hne, if_neg hd]
  · have hge : ¬ x < MAXVA.toNat := hx
    rw [if_neg (by omega), userPage, userPage, if_neg hge, if_neg hge]

/-- `PTE_R | PTE_W | PTE_U`. -/
def readWrite : Pte := PTE_R ||| PTE_W ||| PTE_U

theorem map_userPage {a pa : Addr} (h : Table s pagetable) (ha : Aligned a) (hmax : a < MAXVA)
    (hpa : Aligned pa) (hnone : view s pagetable a = none)
    (hrun : mappages pagetable a PGSIZE pa readWrite s = .ok (0, t)) :
    Keeps s t pagetable ∧ (∀ x, Aligned x → x < MAXVA →
        view t pagetable x = Function.update (view s pagetable) a (some (pa, readWrite ||| PTE_V)) x) ∧
      ∀ x, userPage t pagetable x = if x / 4096 = a.toNat / 4096 then some pa else userPage s pagetable x := by
  obtain ⟨hkeeps, ⟨-, hview⟩ | ⟨hr, -⟩⟩ :=
    ok_of_wp (mapPage_spec (by decide +kernel) h ha hmax hnone) hrun
  · rw [PGROUNDDOWN_of_aligned hpa] at hview
    exact ⟨hkeeps, hview, userPage_update ha hmax (by decide +kernel) hview⟩
  · exact absurd hr (by decide)

theorem created_userPage (x : ℕ) : userPage created 0x80010000 x = none := by
  rw [userPage, created_table.2]
  split
  · rfl
  · rfl

/-- One user page. -/
def oneUser : Kmem := after (mappages 0x80010000 0 PGSIZE 0x80020000 readWrite) created

theorem oneUser_spec : Keeps created oneUser 0x80010000 ∧ ∀ x, userPage oneUser 0x80010000 x =
    if x / 4096 = 0 then some 0x80020000 else none := by
  have hrun : mappages 0x80010000 0 PGSIZE 0x80020000 readWrite created = .ok (0, oneUser) :=
    ok_of_outcome (by decide +kernel)
  obtain ⟨hkeeps, -, hpage⟩ := map_userPage created_table.1 (by decide) (by decide +kernel)
    (by decide +kernel) (created_table.2 0) hrun
  refine ⟨hkeeps, fun x => ?_⟩
  rw [hpage, created_userPage]
  rfl

theorem oneUser_separate : Separate oneUser 0x80010000 where
  nonzero := by
    intro x p hp
    rw [oneUser_spec.2] at hp
    split at hp
    · obtain rfl := Option.some.inj hp
      decide
    · cases hp
  distinct := by
    intro x y p hx hy
    rw [oneUser_spec.2] at hx hy
    split at hx
    · split at hy
      · omega
      · cases hy
    · cases hx

theorem oneUser_apart : Apart oneUser 0x80010000 := by
  intro x p hp htab
  rw [oneUser_spec.2] at hp
  split at hp
  · obtain rfl := Option.some.inj hp
    have hmem : (0x80020000 : Addr) ∈ tables created 0x80010000 + (created.free : Multiset Addr) := by
      rw [← oneUser_spec.1.pages]
      exact Multiset.mem_add.mpr (.inl htab)
    revert hmem
    decide +kernel
  · cases hp

theorem user_copies_respect_mapping_oneUser : ∃ t,
    copyout 0x80010000 4088 (fun k => UInt8.ofNat k) 8 oneUser = .ok (0, t) ∧
      userByte t 0x80010000 4095 = some 7 := by
  have hall : ∀ k < (8 : Addr).toNat,
      (userPage oneUser 0x80010000 ((4088 : Addr).toNat + k)).isSome := fun k hk => by
    have hk' : k < 8 := hk
    have hx : ((4088 : Addr).toNat + k) / 4096 = 0 := by
      show (4088 + k) / 4096 = 0
      omega
    rw [oneUser_spec.2, if_pos hx]
    rfl
  obtain ⟨r, t, hrun, -, hiff, hcopied, -⟩ :=
    (user_copies_respect_mapping oneUser_separate oneUser_apart 4088 8).2.2 fun k => UInt8.ofNat k
  have hr : r = 0 := hiff.mpr hall
  subst hr
  exact ⟨t, hrun, hcopied rfl 7 (by decide)⟩

/-- The page table's own root at address 0, another page at address 4096. -/
def ownUser : Kmem :=
  after (mappages 0x80010000 PGSIZE PGSIZE 0x80020000 readWrite)
    (after (mappages 0x80010000 0 PGSIZE 0x80010000 readWrite) created)

theorem ownUser_page (x : ℕ) : userPage ownUser 0x80010000 x =
    if x / 4096 = 1 then some 0x80020000 else if x / 4096 = 0 then some 0x80010000 else none := by
  have hrun : mappages 0x80010000 0 PGSIZE 0x80010000 readWrite created =
      .ok (0, after (mappages 0x80010000 0 PGSIZE 0x80010000 readWrite) created) :=
    ok_of_outcome (by decide +kernel)
  obtain ⟨hkeeps, hview, hpage⟩ := map_userPage created_table.1 (by decide) (by decide +kernel)
    (by decide +kernel) (created_table.2 0) hrun
  have hrun' : mappages 0x80010000 PGSIZE PGSIZE 0x80020000 readWrite
      (after (mappages 0x80010000 0 PGSIZE 0x80010000 readWrite) created) = .ok (0, ownUser) :=
    ok_of_outcome (by decide +kernel)
  obtain ⟨-, -, hpage'⟩ := map_userPage hkeeps.table (by decide) (by decide +kernel)
    (by decide +kernel) (by decide +kernel) hrun'
  rw [hpage', hpage, created_userPage]
  rfl

theorem ownUser_separate : Separate ownUser 0x80010000 where
  nonzero := by
    intro x p hp
    rw [ownUser_page] at hp
    split at hp
    · obtain rfl := Option.some.inj hp
      decide
    · split at hp
      · obtain rfl := Option.some.inj hp
        decide
      · cases hp
  distinct := by
    intro x y p hx hy
    rw [ownUser_page] at hx hy
    split at hx
    · obtain rfl := Option.some.inj hx
      split at hy
      · omega
      · split at hy
        · exact absurd (Option.some.inj hy) (by decide)
        · cases hy
    · split at hx
      · obtain rfl := Option.some.inj hx
        split at hy
        · exact absurd (Option.some.inj hy) (by decide)
        · split at hy
          · omega
          · cases hy
      · cases hx

/-- `copyout` of eight zero bytes to the page that is the root of the page table: it returns 0 and the
user byte at address 4096 is gone. -/
theorem copyout_own_table : ∃ s pagetable t, Separate s pagetable ∧
    copyout pagetable 0 (fun _ => 0) 8 s = .ok (0, t) ∧
      userByte s pagetable 4096 = some 0 ∧ userByte t pagetable 4096 = none :=
  ⟨ownUser, 0x80010000, after (copyout 0x80010000 0 (fun _ => 0) 8) ownUser, ownUser_separate,
    ok_of_outcome (by decide +kernel), by decide +kernel, by decide +kernel⟩

/-! ### Round trips -/

theorem Moved.isolated (hm : Moved s t pagetable) {other : Addr}
    (hdis : ∀ x p, userPage s pagetable x = some p → p ∉ tables s other ∧ ∀ y, userPage s other y ≠ some p) (x : ℕ) :
    userByte t other x = userByte s other x := by
  have hpage : userPage t other x = userPage s other x :=
    userPage_congr (fun q hq => hm.frame q fun y hy => (hdis y q hy).1 hq) x
  rw [userByte, userByte, hpage]
  refine Option.map_congr fun p hp => pageByte_congr (hm.frame p fun y hy => (hdis y p hy).2 x hp) _

/-- **What `copyout` stores, `copyin` and `copyinstr` fetch**, and no other process sees it: a page table that shares no
page with this one keeps its user memory. -/
theorem copyout_copyin (h : Separate s pagetable) (ha : Apart s pagetable) (va len : Addr) (src : ℕ → UInt8)
    (hrun : copyout pagetable va src len s = .ok (0, t)) :
    (∀ dst, ∃ dst', copyin pagetable dst va len t = .ok ((0, dst'), t) ∧ (∀ k < len.toNat, dst' k = src k) ∧
      ∀ k, len.toNat ≤ k → dst' k = dst k) ∧
    (∀ dst m, m < len.toNat → src m = 0 → (∀ j < m, src j ≠ 0) →
      ∃ dst', copyinstr pagetable dst va len t = .ok ((0, dst'), t) ∧ ∀ j ≤ m, dst' j = src j) ∧
    ∀ other, (∀ x p, userPage s pagetable x = some p → p ∉ tables s other ∧ ∀ y, userPage s other y ≠ some p) →
      ∀ x, userByte t other x = userByte s other x := by
  obtain ⟨r, t', hrun', -, hiff, hcopied, -, hmoved⟩ := copyout_spec h ha va src len
  rw [hrun] at hrun'
  obtain ⟨rfl, rfl⟩ : 0 = r ∧ t = t' := by simpa using hrun'
  have hsep : Separate t pagetable := h.congr hmoved.page
  have hbytes := hcopied rfl
  refine ⟨fun dst => ?_, fun dst m hm hnul hne => ?_, fun other hdis x => hmoved.isolated hdis x⟩
  · obtain ⟨r, dst', hin, -, hzero, hread, hrest, -⟩ := copyin_spec hsep dst va len
    obtain rfl : r = 0 := hzero.mpr fun k hk => by rw [hmoved.page]; exact hiff.mp rfl k hk
    refine ⟨dst', hin, fun k hk => ?_, hrest⟩
    have hk' := hread rfl k hk
    rw [hbytes k hk] at hk'
    exact (Option.some.inj hk').symm
  · obtain ⟨r, dst', hin, -, hzero, hread, -, -⟩ := copyinstr_spec hsep dst va len
    have hat : NulAt (userByte t pagetable) va.toNat m :=
      ⟨by rw [hbytes m hm, hnul], fun j hj => ⟨src j, hbytes j (hj.trans hm), hne j hj⟩⟩
    obtain rfl : r = 0 := hzero.mpr ⟨m, hm, hat⟩
    obtain ⟨k, -, hat', hread⟩ := hread rfl
    -- the string ends where `src` has its NUL
    have hmk : m ≤ k := by
      by_contra hlt
      obtain ⟨b, hb, hb0⟩ := hat.2 k (by omega)
      rw [hat'.1] at hb
      exact hb0 (Option.some.inj hb).symm
    refine ⟨dst', hin, fun j hj => ?_⟩
    have hj' := hread j (hj.trans hmk)
    rw [hbytes j (hj.trans_lt hm)] at hj'
    exact (Option.some.inj hj').symm

theorem copyout_copyin_oneUser : ∃ t, copyout 0x80010000 4088 (fun k => UInt8.ofNat k) 8 oneUser = .ok (0, t) ∧
    ∃ dst', copyin 0x80010000 (fun _ => 0) 4088 8 t = .ok ((0, dst'), t) ∧ dst' 7 = 7 := by
  have hrun := ok_of_outcome (show outcome (copyout 0x80010000 4088 (fun k => UInt8.ofNat k) 8) oneUser = .ok 0 by
    decide +kernel)
  obtain ⟨dst', hin, hsame, -⟩ := (copyout_copyin oneUser_separate oneUser_apart 4088 8 _ hrun).1 fun _ => 0
  exact ⟨_, hrun, dst', hin, hsame 7 (by decide)⟩

end Xv6.UserCopy
