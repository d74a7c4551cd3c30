import Xv6.BufCache
import Mathlib.Algebra.BigOperators.Fin

/-!
# Exact reference counts

`refs s b` counts the `bread` calls whose reference to buffer `b` has not been dropped by `brelse`:
those that have returned, those still waiting for the sleep-lock, and those inside `brelse`.
`Exact logdev s pinned` says that the `refcnt` of every buffer is this number, plus one when its block
is one of the `pinned` ones of device `logdev`.  The six operations of `bio.c` keep it; `bpin` and `bunpin` change
`pinned` along.

That a buffer in use is never recycled is a consequence (`bget_key`), and in turn what keeps the
blocks of referenced buffers in place.
-/

namespace Xv6.BufRefs

open Xv6.Params Xv6.LinkedRing Xv6.LogMachine Xv6.BufCache

/-- The references of process `p` to buffer `b`. -/
def refsOf (s : Bio) (p : Fin NPROC) (b : Fin NBUF) : ℕ :=
  (s.held p).count b + if s.call p = .waiting b ∨ s.call p = .releasing b then 1 else 0

def refs (s : Bio) (b : Fin NBUF) : ℕ := ∑ p, refsOf s p b

/-- One for the log, when the block of the buffer is pinned. -/
def pin (logdev : UInt32) (s : Bio) (pinned : List UInt32) (b : Fin NBUF) : ℕ :=
  if (s.buf b).dev = logdev ∧ (s.buf b).blockno ∈ pinned then 1 else 0

structure Exact (logdev : UInt32) (s : Bio) (pinned : List UInt32) : Prop where
  listed : Listed s
  unique : ∀ b b', (s.buf b).dev = (s.buf b').dev → (s.buf b).blockno = (s.buf b').blockno →
    (s.buf b).dev ≠ 0 → b = b'
  owner : ∀ p b, b ∈ s.held p ↔ (s.buf b).owner = some p
  nodup : ∀ p, (s.held p).Nodup
  count : ∀ b, (s.buf b).refcnt.toNat = refs s b + pin logdev s pinned b
  cached : ∀ k ∈ pinned, ∃ b, (s.buf b).dev = logdev ∧ (s.buf b).blockno = k

variable {logdev : UInt32}

/-! ### Counting -/

theorem pin_le_one (logdev : UInt32) (s : Bio) (pinned : List UInt32) (b : Fin NBUF) : pin logdev s pinned b ≤ 1 := by
  unfold pin
  split <;> omega

theorem pin_congr {s t : Bio} {pinned : List UInt32} {b : Fin NBUF}
    (hdev : (t.buf b).dev = (s.buf b).dev) (hblk : (t.buf b).blockno = (s.buf b).blockno) :
    pin logdev t pinned b = pin logdev s pinned b := by
  unfold pin
  rw [hdev, hblk]

theorem refsOf_le_two {s : Bio} {pinned : List UInt32} (h : Exact logdev s pinned) (p : Fin NPROC)
    (b : Fin NBUF) : refsOf s p b ≤ 2 := by
  have hone := List.nodup_iff_count_le_one.mp (h.nodup p) b
  unfold refsOf
  split <;> omega

theorem refs_le {s : Bio} {pinned : List UInt32} (h : Exact logdev s pinned) (b : Fin NBUF) :
    refs s b ≤ 2 * NPROC := by
  have hle := Finset.sum_le_card_nsmul Finset.univ (fun p => refsOf s p b) 2
    fun p _ => refsOf_le_two h p b
  rw [Finset.card_univ, Fintype.card_fin, smul_eq_mul] at hle
  unfold refs
  omega

theorem refs_change {s t : Bio} {p : Fin NPROC} {b : Fin NBUF} (h : ∀ q, q ≠ p → refsOf t q b = refsOf s q b) :
    refs t b + refsOf s p b = refs s b + refsOf t p b := by
  unfold refs
  rw [← Finset.add_sum_erase Finset.univ (fun q => refsOf t q b) (Finset.mem_univ p),
    ← Finset.add_sum_erase Finset.univ (fun q => refsOf s q b) (Finset.mem_univ p)]
  have hrest : ∑ q ∈ Finset.univ.erase p, refsOf t q b = ∑ q ∈ Finset.univ.erase p, refsOf s q b :=
    Finset.sum_congr rfl fun q hq => h q (Finset.ne_of_mem_erase hq)
  omega

theorem refs_congr {s t : Bio} {b : Fin NBUF} (hheld : t.held = s.held) (hcall : t.call = s.call) :
    refs t b = refs s b := by
  unfold refs refsOf
  rw [hheld, hcall]

theorem refsOf_le_refs (s : Bio) (p : Fin NPROC) (b : Fin NBUF) : refsOf s p b ≤ refs s b :=
  Finset.single_le_sum (f := fun q => refsOf s q b) (fun _ _ => Nat.zero_le _) (Finset.mem_univ p)

theorem refs_pos_of_held {s : Bio} {p : Fin NPROC} {b : Fin NBUF} (h : b ∈ s.held p) : 0 < refs s b := by
  refine lt_of_lt_of_le ?_ (refsOf_le_refs s p b)
  have hpos := List.count_pos_iff.mpr h
  unfold refsOf
  omega

theorem refs_pos_of_call {s : Bio} {p : Fin NPROC} {b : Fin NBUF}
    (h : s.call p = .waiting b ∨ s.call p = .releasing b) : 0 < refs s b := by
  refine lt_of_lt_of_le ?_ (refsOf_le_refs s p b)
  simp [refsOf, h]

theorem toNat_add_one {n : UInt32} (h : n.toNat ≤ 2 * NPROC + 1) : (n + 1).toNat = n.toNat + 1 := by
  have hproc : NPROC = 64 := rfl
  rw [UInt32.toNat_add]
  simp
  omega

theorem toNat_sub_one {n : UInt32} (h : 0 < n.toNat) : (n - 1).toNat = n.toNat - 1 := by
  rw [UInt32.toNat_sub_of_le]
  · simp
  · rw [UInt32.le_iff_toNat_le]
    simpa using Nat.succ_le_of_lt h

section Operations

variable {s t : Bio} {pinned : List UInt32} {p : Fin NPROC} {b : Fin NBUF}

theorem refcnt_le (h : Exact logdev s pinned) (b : Fin NBUF) : (s.buf b).refcnt.toNat ≤ 2 * NPROC + 1 := by
  have hrefs := refs_le h b
  have hpin := pin_le_one logdev s pinned b
  rw [h.count b]
  omega

theorem refs_setCall_waiting (hc : s.call p = .none) (v : Buf) (b' : Fin NBUF) :
    refs ((s.setBuf b v).setCall p (.waiting b)) b' = refs s b' + if b' = b then 1 else 0 := by
  have hch := refs_change (s := s) (t := (s.setBuf b v).setCall p (.waiting b)) (p := p) (b := b')
    fun q hq => by simp [refsOf, Bio.setCall, Bio.setBuf, hq]
  have hold : refsOf s p b' = (s.held p).count b' := by simp [refsOf, hc]
  have hnew : refsOf ((s.setBuf b v).setCall p (.waiting b)) p b' =
      (s.held p).count b' + if b' = b then 1 else 0 := by
    simp [refsOf, Bio.setCall, Bio.setBuf, eq_comm]
  omega

def SameKeys (s t : Bio) : Prop :=
  ∀ b, (t.buf b).dev = (s.buf b).dev ∧ (t.buf b).blockno = (s.buf b).blockno

theorem sameKeys_setBuf {v : Buf} (hdev : v.dev = (s.buf b).dev)
    (hblk : v.blockno = (s.buf b).blockno) : SameKeys s (s.setBuf b v) := by
  intro b'
  by_cases hb : b' = b
  · subst hb
    rw [buf_setBuf_self]
    exact ⟨hdev, hblk⟩
  · rw [buf_setBuf_ne hb]
    exact ⟨rfl, rfl⟩

theorem SameKeys.unique (hkeys : SameKeys s t) (h : Exact logdev s pinned) (b b' : Fin NBUF)
    (hdev : (t.buf b).dev = (t.buf b').dev) (hblk : (t.buf b).blockno = (t.buf b').blockno)
    (hne : (t.buf b).dev ≠ 0) : b = b' := by
  rw [(hkeys b).1, (hkeys b').1] at hdev
  rw [(hkeys b).2, (hkeys b').2] at hblk
  exact h.unique b b' hdev hblk ((hkeys b).1 ▸ hne)

/-- An operation that leaves the blocks in place and changes `refcnt` as it changes the
references. -/
theorem Exact.of_sameKeys (h : Exact logdev s pinned) (hkeys : SameKeys s t) (hl : Listed t)
    (howner : ∀ p b, b ∈ t.held p ↔ (t.buf b).owner = some p) (hnodup : ∀ p, (t.held p).Nodup)
    (hcount : ∀ b, (t.buf b).refcnt.toNat + refs s b = (s.buf b).refcnt.toNat + refs t b) :
    Exact logdev t pinned where
  listed := hl
  unique := hkeys.unique h
  owner := howner
  nodup := hnodup
  count := by
    intro b
    have hb := hcount b
    have hold := h.count b
    rw [pin_congr (hkeys b).1 (hkeys b).2]
    omega
  cached := by
    intro k hk
    obtain ⟨b, hdev, hblk⟩ := h.cached k hk
    exact ⟨b, (hkeys b).1.trans hdev, (hkeys b).2.trans hblk⟩

/-! ### The operations -/

theorem exact_binit : Exact logdev binit [] where
  listed := listed_binit
  unique := fun _ _ _ _ hne => absurd rfl hne
  owner := by simp [binit]
  nodup := fun _ => List.nodup_nil
  count := by
    intro b
    simp [binit, refs, refsOf, pin]
  cached := by simp

theorem owner_setBuf (h : Exact logdev s pinned) {v : Buf} (hv : v.owner = (s.buf b).owner)
    (p : Fin NPROC) (b' : Fin NBUF) : b' ∈ s.held p ↔ ((s.setBuf b v).buf b').owner = some p := by
  rw [h.owner p b']
  by_cases hb : b' = b
  · subst hb
    rw [buf_setBuf_self, hv]
  · rw [buf_setBuf_ne hb]

theorem exact_bget {dev blockno : UInt32} (h : Exact logdev s pinned) (hc : s.call p = .none)
    (hg : s.bget p dev blockno = some t) : Exact logdev t pinned := by
  rcases bget_cases h.listed hg with ⟨b, -, -, rfl⟩ | ⟨b, hnone, hzero, rfl⟩
  · refine h.of_sameKeys (sameKeys_setBuf rfl rfl) h.listed (owner_setBuf h rfl) h.nodup ?_
    intro b'
    rw [refs_setCall_waiting hc]
    rw [buf_setCall]
    by_cases hb : b' = b
    · subst hb
      rw [buf_setBuf_self, toNat_add_one (refcnt_le h b'), if_pos rfl]
      omega
    · rw [buf_setBuf_ne hb, if_neg hb]
      omega
  · -- the recycled buffer was not referenced, and its new block is not pinned
    have hcount := h.count b
    rw [hzero] at hcount
    have hrefs : refs s b = 0 := by simp at hcount; omega
    have hunpinned : pin logdev s pinned b = 0 := by simp at hcount; omega
    have hnew : ¬ (dev = logdev ∧ blockno ∈ pinned) := by
      rintro ⟨rfl, hmem⟩
      obtain ⟨b', hdev, hblk⟩ := h.cached blockno hmem
      exact hnone b' ⟨hdev, hblk⟩
    refine ⟨h.listed, ?_, owner_setBuf h rfl, h.nodup, ?_, ?_⟩
    · intro b₁ b₂ hdev hblk hne
      rw [buf_setCall] at hdev hblk hne
      by_cases h₁ : b₁ = b
      · by_cases h₂ : b₂ = b
        · rw [h₁, h₂]
        · rw [h₁, buf_setBuf_self, buf_setBuf_ne h₂] at hdev hblk
          exact absurd ⟨hdev.symm, hblk.symm⟩ (hnone b₂)
      · by_cases h₂ : b₂ = b
        · rw [h₂, buf_setBuf_self, buf_setBuf_ne h₁] at hdev hblk
          exact absurd ⟨hdev, hblk⟩ (hnone b₁)
        · rw [buf_setBuf_ne h₁, buf_setBuf_ne h₂] at hdev hblk
          rw [buf_setBuf_ne h₁] at hne
          exact h.unique b₁ b₂ hdev hblk hne
    · intro b'
      rw [refs_setCall_waiting hc, buf_setCall]
      by_cases hb : b' = b
      · subst hb
        rw [pin, buf_setCall, buf_setBuf_self, if_neg hnew, hrefs, if_pos rfl]
        rfl
      · rw [if_neg hb, Nat.add_zero, buf_setBuf_ne hb,
          pin_congr (s := s) (by rw [buf_setCall, buf_setBuf_ne hb])
            (by rw [buf_setCall, buf_setBuf_ne hb])]
        exact h.count b'
    · intro k hk
      obtain ⟨b', hdev, hblk⟩ := h.cached k hk
      have hb : b' ≠ b := by
        rintro rfl
        simp [pin, hdev, hblk, hk] at hunpinned
      refine ⟨b', ?_⟩
      rw [buf_setCall, buf_setBuf_ne hb]
      exact ⟨hdev, hblk⟩

theorem refs_eq_of_process (hheld : ∀ q, q ≠ p → t.held q = s.held q)
    (hcall : ∀ q, q ≠ p → t.call q = s.call q) (b : Fin NBUF)
    (hp : refsOf t p b = refsOf s p b) : refs t b = refs s b := by
  have hch := refs_change (s := s) (t := t) (p := p) (b := b) fun q hq => by
    unfold refsOf
    rw [hheld q hq, hcall q hq]
  omega

theorem exact_fill (h : Exact logdev s pinned) (disk : Disk) (hc : s.call p = .waiting b)
    (hfree : (s.buf b).owner = none) : Exact logdev (s.fill disk p b) pinned := by
  have hnot : ∀ q, b ∉ s.held q := by
    intro q hq
    rw [h.owner q b, hfree] at hq
    cases hq
  have hself : ((s.fill disk p b).buf b).owner = some p ∧
      ((s.fill disk p b).buf b).refcnt = (s.buf b).refcnt := by
    simp only [Bio.fill, buf_setCall, buf_setHeld, buf_setBuf_self]
    cases (s.buf b).valid <;> exact ⟨trivial, rfl⟩
  have hother : ∀ {b'}, b' ≠ b → (s.fill disk p b).buf b' = s.buf b' :=
    fun hb => buf_setBuf_ne hb
  have hheld : (s.fill disk p b).held p = b :: s.held p := held_setHeld_self _ _ _
  have hheld' : ∀ {q}, q ≠ p → (s.fill disk p b).held q = s.held q := fun hq => held_setHeld_ne hq
  refine h.of_sameKeys ?_ h.listed ?_ ?_ ?_
  · refine sameKeys_setBuf ?_ ?_ <;> cases (s.buf b).valid <;> rfl
  · intro q b'
    by_cases hb : b' = b
    · subst hb
      rw [hself.1, Option.some.injEq]
      by_cases hq : q = p
      · simp [hq, hheld]
      · simp [hheld' hq, hnot q, Ne.symm hq]
    · rw [hother hb, ← h.owner q b']
      by_cases hq : q = p
      · simp [hq, hheld, hb]
      · rw [hheld' hq]
  · intro q
    by_cases hq : q = p
    · rw [hq, hheld, List.nodup_cons]
      exact ⟨hnot p, h.nodup p⟩
    · rw [hheld' hq]
      exact h.nodup q
  · intro b'
    have hrefs : refs (s.fill disk p b) b' = refs s b' := by
      refine refs_eq_of_process (fun q hq => hheld' hq) (fun q hq => call_setCall_ne hq) b' ?_
      have hcall : (s.fill disk p b).call p = .none := call_setCall_self _ _ _
      rw [refsOf, refsOf, hheld, hcall, hc, List.count_cons]
      by_cases hb : b' = b
      · simp [hb]
      · simp [Ne.symm hb]
    rw [hrefs]
    by_cases hb : b' = b
    · rw [hb, hself.2]
    · rw [hother hb]

theorem exact_unlock (h : Exact logdev s pinned) (hc : s.call p = .none) (hb : b ∈ s.held p) :
    Exact logdev (s.unlock p b) pinned := by
  have hself : (s.unlock p b).buf b = { s.buf b with owner := none } := buf_setBuf_self _ _ _
  have hother : ∀ {b'}, b' ≠ b → (s.unlock p b).buf b' = s.buf b' := fun hb => buf_setBuf_ne hb
  have hheld : (s.unlock p b).held p = (s.held p).erase b := held_setHeld_self _ _ _
  have hheld' : ∀ {q}, q ≠ p → (s.unlock p b).held q = s.held q := fun hq => held_setHeld_ne hq
  refine h.of_sameKeys (sameKeys_setBuf rfl rfl) h.listed ?_ ?_ ?_
  · intro q b'
    by_cases hbb : b' = b
    · subst hbb
      rw [hself]
      by_cases hq : q = p
      · simp [hq, hheld, (h.nodup p).not_mem_erase]
      · have hnot : b' ∉ s.held q := by
          rw [h.owner q b', (h.owner p b').mp hb]
          simpa using Ne.symm hq
        simp [hheld' hq, hnot]
    · rw [hother hbb, ← h.owner q b']
      by_cases hq : q = p
      · rw [hq, hheld, List.mem_erase_of_ne hbb]
      · rw [hheld' hq]
  · intro q
    by_cases hq : q = p
    · rw [hq, hheld]
      exact (h.nodup p).erase b
    · rw [hheld' hq]
      exact h.nodup q
  · intro b'
    have hrefs : refs (s.unlock p b) b' = refs s b' := by
      refine refs_eq_of_process (fun q hq => hheld' hq) (fun q hq => call_setCall_ne hq) b' ?_
      have hcall : (s.unlock p b).call p = .releasing b := call_setCall_self _ _ _
      rw [refsOf, refsOf, hheld, hcall, hc, List.count_erase]
      by_cases hbb : b' = b
      · subst hbb
        have hpos := List.count_pos_iff.mpr hb
        simp
        omega
      · simp [Ne.symm hbb]
    rw [hrefs]
    by_cases hbb : b' = b
    · rw [hbb, hself]
    · rw [hother hbb]

theorem exact_put (h : Exact logdev s pinned) (hc : s.call p = .releasing b) : Exact logdev (s.put p b) pinned := by
  have hpos : 0 < (s.buf b).refcnt.toNat := by
    have hrefs := refs_pos_of_call (b := b) (Or.inr hc)
    rw [h.count b]
    omega
  -- moving the buffer on the list changes nothing else
  have hbuf : (s.put p b).buf =
      (s.setBuf b { s.buf b with refcnt := (s.buf b).refcnt - 1 }).buf := by
    unfold Bio.put
    simp only
    split <;> rfl
  have hheld : (s.put p b).held = s.held := by
    unfold Bio.put
    simp only
    split <;> rfl
  have hcall : (s.put p b).call = (s.setCall p .none).call := by
    unfold Bio.put
    simp only
    split <;> rfl
  refine h.of_sameKeys ?_ (listed_put h.listed p b) ?_ ?_ ?_
  · intro b'
    rw [hbuf]
    exact sameKeys_setBuf (by rfl) (by rfl) b'
  · intro q b'
    rw [hheld, hbuf]
    exact owner_setBuf h (by rfl) q b'
  · rw [hheld]
    exact h.nodup
  · intro b'
    have hch := refs_change (s := s) (t := s.put p b) (p := p) (b := b') fun q hq => by
      rw [refsOf, refsOf, hheld, hcall, call_setCall_ne hq]
    have hnew : refsOf (s.put p b) p b' = (s.held p).count b' := by
      rw [refsOf, hheld, hcall, call_setCall_self]
      simp
    have hold : refsOf s p b' = (s.held p).count b' + if b' = b then 1 else 0 := by
      rw [refsOf, hc]
      simp [eq_comm]
    rw [hbuf]
    by_cases hb : b' = b
    · subst hb
      rw [if_pos rfl] at hold
      rw [buf_setBuf_self, toNat_sub_one hpos]
      omega
    · rw [if_neg hb] at hold
      rw [buf_setBuf_ne hb]
      omega

theorem exact_store (h : Exact logdev s pinned) (b : Fin NBUF) (data : Block) :
    Exact logdev (s.store b data) pinned := by
  refine h.of_sameKeys (sameKeys_setBuf rfl rfl) h.listed (owner_setBuf h rfl) h.nodup ?_
  intro b'
  rw [refs_congr (s := s) (t := s.store b data) rfl rfl, Bio.store]
  by_cases hb : b' = b
  · rw [hb, buf_setBuf_self]
  · rw [buf_setBuf_ne hb]

theorem exact_bpin (hlog : logdev ≠ 0) (h : Exact logdev s pinned) (hdev : (s.buf b).dev = logdev)
    (hnew : (s.buf b).blockno ∉ pinned) : Exact logdev (s.bpin b) (pinned ++ [(s.buf b).blockno]) := by
  have hkeys : SameKeys s (s.bpin b) := sameKeys_setBuf rfl rfl
  refine ⟨h.listed, ?_, owner_setBuf h rfl, h.nodup, ?_, ?_⟩
  · exact hkeys.unique h
  · intro b'
    rw [refs_congr (s := s) (t := s.bpin b) rfl rfl, pin, (hkeys b').1, (hkeys b').2]
    have hold := h.count b'
    unfold pin at hold
    by_cases hb : b' = b
    · subst hb
      rw [if_neg fun hc => hnew hc.2] at hold
      rw [Bio.bpin, buf_setBuf_self, toNat_add_one (refcnt_le h b'), if_pos ⟨hdev, by simp⟩]
      omega
    · -- no other buffer caches the block
      have hiff : ((s.buf b').dev = logdev ∧ (s.buf b').blockno ∈ pinned ++ [(s.buf b).blockno]) ↔
          ((s.buf b').dev = logdev ∧ (s.buf b').blockno ∈ pinned) := by
        constructor
        · rintro ⟨hd, hmem⟩
          refine ⟨hd, ?_⟩
          rcases List.mem_append.mp hmem with hmem | hmem
          · exact hmem
          · rw [List.mem_singleton] at hmem
            exact absurd (h.unique b' b (hd.trans hdev.symm) hmem (by rw [hd]; exact hlog)) hb
        · rintro ⟨hd, hmem⟩
          exact ⟨hd, List.mem_append_left _ hmem⟩
      rw [Bio.bpin, buf_setBuf_ne hb, if_congr hiff rfl rfl]
      exact hold
  · intro k hk
    rcases List.mem_append.mp hk with hk | hk
    · obtain ⟨b', hd, hblk⟩ := h.cached k hk
      exact ⟨b', (hkeys b').1.trans hd, (hkeys b').2.trans hblk⟩
    · rw [List.mem_singleton] at hk
      exact ⟨b, (hkeys b).1.trans hdev, (hkeys b).2.trans hk.symm⟩

theorem exact_bunpin (hlog : logdev ≠ 0) {k : UInt32} (h : Exact logdev s (k :: pinned)) (hdev : (s.buf b).dev = logdev)
    (hblk : (s.buf b).blockno = k) (hk : k ∉ pinned) : Exact logdev (s.bunpin b) pinned := by
  have hkeys : SameKeys s (s.bunpin b) := sameKeys_setBuf rfl rfl
  refine ⟨h.listed, ?_, owner_setBuf h rfl, h.nodup, ?_, ?_⟩
  · exact hkeys.unique h
  · intro b'
    rw [refs_congr (s := s) (t := s.bunpin b) rfl rfl, pin, (hkeys b').1, (hkeys b').2]
    have hold := h.count b'
    unfold pin at hold
    by_cases hb : b' = b
    · subst hb
      rw [if_pos ⟨hdev, by simp [hblk]⟩] at hold
      rw [Bio.bunpin, buf_setBuf_self, toNat_sub_one (by omega), if_neg fun hc => hk (hblk ▸ hc.2)]
      omega
    · have hiff : ((s.buf b').dev = logdev ∧ (s.buf b').blockno ∈ pinned) ↔
          ((s.buf b').dev = logdev ∧ (s.buf b').blockno ∈ k :: pinned) := by
        constructor
        · rintro ⟨hd, hmem⟩
          exact ⟨hd, List.mem_cons_of_mem _ hmem⟩
        · rintro ⟨hd, hmem⟩
          refine ⟨hd, ?_⟩
          rcases List.mem_cons.mp hmem with hmem | hmem
          · exact absurd (h.unique b' b (hd.trans hdev.symm) (hmem.trans hblk.symm)
              (by rw [hd]; exact hlog)) hb
          · exact hmem
      rw [Bio.bunpin, buf_setBuf_ne hb, if_congr hiff rfl rfl]
      exact hold
  · intro x hx
    obtain ⟨b', hd, hb'⟩ := h.cached x (List.mem_cons_of_mem _ hx)
    exact ⟨b', (hkeys b').1.trans hd, (hkeys b').2.trans hb'⟩

/-- **A buffer in use is never recycled.** -/
theorem bget_key {dev blockno : UInt32} (h : Exact logdev s pinned) (hg : s.bget p dev blockno = some t)
    (hb : 0 < refs s b + pin logdev s pinned b) :
    (t.buf b).dev = (s.buf b).dev ∧ (t.buf b).blockno = (s.buf b).blockno := by
  rcases bget_cases h.listed hg with ⟨b', -, -, rfl⟩ | ⟨b', -, hzero, rfl⟩
  · rw [buf_setCall]
    exact sameKeys_setBuf (by rfl) (by rfl) b
  · have hne : b ≠ b' := by
      rintro rfl
      have hcount := h.count b
      rw [hzero] at hcount
      simp at hcount
      omega
    rw [buf_setCall, buf_setBuf_ne hne]
    exact ⟨rfl, rfl⟩

theorem bget_waiting {dev blockno : UInt32} (h : Listed s) (hg : s.bget p dev blockno = some t) :
    ∃ b, t.call p = .waiting b ∧ (t.buf b).dev = dev ∧ (t.buf b).blockno = blockno := by
  rcases bget_cases h hg with ⟨b, hd, hk, rfl⟩ | ⟨b, -, -, rfl⟩
  · refine ⟨b, call_setCall_self _ _ _, ?_⟩
    rw [buf_setCall, buf_setBuf_self]
    exact ⟨hd, hk⟩
  · refine ⟨b, call_setCall_self _ _ _, ?_⟩
    rw [buf_setCall, buf_setBuf_self]
    exact ⟨rfl, rfl⟩

end Operations

end Xv6.BufRefs
