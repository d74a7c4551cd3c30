import Xv6.LinkedRing
import Xv6.LogMachine

/-!
# The buffer cache

`bio.c`: `NBUF` buffers on a doubly linked list sorted by how recently they were used.  Every
section under `bcache.lock` is one function here.  `bread` is `bget` (which takes a reference),
then `acquiresleep` and the disk read (`fill`); `brelse` is `releasesleep` (`unlock`), then the
section that drops the reference (`put`).

`Bio` adds what the processes know: the buffers `bread` has returned to a process and that it has
not handed to `brelse` yet, and the call of `bread` or `brelse` it is inside.
-/

namespace Xv6.BufCache

open Xv6.Params Xv6.LinkedRing Xv6.LogMachine

/-- `struct buf`; `owner` is the holder of the sleep-lock. -/
structure Buf where
  valid : Bool
  dev : UInt32
  blockno : UInt32
  owner : Option (Fin NPROC)
  refcnt : UInt32
  data : Block

inductive Call where
  | none
  /-- in `bread`, past the critical section of `bget`: waits for the sleep-lock -/
  | waiting (b : Fin NBUF)
  /-- in `brelse`, the sleep-lock is released and the reference is not -/
  | releasing (b : Fin NBUF)
deriving DecidableEq

structure Bio where
  buf : Fin NBUF → Buf
  links : Links (Fin NBUF)
  held : Fin NPROC → List (Fin NBUF)
  call : Fin NPROC → Call

/-- The zeroed `bcache` after `binit`. -/
def binit : Bio where
  buf := fun _ => ⟨false, 0, 0, none, 0, fun _ => 0⟩
  links := (List.finRange NBUF).foldl Links.pushFront Links.empty
  held := fun _ => []
  call := fun _ => .none

def Bio.setBuf (s : Bio) (b : Fin NBUF) (v : Buf) : Bio :=
  { s with buf := Function.update s.buf b v }

def Bio.setCall (s : Bio) (p : Fin NPROC) (c : Call) : Bio :=
  { s with call := Function.update s.call p c }

def Bio.setHeld (s : Bio) (p : Fin NPROC) (bs : List (Fin NBUF)) : Bio :=
  { s with held := Function.update s.held p bs }

section Fields

variable (s : Bio) (p q : Fin NPROC) (b : Fin NBUF) (v : Buf) (c : Call) (bs : List (Fin NBUF))

@[simp] theorem buf_setCall : (s.setCall p c).buf = s.buf := rfl
@[simp] theorem held_setCall : (s.setCall p c).held = s.held := rfl
@[simp] theorem links_setCall : (s.setCall p c).links = s.links := rfl
@[simp] theorem call_setCall_self : (s.setCall p c).call p = c := Function.update_self _ _ _
@[simp] theorem buf_setHeld : (s.setHeld p bs).buf = s.buf := rfl
@[simp] theorem call_setHeld : (s.setHeld p bs).call = s.call := rfl
@[simp] theorem links_setHeld : (s.setHeld p bs).links = s.links := rfl
@[simp] theorem held_setHeld_self : (s.setHeld p bs).held p = bs := Function.update_self _ _ _
@[simp] theorem held_setBuf : (s.setBuf b v).held = s.held := rfl
@[simp] theorem call_setBuf : (s.setBuf b v).call = s.call := rfl
@[simp] theorem links_setBuf : (s.setBuf b v).links = s.links := rfl
@[simp] theorem buf_setBuf_self : (s.setBuf b v).buf b = v := Function.update_self _ _ _

variable {s p q b v c bs}

theorem call_setCall_ne (h : q ≠ p) : (s.setCall p c).call q = s.call q :=
  Function.update_of_ne h _ _

theorem held_setHeld_ne (h : q ≠ p) : (s.setHeld p bs).held q = s.held q :=
  Function.update_of_ne h _ _

theorem buf_setBuf_ne {b' : Fin NBUF} (h : b' ≠ b) : (s.setBuf b v).buf b' = s.buf b' :=
  Function.update_of_ne h _ _

end Fields

/-- `b->dev == dev && b->blockno == blockno`. -/
def Bio.caches (s : Bio) (dev blockno : UInt32) (b : Fin NBUF) : Bool :=
  (s.buf b).dev == dev && (s.buf b).blockno == blockno

/-- The critical section of `bget`; `none` is `panic("bget: no buffers")`. -/
def Bio.bget (s : Bio) (p : Fin NPROC) (dev blockno : UInt32) : Option Bio :=
  -- is the block already cached?
  match walk s.links.next (s.caches dev blockno) (NBUF + 1) (s.links.next none) with
  | some b =>
    some ((s.setBuf b { s.buf b with refcnt := (s.buf b).refcnt + 1 }).setCall p (.waiting b))
  | none =>
    -- recycle the least recently used unused buffer
    match walk s.links.prev (fun b => (s.buf b).refcnt == 0) (NBUF + 1) (s.links.prev none) with
    | some b =>
      some ((s.setBuf b { s.buf b with
        dev := dev, blockno := blockno, valid := false, refcnt := 1 }).setCall p (.waiting b))
    | none => none

/-- The rest of `bread`: the sleep-lock has become free, and the block is read unless `valid`. -/
def Bio.fill (s : Bio) (disk : Disk) (p : Fin NPROC) (b : Fin NBUF) : Bio :=
  let v := s.buf b
  let v := if v.valid then v else { v with data := disk v.blockno.toNat, valid := true }
  ((s.setBuf b { v with owner := some p }).setHeld p (b :: s.held p)).setCall p .none

/-- `releasesleep(&b->lock)` in `brelse`. -/
def Bio.unlock (s : Bio) (p : Fin NPROC) (b : Fin NBUF) : Bio :=
  ((s.setBuf b { s.buf b with owner := none }).setHeld p ((s.held p).erase b)).setCall p
    (.releasing b)

/-- The critical section of `brelse`: drop the reference; an unused buffer becomes the most
recently used one. -/
def Bio.put (s : Bio) (p : Fin NPROC) (b : Fin NBUF) : Bio :=
  let n := (s.buf b).refcnt - 1
  let s := (s.setBuf b { s.buf b with refcnt := n }).setCall p .none
  if n = 0 then { s with links := (s.links.unlink b).pushFront b } else s

def Bio.bpin (s : Bio) (b : Fin NBUF) : Bio :=
  s.setBuf b { s.buf b with refcnt := (s.buf b).refcnt + 1 }

def Bio.bunpin (s : Bio) (b : Fin NBUF) : Bio :=
  s.setBuf b { s.buf b with refcnt := (s.buf b).refcnt - 1 }

/-- The holder of the buffer writes into `b->data`. -/
def Bio.store (s : Bio) (b : Fin NBUF) (data : Block) : Bio :=
  s.setBuf b { s.buf b with data := data }

/-! ### Lookup -/

def Listed (s : Bio) : Prop := ∃ xs, Ring s.links xs ∧ ∀ b, b ∈ xs

theorem length_lt_of_nodup {xs : List (Fin NBUF)} (h : xs.Nodup) : xs.length < NBUF + 1 := by
  have hle := h.length_le_card
  rw [Fintype.card_fin] at hle
  omega

theorem find_of_listed {pred : Fin NBUF → Bool} {xs : List (Fin NBUF)} (hall : ∀ b, b ∈ xs) :
    (∀ b, xs.find? pred = some b → pred b = true) ∧ (xs.find? pred = none → ∀ b, pred b = false) := by
  refine ⟨fun b hb => List.find?_some hb, fun hnone b => ?_⟩
  rw [List.find?_eq_none] at hnone
  simpa using hnone b (hall b)

/-- **What `bget` does**: a reference to the cached buffer, or to a recycled one that nobody
uses. -/
theorem bget_cases {s t : Bio} {p : Fin NPROC} {dev blockno : UInt32} (hl : Listed s)
    (h : s.bget p dev blockno = some t) :
    (∃ b, (s.buf b).dev = dev ∧ (s.buf b).blockno = blockno ∧
      t = (s.setBuf b { s.buf b with refcnt := (s.buf b).refcnt + 1 }).setCall p (.waiting b)) ∨
    (∃ b, (∀ b', ¬ ((s.buf b').dev = dev ∧ (s.buf b').blockno = blockno)) ∧
      (s.buf b).refcnt = 0 ∧
      t = (s.setBuf b { s.buf b with
        dev := dev, blockno := blockno, valid := false, refcnt := 1 }).setCall p (.waiting b)) := by
  obtain ⟨xs, hring, hall⟩ := hl
  have hlen := length_lt_of_nodup hring.nodup
  unfold Bio.bget at h
  rw [walk_next hring hlen, walk_prev hring hlen] at h
  have hall' : ∀ b, b ∈ xs.reverse := fun b => List.mem_reverse.mpr (hall b)
  cases hfind : xs.find? (s.caches dev blockno) with
  | some b =>
    rw [hfind] at h
    cases h
    have hb := (find_of_listed hall).1 b hfind
    simp only [Bio.caches, Bool.and_eq_true, beq_iff_eq] at hb
    exact Or.inl ⟨b, hb.1, hb.2, rfl⟩
  | none =>
    have hnone := (find_of_listed hall).2 hfind
    simp only [hfind] at h
    cases hfree : xs.reverse.find? (fun b => (s.buf b).refcnt == 0) with
    | none =>
      simp only [hfree] at h
      cases h
    | some b =>
      simp only [hfree] at h
      cases h
      have hb := (find_of_listed hall').1 b hfree
      refine Or.inr ⟨b, fun b' hb' => ?_, by simpa using hb, rfl⟩
      have hno := hnone b'
      simp [Bio.caches, hb'.1, hb'.2] at hno

/-! ### The list -/

theorem ring_foldl_pushFront {xs : List (Fin NBUF)} {l : Links (Fin NBUF)} {ys : List (Fin NBUF)}
    (h : Ring l ys) (hnodup : xs.Nodup) (hdis : ∀ x ∈ xs, x ∉ ys) :
    Ring (xs.foldl Links.pushFront l) (xs.reverse ++ ys) := by
  induction xs generalizing l ys with
  | nil => exact h
  | cons x xs ih =>
    rw [List.nodup_cons] at hnodup
    rw [List.foldl_cons, List.reverse_cons, List.append_assoc, List.singleton_append]
    refine ih (ring_pushFront h (hdis x List.mem_cons_self)) hnodup.2 fun y hy => ?_
    rw [List.mem_cons, not_or]
    refine ⟨?_, hdis y (List.mem_cons_of_mem _ hy)⟩
    rintro rfl
    exact hnodup.1 hy

theorem listed_binit : Listed binit := by
  refine ⟨(List.finRange NBUF).reverse ++ [],
    ring_foldl_pushFront ring_empty (List.nodup_finRange _) (by simp), fun b => ?_⟩
  simp

theorem listed_put {s : Bio} (h : Listed s) (p : Fin NPROC) (b : Fin NBUF) : Listed (s.put p b) := by
  unfold Bio.put
  simp only
  split
  · obtain ⟨xs, hring, hall⟩ := h
    have hun := ring_unlink hring (hall b)
    have hnot : b ∉ xs.erase b := hring.nodup.not_mem_erase
    refine ⟨b :: xs.erase b, ring_pushFront hun hnot, fun b' => ?_⟩
    by_cases hb : b' = b
    · simp [hb]
    · exact List.mem_cons_of_mem _ ((List.mem_erase_of_ne hb).mpr (hall b'))
  · exact h

end Xv6.BufCache
