import Mathlib.Tactic

/-!
# Circular doubly linked lists

A ring of nodes with a distinguished head, linked by `next` and `prev` pointers.  A node is
`none` (the head) or `some b`.  `Ring l xs` says that following `next` from the head meets the
nodes `xs` in order and comes back to the head, and that `prev` is the inverse.

* `walk_next`, `walk_prev` — a loop over the ring that stops at the first node with a property
  computes `List.find?` on `xs`, or on its reverse;
* `ring_pushFront`, `ring_unlink` — the two pointer updates.
-/

namespace Xv6.LinkedRing

variable {α : Type*}

structure Links (α : Type*) where
  next : Option α → Option α
  prev : Option α → Option α

def Links.Joined (l : Links α) (x y : Option α) : Prop := l.next x = y ∧ l.prev y = x

/-- The nodes `ys`, in order, lie between `x` and `z`. -/
def Seg (l : Links α) : Option α → List α → Option α → Prop
  | x, [], z => l.Joined x z
  | x, y :: ys, z => l.Joined x (some y) ∧ Seg l (some y) ys z

structure Ring (l : Links α) (xs : List α) : Prop where
  seg : Seg l none xs none
  nodup : xs.Nodup

/-- `for(b = start; b != &head; b = b->link) if(pred(b)) return b;` with at most `fuel` turns. -/
def walk (link : Option α → Option α) (pred : α → Bool) : ℕ → Option α → Option α
  | 0, _ => none
  | _ + 1, none => none
  | fuel + 1, some b => if pred b then some b else walk link pred fuel (link (some b))

/-! ### Segments -/

theorem seg_append {l : Links α} {ys zs : List α} {y : α} {x z : Option α} :
    Seg l x (ys ++ y :: zs) z ↔ Seg l x ys (some y) ∧ Seg l (some y) zs z := by
  induction ys generalizing x with
  | nil => exact Iff.rfl
  | cons w ys ih =>
    rw [List.cons_append, Seg, Seg, ih, and_assoc]

theorem seg_next {l : Links α} {xs : List α} {x z : Option α} (h : Seg l x xs z) :
    l.next x = (xs.map some ++ [z]).head (by simp) := by
  cases xs with
  | nil => exact h.1
  | cons y ys => exact h.1.1

theorem seg_prev {l : Links α} {xs : List α} {x z : Option α} (h : Seg l x xs z) : l.prev z ∈ x :: xs.map some := by
  induction xs generalizing x with
  | nil =>
    rw [h.2]
    exact List.mem_cons_self
  | cons y ys ih =>
    have hmem := ih h.2
    rw [List.map_cons]
    exact List.mem_cons_of_mem _ hmem

theorem seg_congr {l l' : Links α} {xs : List α} {x z : Option α} (h : Seg l x xs z)
    (hnext : ∀ y ∈ x :: xs.map some, l'.next y = l.next y)
    (hprev : ∀ y ∈ xs.map some ++ [z], l'.prev y = l.prev y) : Seg l' x xs z := by
  induction xs generalizing x with
  | nil =>
    refine ⟨(hnext x (by simp)).trans h.1, (hprev z (by simp)).trans h.2⟩
  | cons y ys ih =>
    refine ⟨⟨(hnext x (by simp)).trans h.1.1, (hprev (some y) (by simp)).trans h.1.2⟩, ?_⟩
    refine ih h.2 (fun w hw => hnext w ?_) (fun w hw => hprev w ?_)
    · exact List.mem_cons_of_mem _ hw
    · exact List.mem_cons_of_mem _ hw

theorem seg_retarget {l l' : Links α} {xs : List α} {x z z' : Option α} (h : Seg l x xs z)
    (hnodup : (x :: xs.map some).Nodup) (hto : l'.Joined (l.prev z) z')
    (hnext : ∀ y ∈ x :: xs.map some, y ≠ l.prev z → l'.next y = l.next y)
    (hprev : ∀ y ∈ xs.map some, l'.prev y = l.prev y) : Seg l' x xs z' := by
  induction xs generalizing x with
  | nil =>
    have hlast : l.prev z = x := h.2
    rw [hlast] at hto
    exact hto
  | cons y ys ih =>
    rw [List.map_cons] at hnodup hnext hprev
    have hne : x ≠ l.prev z := by
      intro he
      exact (List.nodup_cons.mp hnodup).1 (he ▸ seg_prev h.2)
    refine ⟨⟨(hnext x (by simp) hne).trans h.1.1, (hprev (some y) (by simp)).trans h.1.2⟩, ?_⟩
    refine ih h.2 (List.nodup_cons.mp hnodup).2 (fun w hw => hnext w ?_) (fun w hw => hprev w ?_)
    · exact List.mem_cons_of_mem _ hw
    · exact List.mem_cons_of_mem _ hw

theorem Ring.nodes_nodup {l : Links α} {xs : List α} (h : Ring l xs) : ((none : Option α) :: xs.map some).Nodup := by
  rw [List.nodup_cons]
  exact ⟨by simp, h.nodup.map (Option.some_injective α)⟩

/-! ### Walking -/

theorem walk_seg_next {l : Links α} {pred : α → Bool} {xs : List α} {x : Option α} {fuel : ℕ}
    (h : Seg l x xs none) (hfuel : xs.length < fuel) : walk l.next pred fuel (l.next x) = xs.find? pred := by
  induction xs generalizing x fuel with
  | nil =>
    rw [h.1]
    cases fuel with
    | zero => exact absurd hfuel (by simp)
    | succ fuel => rfl
  | cons y ys ih =>
    cases fuel with
    | zero => exact absurd hfuel (by simp)
    | succ fuel =>
      rw [h.1.1, walk, List.find?_cons]
      cases hp : pred y with
      | true => rfl
      | false =>
        have hlen : ys.length < fuel := by
          rw [List.length_cons] at hfuel
          omega
        simpa using ih h.2 hlen

theorem walk_seg_prev {l : Links α} {pred : α → Bool} {xs : List α} {z : Option α} {fuel : ℕ}
    (h : Seg l none xs z) (hfuel : xs.length < fuel) : walk l.prev pred fuel (l.prev z) = xs.reverse.find? pred := by
  induction xs using List.reverseRecOn generalizing z fuel with
  | nil =>
    rw [h.2]
    cases fuel with
    | zero => exact absurd hfuel (by simp)
    | succ fuel => rfl
  | append_singleton ys y ih =>
    obtain ⟨hys, hz⟩ := seg_append.mp h
    cases fuel with
    | zero => exact absurd hfuel (by simp)
    | succ fuel =>
      rw [hz.2, walk, List.reverse_append, List.reverse_singleton, List.singleton_append,
        List.find?_cons]
      cases hp : pred y with
      | true => rfl
      | false =>
        have hlen : ys.length < fuel := by
          rw [List.length_append, List.length_singleton] at hfuel
          omega
        simpa using ih hys hlen

/-- **Forward loop.** -/
theorem walk_next {l : Links α} {pred : α → Bool} {xs : List α} {fuel : ℕ} (h : Ring l xs)
    (hfuel : xs.length < fuel) : walk l.next pred fuel (l.next none) = xs.find? pred :=
  walk_seg_next h.seg hfuel

/-- **Backward loop.** -/
theorem walk_prev {l : Links α} {pred : α → Bool} {xs : List α} {fuel : ℕ} (h : Ring l xs)
    (hfuel : xs.length < fuel) : walk l.prev pred fuel (l.prev none) = xs.reverse.find? pred :=
  walk_seg_prev h.seg hfuel

/-! ### Pointer updates -/

/-- `head.prev = &head; head.next = &head;` -/
def Links.empty : Links α := ⟨fun _ => none, fun _ => none⟩

theorem ring_empty : Ring (Links.empty : Links α) [] := ⟨⟨rfl, rfl⟩, List.nodup_nil⟩

section Updates

variable [DecidableEq α]

/-- `b->next->prev = b->prev; b->prev->next = b->next;` -/
def Links.unlink (l : Links α) (b : α) : Links α where
  next := Function.update l.next (l.prev (some b)) (l.next (some b))
  prev := Function.update l.prev (l.next (some b)) (l.prev (some b))

/-- `b->next = head.next; b->prev = &head; head.next->prev = b; head.next = b;` -/
def Links.pushFront (l : Links α) (b : α) : Links α where
  next := Function.update (Function.update l.next (some b) (l.next none)) none (some b)
  prev := Function.update (Function.update l.prev (some b) none) (l.next none) (some b)

/-- **Insertion after the head.** -/
theorem ring_pushFront {l : Links α} {xs : List α} {b : α} (h : Ring l xs) (hb : b ∉ xs) :
    Ring (l.pushFront b) (b :: xs) := by
  have hhead := seg_next h.seg
  have hne : l.next none ≠ some b := by
    rw [hhead]
    cases xs with
    | nil => simp
    | cons x xs =>
      intro he
      obtain rfl : x = b := Option.some.inj he
      exact hb List.mem_cons_self
  refine ⟨⟨⟨by simp [Links.pushFront], ?_⟩, ?_⟩, List.nodup_cons.mpr ⟨hb, h.nodup⟩⟩
  · simp [Links.pushFront, hne.symm]
  · have hnext : (l.pushFront b).next (some b) = l.next none := by simp [Links.pushFront]
    have hprev : (l.pushFront b).prev (l.next none) = some b := by simp [Links.pushFront]
    cases xs with
    | nil =>
      have hnil : l.next none = none := hhead
      rw [hnil] at hnext hprev
      exact ⟨hnext, hprev⟩
    | cons x xs =>
      have hx : l.next none = some x := hhead
      rw [hx] at hnext hprev
      refine ⟨⟨hnext, hprev⟩, seg_congr h.seg.2 ?_ ?_⟩
      · intro y hy
        have hyb : y ≠ some b := by
          rintro rfl
          exact hb (by simpa using hy)
        have hy0 : y ≠ none := by
          rintro rfl
          simp at hy
        simp [Links.pushFront, hy0, hyb]
      · intro y hy
        have hyb : y ≠ some b := by
          rintro rfl
          exact hb (List.mem_cons_of_mem _ (by simpa using hy))
        have hyx : y ≠ some x := by
          rintro rfl
          exact (List.nodup_cons.mp h.nodup).1 (by simpa using hy)
        simp [Links.pushFront, hyb, hx, hyx]

/-- **Removal.** -/
theorem ring_unlink {l : Links α} {xs : List α} {b : α} (h : Ring l xs) (hb : b ∈ xs) :
    Ring (l.unlink b) (xs.erase b) := by
  obtain ⟨ys, zs, rfl⟩ := List.append_of_mem hb
  have hnodes := h.nodes_nodup
  have hbys : b ∉ ys := by
    intro hmem
    have hdis := (List.nodup_append.mp h.nodup).2.2 b hmem b List.mem_cons_self
    exact hdis rfl
  rw [List.erase_append_right _ hbys, List.erase_cons_head]
  obtain ⟨hys, hzs⟩ := seg_append.mp h.seg
  refine ⟨?_, ?_⟩
  · have hdis : ∀ y ∈ ys, ∀ z ∈ b :: zs, y ≠ z := (List.nodup_append.mp h.nodup).2.2
    have hlast := seg_prev hys
    have hkeep : ∀ y, y ≠ l.prev (some b) → (l.unlink b).next y = l.next y :=
      fun y hy => Function.update_of_ne hy _ _
    have hkeep' : ∀ y, y ≠ l.next (some b) → (l.unlink b).prev y = l.prev y :=
      fun y hy => Function.update_of_ne hy _ _
    have hjoin : (l.unlink b).Joined (l.prev (some b)) (l.next (some b)) :=
      ⟨Function.update_self _ _ _, Function.update_self _ _ _⟩
    have hnodup : ((none : Option α) :: ys.map some).Nodup := by
      refine hnodes.sublist (List.Sublist.cons_cons _ ?_)
      rw [List.map_append]
      exact List.sublist_append_left _ _
    cases zs with
    | nil =>
      rw [List.append_nil]
      rw [hzs.1] at hjoin hkeep'
      refine seg_retarget hys hnodup hjoin (fun y _ => hkeep y) fun y hy => hkeep' y ?_
      rintro rfl
      simp at hy
    | cons w ws =>
      rw [hzs.1.1] at hjoin hkeep'
      refine seg_append.mpr ⟨?_, ?_⟩
      · refine seg_retarget hys hnodup hjoin (fun y _ => hkeep y) fun y hy => hkeep' y ?_
        rintro rfl
        exact hdis w (by simpa using hy) w (by simp) rfl
      · refine seg_congr hzs.2 (fun y hy => hkeep y ?_) fun y hy => hkeep' y ?_
        · rintro rfl
          rw [← List.map_cons] at hy
          obtain ⟨x, hx, hxb⟩ := List.mem_map.mp hy
          rw [← hxb] at hlast
          exact hdis x (by simpa using hlast) x (List.mem_cons_of_mem _ hx) rfl
        · rintro rfl
          have hzn := (List.nodup_append.mp h.nodup).2.1
          rw [List.nodup_cons, List.nodup_cons] at hzn
          exact hzn.2.1 (by simpa using hy)
  · exact h.nodup.sublist (List.Sublist.append_left (List.sublist_cons_self b zs) ys)

end Updates

end Xv6.LinkedRing
