import Xv6.VirtioSteps

/-!
# The invariant of the disk driver

Every descriptor is free or in the chain of one call (`Inv.free`, `Inv.disjoint`), and every request that
is submitted and not done has its head in exactly one of four places: the part of the avail ring that the
device has not taken, the requests the device works on, the used element it is publishing, and the part of
the used ring that the driver has not looked at (`St.queue`, `Inv.queue`).  Eight descriptors hold two
chains, so at most two requests are under way (`length_queue_le`) and neither ring is ever full.
-/

namespace Xv6.VirtioMachine

open LabelledRuns RingBuffer
open Function (update_self update_of_ne)

variable {n : ℕ} {s t : St n} {p : Fin n} {a : Act n}

/-! ### The rings as queues -/

/-- A counter modulo `NUM`. -/
def low (x : BitVec 16) : BitVec 3 := x.setWidth 3

theorem slot_low (x : BitVec 16) : slot NUM (low x) = slot NUM x := by
  apply Fin.ext
  change (x.setWidth 3).toNat % 8 = x.toNat % 8
  rw [BitVec.toNat_setWidth]
  exact Nat.mod_mod _ _

theorem low_add_one (x : BitVec 16) : low (x + 1) = low x + 1 := by
  rw [low, low, BitVec.setWidth_add _ _ (by decide)]
  rfl

theorem low_eq_iff {x y : BitVec 16} : low x = low y ↔ slot NUM x = slot NUM y := by
  rw [← slot_low x, ← slot_low y]
  constructor
  · intro h
    rw [h]
  · intro h
    have hval : (low x).toNat % 8 = (low y).toNat % 8 := congrArg Fin.val h
    rw [Nat.mod_eq_of_lt (low x).isLt, Nat.mod_eq_of_lt (low y).isLt] at hval
    exact BitVec.eq_of_toNat_eq hval

/-- `disk.used_idx = (disk.used_idx + 1) % NUM`. -/
theorem low_usedIdx (x : BitVec 16) : low (BitVec.ofNat 16 ((x + 1).toNat % NUM)) = low x + 1 := by
  rw [← low_add_one, low_eq_iff]
  apply Fin.ext
  change (BitVec.ofNat 16 ((x + 1).toNat % 8)).toNat % 8 = (x + 1).toNat % 8
  rw [BitVec.toNat_ofNat]
  omega

/-- The entries of the avail ring that the device has not taken. -/
def St.unconsumed (s : St n) : List ℕ := contents s.ring s.last s.avail

/-- The used elements that the driver has not looked at. -/
def St.unprocessed (s : St n) : List ℕ := contents s.elems (low s.usedIdx) (low s.usedId)

/-- The heads of the requests that are with the device. -/
def St.waiting (s : St n) : List ℕ := s.unconsumed ++ s.busy

/-- Those of the requests that the device has finished. -/
def St.completed (s : St n) : List ℕ := s.posted.toList ++ s.unprocessed

def St.queue (s : St n) : List ℕ := s.waiting ++ s.completed

/-! ### The invariant -/

/-- The descriptors of a call. -/
def Pc.chain : Pc → Option Chain
  | .format _ _ c | .ring _ c | .bump _ c | .wait _ c | .asleepBuf _ c | .againBuf _ c => some c
  | _ => none

/-- The buffer and the descriptors of a call that has written them. -/
def Pc.formatted : Pc → Option (ℕ × Chain)
  | .ring b c | .bump b c | .wait b c | .asleepBuf b c | .againBuf b c => some (b, c)
  | _ => none

/-- Those of a call whose request is submitted. -/
def Pc.sent : Pc → Option (ℕ × Chain)
  | .wait b c | .asleepBuf b c | .againBuf b c => some (b, c)
  | _ => none

/-- Those of a call that is submitting its request. -/
def Pc.sending : Pc → Option (ℕ × Chain)
  | .ring b c | .bump b c => some (b, c)
  | _ => none

/-- What is written for a request. -/
structure Wired (s : St n) (b : ℕ) (c : Chain) : Prop where
  linked : s.table.Linked c
  addr : (s.table.desc c.d2).addr = .status c.d0
  info : s.info c.d0 = ⟨some b, 0⟩

structure Inv (s : St n) : Prop where
  held : Held s
  bufs : Bufs s
  valid : ∀ p c, (s.pc p).chain = some c → c.Valid
  disjoint : ∀ p q c d, (s.pc p).chain = some c → (s.pc q).chain = some d → p ≠ q →
    ∀ i ∈ c.list, i ∉ d.list
  free : ∀ i, i < NUM → (s.table.free i = true ↔ ∀ p c, (s.pc p).chain = some c → i ∉ c.list)
  wired : ∀ p b c, (s.pc p).formatted = some (b, c) → Wired s b c
  sending : ∀ p b c, (s.pc p).sending = some (b, c) → s.onDisk b = true
  ring : ∀ p b c, s.pc p = .bump b c → s.ring (slot NUM s.avail) = c.d0
  nodup : s.queue.Nodup
  queue : ∀ h, h ∈ s.queue ↔ ∃ p b c, (s.pc p).sent = some (b, c) ∧ s.onDisk b = true ∧ c.d0 = h
  posted : ∀ h, s.posted = some h → s.elems (slot NUM s.usedId) = h

theorem formatted_of_sent {pc : Pc} {b : ℕ} {c : Chain} (h : pc.sent = some (b, c)) : pc.formatted = some (b, c) := by
  cases pc <;> cases h <;> rfl

theorem formatted_of_sending {pc : Pc} {b : ℕ} {c : Chain} (h : pc.sending = some (b, c)) :
    pc.formatted = some (b, c) := by
  cases pc <;> cases h <;> rfl

theorem chain_of_formatted {pc : Pc} {b : ℕ} {c : Chain} (h : pc.formatted = some (b, c)) :
    pc.chain = some c ∧ pc.buf = some b := by
  cases pc <;> cases h <;> exact ⟨rfl, rfl⟩

theorem mem_d0 (c : Chain) : c.d0 ∈ c.list := by simp [Chain.list]

section Facts

variable (h : Inv s)

include h

theorem Inv.used {c : Chain} (hc : (s.pc p).chain = some c) {i : ℕ} (hi : i ∈ c.list) : s.table.free i = false := by
  rw [← Bool.not_eq_true]
  intro hfree
  exact (h.free i ((h.valid p c hc).lt i hi)).mp hfree p c hc hi

theorem Inv.head_inj {q : Fin n} {c d : Chain} (hc : (s.pc p).chain = some c)
    (hd : (s.pc q).chain = some d) (heq : c.d0 = d.d0) : p = q := by
  by_contra hne
  exact h.disjoint p q c d hc hd hne c.d0 (mem_d0 c) (heq ▸ mem_d0 d)

theorem Inv.sent_of_mem {i : ℕ} (hi : i ∈ s.queue) :
    ∃ p b c, (s.pc p).sent = some (b, c) ∧ (s.pc p).chain = some c ∧ s.onDisk b = true ∧ c.d0 = i ∧ Wired s b c := by
  obtain ⟨p, b, c, hsent, hdisk, hhead⟩ := (h.queue i).mp hi
  have hform := formatted_of_sent hsent
  exact ⟨p, b, c, hsent, (chain_of_formatted hform).1, hdisk, hhead, h.wired p b c hform⟩

/-- **At most two requests are under way**: three chains would need nine descriptors. -/
theorem Inv.length_queue_le : s.queue.length ≤ 2 := by
  have hnodup := h.nodup
  have hmem := fun i hi => h.sent_of_mem (i := i) hi
  match s.queue, hnodup, hmem with
  | [], _, _ => exact Nat.zero_le _
  | [_], _, _ => exact Nat.le_succ 1
  | [_, _], _, _ => exact le_refl 2
  | x :: y :: z :: rest, hnodup, hmem =>
    exfalso
    obtain ⟨p, _, c, -, hc, -, hx, -⟩ := hmem x (by simp)
    obtain ⟨q, _, d, -, hd, -, hy, -⟩ := hmem y (by simp)
    obtain ⟨r, _, e, -, he, -, hz, -⟩ := hmem z (by simp)
    have hxy : x ≠ y := by
      intro heq
      simp [heq] at hnodup
    have hxz : x ≠ z := by
      intro heq
      simp [heq] at hnodup
    have hyz : y ≠ z := by
      intro heq
      simp [heq] at hnodup
    have hpq : p ≠ q := by
      rintro rfl
      rw [hc] at hd
      cases hd
      exact hxy (hx.symm.trans hy)
    have hpr : p ≠ r := by
      rintro rfl
      rw [hc] at he
      cases he
      exact hxz (hx.symm.trans hz)
    have hqr : q ≠ r := by
      rintro rfl
      rw [hd] at he
      cases he
      exact hyz (hy.symm.trans hz)
    have hall : (c.list ++ (d.list ++ e.list)).Nodup := by
      refine List.nodup_append'.mpr ⟨(h.valid p c hc).nodup, List.nodup_append'.mpr
        ⟨(h.valid q d hd).nodup, (h.valid r e he).nodup, ?_⟩, ?_⟩
      · intro i hi hi'
        exact h.disjoint q r d e hd he hqr i hi hi'
      · intro i hi hi'
        obtain hi' | hi' := List.mem_append.mp hi'
        · exact h.disjoint p q c d hc hd hpq i hi hi'
        · exact h.disjoint p r c e hc he hpr i hi hi'
    have hsub : c.list ++ (d.list ++ e.list) ⊆ List.range NUM := by
      intro i hi
      rw [List.mem_range]
      obtain hi | hi := List.mem_append.mp hi
      · exact (h.valid p c hc).lt i hi
      · obtain hi | hi := List.mem_append.mp hi
        · exact (h.valid q d hd).lt i hi
        · exact (h.valid r e he).lt i hi
    have hlen := (hall.subperm hsub).length_le
    simp [Chain.list, NUM] at hlen

theorem Inv.length_parts : s.unconsumed.length + s.busy.length + s.posted.toList.length +
    s.unprocessed.length ≤ 2 := by
  have hlen := h.length_queue_le
  rw [St.queue, St.waiting, St.completed, List.length_append, List.length_append, List.length_append]
    at hlen
  omega

theorem Inv.size_avail : size s.last s.avail ≤ 2 := by
  have hlen := h.length_parts
  rw [St.unconsumed, length_contents] at hlen
  omega

end Facts

/-! ### Steps that change nothing of this -/

/-- The requests, the rings and the descriptors in use are as before. -/
structure Quiet (s t : St n) : Prop where
  free : t.table.free = s.table.free
  desc : ∀ i, s.table.free i = false → t.table.desc i = s.table.desc i
  rest : ∃ u l x, t = { s with table := u, lock := l, thread := x }
  pc : ∀ q, t.pc q = s.pc q ∨ (t.pc q).chain = (s.pc q).chain ∧
    (t.pc q).formatted = (s.pc q).formatted ∧ (t.pc q).sent = (s.pc q).sent ∧ (t.pc q).sending = none

theorem Quiet.chain (hq : Quiet s t) (q : Fin n) : (t.pc q).chain = (s.pc q).chain := by
  obtain heq | heq := hq.pc q
  · rw [heq]
  · exact heq.1

theorem Quiet.formatted (hq : Quiet s t) (q : Fin n) : (t.pc q).formatted = (s.pc q).formatted := by
  obtain heq | heq := hq.pc q
  · rw [heq]
  · exact heq.2.1

theorem Quiet.sent (hq : Quiet s t) (q : Fin n) : (t.pc q).sent = (s.pc q).sent := by
  obtain heq | heq := hq.pc q
  · rw [heq]
  · exact heq.2.2.1

theorem Quiet.sending (hq : Quiet s t) {q : Fin n} {x : ℕ × Chain} (hx : (t.pc q).sending = some x) :
    t.pc q = s.pc q := by
  obtain heq | heq := hq.pc q
  · exact heq
  · rw [heq.2.2.2] at hx
    cases hx

theorem Wired.frame {b : ℕ} {c : Chain} (hw : Wired s b c)
    (hdesc : ∀ i ∈ c.list, t.table.desc i = s.table.desc i) (hinfo : t.info c.d0 = s.info c.d0) : Wired t b c := by
  have h0 : t.table.desc c.d0 = s.table.desc c.d0 := hdesc _ (by simp [Chain.list])
  have h1 : t.table.desc c.d1 = s.table.desc c.d1 := hdesc _ (by simp [Chain.list])
  have h2 : t.table.desc c.d2 = s.table.desc c.d2 := hdesc _ (by simp [Chain.list])
  refine ⟨⟨?_, ?_, ?_⟩, ?_, ?_⟩
  · rw [h0]
    exact hw.linked.next0
  · rw [h1]
    exact hw.linked.next1
  · rw [h2]
    exact hw.linked.last
  · rw [h2]
    exact hw.addr
  · rw [hinfo]
    exact hw.info

theorem Inv.chains (h : Inv s) (hchain : ∀ q, (t.pc q).chain = (s.pc q).chain)
    (hfree : t.table.free = s.table.free) : (∀ p c, (t.pc p).chain = some c → c.Valid) ∧
      (∀ p q c d, (t.pc p).chain = some c → (t.pc q).chain = some d → p ≠ q → ∀ i ∈ c.list, i ∉ d.list) ∧
      ∀ i, i < NUM → (t.table.free i = true ↔ ∀ p c, (t.pc p).chain = some c → i ∉ c.list) := by
  simp only [hchain, hfree]
  exact ⟨h.valid, h.disjoint, h.free⟩

theorem inv_quiet (h : Inv s) (hq : Quiet s t) (hheld : Held t) (hbufs : Bufs t) : Inv t := by
  obtain ⟨hvalid, hdisjoint, hfree⟩ := h.chains hq.chain hq.free
  obtain ⟨u, l, x, rfl⟩ := hq.rest
  refine ⟨hheld, hbufs, hvalid, hdisjoint, hfree, ?_, ?_, ?_, h.nodup, ?_, h.posted⟩
  · intro p b c hform
    rw [hq.formatted] at hform
    exact (h.wired p b c hform).frame (fun i hi => hq.desc i (h.used (chain_of_formatted hform).1 hi)) rfl
  · intro p b c hsend
    rw [hq.sending hsend] at hsend
    exact h.sending p b c hsend
  · intro p b c hbump
    have hsame := hq.sending (q := p) (x := (b, c)) (by rw [hbump]; rfl)
    exact h.ring p b c (hsame.symm.trans hbump)
  · intro i
    simp only [hq.sent]
    exact h.queue i

/-! ### Steps of one thread -/

section Moved

variable {α : Type} (hother : ∀ q, q ≠ p → t.pc q = s.pc q)

include hother

theorem part_same (f : Pc → α) (hp : f (t.pc p) = f (s.pc p)) (q : Fin n) : f (t.pc q) = f (s.pc q) := by
  by_cases hq : q = p
  · rw [hq, hp]
  · rw [hother q hq]

theorem part_back {f : Pc → Option α} (hp : f (t.pc p) = none) {q : Fin n} {x : α}
    (hx : f (t.pc q) = some x) : q ≠ p ∧ f (s.pc q) = some x := by
  by_cases hq : q = p
  · rw [hq, hp] at hx
    cases hx
  · rw [hother q hq] at hx
    exact ⟨hq, hx⟩

theorem at_back {pc : Pc} (hp : t.pc p ≠ pc) {q : Fin n} (hq : t.pc q = pc) : q ≠ p ∧ s.pc q = pc := by
  have hne : q ≠ p := fun e => hp (e ▸ hq)
  exact ⟨hne, (hother q hne).symm.trans hq⟩

end Moved

/-! ### Allocating and formatting -/

section Moves

variable {b : ℕ} {w : Bool} {c : Chain}

theorem Inv.locked_inj (h : Inv s) {q : Fin n} (hp : (s.pc p).locked = true)
    (hq : (s.pc q).locked = true) : p = q := by
  have hlock := (h.held p).mpr hp
  rw [(h.held q).mpr hq] at hlock
  exact (Option.some.inj hlock).symm

theorem inv_alloc (h : Inv s) (hpc : s.pc p = .alloc b w) (hv : c.Valid)
    (hfree : ∀ i ∈ c.list, s.table.free i = true)
    (ht : t = { s with table := { s.table with free := fun i =>
      if i ∈ c.list then false else s.table.free i } }.setPc p (.format b w c))
    (hheld : Held t) (hbufs : Bufs t) : Inv t := by
  have hself : t.pc p = .format b w c := by rw [ht, pc_setPc_self]
  have hother : ∀ q, q ≠ p → t.pc q = s.pc q := by
    rw [ht]
    exact fun q hq => goes_other (.alloc b w c hpc hv hfree) hq
  have hsent := part_same hother Pc.sent (by rw [hself, hpc]; rfl)
  have hmark : ∀ i, t.table.free i = if i ∈ c.list then false else s.table.free i := fun i => by rw [ht]; rfl
  have hnew : ∀ {q d}, (t.pc q).chain = some d → q ≠ p → (s.pc q).chain = some d := by
    intro q d hd hq
    rwa [hother q hq] at hd
  have hown : ∀ {d}, (t.pc p).chain = some d → d = c := by
    intro d hd
    rw [hself] at hd
    exact (Option.some.inj hd).symm
  have hapart : ∀ {q d}, (s.pc q).chain = some d → ∀ i ∈ c.list, i ∉ d.list := by
    intro q d hd i hi
    exact (h.free i (hv.lt i hi)).mp (hfree i hi) q d hd
  refine ⟨hheld, hbufs, ?_, ?_, ?_, ?_, ?_, ?_, by rw [ht]; exact h.nodup, ?_, by rw [ht]; exact h.posted⟩
  · intro q d hd
    by_cases hq : q = p
    · subst hq
      rw [hown hd]
      exact hv
    · exact h.valid q d (hnew hd hq)
  · intro q r d e hd he hqr i hi hi'
    by_cases hq : q = p
    · subst hq
      rw [hown hd] at hi
      exact hapart (hnew he hqr.symm) i hi hi'
    · by_cases hr : r = p
      · subst hr
        rw [hown he] at hi'
        exact hapart (hnew hd hq) i hi' hi
      · exact h.disjoint q r d e (hnew hd hq) (hnew he hr) hqr i hi hi'
  · intro i hi
    rw [hmark]
    by_cases hic : i ∈ c.list
    · rw [if_pos hic]
      refine iff_of_false (by simp) ?_
      intro hall
      exact hall p c (by rw [hself]; rfl) hic
    · rw [if_neg hic, h.free i hi]
      constructor
      · intro hall q d hd
        by_cases hq : q = p
        · subst hq
          rwa [hown hd]
        · exact hall q d (hnew hd hq)
      · intro hall q d hd
        refine hall q d ?_
        rwa [hother]
        rintro rfl
        rw [hpc] at hd
        cases hd
  · intro q b' d hform
    obtain ⟨-, hform⟩ := part_back hother (by rw [hself]; rfl) hform
    exact (h.wired q b' d hform).frame (fun _ _ => by rw [ht]; rfl) (by rw [ht]; rfl)
  · intro q b' d hsend
    obtain ⟨-, hsend⟩ := part_back hother (by rw [hself]; rfl) hsend
    rw [ht]
    exact h.sending q b' d hsend
  · intro q b' d hbump
    rw [ht]
    exact h.ring q b' d (at_back hother (by rw [hself]; exact Pc.noConfusion) hbump).2
  · intro i
    simp only [hsent]
    rw [ht]
    exact h.queue i

theorem linked_format (t : Table) (hv : c.Valid) :
    (t.format b w c).Linked c ∧ ((t.format b w c).desc c.d2).addr = .status c.d0 := by
  have hnodup := hv.nodup
  simp only [Chain.list, List.nodup_cons, List.mem_cons, List.not_mem_nil, or_false, not_or,
    List.nodup_nil, and_true, not_false_eq_true] at hnodup
  obtain ⟨⟨h01, h02⟩, h12⟩ := hnodup
  have h0 : (t.format b w c).desc c.d0 = ⟨.header, 16, true, false, c.d1⟩ := by
    simp only [Table.format, update_of_ne h02, update_of_ne h01, update_self]
  have h1 : ((t.format b w c).desc c.d1).hasNext = true ∧ ((t.format b w c).desc c.d1).next = c.d2 := by
    simp only [Table.format, update_of_ne h12, update_self, and_self]
  have h2 : (t.format b w c).desc c.d2 = ⟨.status c.d0, 1, false, true, 0⟩ := by
    simp only [Table.format, update_self]
  refine ⟨⟨?_, h1, ?_⟩, ?_⟩
  · rw [h0]
    exact ⟨rfl, rfl⟩
  · rw [h2]
  · rw [h2]

theorem desc_format (t : Table) {i : ℕ} (hi : i ∉ c.list) : (t.format b w c).desc i = t.desc i := by
  simp only [Chain.list, List.mem_cons, List.not_mem_nil, or_false, not_or] at hi
  simp only [Table.format, update_of_ne hi.1, update_of_ne hi.2.1,
    update_of_ne hi.2.2]

theorem inv_format (h : Inv s) (hpc : s.pc p = .format b w c) (ht : t = s.goFormat p b w c)
    (hheld : Held t) (hbufs : Bufs t) : Inv t := by
  have hself : t.pc p = .ring b c := by rw [ht, St.goFormat, pc_setPc_self]
  have hother : ∀ q, q ≠ p → t.pc q = s.pc q := by
    rw [ht]
    exact fun q hq => goes_other (.format b w c hpc) hq
  have hmine : (s.pc p).chain = some c := by rw [hpc]; rfl
  have hsent := part_same hother Pc.sent (by rw [hself, hpc]; rfl)
  obtain ⟨hvalid, hdisjoint, hfree⟩ :=
    h.chains (part_same hother Pc.chain (by rw [hself, hpc]; rfl)) (by rw [ht]; rfl)
  have hdisk : ∀ {q b' d}, (s.pc q).sent = some (b', d) → t.onDisk b' = s.onDisk b' := by
    intro q b' d hq
    have hne : b' ≠ b := by
      rintro rfl
      have hbuf := (chain_of_formatted (formatted_of_sent hq)).2
      have heq := h.bufs q p b' hbuf (by rw [hpc]; rfl)
      rw [heq, hpc] at hq
      cases hq
    rw [ht]
    exact update_of_ne hne _ _
  refine ⟨hheld, hbufs, hvalid, hdisjoint, hfree, ?_, ?_, ?_, by rw [ht]; exact h.nodup, ?_,
    by rw [ht]; exact h.posted⟩
  · intro q b' d hform
    by_cases hq : q = p
    · rw [hq, hself] at hform
      cases hform
      obtain ⟨hlinked, haddr⟩ := linked_format (b := b) (w := w) s.table (h.valid p c hmine)
      rw [ht]
      exact ⟨hlinked, haddr, update_self _ _ _⟩
    · rw [hother q hq] at hform
      have hapart := h.disjoint q p d c (chain_of_formatted hform).1 hmine hq
      refine (h.wired q b' d hform).frame ?_ ?_
      · intro i hi
        rw [ht]
        exact desc_format s.table (hapart i hi)
      · rw [ht]
        refine update_of_ne ?_ _ _
        intro heq
        exact hapart d.d0 (mem_d0 d) (heq ▸ mem_d0 c)
  · intro q b' d hsend
    by_cases hb : b' = b
    · rw [hb, ht]
      exact update_self _ _ _
    · have hq : q ≠ p := by
        rintro rfl
        rw [hself] at hsend
        cases hsend
        exact hb rfl
      rw [hother q hq] at hsend
      rw [ht]
      change Function.update s.onDisk b true b' = true
      rw [update_of_ne hb]
      exact h.sending q b' d hsend
  · intro q b' d hbump
    rw [ht]
    exact h.ring q b' d (at_back hother (by rw [hself]; exact Pc.noConfusion) hbump).2
  · intro i
    have hqueue : t.queue = s.queue := by
      rw [ht]
      rfl
    rw [hqueue, h.queue i]
    simp only [hsent]
    refine exists_congr fun q => exists_congr fun b' => exists_congr fun d => ?_
    refine and_congr_right fun hq => ?_
    rw [hdisk hq]

end Moves

end Xv6.VirtioMachine
