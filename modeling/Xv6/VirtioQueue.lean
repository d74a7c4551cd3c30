import Xv6.VirtioInv

/-!
# Requests on their way

The steps that move a request: submitting it, the three steps of the device, marking it done, and freeing
its descriptors.  Each keeps the invariant, so all steps do (`inv_step`), and no step panics.
-/

namespace Xv6.VirtioMachine

open LabelledRuns RingBuffer
open Function (update_self update_of_ne update_eq_self)

variable {n : ℕ} {s t : St n} {p : Fin n} {a : Act n} {b : ℕ} {c : Chain}

/-! ### Submitting -/

theorem unconsumed_ring (h : Inv s) (x : ℕ) :
    contents (Function.update s.ring (slot NUM s.avail) x) s.last s.avail = s.unconsumed := by
  have hsize := h.size_avail
  exact contents_update (by decide) le_rfl (lt_of_le_of_lt hsize (by decide)) s.ring x

theorem inv_ring (h : Inv s) (hpc : s.pc p = .ring b c) (ht : t = s.goRing p b c) (hheld : Held t)
    (hbufs : Bufs t) : Inv t := by
  have hself : t.pc p = .bump b c := by rw [ht, St.goRing, pc_setPc_self]
  have hother : ∀ q, q ≠ p → t.pc q = s.pc q := by
    rw [ht]
    exact fun q hq => goes_other (.ring b c hpc) hq
  have hformatted := part_same hother Pc.formatted (by rw [hself, hpc]; rfl)
  have hsent := part_same hother Pc.sent (by rw [hself, hpc]; rfl)
  have hsending := part_same hother Pc.sending (by rw [hself, hpc]; rfl)
  obtain ⟨hvalid, hdisjoint, hfree⟩ :=
    h.chains (part_same hother Pc.chain (by rw [hself, hpc]; rfl)) (by rw [ht]; rfl)
  have hqueue : t.queue = s.queue := by
    rw [ht]
    change contents (Function.update s.ring (slot NUM s.avail) c.d0) s.last s.avail ++ s.busy ++
      s.completed = s.queue
    rw [unconsumed_ring h]
    rfl
  refine ⟨hheld, hbufs, hvalid, hdisjoint, hfree, ?_, ?_, ?_, by rw [hqueue]; exact h.nodup, ?_,
    by rw [ht]; exact h.posted⟩
  · intro q b' d hform
    rw [hformatted] at hform
    rw [ht]
    exact (h.wired q b' d hform).frame (fun _ _ => rfl) rfl
  · intro q b' d hsend
    rw [hsending] at hsend
    rw [ht]
    exact h.sending q b' d hsend
  · intro q b' d hbump
    by_cases hq : q = p
    · rw [hq, hself] at hbump
      cases hbump
      rw [ht]
      exact update_self _ _ _
    · rw [hother q hq] at hbump
      exact absurd (h.locked_inj (by rw [hbump]; rfl) (by rw [hpc]; rfl)) hq
  · intro i
    rw [hqueue]
    simp only [hsent]
    rw [ht]
    exact h.queue i

/-- **`avail[1]++` hands the head over.** -/
theorem unconsumed_bump (h : Inv s) (hpc : s.pc p = .bump b c) :
    contents s.ring s.last (s.avail + 1) = s.unconsumed ++ [c.d0] := by
  have hsize := h.size_avail
  have hring := h.ring p b c hpc
  have hpush := contents_push (by decide : NUM ∣ 2 ^ 16) (lt_of_le_of_lt hsize (by decide))
    (lt_of_le_of_lt (Nat.add_le_add_right hsize 1) (by decide)) s.ring (s.ring (slot NUM s.avail))
  rw [update_eq_self, hring] at hpush
  exact hpush

theorem mem_queue_bump (h : Inv s) (hpc : s.pc p = .bump b c) (ht : t = s.goBump p b c) :
    t.queue.Perm (c.d0 :: s.queue) := by
  have hqueue : t.queue = (s.unconsumed ++ [c.d0]) ++ s.busy ++ s.completed := by
    rw [ht, ← unconsumed_bump h hpc]
    rfl
  rw [hqueue, St.queue, St.waiting, List.append_assoc s.unconsumed, List.append_assoc,
    List.append_assoc s.unconsumed]
  exact List.perm_middle

theorem Inv.not_queued (h : Inv s) (hchain : (s.pc p).chain = some c) (hsent : (s.pc p).sent = none) :
    c.d0 ∉ s.queue := by
  intro hin
  obtain ⟨q, b', d, hq, hd, -, hhead, -⟩ := h.sent_of_mem hin
  rw [h.head_inj hd hchain hhead, hsent] at hq
  cases hq

theorem inv_bump (h : Inv s) (hpc : s.pc p = .bump b c) (ht : t = s.goBump p b c) (hheld : Held t)
    (hbufs : Bufs t) : Inv t := by
  have hself : t.pc p = .wait b c := by rw [ht, St.goBump, pc_setPc_self]
  have hother : ∀ q, q ≠ p → t.pc q = s.pc q := by
    rw [ht]
    exact fun q hq => goes_other (.bump b c hpc) hq
  have hformatted := part_same hother Pc.formatted (by rw [hself, hpc]; rfl)
  obtain ⟨hvalid, hdisjoint, hfree⟩ :=
    h.chains (part_same hother Pc.chain (by rw [hself, hpc]; rfl)) (by rw [ht]; rfl)
  have hperm := mem_queue_bump h hpc ht
  have hfresh : c.d0 ∉ s.queue := h.not_queued (p := p) (by rw [hpc]; rfl) (by rw [hpc]; rfl)
  refine ⟨hheld, hbufs, hvalid, hdisjoint, hfree, ?_, ?_, ?_, ?_, ?_, by rw [ht]; exact h.posted⟩
  · intro q b' d hform
    rw [hformatted] at hform
    rw [ht]
    exact (h.wired q b' d hform).frame (fun _ _ => rfl) rfl
  · intro q b' d hsend
    obtain ⟨-, hsend⟩ := part_back hother (by rw [hself]; rfl) hsend
    rw [ht]
    exact h.sending q b' d hsend
  · intro q b' d hbump
    obtain ⟨hq, hbump⟩ := at_back hother (by rw [hself]; exact Pc.noConfusion) hbump
    exact absurd (h.locked_inj (by rw [hbump]; rfl) (by rw [hpc]; rfl)) hq
  · rw [hperm.nodup_iff, List.nodup_cons]
    exact ⟨hfresh, h.nodup⟩
  · intro i
    have hdisk : t.onDisk = s.onDisk := by
      rw [ht]
      rfl
    rw [hperm.mem_iff, List.mem_cons, h.queue i, hdisk]
    constructor
    · rintro (rfl | ⟨q, b', d, hsent, hd, hhead⟩)
      · exact ⟨p, b, c, by rw [hself]; rfl, h.sending p b c (by rw [hpc]; rfl), rfl⟩
      · refine ⟨q, b', d, ?_, hd, hhead⟩
        rwa [hother]
        rintro rfl
        rw [hpc] at hsent
        cases hsent
    · rintro ⟨q, b', d, hsent, hd, hhead⟩
      by_cases hq : q = p
      · rw [hq, hself] at hsent
        cases hsent
        exact .inl hhead.symm
      · rw [hother q hq] at hsent
        exact .inr ⟨q, b', d, hsent, hd, hhead⟩

/-! ### The device -/

theorem inv_device (h : Inv s) (hthread : t.thread = s.thread) (hlock : t.lock = s.lock)
    (htable : t.table = s.table) (hring : t.ring = s.ring) (havail : t.avail = s.avail)
    (hinfo : t.info = s.info) (hdisk : t.onDisk = s.onDisk) (hperm : t.queue.Perm s.queue)
    (hposted : ∀ i, t.posted = some i → t.elems (slot NUM t.usedId) = i) : Inv t := by
  have hpc : ∀ q, t.pc q = s.pc q := fun q => by rw [St.pc, hthread]; rfl
  obtain ⟨hvalid, hdisjoint, hfree⟩ := h.chains (t := t) (fun q => by rw [hpc]) (by rw [htable])
  refine ⟨?_, ?_, hvalid, hdisjoint, hfree, ?_, ?_, ?_, ?_, ?_, hposted⟩
  · intro q
    rw [hlock, hpc]
    exact h.held q
  · intro q r b' hq hr
    rw [hpc] at hq hr
    exact h.bufs q r b' hq hr
  · intro q b' d hform
    rw [hpc] at hform
    exact (h.wired q b' d hform).frame (fun _ _ => by rw [htable]) (by rw [hinfo])
  · intro q b' d hsend
    rw [hpc] at hsend
    rw [hdisk]
    exact h.sending q b' d hsend
  · intro q b' d hbump
    rw [hpc] at hbump
    rw [hring, havail]
    exact h.ring q b' d hbump
  · rw [hperm.nodup_iff]
    exact h.nodup
  · intro i
    rw [hperm.mem_iff, h.queue i, hdisk]
    simp only [hpc]

theorem unconsumed_consume (hne : s.last ≠ s.avail) :
    s.unconsumed = s.ring (slot NUM s.last) :: contents s.ring (s.last + 1) s.avail :=
  contents_pop hne s.ring

theorem perm_consume (hne : s.last ≠ s.avail) :
    St.queue { s with last := s.last + 1, busy := s.busy ++ [s.ring (slot NUM s.last)] } |>.Perm
      s.queue := by
  have hwait : (contents s.ring (s.last + 1) s.avail ++ (s.busy ++ [s.ring (slot NUM s.last)])).Perm
      s.waiting := by
    rw [St.waiting, unconsumed_consume hne, ← List.append_assoc, List.cons_append]
    exact List.perm_append_singleton _ _
  exact hwait.append_right s.completed

theorem unprocessed_post (s : St n) (x : ℕ) :
    contents (Function.update s.elems (slot NUM s.usedId) x) (low s.usedIdx) (low s.usedId) = s.unprocessed := by
  rw [← slot_low s.usedId]
  exact contents_update (by decide) le_rfl (low s.usedId - low s.usedIdx).isLt s.elems x

theorem writeStatus_eq (h : Inv s) {i : ℕ} (hi : i ∈ s.queue) : s.writeStatus i = s.info := by
  obtain ⟨p, b, c, -, -, -, rfl, hw⟩ := h.sent_of_mem hi
  have hinfo : ({ s.info c.d0 with status := 0 } : Info) = s.info c.d0 := by rw [hw.info]
  rw [St.writeStatus, hw.linked.next0.2, hw.linked.next1.2, hw.addr]
  dsimp only
  rw [hinfo, update_eq_self]

theorem perm_post {i x : ℕ} (hposted : s.posted = none) (hx : s.busy[i]? = some x) :
    (s.unconsumed ++ s.busy.eraseIdx i ++ ([x] ++ s.unprocessed)).Perm s.queue := by
  obtain ⟨hlt, hget⟩ := List.getElem?_eq_some_iff.mp hx
  have hbusy : (x :: s.busy.eraseIdx i).Perm s.busy := by
    rw [← hget]
    exact List.getElem_cons_eraseIdx_perm hlt
  have hqueue : s.queue = s.unconsumed ++ s.busy ++ s.unprocessed := by
    rw [St.queue, St.completed, hposted]
    rfl
  rw [hqueue, List.append_assoc, List.append_assoc]
  refine List.Perm.append_left _ ?_
  rw [List.singleton_append]
  exact List.perm_middle.trans (hbusy.append_right s.unprocessed)

/-- **`used->id++` publishes the element.** -/
theorem unprocessed_publish (h : Inv s) {x : ℕ} (hposted : s.posted = some x) :
    contents s.elems (low s.usedIdx) (low (s.usedId + 1)) = s.unprocessed ++ [x] := by
  have hlen := h.length_parts
  rw [hposted, Option.toList_some, List.length_singleton] at hlen
  have hsize : size (low s.usedIdx) (low s.usedId) ≤ 1 := by
    rw [St.unprocessed, length_contents] at hlen
    omega
  have hpush := contents_push (by decide : NUM ∣ 2 ^ 3) (lt_of_le_of_lt hsize (by decide))
    (lt_of_le_of_lt (Nat.add_le_add_right hsize 1) (by decide)) s.elems (s.elems (slot NUM (low s.usedId)))
  rw [update_eq_self, slot_low, h.posted x hposted, ← low_add_one] at hpush
  exact hpush

theorem perm_publish (h : Inv s) {x : ℕ} (hposted : s.posted = some x) :
    (s.waiting ++ contents s.elems (low s.usedIdx) (low (s.usedId + 1))).Perm s.queue := by
  rw [unprocessed_publish h hposted, St.queue, St.completed, hposted]
  refine List.Perm.append_left _ ?_
  exact List.perm_append_singleton _ _

theorem inv_moved (h : Inv s) (hrest : ∃ l x, t = { s with lock := l, thread := x })
    (hother : ∀ q, q ≠ p → t.pc q = s.pc q)
    (hp : (t.pc p).chain = (s.pc p).chain ∧ (t.pc p).formatted = (s.pc p).formatted ∧
      (t.pc p).sent = (s.pc p).sent ∧ (t.pc p).sending = none) (hheld : Held t) (hbufs : Bufs t) : Inv t := by
  obtain ⟨l, x, rfl⟩ := hrest
  refine inv_quiet h ⟨rfl, fun _ _ => rfl, ⟨_, _, _, rfl⟩, fun q => ?_⟩ hheld hbufs
  by_cases hq : q = p
  · rw [hq]
    exact .inr hp
  · exact .inl (hother q hq)

theorem inv_does (h : Inv s) (hdo : Does s a t) : Inv t := by
  have hheld := held_does h.held hdo
  have hbufs := bufs_does h.bufs hdo
  cases hdo with
  | rw p b w huser hfresh | interrupt p huser =>
    refine inv_moved h ⟨_, _, rfl⟩ (fun q hq => pc_setPc_of_ne hq _ _) ?_ hheld hbufs
    rw [pc_setPc_self, huser]
    exact ⟨rfl, rfl, rfl, rfl⟩
  | kill p =>
    refine inv_quiet h ⟨rfl, fun _ _ => rfl, ⟨_, _, _, rfl⟩, ?_⟩ hheld hbufs
    intro q
    exact .inl (pc_kill s p q)
  | consume hne => exact inv_device h rfl rfl rfl rfl rfl rfl rfl (perm_consume hne) h.posted
  | post i x hposted hx =>
    have hperm := perm_post hposted hx
    have hmem : x ∈ s.queue := by
      rw [← hperm.mem_iff]
      simp
    refine inv_device h rfl rfl rfl rfl rfl (writeStatus_eq h hmem) rfl ?_ ?_
    · change (s.unconsumed ++ s.busy.eraseIdx i ++ ([x] ++ contents
        (Function.update s.elems (slot NUM s.usedId) x) (low s.usedIdx) (low s.usedId))).Perm s.queue
      rw [unprocessed_post]
      exact hperm
    · intro y hy
      cases hy
      exact update_self _ _ _
  | publish x hposted =>
    refine inv_device h rfl rfl rfl rfl rfl rfl rfl (perm_publish h hposted) ?_
    intro y hy
    cases hy

/-! ### Marking a request done -/

theorem unprocessed_done (hne : slot NUM s.usedIdx ≠ slot NUM s.usedId) :
    s.unprocessed = s.elems (slot NUM s.usedIdx) ::
      contents s.elems (low (BitVec.ofNat 16 ((s.usedIdx + 1).toNat % NUM))) (low s.usedId) := by
  have hlow : low s.usedIdx ≠ low s.usedId := fun heq => hne (low_eq_iff.mp heq)
  rw [low_usedIdx, St.unprocessed, contents_pop hlow, slot_low]

theorem mem_queue_done (hne : slot NUM s.usedIdx ≠ slot NUM s.usedId) : s.elems (slot NUM s.usedIdx) ∈ s.queue := by
  rw [St.queue, St.completed, unprocessed_done hne]
  simp

theorem inv_done (h : Inv s) (hne : slot NUM s.usedIdx ≠ slot NUM s.usedId)
    (hb : (s.info (s.elems (slot NUM s.usedIdx))).b = some b)
    (ht : t = { s with
        onDisk := Function.update s.onDisk b false
        usedIdx := BitVec.ofNat 16 ((s.usedIdx + 1).toNat % NUM)
        log := s.log ++ [Event.done (s.cur b)] }.wakeup (Pc.onBuf b))
    (hheld : Held t) (hbufs : Bufs t) : Inv t := by
  have hpc : ∀ q, t.pc q = s.pc q := by
    intro q
    rw [ht, pc_wakeup]
    rfl
  obtain ⟨p, b', c, hsent, hchain, hdisk, hhead, hw⟩ := h.sent_of_mem (mem_queue_done hne)
  have hbb : b' = b := by
    rw [← hhead, hw.info] at hb
    exact Option.some.inj hb
  subst hbb
  have hperm : s.queue.Perm (c.d0 :: t.queue) := by
    rw [St.queue, St.completed, unprocessed_done hne, ht, hhead, ← List.append_assoc]
    refine List.perm_middle.trans (List.Perm.cons _ ?_)
    rw [List.append_assoc]
    exact List.Perm.refl _
  have hnodup := h.nodup
  rw [hperm.nodup_iff, List.nodup_cons] at hnodup
  have hkeep : ∀ {q b₂ d}, (s.pc q).formatted = some (b₂, d) → q ≠ p → t.onDisk b₂ = s.onDisk b₂ := by
    intro q b₂ d hq hqp
    have hne₂ : b₂ ≠ b' := by
      rintro rfl
      exact hqp (h.bufs q p b₂ (chain_of_formatted hq).2 (chain_of_formatted (formatted_of_sent hsent)).2)
    rw [ht]
    exact update_of_ne hne₂ _ _
  obtain ⟨hvalid, hdisjoint, hfree⟩ := h.chains (t := t) (fun q => by rw [hpc]) (by rw [ht]; rfl)
  refine ⟨hheld, hbufs, hvalid, hdisjoint, hfree, ?_, ?_, ?_, hnodup.2, ?_, by rw [ht]; exact h.posted⟩
  · intro q b₂ d hform
    rw [hpc] at hform
    rw [ht]
    exact (h.wired q b₂ d hform).frame (fun _ _ => rfl) rfl
  · intro q b₂ d hsend
    rw [hpc] at hsend
    have hqp : q ≠ p := by
      rintro rfl
      cases hat : s.pc q <;> rw [hat] at hsend hsent <;> cases hsend <;> cases hsent
    rw [hkeep (formatted_of_sending hsend) hqp]
    exact h.sending q b₂ d hsend
  · intro q b₂ d hbump
    rw [hpc] at hbump
    rw [ht]
    exact h.ring q b₂ d hbump
  · intro i
    simp only [hpc]
    have hmem : i ∈ t.queue ↔ i ∈ s.queue ∧ i ≠ c.d0 := by
      rw [hperm.mem_iff, List.mem_cons]
      constructor
      · intro hi
        exact ⟨.inr hi, fun heq => hnodup.1 (heq ▸ hi)⟩
      · rintro ⟨hi | hi, hne⟩
        · exact absurd hi hne
        · exact hi
    rw [hmem, h.queue i]
    constructor
    · rintro ⟨⟨q, b₂, d, hq, hd, rfl⟩, hi⟩
      have hqp : q ≠ p := by
        rintro rfl
        rw [hsent] at hq
        cases hq
        exact hi rfl
      refine ⟨q, b₂, d, hq, ?_, rfl⟩
      rw [hkeep (formatted_of_sent hq) hqp]
      exact hd
    · rintro ⟨q, b₂, d, hq, hd, rfl⟩
      have hqp : q ≠ p := by
        rintro rfl
        rw [hsent] at hq
        cases hq
        rw [ht] at hd
        change Function.update s.onDisk b' false b' = true at hd
        rw [update_self] at hd
        cases hd
      rw [hkeep (formatted_of_sent hq) hqp] at hd
      refine ⟨⟨q, b₂, d, hq, hd, rfl⟩, ?_⟩
      intro heq
      exact hqp (h.head_inj (chain_of_formatted (formatted_of_sent hq)).1 hchain heq)

/-! ### Giving the descriptors back -/

theorem inv_finish (h : Inv s) (hpc : s.pc p = .wait b c) (hdone : s.onDisk b = false) {u : Table}
    (hfree : u.free = fun i => if i ∈ c.list then true else s.table.free i)
    (hdesc : ∀ i, i ∉ c.list → u.desc i = s.table.desc i)
    (ht : t = ({ s with
        table := u
        info := Function.update s.info c.d0 { s.info c.d0 with b := none }
        log := s.log ++ [Event.free (s.cur b)] }.wakeup Pc.onFree).setPc p (.rwEnd b))
    (hheld : Held t) (hbufs : Bufs t) : Inv t := by
  have hself : t.pc p = .rwEnd b := by rw [ht, pc_setPc_self]
  have hother : ∀ q, q ≠ p → t.pc q = s.pc q := by
    intro q hq
    rw [ht, pc_setPc_of_ne hq, pc_wakeup]
    rfl
  have hmine : (s.pc p).chain = some c := by rw [hpc]; rfl
  have hchain : ∀ {q d}, (t.pc q).chain = some d → q ≠ p ∧ (s.pc q).chain = some d :=
    part_back hother (by rw [hself]; rfl)
  refine ⟨hheld, hbufs, fun q d hd => h.valid q d (hchain hd).2,
    fun q r d e hd he => h.disjoint q r d e (hchain hd).2 (hchain he).2, ?_, ?_, ?_, ?_,
    by rw [ht]; exact h.nodup, ?_, by rw [ht]; exact h.posted⟩
  · intro i hi
    have hti : t.table.free i = if i ∈ c.list then true else s.table.free i := by
      rw [ht]
      exact congrFun hfree i
    rw [hti]
    by_cases hic : i ∈ c.list
    · rw [if_pos hic]
      refine iff_of_true rfl ?_
      intro q d hd hid
      exact h.disjoint q p d c (hchain hd).2 hmine (hchain hd).1 i hid hic
    · rw [if_neg hic, h.free i hi]
      constructor
      · intro hall q d hd
        exact hall q d (hchain hd).2
      · intro hall q d hd
        by_cases hq : q = p
        · rw [hq, hmine] at hd
          cases hd
          exact hic
        · exact hall q d (by rwa [hother q hq])
  · intro q b' d hform
    obtain ⟨hq, hform⟩ := part_back hother (by rw [hself]; rfl) hform
    have hapart := h.disjoint q p d c (chain_of_formatted hform).1 hmine hq
    refine (h.wired q b' d hform).frame ?_ ?_
    · intro i hi
      rw [ht]
      exact hdesc i (hapart i hi)
    · rw [ht]
      refine update_of_ne ?_ _ _
      intro heq
      exact hapart d.d0 (mem_d0 d) (heq ▸ mem_d0 c)
  · intro q b' d hsend
    obtain ⟨-, hsend⟩ := part_back hother (by rw [hself]; rfl) hsend
    rw [ht]
    exact h.sending q b' d hsend
  · intro q b' d hbump
    rw [ht]
    exact h.ring q b' d (at_back hother (by rw [hself]; exact Pc.noConfusion) hbump).2
  · intro i
    have hqueue : t.queue = s.queue := by
      rw [ht]
      rfl
    have hdisk : t.onDisk = s.onDisk := by
      rw [ht]
      rfl
    rw [hqueue, h.queue i, hdisk]
    constructor
    · rintro ⟨q, b', d, hsent, hd, hhead⟩
      refine ⟨q, b', d, ?_, hd, hhead⟩
      rwa [hother]
      rintro rfl
      rw [hpc] at hsent
      cases hsent
      rw [hdone] at hd
      cases hd
    · rintro ⟨q, b', d, hsent, hd, hhead⟩
      exact ⟨q, b', d, (part_back hother (by rw [hself]; rfl) hsent).2, hd, hhead⟩

/-! ### Every step -/

theorem freeChain_wait (h : Inv s) (hpc : s.pc p = .wait b c) : ∃ u, s.table.freeChain (NUM + 1) c.d0 = .ok u ∧
      (u.free = fun i => if i ∈ c.list then true else s.table.free i) ∧
      ∀ i, i ∉ c.list → u.desc i = s.table.desc i := by
  have hmine : (s.pc p).chain = some c := by
    rw [hpc]
    rfl
  have hform : (s.pc p).formatted = some (b, c) := by
    rw [hpc]
    rfl
  exact freeChain_spec (h.valid p c hmine) (fun i hi => h.used hmine hi) (h.wired p b c hform).linked

/-- **No panic.** -/
theorem panic_goes (h : Inv s) (hpanic : s.panic = none) (hgo : Goes s p t) : t.panic = none := by
  cases hgo with
  | acquirePanic pc hpc hlock =>
    have hin := (h.held p).mp hlock
    rw [not_locked_of_acquires hpc] at hin
    cases hin
  | finishPanic b c e hpc hdone herr =>
    obtain ⟨u, hu, -⟩ := freeChain_wait h hpc
    rw [hu] at herr
    cases herr
  | intrStatus hpc hne hstatus =>
    obtain ⟨q, b, c, -, -, -, hhead, hw⟩ := h.sent_of_mem (mem_queue_done hne)
    rw [← hhead, hw.info] at hstatus
    exact absurd rfl hstatus
  | intrTrap hpc hne hnone =>
    obtain ⟨q, b, c, -, -, -, hhead, hw⟩ := h.sent_of_mem (mem_queue_done hne)
    rw [← hhead, hw.info] at hnone
    cases hnone
  | allocFail b w u woke _ _ _ => cases woke <;> exact hpanic
  | _ => exact hpanic

theorem inv_goes (h : Inv s) (hpanic : s.panic = none) (hgo : Goes s p t) : Inv t := by
  have hcalm := panic_goes h hpanic hgo
  have hheld := held_goes h.held hgo hcalm
  have hbufs := bufs_goes h.bufs hgo
  have hother := fun q (hq : q ≠ p) => goes_other hgo hq
  cases hgo with
  | acquirePanic | finishPanic | intrStatus | intrTrap => cases hcalm
  | acquire pc hpc _ | woken pc hpc =>
    refine inv_moved h ⟨_, _, rfl⟩ hother ?_ hheld hbufs
    rw [pc_setPc_self]
    cases hat : s.pc p <;> rw [hat] at hpc <;> cases hpc <;> exact ⟨rfl, rfl, rfl, rfl⟩
  | release hpc =>
    refine inv_moved h ⟨_, _, rfl⟩ hother ?_ hheld hbufs
    rw [St.release, pc_setPc_self]
    cases hat : s.pc p <;> rw [hat] at hpc <;> first | exact ⟨rfl, rfl, rfl, rfl⟩ | cases hpc
  | allocFail b w u woke hpc hfree hdesc =>
    have hself := pc_sleep_self (if woke then { s with table := u }.wakeup Pc.onFree
      else { s with table := u }) p (.asleepFree b w)
    cases woke
    all_goals
      refine inv_quiet h ⟨hfree, hdesc, ⟨_, _, _, rfl⟩, ?_⟩ hheld hbufs
      intro q
      by_cases hq : q = p
      · rw [hq, hself, hpc]
        exact .inr ⟨rfl, rfl, rfl, rfl⟩
      · exact .inl (hother q hq)
  | waitSleep b c hpc _ =>
    refine inv_moved h ⟨_, _, rfl⟩ hother ?_ hheld hbufs
    rw [pc_sleep_self, hpc]
    exact ⟨rfl, rfl, rfl, rfl⟩
  | intrEmpty hpc _ =>
    refine inv_moved h ⟨_, _, rfl⟩ hother ?_ hheld hbufs
    rw [pc_setPc_self, hpc]
    exact ⟨rfl, rfl, rfl, rfl⟩
  | alloc b w c hpc hv hfree => exact inv_alloc h hpc hv hfree rfl hheld hbufs
  | format b w c hpc => exact inv_format h hpc rfl hheld hbufs
  | ring b c hpc => exact inv_ring h hpc rfl hheld hbufs
  | bump b c hpc => exact inv_bump h hpc rfl hheld hbufs
  | intrDone b hpc hne hb => exact inv_done h hne hb rfl hheld hbufs
  | finish b c u hpc hdone hu =>
    obtain ⟨v, hv, hfree, hdesc⟩ := freeChain_wait h hpc
    rw [hu] at hv
    cases hv
    exact inv_finish h hpc hdone hfree hdesc rfl hheld hbufs

theorem inv_boot : Inv (St.boot n) where
  held := fun _ => iff_of_false (by simp [St.boot]) (by simp [St.pc, St.boot, Pc.locked])
  bufs := fun _ _ _ hp => by cases hp
  valid := fun _ _ hc => by cases hc
  disjoint := fun _ _ _ _ hc => by cases hc
  free := by
    intro i hi
    refine iff_of_true (decide_eq_true hi) ?_
    intro p c hc
    cases hc
  wired := fun _ _ _ hp => by cases hp
  sending := fun _ _ _ hp => by cases hp
  ring := fun _ _ _ hp => by cases hp
  nodup := by
    simp only [St.boot, St.queue, St.waiting, St.completed, St.unconsumed, St.unprocessed, contents_self]
    exact List.nodup_nil
  queue := by
    intro h
    simp only [St.boot, St.queue, St.waiting, St.completed, St.unconsumed, St.unprocessed, contents_self]
    refine iff_of_false List.not_mem_nil ?_
    rintro ⟨p, b, c, hsent, -⟩
    cases hsent
  posted := fun _ hp => by cases hp

/-- The invariant, and no panic so far. -/
structure Sound (s : St n) : Prop where
  inv : Inv s
  panic : s.panic = none

theorem sound_step (h : Sound s) (hs : s.step a = some t) : Sound t := by
  obtain ⟨-, ⟨p, -, hgo⟩ | hdo⟩ := steps_of_step hs
  · exact ⟨inv_goes h.inv h.panic hgo, panic_goes h.inv h.panic hgo⟩
  · refine ⟨inv_does h.inv hdo, ?_⟩
    cases hdo <;> exact h.panic

end Xv6.VirtioMachine
