import Xv6.VirtioQueue

/-!
# Every request completes once

The record of a run has, for each request, when it was submitted, when the device finished it, when it was
marked done (`b->disk = 0`) and when its descriptors were freed.  `Recorded` says how far each request has
come, by the place its head is in; so the events of a request are always a beginning of `life`, each of the
four once and in that order (`disk_requests`).
-/

namespace Xv6.VirtioMachine

open LabelledRuns RingBuffer
open Function (update_self update_of_ne)

variable {n : ℕ} {s t : St n} {p : Fin n} {a : Act n} {b : ℕ} {c : Chain}

/-- What has happened to a request. -/
def St.history (s : St n) (r : ℕ) : List Event := s.log.filter fun e => e.request = r

/-- What happens to a request. -/
def life (r : ℕ) : List Event := [.submit r, .complete r, .done r, .free r]

structure Recorded (s : St n) : Prop where
  fresh : ∀ r, s.count ≤ r → s.history r = []
  past : ∀ r, r < s.count →
    s.history r = life r ∨ ∃ p b c, (s.pc p).sent = some (b, c) ∧ s.cur b = r
  cur : ∀ p b c, (s.pc p).sent = some (b, c) → s.cur b < s.count ∧ s.req c.d0 = s.cur b
  inj : ∀ p q b c b' d, (s.pc p).sent = some (b, c) → (s.pc q).sent = some (b', d) →
    s.cur b = s.cur b' → p = q
  waiting : ∀ p b c, (s.pc p).sent = some (b, c) → c.d0 ∈ s.waiting →
    s.history (s.cur b) = [.submit (s.cur b)]
  completed : ∀ p b c, (s.pc p).sent = some (b, c) → c.d0 ∈ s.completed →
    s.history (s.cur b) = [.submit (s.cur b), .complete (s.cur b)]
  done : ∀ p b c, (s.pc p).sent = some (b, c) → s.onDisk b = false →
    s.history (s.cur b) = [.submit (s.cur b), .complete (s.cur b), .done (s.cur b)]

theorem history_snoc_self {e : Event} (hlog : t.log = s.log ++ [e]) :
    t.history e.request = s.history e.request ++ [e] := by
  rw [St.history, hlog, List.filter_append, St.history, List.filter_singleton]
  simp

theorem history_snoc_of_ne {e : Event} {r : ℕ} (hlog : t.log = s.log ++ [e]) (hr : r ≠ e.request) :
    t.history r = s.history r := by
  rw [St.history, hlog, List.filter_append, St.history, List.filter_singleton]
  simp [Ne.symm hr]

theorem recorded_frame (h : Recorded s) (hlog : t.log = s.log) (hcount : t.count = s.count)
    (hreq : t.req = s.req) (hcur : t.cur = s.cur) (hsent : ∀ q, (t.pc q).sent = (s.pc q).sent)
    (hdisk : ∀ q b c, (s.pc q).sent = some (b, c) → t.onDisk b = s.onDisk b)
    (hwait : ∀ i, i ∈ t.waiting → i ∈ s.waiting) (hcomp : ∀ i, i ∈ t.completed → i ∈ s.completed) : Recorded t := by
  have hhist : t.history = s.history := by
    funext r
    rw [St.history, hlog]
    rfl
  refine ⟨?_, ?_, ?_, ?_, ?_, ?_, ?_⟩
  · rw [hhist, hcount]
    exact h.fresh
  · simp only [hsent]
    rw [hhist, hcount, hcur]
    exact h.past
  · simp only [hsent]
    rw [hcount, hcur, hreq]
    exact h.cur
  · simp only [hsent]
    rw [hcur]
    exact h.inj
  · intro q b c hq hw
    rw [hsent] at hq
    rw [hhist, hcur]
    exact h.waiting q b c hq (hwait _ hw)
  · intro q b c hq hw
    rw [hsent] at hq
    rw [hhist, hcur]
    exact h.completed q b c hq (hcomp _ hw)
  · intro q b c hq hd
    rw [hsent] at hq
    rw [hdisk q b c hq] at hd
    rw [hhist, hcur]
    exact h.done q b c hq hd

theorem Inv.buf_ne (h : Inv s) {q : Fin n} {b' : ℕ} {d : Chain} (hp : (s.pc p).buf = some b)
    (hq : (s.pc q).sent = some (b', d)) (hne : q ≠ p) : b' ≠ b := by
  rintro rfl
  exact hne (h.bufs q p b' (chain_of_formatted (formatted_of_sent hq)).2 hp)

theorem recorded_bump (hi : Inv s) (h : Recorded s) (hpc : s.pc p = .bump b c)
    (ht : t = s.goBump p b c) : Recorded t := by
  have hself : t.pc p = .wait b c := by rw [ht, St.goBump, pc_setPc_self]
  have hother : ∀ q, q ≠ p → t.pc q = s.pc q := by
    intro q hq
    rw [ht, St.goBump, pc_setPc_of_ne hq]
    rfl
  have hlog : t.log = s.log ++ [Event.submit s.count] := by rw [ht]; rfl
  have hcount : t.count = s.count + 1 := by rw [ht]; rfl
  have hcurb : t.cur b = s.count := by rw [ht]; exact update_self _ _ _
  have hold : ∀ {r}, r ≠ s.count → t.history r = s.history r := fun hr => history_snoc_of_ne hlog hr
  have hnew : t.history s.count = [.submit s.count] := by
    have hsnoc := history_snoc_self hlog
    change t.history s.count = s.history s.count ++ _ at hsnoc
    rw [hsnoc, h.fresh _ le_rfl, List.nil_append]
  have hmine : (s.pc p).buf = some b := by rw [hpc]; rfl
  -- the other requests keep their numbers
  have hkeep : ∀ {q b' d}, (t.pc q).sent = some (b', d) → q ≠ p →
      (s.pc q).sent = some (b', d) ∧ t.cur b' = s.cur b' ∧ s.cur b' < s.count ∧ d.d0 ≠ c.d0 := by
    intro q b' d hq hqp
    rw [hother q hqp] at hq
    refine ⟨hq, ?_, (h.cur q b' d hq).1, ?_⟩
    · rw [ht]
      exact update_of_ne (hi.buf_ne hmine hq hqp) _ _
    · intro heq
      exact hqp (hi.head_inj (chain_of_formatted (formatted_of_sent hq)).1 (by rw [hpc]; rfl) heq)
  have hown : ∀ {b' d}, (t.pc p).sent = some (b', d) → b' = b ∧ d = c := by
    intro b' d hq
    rw [hself] at hq
    cases hq
    exact ⟨rfl, rfl⟩
  have hwait : t.waiting = s.unconsumed ++ [c.d0] ++ s.busy := by
    rw [ht, ← unconsumed_bump hi hpc]
    rfl
  have hcomp : t.completed = s.completed := by rw [ht]; rfl
  have hfresh : c.d0 ∉ s.queue := by
    intro hin
    obtain ⟨q, b', d, hsent, hchain, -, hhead, -⟩ := hi.sent_of_mem hin
    have heq := hi.head_inj hchain (by rw [hpc]; rfl) hhead
    rw [heq, hpc] at hsent
    cases hsent
  refine ⟨?_, ?_, ?_, ?_, ?_, ?_, ?_⟩
  · intro r hr
    rw [hcount] at hr
    rw [hold (by omega)]
    exact h.fresh r (by omega)
  · intro r hr
    by_cases hrc : r = s.count
    · exact .inr ⟨p, b, c, by rw [hself]; rfl, hcurb.trans hrc.symm⟩
    · rw [hold hrc]
      obtain hlife | ⟨q, b', d, hq, hr'⟩ := h.past r (by omega)
      · exact .inl hlife
      · have hqp : q ≠ p := by
          rintro rfl
          rw [hpc] at hq
          cases hq
        have hq' : (t.pc q).sent = some (b', d) := by rw [hother q hqp]; exact hq
        exact .inr ⟨q, b', d, hq', (hkeep hq' hqp).2.1.trans hr'⟩
  · intro q b' d hq
    by_cases hqp : q = p
    · subst hqp
      obtain ⟨rfl, rfl⟩ := hown hq
      rw [hcurb, hcount, ht]
      exact ⟨Nat.lt_succ_self _, update_self _ _ _⟩
    · obtain ⟨hs, hcur, hlt, hne⟩ := hkeep hq hqp
      rw [hcur, hcount, ht]
      refine ⟨Nat.lt_succ_of_lt hlt, ?_⟩
      change Function.update s.req c.d0 s.count d.d0 = _
      rw [update_of_ne hne]
      exact (h.cur q b' d hs).2
  · intro q r b' d b₂ e hq hr heq
    by_cases hqp : q = p
    · by_cases hrp : r = p
      · rw [hqp, hrp]
      · subst hqp
        obtain ⟨rfl, rfl⟩ := hown hq
        obtain ⟨-, hcur, hlt, -⟩ := hkeep hr hrp
        rw [hcurb, hcur] at heq
        omega
    · by_cases hrp : r = p
      · subst hrp
        obtain ⟨rfl, rfl⟩ := hown hr
        obtain ⟨-, hcur, hlt, -⟩ := hkeep hq hqp
        rw [hcurb, hcur] at heq
        omega
      · obtain ⟨hq', hcur, -⟩ := hkeep hq hqp
        obtain ⟨hr', hcur', -⟩ := hkeep hr hrp
        rw [hcur, hcur'] at heq
        exact h.inj q r b' d b₂ e hq' hr' heq
  · intro q b' d hq hw
    by_cases hqp : q = p
    · subst hqp
      obtain ⟨rfl, rfl⟩ := hown hq
      rw [hcurb]
      exact hnew
    · obtain ⟨hs, hcur, hlt, hne⟩ := hkeep hq hqp
      rw [hcur, hold (by omega)]
      refine h.waiting q b' d hs ?_
      rw [hwait, List.mem_append, List.mem_append, List.mem_singleton] at hw
      rw [St.waiting, List.mem_append]
      obtain (hw | hw) | hw := hw
      · exact .inl hw
      · exact absurd hw hne
      · exact .inr hw
  · intro q b' d hq hw
    rw [hcomp] at hw
    by_cases hqp : q = p
    · subst hqp
      obtain ⟨rfl, rfl⟩ := hown hq
      exact absurd (List.mem_append_right _ hw) hfresh
    · obtain ⟨hs, hcur, hlt, -⟩ := hkeep hq hqp
      rw [hcur, hold (by omega)]
      exact h.completed q b' d hs hw
  · intro q b' d hq hd
    have hdisk : t.onDisk = s.onDisk := by rw [ht]; rfl
    rw [hdisk] at hd
    by_cases hqp : q = p
    · subst hqp
      obtain ⟨rfl, rfl⟩ := hown hq
      rw [hi.sending q b' d (by rw [hpc]; rfl)] at hd
      cases hd
    · obtain ⟨hs, hcur, hlt, -⟩ := hkeep hq hqp
      rw [hcur, hold (by omega)]
      exact h.done q b' d hs hd

theorem recorded_event (h : Recorded s) {e : Event} {p : Fin n} (hp : (s.pc p).sent = some (b, c))
    (he : e.request = s.cur b) (hlog : t.log = s.log ++ [e]) (hcount : t.count = s.count)
    (hreq : t.req = s.req) (hcur : t.cur = s.cur) (hsent : ∀ q, (t.pc q).sent = (s.pc q).sent)
    (hdisk : ∀ q b' d, (s.pc q).sent = some (b', d) → q ≠ p → t.onDisk b' = s.onDisk b')
    (hwait : ∀ i, i ∈ t.waiting → i ∈ s.waiting) (hcomp : ∀ i, i ∈ t.completed → i ∈ s.completed ∨ i = c.d0)
    (hhead : ∀ q b' d, (s.pc q).sent = some (b', d) → q ≠ p → d.d0 ≠ c.d0) (hownw : c.d0 ∉ t.waiting)
    (hownc : c.d0 ∈ t.completed → s.history (s.cur b) ++ [e] = [.submit (s.cur b), .complete (s.cur b)])
    (hownd : t.onDisk b = false →
      s.history (s.cur b) ++ [e] = [.submit (s.cur b), .complete (s.cur b), .done (s.cur b)]) : Recorded t := by
  have hlt := (h.cur p b c hp).1
  have hself : t.history (s.cur b) = s.history (s.cur b) ++ [e] := by
    rw [← he]
    exact history_snoc_self hlog
  have hold : ∀ {r}, r ≠ s.cur b → t.history r = s.history r :=
    fun hr => history_snoc_of_ne hlog (by rwa [he])
  have hother : ∀ {q b' d}, (s.pc q).sent = some (b', d) → q ≠ p →
      t.history (s.cur b') = s.history (s.cur b') := by
    intro q b' d hq hqp
    exact hold fun heq => hqp (h.inj q p b' d b c hq hp heq)
  have hown : ∀ {b' d}, (s.pc p).sent = some (b', d) → b' = b ∧ d = c := by
    intro b' d hq
    rw [hp] at hq
    cases hq
    exact ⟨rfl, rfl⟩
  refine ⟨?_, ?_, ?_, ?_, ?_, ?_, ?_⟩
  · intro r hr
    rw [hcount] at hr
    rw [hold (by omega)]
    exact h.fresh r hr
  · intro r hr
    simp only [hsent]
    rw [hcount] at hr
    rw [hcur]
    by_cases hrb : r = s.cur b
    · exact .inr ⟨p, b, c, hp, hrb.symm⟩
    · rw [hold hrb]
      exact h.past r hr
  · simp only [hsent]
    rw [hcount, hcur, hreq]
    exact h.cur
  · simp only [hsent]
    rw [hcur]
    exact h.inj
  · intro q b' d hq hw
    rw [hsent] at hq
    rw [hcur]
    by_cases hqp : q = p
    · subst hqp
      obtain ⟨rfl, rfl⟩ := hown hq
      exact absurd hw hownw
    · rw [hother hq hqp]
      exact h.waiting q b' d hq (hwait _ hw)
  · intro q b' d hq hw
    rw [hsent] at hq
    rw [hcur]
    by_cases hqp : q = p
    · subst hqp
      obtain ⟨rfl, rfl⟩ := hown hq
      rw [hself]
      exact hownc hw
    · rw [hother hq hqp]
      obtain hw | hw := hcomp _ hw
      · exact h.completed q b' d hq hw
      · exact absurd hw (hhead q b' d hq hqp)
  · intro q b' d hq hd
    rw [hsent] at hq
    rw [hcur]
    by_cases hqp : q = p
    · subst hqp
      obtain ⟨rfl, rfl⟩ := hown hq
      rw [hself]
      exact hownd hd
    · rw [hother hq hqp]
      rw [hdisk q b' d hq hqp] at hd
      exact h.done q b' d hq hd

theorem Inv.head_ne (h : Inv s) (hp : (s.pc p).sent = some (b, c)) :
    ∀ q b' d, (s.pc q).sent = some (b', d) → q ≠ p → d.d0 ≠ c.d0 := by
  intro q b' d hq hqp heq
  exact hqp (h.head_inj (chain_of_formatted (formatted_of_sent hq)).1
    (chain_of_formatted (formatted_of_sent hp)).1 heq)

theorem recorded_post (hi : Inv s) (ht : Inv t) (h : Recorded s) {i x : ℕ} (hposted : s.posted = none)
    (hx : s.busy[i]? = some x)
    (hdef : t = { s with
        busy := s.busy.eraseIdx i
        info := s.writeStatus x
        elems := Function.update s.elems (slot NUM s.usedId) x
        posted := some x
        log := s.log ++ [Event.complete (s.req x)] }) : Recorded t := by
  have hxs : x ∈ s.waiting := List.mem_append_right _ (List.mem_of_getElem? hx)
  obtain ⟨p, b, c, hp, -, hdisk, rfl, -⟩ := hi.sent_of_mem (List.mem_append_left _ hxs)
  have hcomp : t.completed = c.d0 :: s.unprocessed := by
    rw [hdef, ← unprocessed_post s c.d0]
    rfl
  have hwait : t.waiting = s.unconsumed ++ s.busy.eraseIdx i := by rw [hdef]; rfl
  have hnodup := ht.nodup
  rw [St.queue, List.nodup_append'] at hnodup
  have hreq := (h.cur p b c hp).2
  refine recorded_event h hp (e := .complete (s.req c.d0)) hreq (by rw [hdef]) (by rw [hdef])
    (by rw [hdef]) (by rw [hdef]) ?_ ?_ ?_ ?_ (hi.head_ne hp) ?_ ?_ ?_
  · intro q
    rw [hdef]
    rfl
  · intro q b' d _ _
    rw [hdef]
  · intro j hj
    rw [hwait, List.mem_append] at hj
    obtain hj | hj := hj
    · exact List.mem_append_left _ hj
    · exact List.mem_append_right _ (List.mem_of_mem_eraseIdx hj)
  · intro j hj
    rw [hcomp, List.mem_cons] at hj
    obtain hj | hj := hj
    · exact .inr hj
    · refine .inl ?_
      rw [St.completed, hposted]
      exact hj
  · intro hin
    refine hnodup.2.2 hin ?_
    rw [hcomp]
    exact List.mem_cons_self
  · intro _
    rw [h.waiting p b c hp hxs, hreq]
    rfl
  · intro hd
    rw [hdef] at hd
    change s.onDisk b = false at hd
    rw [hdisk] at hd
    cases hd

theorem recorded_done (hi : Inv s) (ht : Inv t) (h : Recorded s)
    (hne : slot NUM s.usedIdx ≠ slot NUM s.usedId)
    (hb : (s.info (s.elems (slot NUM s.usedIdx))).b = some b)
    (hdef : t = { s with
        onDisk := Function.update s.onDisk b false
        usedIdx := BitVec.ofNat 16 ((s.usedIdx + 1).toNat % NUM)
        log := s.log ++ [Event.done (s.cur b)] }.wakeup (Pc.onBuf b)) : Recorded t := by
  obtain ⟨p, b', c, hp, -, -, hhead, hw⟩ := hi.sent_of_mem (mem_queue_done hne)
  have hbb : b' = b := by
    rw [← hhead, hw.info] at hb
    exact Option.some.inj hb
  subst hbb
  have hpc : ∀ q, t.pc q = s.pc q := by
    intro q
    rw [hdef, pc_wakeup]
    rfl
  have hoff : t.onDisk b' = false := by
    rw [hdef]
    exact update_self _ _ _
  have hpast : s.completed = s.posted.toList ++ c.d0 :: t.unprocessed := by
    rw [St.completed, unprocessed_done hne, hhead, hdef]
    rfl
  have hout : c.d0 ∉ t.queue := by
    intro hin
    obtain ⟨q, b₂, d, hq, hchain, hd, hdd, -⟩ := ht.sent_of_mem hin
    rw [hpc] at hq
    by_cases hqp : q = p
    · rw [hqp, hp] at hq
      cases hq
      rw [hoff] at hd
      cases hd
    · exact hi.head_ne hp q b₂ d hq hqp hdd
  have hlog : t.log = s.log ++ [Event.done (s.cur b')] := by rw [hdef]; rfl
  refine recorded_event h hp (e := .done (s.cur b')) rfl hlog (by rw [hdef]; rfl) (by rw [hdef]; rfl)
    (by rw [hdef]; rfl) ?_ ?_ ?_ ?_ (hi.head_ne hp) ?_ ?_ ?_
  · intro q
    rw [hpc]
  · intro q b₂ d hq hqp
    have hb₂ := hi.buf_ne (chain_of_formatted (formatted_of_sent hp)).2 hq hqp
    rw [hdef]
    exact update_of_ne hb₂ _ _
  · intro j hj
    rw [hdef] at hj
    exact hj
  · intro j hj
    have hposted : t.posted = s.posted := by rw [hdef]; rfl
    rw [St.completed, List.mem_append, hposted] at hj
    refine .inl ?_
    rw [hpast, List.mem_append, List.mem_cons]
    obtain hj | hj := hj
    · exact .inl hj
    · exact .inr (.inr hj)
  · intro hin
    exact hout (List.mem_append_left _ hin)
  · intro hin
    exact absurd (List.mem_append_right _ hin) hout
  · intro _
    have hc : c.d0 ∈ s.completed := by
      rw [hpast]
      simp
    rw [h.completed p b' c hp hc]
    rfl

theorem recorded_finish (h : Recorded s) (hpc : s.pc p = .wait b c)
    (hdone : s.onDisk b = false) {u : Table}
    (hdef : t = ({ s with
        table := u
        info := Function.update s.info c.d0 { s.info c.d0 with b := none }
        log := s.log ++ [Event.free (s.cur b)] }.wakeup Pc.onFree).setPc p (.rwEnd b)) : Recorded t := by
  have hp : (s.pc p).sent = some (b, c) := by rw [hpc]; rfl
  have hself : t.pc p = .rwEnd b := by rw [hdef, pc_setPc_self]
  have hother : ∀ q, q ≠ p → t.pc q = s.pc q := by
    intro q hq
    rw [hdef, pc_setPc_of_ne hq, pc_wakeup]
    rfl
  have hsent : ∀ {q b' d}, (t.pc q).sent = some (b', d) → q ≠ p ∧ (s.pc q).sent = some (b', d) := by
    intro q b' d hq
    have hqp : q ≠ p := by
      rintro rfl
      rw [hself] at hq
      cases hq
    rw [hother q hqp] at hq
    exact ⟨hqp, hq⟩
  have hlog : t.log = s.log ++ [Event.free (s.cur b)] := by rw [hdef]; rfl
  have hcount : t.count = s.count := by rw [hdef]; rfl
  have hreq : t.req = s.req := by rw [hdef]; rfl
  have hcur : t.cur = s.cur := by rw [hdef]; rfl
  have hlt := (h.cur p b c hp).1
  have hlife : t.history (s.cur b) = life (s.cur b) := by
    have hsnoc := history_snoc_self hlog
    change t.history (s.cur b) = s.history (s.cur b) ++ _ at hsnoc
    rw [hsnoc, h.done p b c hp hdone]
    rfl
  have hold : ∀ {r}, r ≠ s.cur b → t.history r = s.history r := fun hr => history_snoc_of_ne hlog hr
  have hkeep : ∀ {q b' d}, (t.pc q).sent = some (b', d) → t.history (s.cur b') = s.history (s.cur b') := by
    intro q b' d hq
    obtain ⟨hqp, hq⟩ := hsent hq
    exact hold fun heq => hqp (h.inj q p b' d b c hq hp heq)
  refine ⟨?_, ?_, ?_, ?_, ?_, ?_, ?_⟩
  · intro r hr
    rw [hcount] at hr
    rw [hold (by omega)]
    exact h.fresh r hr
  · intro r hr
    rw [hcount] at hr
    by_cases hrb : r = s.cur b
    · rw [hrb]
      exact .inl hlife
    · rw [hold hrb, hcur]
      obtain hr | ⟨q, b', d, hq, hr⟩ := h.past r hr
      · exact .inl hr
      · refine .inr ⟨q, b', d, ?_, hr⟩
        rwa [hother]
        rintro rfl
        rw [hp] at hq
        cases hq
        exact hrb hr.symm
  · intro q b' d hq
    rw [hcount, hcur, hreq]
    exact h.cur q b' d (hsent hq).2
  · intro q r b' d b₂ e hq hr
    rw [hcur]
    exact h.inj q r b' d b₂ e (hsent hq).2 (hsent hr).2
  · intro q b' d hq hw
    rw [hcur, hkeep hq]
    refine h.waiting q b' d (hsent hq).2 ?_
    rw [hdef] at hw
    exact hw
  · intro q b' d hq hw
    rw [hcur, hkeep hq]
    refine h.completed q b' d (hsent hq).2 ?_
    rw [hdef] at hw
    exact hw
  · intro q b' d hq hd
    rw [hcur, hkeep hq]
    refine h.done q b' d (hsent hq).2 ?_
    rw [hdef] at hd
    exact hd

/-! ### Every step -/

theorem recorded_goes (hi : Inv s) (hit : Inv t) (h : Recorded s) (hpanic : t.panic = none)
    (hgo : Goes s p t) : Recorded t := by
  -- most steps leave the record, the queue and the submitted requests alone
  have hmove : ∀ {pc : Pc}, t.pc p = pc → pc.sent = (s.pc p).sent →
      ∀ q, (t.pc q).sent = (s.pc q).sent := by
    intro pc hpc hsent q
    by_cases hq : q = p
    · rw [hq, hpc, hsent]
    · rw [goes_other hgo hq]
  cases hgo with
  | acquirePanic | finishPanic | intrStatus | intrTrap => cases hpanic
  | acquire pc hpc _ | woken pc hpc =>
    refine recorded_frame h rfl rfl rfl rfl (hmove (pc_setPc_self _ _ _) ?_) (fun _ _ _ _ => rfl)
      (fun _ hx => hx) (fun _ hx => hx)
    cases hat : s.pc p <;> rw [hat] at hpc <;> cases hpc <;> rfl
  | release hpc =>
    refine recorded_frame h rfl rfl rfl rfl (hmove (pc_setPc_self _ _ _) ?_) (fun _ _ _ _ => rfl)
      (fun _ hx => hx) (fun _ hx => hx)
    cases hat : s.pc p <;> rw [hat] at hpc <;> first | rfl | cases hpc
  | alloc b w c hpc _ _ | intrEmpty hpc _ =>
    exact recorded_frame h rfl rfl rfl rfl (hmove (pc_setPc_self _ _ _) (by rw [hpc]; rfl))
      (fun _ _ _ _ => rfl) (fun _ hx => hx) (fun _ hx => hx)
  | allocFail b w u woke hpc _ _ =>
    have hsent := hmove (pc_sleep_self _ _ _) (by rw [hpc]; rfl)
    cases woke
    all_goals
      exact recorded_frame h rfl rfl rfl rfl hsent (fun _ _ _ _ => rfl) (fun _ hx => hx) (fun _ hx => hx)
  | format b w c hpc =>
    have hmine : (s.pc p).buf = some b := by rw [hpc]; rfl
    refine recorded_frame h rfl rfl rfl rfl (hmove (pc_setPc_self _ _ _) (by rw [hpc]; rfl)) ?_
      (fun _ hx => hx) (fun _ hx => hx)
    intro q b' d hq
    have hqp : q ≠ p := by
      rintro rfl
      rw [hpc] at hq
      cases hq
    exact update_of_ne (hi.buf_ne hmine hq hqp) _ _
  | ring b c hpc =>
    refine recorded_frame h rfl rfl rfl rfl (hmove (pc_setPc_self _ _ _) (by rw [hpc]; rfl))
      (fun _ _ _ _ => rfl) ?_ (fun _ hx => hx)
    intro i hx
    change i ∈ contents (Function.update s.ring (slot NUM s.avail) c.d0) s.last s.avail ++ s.busy at hx
    rwa [unconsumed_ring hi] at hx
  | bump b c hpc => exact recorded_bump hi h hpc rfl
  | waitSleep b c hpc _ =>
    exact recorded_frame h rfl rfl rfl rfl (hmove (pc_sleep_self _ _ _) (by rw [hpc]; rfl))
      (fun _ _ _ _ => rfl) (fun _ hx => hx) (fun _ hx => hx)
  | finish b c u hpc hdone _ => exact recorded_finish h hpc hdone rfl
  | intrDone b _ hne hb => exact recorded_done hi hit h hne hb rfl

theorem recorded_does (hi : Inv s) (hit : Inv t) (h : Recorded s) (hdo : Does s a t) : Recorded t := by
  cases hdo with
  | rw p b w huser _ | interrupt p huser =>
    refine recorded_frame h rfl rfl rfl rfl ?_ (fun _ _ _ _ => rfl) (fun _ hx => hx) (fun _ hx => hx)
    intro q
    by_cases hq : q = p
    · rw [hq, pc_setPc_self, huser]
      rfl
    · rw [pc_setPc_of_ne hq]
  | kill p =>
    refine recorded_frame h rfl rfl rfl rfl ?_ (fun _ _ _ _ => rfl) (fun _ hx => hx) (fun _ hx => hx)
    intro q
    rw [pc_kill]
  | consume hne =>
    refine recorded_frame h rfl rfl rfl rfl (fun _ => rfl) (fun _ _ _ _ => rfl) ?_ (fun _ hx => hx)
    intro i hx
    change i ∈ contents s.ring (s.last + 1) s.avail ++ (s.busy ++ [s.ring (slot NUM s.last)]) at hx
    rw [St.waiting, unconsumed_consume hne]
    simp only [List.mem_append, List.mem_cons, List.not_mem_nil, or_false] at hx ⊢
    tauto
  | post i x hposted hx => exact recorded_post hi hit h hposted hx rfl
  | publish x hposted =>
    refine recorded_frame h rfl rfl rfl rfl (fun _ => rfl) (fun _ _ _ _ => rfl) (fun _ hx => hx) ?_
    intro i hx
    change i ∈ contents s.elems (low s.usedIdx) (low (s.usedId + 1)) at hx
    rw [unprocessed_publish hi hposted, List.mem_append, List.mem_singleton] at hx
    rw [St.completed, hposted, Option.toList_some, List.mem_append, List.mem_singleton]
    exact hx.symm

theorem recorded_boot : Recorded (St.boot n) where
  fresh := fun _ _ => rfl
  past := fun _ hr => absurd hr (Nat.not_lt_zero _)
  cur := fun _ _ _ hp => by cases hp
  inj := fun _ _ _ _ _ _ hp => by cases hp
  waiting := fun _ _ _ hp => by cases hp
  completed := fun _ _ _ hp => by cases hp
  done := fun _ _ _ hp => by cases hp

/-- The invariant and the record. -/
structure Kept (s : St n) : Prop where
  sound : Sound s
  recorded : Recorded s

theorem kept_step (h : Kept s) (hs : s.step a = some t) : Kept t := by
  have hnext := sound_step h.sound hs
  refine ⟨hnext, ?_⟩
  obtain ⟨-, ⟨p, -, hgo⟩ | hdo⟩ := steps_of_step hs
  · exact recorded_goes h.sound.inv hnext.inv h.recorded hnext.panic hgo
  · exact recorded_does h.sound.inv hnext.inv h.recorded hdo

theorem kept_run {ls : List (Act n)} (hrun : exec St.step (St.boot n) ls = some s) : Kept s :=
  reachable_invariant (fun _ _ _ h hs => kept_step h hs) ⟨⟨inv_boot, rfl⟩, recorded_boot⟩ ⟨ls, hrun⟩

/-! ### The rings -/

/-- A queue stays as it is, gets one element at its end or loses its first one. -/
def Fifo (old new : List ℕ) : Prop :=
  new = old ∨ (∃ x, new = old ++ [x]) ∨ ∃ x, old = x :: new

/-- **No entry is overwritten** before the other side has taken it. -/
theorem fifo_step (h : Inv s) (hs : s.step a = some t) :
    Fifo s.unconsumed t.unconsumed ∧ Fifo s.unprocessed t.unprocessed := by
  have hsame : ∀ {l : List ℕ}, Fifo l l := .inl rfl
  obtain ⟨-, ⟨p, -, hgo⟩ | hdo⟩ := steps_of_step hs
  · cases hgo with
    | ring b c hpc => exact ⟨.inl (unconsumed_ring h c.d0), hsame⟩
    | bump b c hpc => exact ⟨.inr (.inl ⟨c.d0, unconsumed_bump h hpc⟩), hsame⟩
    | intrDone b hpc hne _ => exact ⟨hsame, .inr (.inr ⟨_, unprocessed_done hne⟩)⟩
    | allocFail b w u woke _ _ _ => cases woke <;> exact ⟨hsame, hsame⟩
    | _ => exact ⟨hsame, hsame⟩
  · cases hdo with
    | consume hne => exact ⟨.inr (.inr ⟨_, unconsumed_consume hne⟩), hsame⟩
    | post i x _ _ => exact ⟨hsame, .inl (unprocessed_post s x)⟩
    | publish x hposted => exact ⟨hsame, .inr (.inl ⟨x, unprocessed_publish h hposted⟩)⟩
    | _ => exact ⟨hsame, hsame⟩

/-! ### Disk requests -/

theorem history_le_life (hi : Inv s) (h : Recorded s) (r : ℕ) : s.history r <+: life r := by
  by_cases hr : r < s.count
  · obtain hlife | ⟨p, b, c, hp, rfl⟩ := h.past r hr
    · rw [hlife]
    · cases hd : s.onDisk b with
      | false =>
        rw [h.done p b c hp hd]
        exact ⟨[.free (s.cur b)], rfl⟩
      | true =>
        have hin : c.d0 ∈ s.queue := (hi.queue c.d0).mpr ⟨p, b, c, hp, hd, rfl⟩
        obtain hin | hin := List.mem_append.mp hin
        · rw [h.waiting p b c hp hin]
          exact ⟨[.complete (s.cur b), .done (s.cur b), .free (s.cur b)], rfl⟩
        · rw [h.completed p b c hp hin]
          exact ⟨[.done (s.cur b), .free (s.cur b)], rfl⟩
  · rw [h.fresh r (by omega)]
    exact List.nil_prefix

theorem done_iff (hi : Inv s) (h : Recorded s) (hp : (s.pc p).sent = some (b, c)) :
    s.onDisk b = false ↔ Event.done (s.cur b) ∈ s.log := by
  have hmem : Event.done (s.cur b) ∈ s.log ↔ Event.done (s.cur b) ∈ s.history (s.cur b) := by
    rw [St.history, List.mem_filter]
    exact ⟨fun hx => ⟨hx, decide_eq_true rfl⟩, And.left⟩
  rw [hmem]
  cases hd : s.onDisk b with
  | false =>
    rw [h.done p b c hp hd]
    simp
  | true =>
    have hin : c.d0 ∈ s.queue := (hi.queue c.d0).mpr ⟨p, b, c, hp, hd, rfl⟩
    obtain hin | hin := List.mem_append.mp hin
    · rw [h.waiting p b c hp hin]
      simp
    · rw [h.completed p b c hp hin]
      simp

/-- **Disk requests complete exactly once.**  Nobody panics; every descriptor is free or in one of the
disjoint chains of the calls; entries of the two rings are only added behind the others and taken from the
front; and every request is submitted, finished by the device, marked done and freed once and in this
order, where done is what its buffer says. -/
theorem disk_requests (ls : List (Act n)) (s : St n) (hrun : exec St.step (St.boot n) ls = some s) :
    s.panic = none ∧
    ((∀ i, i < NUM → (s.table.free i = true ↔ ∀ p c, (s.pc p).chain = some c → i ∉ c.list)) ∧
      (∀ p c, (s.pc p).chain = some c → c.list.Nodup ∧ ∀ i ∈ c.list, i < NUM) ∧
      ∀ p q c d, p ≠ q → (s.pc p).chain = some c → (s.pc q).chain = some d →
        ∀ i ∈ c.list, i ∉ d.list) ∧
    (∀ a t, s.step a = some t →
      Fifo s.unconsumed t.unconsumed ∧ Fifo s.unprocessed t.unprocessed) ∧
    (∀ r, s.history r <+: life r) ∧
    ∀ p b c, (s.pc p).sent = some (b, c) → (s.onDisk b = false ↔ Event.done (s.cur b) ∈ s.log) := by
  obtain ⟨⟨hinv, hpanic⟩, hrec⟩ := kept_run hrun
  refine ⟨hpanic, ⟨hinv.free, ?_, ?_⟩, ?_, history_le_life hinv hrec, ?_⟩
  · intro p c hc
    exact ⟨(hinv.valid p c hc).nodup, (hinv.valid p c hc).lt⟩
  · intro p q c d hpq hc hd
    exact hinv.disjoint p q c d hc hd hpq
  · intro a t hs
    exact fifo_step hinv hs
  · intro p b c hp
    exact done_iff hinv hrec hp

/-- Two requests, which the device finishes in the other order and one interrupt marks done. -/
def twoRequests : List (Act 3) :=
  List.flatten [[.rw 0 7 false], List.replicate 6 (.go 0), [.rw 1 9 true], List.replicate 6 (.go 1),
    [.consume, .consume, .post 1, .publish, .post 0, .publish, .interrupt 2],
    List.replicate 5 (.go 2), List.replicate 4 (.go 0), List.replicate 4 (.go 1)]

theorem disk_requests_twoRequests : ∃ s : St 3,
    exec St.step (St.boot 3) twoRequests = some s ∧ s.history 0 = life 0 ∧ s.history 1 = life 1 ∧
    s.panic = none ∧ ∀ r, s.history r <+: life r := by
  have hrun : (exec St.step (St.boot 3) twoRequests).any (fun s =>
      s.history 0 = life 0 ∧ s.history 1 = life 1) = true := by decide +kernel
  obtain ⟨s, hs, hat⟩ := (Option.any_eq_true _ _).mp hrun
  obtain ⟨hzero, hone⟩ := of_decide_eq_true hat
  obtain ⟨hpanic, -, -, hlife, -⟩ := disk_requests twoRequests s hs
  exact ⟨s, hs, hzero, hone, hpanic, hlife⟩

end Xv6.VirtioMachine
