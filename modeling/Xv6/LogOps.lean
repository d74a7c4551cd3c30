import Xv6.LogMachine

/-!
# Groups of operations

The abstract log is a `Ledger`: the events of the group of operations that is open now, and the
groups whose first `write_head` has reached the disk.  A crash drops the open group; the commit
point closes it.  `durable d₀ es` is the disk the committed groups of the run `es` produce from
the initial disk, each group applied as a whole.  In a `Complete` group every `log_write` lies
between a `begin_op` and an `end_op` of its process, and every operation of the group has ended.

`OpsFit` relates the ledger to `outstanding`, `committing` and the places of the processes.  It
needs no assumption about which blocks are logged, so it holds along every run (`opsInv_step`).
-/

namespace Xv6.LogOps

open Xv6.LabelledRuns Xv6.Params Xv6.LogMachine

/-! ### The abstract log -/

structure Ledger where
  current : List Event
  committed : List (List Event)

def Ledger.record (l : Ledger) : Event → Ledger
  | .writeHead _ => ⟨[], l.committed ++ [l.current]⟩
  | .crash => ⟨[], l.committed⟩
  -- a group that logged nothing ends without a disk write
  | .endCommit _ => ⟨[], l.committed⟩
  | .beginOp p => ⟨l.current ++ [.beginOp p], l.committed⟩
  | .logWrite p b data => ⟨l.current ++ [.logWrite p b data], l.committed⟩
  | .logCheck p b data => ⟨l.current ++ [.logCheck p b data], l.committed⟩
  | .endOp p => ⟨l.current ++ [.endOp p], l.committed⟩
  | _ => l

def ledger (es : List Event) : Ledger := es.foldl Ledger.record ⟨[], []⟩

/-- The update an event makes: the contents handed to `log_write`. -/
def applyEvent (d : Disk) : Event → Disk
  | .logWrite _ b data => Function.update d b.toNat data
  | .logCheck _ b data => Function.update d b.toNat data
  | _ => d

def applyGroup (d : Disk) (grp : List Event) : Disk := grp.foldl applyEvent d

/-- The disk the committed groups of a run produce from `d₀`. -/
def durable (d₀ : Disk) (es : List Event) : Disk := (ledger es).committed.foldl applyGroup d₀

/-- The operations open after the events, given those open before; `none` when an event of a
process lies outside its operations. -/
def bracket : List ℕ → List Event → Option (List ℕ)
  | o, [] => some o
  | o, .beginOp p :: es => if p ∈ o then none else bracket (p :: o) es
  | o, .logWrite p _ _ :: es => if p ∈ o then bracket o es else none
  | o, .logCheck p _ _ :: es => if p ∈ o then bracket o es else none
  | o, .endOp p :: es => if p ∈ o then bracket (o.erase p) es else none
  | o, _ :: es => bracket o es

/-- Every operation of the group lies in the group from its `begin_op` to its `end_op`. -/
def Complete (grp : List Event) : Prop := bracket [] grp = some []

theorem ledger_snoc (es : List Event) (e : Event) : ledger (es ++ [e]) = (ledger es).record e := by
  rw [ledger, List.foldl_append]
  rfl

theorem applyGroup_snoc (d : Disk) (grp : List Event) (e : Event) :
    applyGroup d (grp ++ [e]) = applyEvent (applyGroup d grp) e := by
  rw [applyGroup, List.foldl_append]
  rfl

theorem bracket_append (o : List ℕ) (es fs : List Event) :
    bracket o (es ++ fs) = (bracket o es).bind fun o' => bracket o' fs := by
  induction es generalizing o with
  | nil => rfl
  | cons e es ih =>
    cases e <;> simp only [List.cons_append, bracket] <;> first | exact ih _ | skip
    all_goals
      split
      · first | rfl | exact ih _
      · first | rfl | exact ih _

theorem bracket_snoc {grp : List Event} {o : List ℕ} (h : bracket [] grp = some o) (e : Event) :
    bracket [] (grp ++ [e]) = bracket o [e] := by
  rw [bracket_append, h, Option.bind_some]

/-! ### Places of processes -/

def active : Pc → Bool
  | .inOp => true
  | .logging _ => true
  | _ => false

@[simp] theorem active_idle : active .idle = false := rfl
@[simp] theorem active_asleep : active .asleep = false := rfl
@[simp] theorem active_woken : active .woken = false := rfl
@[simp] theorem active_inOp : active .inOp = true := rfl
@[simp] theorem active_logging (b : UInt32) : active (.logging b) = true := rfl
@[simp] theorem active_commit (c : CommitPc) : active (.commit c) = false := rfl

def Calm (s : LogSys) : Prop := ∀ p c, s.pc p ≠ .commit c

theorem Calm.setPc {s : LogSys} (h : Calm s) (p : ℕ) {c : Pc} (hc : ∀ c', c ≠ .commit c') : Calm (setPc s p c) := by
  intro q c'
  by_cases hq : q = p
  · subst hq
    simp only [LogMachine.setPc, Function.update_self]
    exact hc c'
  · simp only [LogMachine.setPc, Function.update_of_ne hq]
    exact h q c'

theorem active_setPc (s : LogSys) (p q : ℕ) (c : Pc) :
    active ((setPc s p c).pc q) = if q = p then active c else active (s.pc q) := by
  by_cases hq : q = p
  · subst hq
    simp [setPc]
  · simp [setPc, hq]

theorem pc_setPc_self (s : LogSys) (p : ℕ) (c : Pc) : (setPc s p c).pc p = c := by simp [setPc]

theorem pc_setPc_ne (s : LogSys) {p q : ℕ} (c : Pc) (h : q ≠ p) : (setPc s p c).pc q = s.pc q := by
  simp [setPc, h]

theorem pc_of_setPc_ne {s : LogSys} {p q : ℕ} {c c' : Pc} (hne : c ≠ c')
    (h : (setPc s p c).pc q = c') : s.pc q = c' := by
  by_cases hq : q = p
  · subst hq
    rw [pc_setPc_self] at h
    exact absurd h hne
  · rwa [pc_setPc_ne s c hq] at h

theorem wakeup_pc_commit {s : LogSys} {p : ℕ} {c : CommitPc} : (wakeup s).pc p = .commit c ↔ s.pc p = .commit c := by
  by_cases hp : s.pc p = .asleep <;> simp [wakeup, hp]

theorem wakeup_pc_logging {s : LogSys} {p : ℕ} {b : UInt32} : (wakeup s).pc p = .logging b ↔ s.pc p = .logging b := by
  by_cases hp : s.pc p = .asleep <;> simp [wakeup, hp]

theorem active_wakeup (s : LogSys) (p : ℕ) : active ((wakeup s).pc p) = active (s.pc p) := by
  by_cases hp : s.pc p = .asleep <;> simp [wakeup, hp]

/-- The label is a whole call of `begin_op`, `log_write` or `end_op`, a single disk write, or a
crash: `log_write` is not cut at its `acquire`. -/
def whole : Event → Bool
  | .logCheck _ _ _ => false
  | .logAppend _ => false
  | _ => true

/-! ### The operations and the ledger -/

/-- The open operations are those of the open group; a committing process is alone, and the log is
empty when nothing is going on. -/
structure OpsFit (grp : List Event) (s : LogSys) (o : List ℕ) : Prop where
  bracket : bracket [] grp = some o
  nodup : o.Nodup
  count : o.length = s.outstanding
  active : ∀ p, p ∈ o ↔ active (s.pc p) = true
  alone : ∀ p c, s.pc p = .commit c → s.committing = true ∧ o = []
  unique : ∀ p q c c', s.pc p = .commit c → s.pc q = .commit c' → p = q
  busy : s.committing = true → ∃ p c, s.pc p = .commit c
  finished : ∀ p, s.pc p = .commit .finished → s.lh = []
  rest : o = [] → s.committing = false → s.lh = []

section Steps

variable {grp : List Event} {s : LogSys} {o : List ℕ} {p : ℕ}

theorem OpsFit.calm_of_idle (h : OpsFit grp s o) (hc : s.committing = false) : Calm s := by
  intro p c hp
  rw [(h.alone p c hp).1] at hc
  exact Bool.noConfusion hc

theorem OpsFit.calm_of_active (h : OpsFit grp s o) (hp : LogOps.active (s.pc p) = true) : Calm s := by
  intro q c hq
  have hmem := (h.active p).mpr hp
  rw [(h.alone q c hq).2] at hmem
  simp at hmem

theorem OpsFit.idle_of_active (h : OpsFit grp s o) (hp : LogOps.active (s.pc p) = true) : s.committing = false := by
  by_contra hc
  obtain ⟨q, c, hq⟩ := h.busy (by simpa using hc)
  exact h.calm_of_active hp q c hq

theorem OpsFit.of_calm (hc : Calm s) (hidle : s.committing = false)
    (hgrp : LogOps.bracket [] grp = some o) (hnodup : o.Nodup) (hcount : o.length = s.outstanding)
    (hactive : ∀ p, p ∈ o ↔ LogOps.active (s.pc p) = true) (hrest : o = [] → s.lh = []) :
    OpsFit grp s o where
  bracket := hgrp
  nodup := hnodup
  count := hcount
  active := hactive
  alone := fun p c hp => absurd hp (hc p c)
  unique := fun p _ c _ hp _ => absurd hp (hc p c)
  busy := fun hb => absurd hb (by simp [hidle])
  finished := fun p hp => absurd hp (hc p _)
  rest := fun ho _ => hrest ho

theorem active_of_inOp (hp : s.pc p = .inOp) : active (s.pc p) = true := by rw [hp]; rfl

theorem not_active_of_begin (hp : s.pc p = .idle ∨ s.pc p = .woken) : active (s.pc p) = false := by
  rcases hp with hp | hp <;> rw [hp] <;> rfl

theorem opsFit_beginOp (h : OpsFit grp s o) (hp : s.pc p = .idle ∨ s.pc p = .woken)
    (ha : admits s = true) :
    OpsFit (grp ++ [.beginOp p]) (setPc { s with outstanding := s.outstanding + 1 } p .inOp)
      (p :: o) := by
  have hidle : s.committing = false := by simp [admits] at ha; exact ha.1
  have hmem : p ∉ o := by
    intro hin
    rw [h.active p, not_active_of_begin hp] at hin
    exact Bool.noConfusion hin
  have hcalm : Calm { s with outstanding := s.outstanding + 1 } := h.calm_of_idle hidle
  refine OpsFit.of_calm (hcalm.setPc p (by simp)) hidle ?_ (List.nodup_cons.mpr ⟨hmem, h.nodup⟩)
    ?_ ?_ (by simp)
  · rw [bracket_snoc h.bracket]
    simp [LogOps.bracket, hmem]
  · simp [setPc, h.count]
  · intro q
    rw [active_setPc, List.mem_cons]
    by_cases hq : q = p
    · simp [hq]
    · simpa [hq] using h.active q

theorem opsFit_beginSleep (h : OpsFit grp s o) (hp : s.pc p = .idle ∨ s.pc p = .woken) :
    OpsFit grp (setPc s p .asleep) o := by
  have hback : ∀ {q : ℕ} {c : CommitPc}, (setPc s p .asleep).pc q = .commit c →
      s.pc q = .commit c := fun hq => pc_of_setPc_ne (by simp) hq
  refine ⟨h.bracket, h.nodup, h.count, ?_, fun q c hq => h.alone q c (hback hq),
    fun q r c c' hq hr => h.unique q r c c' (hback hq) (hback hr), ?_,
    fun q hq => h.finished q (hback hq), h.rest⟩
  · intro q
    rw [active_setPc, h.active q]
    by_cases hq : q = p
    · simp [hq, not_active_of_begin hp]
    · simp [hq]
  · intro hb
    obtain ⟨q, c, hq⟩ := h.busy hb
    refine ⟨q, c, ?_⟩
    rwa [pc_setPc_ne]
    rintro rfl
    rcases hp with hp | hp <;> rw [hp] at hq <;> cases hq

theorem opsFit_logWrite (h : OpsFit grp s o) {t : LogSys} {c : Pc} {e : Event} {b : UInt32}
    {data : Block} (he : e = .logWrite p b data ∨ e = .logCheck p b data)
    (hp : active (s.pc p) = true) (hc : active c = true) (hpc : t.pc = s.pc)
    (hout : t.outstanding = s.outstanding) (hcom : t.committing = s.committing) :
    OpsFit (grp ++ [e]) (setPc t p c) o := by
  have hmem : p ∈ o := (h.active p).mpr hp
  have hcalm : Calm t := fun q c => hpc ▸ h.calm_of_active hp q c
  refine OpsFit.of_calm (hcalm.setPc p ?_) (hcom.trans (h.idle_of_active hp)) ?_ h.nodup
    (h.count.trans hout.symm) ?_ ?_
  · rintro c' rfl
    exact Bool.noConfusion hc
  · rw [bracket_snoc h.bracket]
    rcases he with rfl | rfl <;> simp [LogOps.bracket, hmem]
  · intro q
    rw [active_setPc, h.active q, hpc]
    by_cases hq : q = p
    · simp [hq, hp, hc]
    · simp [hq]
  · rintro rfl
    simp at hmem

theorem opsFit_logAppend (h : OpsFit grp s o) {b : UInt32} (hp : s.pc p = .logging b)
    (lh : List UInt32) : OpsFit grp (setPc { s with lh := lh } p .inOp) o := by
  have hact : active (s.pc p) = true := by rw [hp]; rfl
  have hmem : p ∈ o := (h.active p).mpr hact
  have hcalm : Calm { s with lh := lh } := h.calm_of_active hact
  refine OpsFit.of_calm (hcalm.setPc p (by simp)) (h.idle_of_active hact) h.bracket h.nodup
    h.count ?_ ?_
  · intro q
    rw [active_setPc, h.active q]
    by_cases hq : q = p
    · simp [hq, hact]
    · simp [hq]
  · rintro rfl
    simp at hmem

theorem opsFit_endOp_more (h : OpsFit grp s o) (hp : s.pc p = .inOp)
    (hmore : s.outstanding - 1 ≠ 0) :
    OpsFit (grp ++ [.endOp p])
      (setPc (wakeup { s with outstanding := s.outstanding - 1 }) p .idle) (o.erase p) := by
  have hact := active_of_inOp hp
  have hmem : p ∈ o := (h.active p).mpr hact
  have hlen := List.length_erase_of_mem hmem
  have hcalm : Calm (wakeup { s with outstanding := s.outstanding - 1 }) :=
    fun q c hq => h.calm_of_active hact q c (wakeup_pc_commit.mp hq)
  refine OpsFit.of_calm (hcalm.setPc p (by simp)) (h.idle_of_active hact) ?_ (h.nodup.erase p)
    ?_ ?_ ?_
  · rw [bracket_snoc h.bracket]
    simp [LogOps.bracket, hmem]
  · rw [hlen, h.count]
    rfl
  · intro q
    rw [active_setPc, active_wakeup, h.nodup.mem_erase_iff, h.active q]
    by_cases hq : q = p
    · simp [hq]
    · simp [hq]
  · intro hnil
    rw [hnil, h.count] at hlen
    exact absurd hlen.symm hmore

theorem erase_eq_nil_of_last (h : OpsFit grp s o) (hp : s.pc p = .inOp)
    (hlast : s.outstanding - 1 = 0) : o.erase p = [] := by
  apply List.eq_nil_of_length_eq_zero
  rw [List.length_erase_of_mem ((h.active p).mpr (active_of_inOp hp)), h.count, hlast]

theorem quiet_of_last (h : OpsFit grp s o) (hp : s.pc p = .inOp) (hlast : s.outstanding - 1 = 0)
    {q : ℕ} (hq : q ≠ p) : active (s.pc q) = false := by
  have hnot : q ∉ o.erase p := by rw [erase_eq_nil_of_last h hp hlast]; simp
  rw [h.nodup.mem_erase_iff, h.active q] at hnot
  simpa [hq] using hnot

theorem opsFit_endOp_last (h : OpsFit grp s o) (hp : s.pc p = .inOp)
    (hlast : s.outstanding - 1 = 0) :
    OpsFit (grp ++ [.endOp p])
      (setPc { s with outstanding := s.outstanding - 1, committing := true } p
        (.commit (if s.lh.length > 0 then .writeLog 0 else .finished))) [] := by
  have hact := active_of_inOp hp
  have hmem : p ∈ o := (h.active p).mpr hact
  have hlone : ∀ q c, (setPc { s with outstanding := s.outstanding - 1, committing := true } p
      (.commit (if s.lh.length > 0 then .writeLog 0 else .finished))).pc q = .commit c → q = p := by
    intro q c hq
    by_contra hne
    rw [pc_setPc_ne _ _ hne] at hq
    exact h.calm_of_active hact q c hq
  refine ⟨?_, List.nodup_nil, hlast.symm, ?_, fun _ _ _ => ⟨rfl, rfl⟩, ?_,
    fun _ => ⟨p, _, pc_setPc_self _ _ _⟩, ?_, fun _ hf => Bool.noConfusion hf⟩
  · rw [bracket_snoc h.bracket]
    simp [LogOps.bracket, hmem, erase_eq_nil_of_last h hp hlast]
  · intro q
    rw [active_setPc]
    by_cases hq : q = p
    · simp [hq]
    · simpa [hq] using quiet_of_last h hp hlast hq
  · intro q r c c' hq hr
    rw [hlone q c hq, hlone r c' hr]
  · intro q hq
    obtain rfl := hlone q _ hq
    rw [pc_setPc_self] at hq
    split at hq
    · cases hq
    · exact List.eq_nil_of_length_eq_zero (by simpa [setPc] using ‹¬ s.lh.length > 0›)

theorem lone_facts (h : OpsFit grp s o) {c : CommitPc} (hp : s.pc p = .commit c) :
    LogOps.bracket [] grp = some [] ∧ s.outstanding = 0 ∧ s.committing = true ∧
      (∀ q c', s.pc q = .commit c' → q = p) ∧ (∀ q, LogOps.active (s.pc q) = false) ∧ o = [] := by
  obtain ⟨hcom, rfl⟩ := h.alone p c hp
  refine ⟨h.bracket, h.count.symm, hcom, fun q c' hq => h.unique q p c' c hq hp, ?_, rfl⟩
  intro q
  simpa using h.active q

theorem lone_setPc {c : CommitPc} (hlone : ∀ q c', s.pc q = .commit c' → q = p) :
    ∀ q c', (setPc s p (.commit c)).pc q = .commit c' → q = p := by
  intro q c' hq
  by_contra hne
  rw [pc_setPc_ne _ _ hne] at hq
  exact hne (hlone q c' hq)

theorem quiet_setPc {c : CommitPc} (hquiet : ∀ q, active (s.pc q) = false) :
    ∀ q, active ((setPc s p (.commit c)).pc q) = false := by
  intro q
  rw [active_setPc]
  split
  · rfl
  · exact hquiet q

theorem opsFit_commit (h : OpsFit grp s o) {c c' : CommitPc} (hp : s.pc p = .commit c)
    {grp' : List Event} {t : LogSys} (hgrp : LogOps.bracket [] grp' = some []) (hpc : t.pc = s.pc)
    (hout : t.outstanding = s.outstanding) (hcom : t.committing = s.committing)
    (hfin : c' = .finished → t.lh = []) : OpsFit grp' (setPc t p (.commit c')) [] := by
  obtain ⟨-, hzero, htrue, hlone, hquiet, -⟩ := lone_facts h hp
  have hlone' : ∀ q d, (setPc t p (.commit c')).pc q = .commit d → q = p :=
    lone_setPc fun q d hq => hlone q d (hpc ▸ hq)
  have hquiet' : ∀ q, LogOps.active ((setPc t p (.commit c')).pc q) = false :=
    quiet_setPc fun q => hpc ▸ hquiet q
  refine ⟨hgrp, List.nodup_nil, (hout.trans hzero).symm, ?_, fun _ _ _ => ⟨hcom.trans htrue, rfl⟩,
    ?_, fun _ => ⟨p, c', pc_setPc_self _ _ _⟩, ?_, ?_⟩
  · intro q
    simp [hquiet' q]
  · intro q r d d' hq hr
    rw [hlone' q d hq, hlone' r d' hr]
  · intro q hq
    obtain rfl := hlone' q _ hq
    rw [pc_setPc_self, Pc.commit.injEq] at hq
    exact hfin hq
  · intro _ hf
    change t.committing = false at hf
    rw [hcom, htrue] at hf
    exact Bool.noConfusion hf

theorem opsFit_endCommit (h : OpsFit grp s o) (hp : s.pc p = .commit .finished) :
    OpsFit [] (setPc (wakeup { s with committing := false }) p .idle) [] := by
  obtain ⟨-, hzero, -, hlone, hquiet, -⟩ := lone_facts h hp
  have hcalm : Calm (setPc (wakeup { s with committing := false }) p .idle) := by
    intro q c hq
    have hq' := wakeup_pc_commit.mp (pc_of_setPc_ne (by simp) hq)
    obtain rfl := hlone q c hq'
    rw [pc_setPc_self] at hq
    cases hq
  refine OpsFit.of_calm hcalm rfl rfl List.nodup_nil hzero.symm ?_ fun _ => h.finished p hp
  intro q
  rw [active_setPc, active_wakeup]
  by_cases hq : q = p
  · simp [hq]
  · simp [hq, hquiet q]

theorem opsFit_idle (hidle : ∀ p, s.pc p = .idle) (hzero : s.outstanding = 0)
    (hcom : s.committing = false) (hlh : s.lh = []) : OpsFit [] s [] := by
  refine OpsFit.of_calm ?_ hcom rfl List.nodup_nil hzero.symm ?_ fun _ => hlh
  · intro p c hp
    rw [hidle p] at hp
    cases hp
  · intro p
    simp [hidle p]

end Steps

/-! ### Whole runs -/

/-- The operations of the machine after the run `es` against the ledger of `es`. -/
def OpsInv (es : List Event) (s : LogSys) : Prop :=
  match s.phase with
  | .running => ∃ o, OpsFit (ledger es).current s o
  | .recovering _ => (ledger es).current = [] ∧ (∀ p, s.pc p = .idle) ∧ s.outstanding = 0 ∧
      s.committing = false
  | .panicked _ => True

theorem OpsInv.running {es : List Event} {s : LogSys} (h : OpsInv es s)
    (hph : s.phase = .running) : ∃ o, OpsFit (ledger es).current s o := by
  unfold OpsInv at h
  rwa [hph] at h

theorem opsInv_of_running {es : List Event} {e : Event} {s : LogSys} {o : List ℕ}
    (hph : s.phase = .running) (h : OpsFit ((ledger es).record e).current s o) : OpsInv (es ++ [e]) s := by
  unfold OpsInv
  rw [hph, ledger_snoc]
  exact ⟨o, h⟩

/-- **Every step keeps the operations in line with the ledger.** -/
theorem opsInv_step {g : Geometry} {es : List Event} {s t : LogSys} {e : Event}
    (h : OpsInv es s) (hst : step g s e = some t) : OpsInv (es ++ [e]) t := by
  cases moves_of_step hst with
  | crash =>
    unfold OpsInv
    rw [ledger_snoc]
    exact ⟨rfl, fun _ => rfl, rfl, rfl⟩
  | install hph _ =>
    unfold OpsInv at h ⊢
    rw [hph] at h
    rw [ledger_snoc]
    exact h
  | clear hph _ =>
    unfold OpsInv at h
    rw [hph] at h
    obtain ⟨hcur, hidle, hout, hcom⟩ := h
    refine opsInv_of_running (o := []) rfl ?_
    change OpsFit (ledger es).current _ []
    rw [hcur]
    exact opsFit_idle hidle hout hcom rfl
  | beginOp hph hp ha =>
    obtain ⟨o, ho⟩ := h.running hph
    exact opsInv_of_running hph (opsFit_beginOp ho hp ha)
  | beginSleep hph hp _ =>
    obtain ⟨o, ho⟩ := h.running hph
    exact opsInv_of_running hph (opsFit_beginSleep ho hp)
  | tooBig | outsideTrans | endOpPanic => trivial
  | @logWrite p b data hph hp _ =>
    obtain ⟨o, ho⟩ := h.running hph
    have hmid := opsFit_logWrite ho (e := .logWrite p b data) (Or.inl rfl) (active_of_inOp hp)
      (active_logging b) (t := { s with cache := Function.update s.cache b.toNat data }) rfl rfl rfl
    exact opsInv_of_running hph (opsFit_logAppend hmid (pc_setPc_self _ _ _) _)
  | logCheck hph hp _ =>
    obtain ⟨o, ho⟩ := h.running hph
    exact opsInv_of_running hph
      (opsFit_logWrite ho (Or.inr rfl) (active_of_inOp hp) (active_logging _) rfl rfl rfl)
  | logAppend hph hp =>
    obtain ⟨o, ho⟩ := h.running hph
    exact opsInv_of_running hph (opsFit_logAppend ho hp _)
  | endOpLast hph hp _ hlast =>
    obtain ⟨o, ho⟩ := h.running hph
    exact opsInv_of_running hph (opsFit_endOp_last ho hp hlast)
  | endOpMore hph hp _ hmore =>
    obtain ⟨o, ho⟩ := h.running hph
    exact opsInv_of_running hph (opsFit_endOp_more ho hp hmore)
  | writeLog hph hp _ | installTrans hph hp _ =>
    obtain ⟨o, ho⟩ := h.running hph
    exact opsInv_of_running hph
      (opsFit_commit ho hp (lone_facts ho hp).1 rfl rfl rfl (by simp))
  | writeHead hph hp _ =>
    obtain ⟨o, ho⟩ := h.running hph
    exact opsInv_of_running hph (opsFit_commit ho hp rfl rfl rfl rfl (by simp))
  | eraseHead hph hp _ =>
    obtain ⟨o, ho⟩ := h.running hph
    exact opsInv_of_running hph
      (opsFit_commit ho hp (lone_facts ho hp).1 rfl rfl rfl (fun _ => rfl))
  | endCommit hph hp =>
    obtain ⟨o, ho⟩ := h.running hph
    exact opsInv_of_running hph (opsFit_endCommit ho hp)

theorem opsInv_run {g : Geometry} {d₀ : Disk} {es : List Event} {s : LogSys}
    (hrun : exec (step g) (boot g d₀) es = some s) : OpsInv es s := by
  refine exec_history_all (P := OpsInv) ?_ (fun es s e t _ hi hst => opsInv_step hi hst) hrun
  exact ⟨rfl, fun _ => rfl, rfl, rfl⟩

end Xv6.LogOps
