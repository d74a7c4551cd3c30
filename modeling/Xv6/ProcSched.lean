import Xv6.Params
import Xv6.ProcInv

/-!
# One CPU per process

What the invariant says about `c->proc`, `p->state` and the saved contexts.
-/

namespace Xv6.ProcSched

open Xv6.Params Xv6.LabelledRuns Xv6.ProcMachine Xv6.ProcMoves Xv6.ProcPlaces Xv6.ProcInv

variable {n m : ℕ} {initproc : Fin n} {s t : St n m} {c d : Fin m} {p q : Fin n} {a : Act n}

section

variable (h : Inv initproc s)

include h

theorem cproc_inj (hc : s.cproc c = some p) (hd : s.cproc d = some p) : c = d := by
  rw [h.cproc] at hc hd
  exact h.inj c d p hc hd

theorem lock_of_not_running (hc : s.cproc c = some p) (hst : (s.proc p).state ≠ .running) : s.lock p = some c := by
  rw [h.cproc] at hc
  by_contra hl
  obtain ⟨-, -, -, -, hn⟩ := h.switched_out (q := p) hst
    (fun hu => h.not_proc_of_unused hu c hc) fun d hd => by rwa [h.inj d c p hd hc]
  exact hn c hc

theorem cproc_of_running (hst : (s.proc p).state = .running) : ∃ c, s.cproc c = some p := by
  by_contra hno
  have hn : ∀ c, (phase s c).proc ≠ some p := by
    intro c hc
    rw [← h.cproc] at hc
    exact hno ⟨c, hc⟩
  generalize hsv : s.saved p = sv
  generalize hpc : (s.ctl (.proc p)).pc = pc
  have hp := h.placed p
  rw [hst, hsv, hpc] at hp
  generalize hr : ProcState.running = st at hp
  cases hp with
  | unused _ => cases hr
  | out _ ho =>
    subst hr
    obtain ho | ho := ho
    · exact stateOf_ne_running _ ho.symm
    · cases ho.2
  | chosen c hc _ | ran c hc | left c hc => exact hn c (by rw [hc]; rfl)

theorem running_iff (hfree : s.lock p = none) : (s.proc p).state = .running ↔ ∃! c, s.cproc c = some p := by
  constructor
  · intro hst
    obtain ⟨c, hc⟩ := cproc_of_running h hst
    exact ⟨c, hc, fun d hd => cproc_inj h hd hc⟩
  · intro hex
    obtain ⟨c, hc, -⟩ := hex
    by_contra hst
    rw [lock_of_not_running h hc hst] at hfree
    cases hfree

/-- **Saved contexts.**  A CPU switches to a process only when its context has been saved and nobody
executes it. -/
theorem saved_of_switchIn (hs : St.step initproc s (c, a) = some t) (hon : s.on c = none)
    (hin : t.on c = some p) : s.saved p = true ∧ ∀ d, s.on d ≠ some p := by
  cases steps_of_step hs with
  | move mv hm =>
    rw [hm.on, hon] at hin
    cases hin
  | interrupt _ _ | iret _ _ =>
    change s.on c = some p at hin
    rw [hon] at hin
    cases hin
  | switchOut q k hq _ _ =>
    rw [hon] at hq
    cases hq
  | switchIn q _ hsw =>
    have hself : (s.switchIn c q).on c = some q := Function.update_self _ _ _
    rw [hself] at hin
    obtain rfl := Option.some.inj hin
    have hchosen : phase s c = .chosen q := by
      rw [phase_of_on_none hon, hsw]
      rfl
    have hnot : ∀ d, s.on d ≠ some q := by
      intro d hd
      obtain rfl := h.inj d c q (by rw [phase_ran hd]; rfl) (by rw [hchosen]; rfl)
      rw [hon] at hd
      cases hd
    refine ⟨?_, hnot⟩
    generalize hsv : s.saved q = sv
    generalize hst : (s.proc q).state = st
    generalize hpc : (s.ctl (.proc q)).pc = pc
    have hp := h.placed q
    rw [hsv, hst, hpc] at hp
    cases hp with
    | unused hn => exact absurd (by rw [hchosen]; rfl) (hn c)
    | out _ _ | chosen _ _ _ | left _ _ => rfl
    | ran d hd => exact absurd (on_of_ran hd) (hnot d)

end

/-- **One CPU per process.** -/
theorem one_cpu_per_process (initproc : Fin n) (s : St n m)
    (hrun : Reachable (St.step initproc) (St.boot initproc) s) :
    (∀ c d p, s.cproc c = some p → s.cproc d = some p → c = d) ∧
    (∀ p, s.lock p = none → ((s.proc p).state = .running ↔ ∃! c, s.cproc c = some p)) ∧
    (∀ c p, s.cproc c = some p → (s.proc p).state ≠ .running → s.lock p = some c) ∧
    ∀ c a t p, St.step initproc s (c, a) = some t → s.on c = none → t.on c = some p →
      s.saved p = true ∧ ∀ d, s.on d ≠ some p := by
  have h := inv_run hrun
  refine ⟨?_, ?_, ?_, ?_⟩
  · exact fun c d p hc hd => cproc_inj h hc hd
  · exact fun p hfree => running_iff h hfree
  · exact fun c p hc hst => lock_of_not_running h hc hst
  · exact fun c a t p hs hon hin => saved_of_switchIn h hs hon hin

theorem step_eq_move {pc : Pc n} {mv : Move n} (hon : s.on c = some p)
    (hctl : s.ctl (.proc p) = ⟨pc, none⟩) (hsw : ∀ k, pc ≠ .sched k) (hallowed : s.Allowed c a)
    (ha : a ≠ .interrupt) (hcode : code initproc s.proc p pc a = some mv) :
    St.step initproc s (c, a) = s.move initproc c (.proc p) mv := by
  have hact := active_proc.mpr hon
  have hnext : s.next initproc (.proc p) a = some mv := by
    simp only [St.next, hctl]
    exact hcode
  simp only [St.step, hact, if_pos hallowed, hctl, Ctl.pc, Option.getD_none]
  split
  case h_1 => exact absurd rfl ha
  case h_2 _ _ ht => cases ht
  case h_3 k _ => exact absurd rfl (hsw k)
  case h_4 hth _ => cases hth
  case h_5 => rw [hnext, Option.bind_some]

theorem step_go_eq_move {pc : Pc n} {mv : Move n} (hon : s.on c = some p)
    (hctl : s.ctl (.proc p) = ⟨pc, none⟩) (hsw : ∀ k, pc ≠ .sched k)
    (hcode : code initproc s.proc p pc .go = some mv) :
    St.step initproc s (c, .go) = s.move initproc c (.proc p) mv :=
  step_eq_move hon hctl hsw trivial nofun hcode

/-- An action of CPU `c` and the `k` moves after it. -/
def does (c : Fin m) (a : Act n) (k : ℕ) : List (Fin m × Act n) := (c, a) :: List.replicate k (c, .go)

def slot0 : Fin NPROC := ⟨0, by decide⟩

def cpu0 : Fin NCPU := ⟨0, by decide⟩

/-- CPU 0 picks the first process, switches to it, and the process returns from `forkret`. -/
def firstRun : List (Fin NCPU × Act NPROC) := [(cpu0, .go), (cpu0, .go), (cpu0, .go)]

theorem one_cpu_per_process_firstRun : ∃ s, exec (St.step slot0) (St.boot slot0) firstRun = some s ∧
    s.lock slot0 = none ∧ (s.proc slot0).state = .running ∧ ∃! c, s.cproc c = some slot0 := by
  have hrun := exec_final (St.step slot0) (s := St.boot slot0) (l := firstRun) (by decide +kernel)
  have hlock : (final (St.step slot0) (St.boot slot0) firstRun).lock slot0 = none := by decide +kernel
  have hstate : ((final (St.step slot0) (St.boot slot0) firstRun).proc slot0).state = .running := by
    decide +kernel
  refine ⟨_, hrun, hlock, hstate, ?_⟩
  exact ((one_cpu_per_process slot0 _ ⟨firstRun, hrun⟩).2.1 slot0 hlock).mp hstate

end Xv6.ProcSched
