import Xv6.ProcFamily
import Xv6.ProcSched
import Xv6.ProcWait

/-!
# No lost wakeup

`sleep(chan, lk)` acquires `p->lock` before it releases `lk`, and the lock is not free again before the
process is `SLEEPING` and switched out.  Whoever acquires `lk` then and calls `wakeup(chan)` finds it.

`Passed` says which slots the loop of `wakeup` has behind it; none of them sleeps on the channel with a
lock that the caller holds (`Awake`).
-/

namespace Xv6.ProcSleep

open Xv6.LabelledRuns Xv6.ProcMachine Xv6.ProcMoves Xv6.ProcPlaces Xv6.ProcMoved Xv6.ProcInv
open Xv6.ProcFamily Xv6.ProcSched Xv6.ProcWait
open Function (update_self update_of_ne)

variable {n m : ℕ} {initproc : Fin n} {s t : St n m} {c d : Fin m} {p q : Fin n} {a : Act n}
  {mv : Move n} {ch : Chan n} {l : ℕ}

/-! ### Other locks -/

/-- A spinlock has one holder. -/
def Exclusive (s : St n m) : Prop := ∀ l c d, l ∈ s.others c → l ∈ s.others d → c = d

theorem others_other (hm : Moved initproc s c a mv t) (hne : d ≠ c) : t.others d = s.others d := by
  have hlock := hm.lock
  generalize mv.lock = op at hlock
  cases op with
  | none => rw [hlock.2]
  | acquire _ | release _ => rw [hlock.2.2]
  | acquireOther _ | releaseOther _ => rw [hlock.2.2, update_of_ne hne]

theorem others_self (hm : Moved initproc s c a mv t) (hl : l ∈ t.others c) :
    l ∈ s.others c ∨ (mv.lock = .acquireOther l ∧ ∀ d, l ∉ s.others d) := by
  have hlock := hm.lock
  generalize mv.lock = op at hlock
  cases op with
  | none => rw [hlock.2] at hl; exact Or.inl hl
  | acquire _ | release _ => rw [hlock.2.2] at hl; exact Or.inl hl
  | acquireOther k =>
    rw [hlock.2.2, update_self, Finset.mem_insert] at hl
    obtain rfl | hl := hl
    · exact Or.inr ⟨rfl, hlock.1⟩
    · exact Or.inl hl
  | releaseOther k =>
    rw [hlock.2.2, update_self] at hl
    exact Or.inl (Finset.mem_of_mem_erase hl)

theorem exclusive_step (hex : Exclusive s) (hs : St.step initproc s (c, a) = some t) : Exclusive t := by
  obtain ⟨mv, hm⟩ | ⟨hsame, -⟩ := moved_or_same hs
  · intro l d e hd he
    have hold : ∀ {f}, l ∈ t.others f → l ∈ s.others f ∨ (f = c ∧ ∀ g, l ∉ s.others g) := by
      intro f hf
      by_cases hfc : f = c
      · subst hfc
        obtain hs | ⟨-, hno⟩ := others_self hm hf
        · exact Or.inl hs
        · exact Or.inr ⟨rfl, hno⟩
      · rw [others_other hm hfc] at hf
        exact Or.inl hf
    obtain hd | ⟨rfl, hno⟩ := hold hd
    · obtain he | ⟨rfl, hno⟩ := hold he
      · exact hex l d e hd he
      · exact absurd hd (hno d)
    · obtain he | ⟨rfl, -⟩ := hold he
      · exact absurd he (hno e)
      · rfl
  · intro l d e
    rw [hsame.others]
    exact hex l d e

/-! ### Sleepers -/

/-- In `sleep` with the channel set or about to be. -/
def Asleep (s : St n m) (p : Fin n) (ch : Chan n) (l : ℕ) : Prop :=
  (s.proc p).state ≠ .unused ∧
  (base s p = .sleepUnlocked ch l ∨
    ((base s p = .sched (.sleep l) ∨ base s p = .resumed (.sleep l)) ∧
      (s.proc p).state = .sleeping ∧ (s.proc p).chan = some ch))

theorem asleep_step (h : Inv initproc s) (hs : St.step initproc s (c, a) = some t) (ht : Asleep t p ch l) :
    Asleep s p ch l ∨ (modeOf s (s.active c) = .proc p ∧ base s p = .sleepLocked ch l ∧ l ∈ s.others c) := by
  obtain ⟨hu, hplace⟩ := ht
  cases based_step h hs hu with
  | fresh hp =>
    rw [hp] at hplace
    obtain hc | ⟨hc | hc, -⟩ := hplace <;> cases hc
  | still hu' hsame hp =>
    refine Or.inl ⟨hu', ?_⟩
    rw [hsame.proc] at hplace
    obtain hp | ⟨k, hk, hp⟩ := hp
    · rwa [hp] at hplace
    · rw [hp] at hplace
      obtain hc | ⟨hc | hc, hst⟩ := hplace
      · cases hc
      · cases hc
      · obtain rfl := Pc.resumed.inj hc
        exact Or.inr ⟨Or.inl hk, hst⟩
  | other hu' mv hm hx hp =>
    rw [hp] at hplace
    refine Or.inl ⟨hu', ?_⟩
    obtain hc | ⟨hc, hst, hchan⟩ := hplace
    · exact Or.inl hc
    · rw [chan_moved h hm hx hu' hu] at hchan
      exact Or.inr ⟨hc, sleeping_other h hm hx hst, hchan⟩
  | self hu' mv hm hx hmv hp =>
    have hproc := hm.proc
    have hlock := hm.lock
    rw [hp] at hplace
    unfold Asleep
    generalize base s p = pc at hmv ⊢
    cases hmv <;> try (obtain hc | ⟨hc | hc, -⟩ := hplace <;> cases hc; done)
    case sleepLocked ch' k =>
      obtain hc | ⟨hc | hc, -⟩ := hplace
      · obtain ⟨rfl, rfl⟩ := Pc.sleepUnlocked.inj hc
        exact Or.inr ⟨hx, rfl, hlock.1⟩
      · cases hc
      · cases hc
    case sleepUnlocked ch' k =>
      obtain hc | ⟨hc | hc, -, hchan⟩ := hplace
      · cases hc
      · obtain rfl := After.sleep.inj (Pc.sched.inj hc)
        change t.proc = Function.update s.proc p _ at hproc
        rw [hproc, update_self] at hchan
        obtain rfl := Option.some.inj hchan
        exact Or.inl ⟨hu', Or.inl rfl⟩
      · cases hc

/-! ### The loop of `wakeup` -/

/-- `wakeup(ch)` has slot `p` behind it. -/
def Passed (ch : Chan n) (p : Fin n) : Pc n → Prop
  | .wakeup ch' i => ch' = ch ∧ p.val < i
  | .wakeupNext ch' i => ch' = ch ∧ p.val < i + 1
  | _ => False

/-- Nobody sleeps on the channel in the slots that have been passed, with a lock of the caller. -/
def Awake (s : St n m) : Prop :=
  ∀ e l ch p, l ∈ s.others e → Passed ch p (s.ctl (s.active e)).pc → ¬ Asleep s p ch l

theorem awake_locked (h : Inv initproc t) {i : Fin n} (hpc : (t.ctl (t.active c)).pc = .wakeupNext ch i)
    (hwake : ¬ ((t.proc i).state = .sleeping ∧ (t.proc i).chan = some ch)) : ¬ Asleep t i ch l := by
  intro hsleep
  obtain ⟨hu, hb | ⟨-, hst⟩⟩ := hsleep
  · -- it would have the lock itself
    have hin : i ∈ held initproc (some i) (base t i) := by
      rw [hb]
      exact List.mem_singleton.mpr rfl
    obtain ⟨d, hd, hlock⟩ := on_of_base h hu (by rw [hb]; exact fun _ => nofun) hin
    have hmine : t.lock i = some c := by
      rw [h.locks, heldBy, hpc]
      exact List.mem_singleton.mpr rfl
    obtain rfl := Option.some.inj (hlock.symm.trans hmine)
    rw [pc_of_mode hd, hb] at hpc
    cases hpc
  · exact hwake hst

theorem not_asleep_wake (ch : Chan n) (x : Proc n) :
    ¬ ((wake ch x).state = .sleeping ∧ (wake ch x).chan = some ch) := by
  unfold wake
  split
  case isTrue => exact fun hc => nomatch hc.1
  case isFalse hno => exact hno

theorem awake_moved (h : Inv initproc s) (hex : Exclusive s) (haw : Awake s)
    (hs : St.step initproc s (c, a) = some t) (hm : Moved initproc s c a mv t) : Awake t := by
  intro e l ch p hl hpass hsleep
  have hold := asleep_step h hs hsleep
  by_cases hne : e = c
  · subst hne
    have hpc : (t.ctl (t.active e)).pc = mv.next := by
      rw [active_moved hm, ctl_self h hm, goto_pc]
    have hmoves := hm.moves
    have hlock := hm.lock
    have hproc := hm.proc
    -- the caller was in `wakeup` before, and not in `sleep`
    have hback : Passed ch p (s.ctl (s.active e)).pc → l ∈ s.others e → False := by
      intro hp hl'
      obtain hold | ⟨hx, hb, -⟩ := hold
      · exact haw e l ch p hl' hp hold
      · rw [pc_of_mode hx, hb] at hp
        exact hp
    rw [hpc] at hpass
    generalize modeOf s (s.active e) = x at hmoves
    generalize hpcs : (s.ctl (s.active e)).pc = pc at hmoves
    rw [hpcs] at hback
    cases hmoves <;> try exact hpass
    case wakeupCall => exact Nat.not_lt_zero _ hpass.2
    case wakeupNext => exact hback hpass (by rwa [hlock.2.2] at hl)
    case wakeup ch' i _ =>
      obtain ⟨rfl, hlt⟩ := hpass
      obtain hlt | heq := Nat.lt_succ_iff_lt_or_eq.mp hlt
      · exact hback ⟨rfl, hlt⟩ (by rwa [hlock.2.2] at hl)
      · obtain rfl := Fin.ext heq
        refine awake_locked (inv_step h hs) hpc ?_ hsleep
        change t.proc = Function.update s.proc p _ at hproc
        rw [hproc, update_self]
        exact not_asleep_wake _ _
  · rw [active_moved hm, ctl_active h hm hne] at hpass
    rw [others_other hm hne] at hl
    obtain hold | ⟨-, -, hl'⟩ := hold
    · exact haw e l ch p hl hpass hold
    · exact hne (hex l e c hl hl')

theorem frame_step (h : Inv initproc s) (hs : St.step initproc s (c, a) = some t) {e : Fin m} (hne : e ≠ c) :
    (t.ctl (t.active e)).pc = (s.ctl (s.active e)).pc ∧ t.others e = s.others e := by
  have hact := h.active_ne hne
  cases steps_of_step hs with
  | move mv hm => exact ⟨by rw [active_moved hm, ctl_active h hm hne], others_other hm hne⟩
  | interrupt _ _ | iret _ _ => exact ⟨congrArg Ctl.pc (setCtl_of_ne hact _), rfl⟩
  | switchOut q k hon _ _ =>
    have hon' : (s.switchOut c q k).on e = s.on e := update_of_ne hne _ _
    have hsame : (s.switchOut c q k).active e = s.active e := by
      unfold St.active
      rw [hon']
    rw [active_proc.mpr hon] at hact
    exact ⟨by rw [hsame, switchOut_of_ne hact], rfl⟩
  | switchIn q hon _ =>
    have hon' : (s.switchIn c q).on e = s.on e := update_of_ne hne _ _
    have hsame : (s.switchIn c q).active e = s.active e := by
      unfold St.active
      rw [hon']
    rw [active_sched.mpr ⟨hon, rfl⟩] at hact
    exact ⟨by rw [hsame, switchIn_of_ne hact], rfl⟩

theorem not_passed_step (h : Inv initproc s) (hs : St.step initproc s (c, a) = some t)
    (hno : ∀ mv, ¬ Moved initproc s c a mv t) (hl : l ∈ t.others c) : ¬ Passed ch p (t.ctl (t.active c)).pc := by
  intro hpass
  cases steps_of_step hs with
  | move mv hm => exact hno mv hm
  | interrupt _ _ =>
    have hself : ((s.setCtl (s.active c) ⟨(s.ctl (s.active c)).base, some .run⟩).ctl (s.active c)).pc =
        .run := congrArg Ctl.pc (setCtl_self s _ _)
    change Passed ch p ((s.setCtl (s.active c) _).ctl (s.active c)).pc at hpass
    rw [hself] at hpass
    exact hpass
  | iret hfree _ =>
    change l ∈ s.others c at hl
    rw [hfree.2] at hl
    exact absurd hl (Finset.notMem_empty l)
  | switchOut q k hon _ _ =>
    have honc : (s.switchOut c q k).on c = none := update_self _ _ _
    have hne : Thread.sched c ≠ (.proc q : Thread n m) := nofun
    rw [active_sched.mpr ⟨honc, rfl⟩, switchOut_of_ne hne, h.back c q hon] at hpass
    exact hpass
  | switchIn q hon hsw =>
    have honc : (s.switchIn c q).on c = some q := update_self _ _ _
    have hne : Thread.proc q ≠ (.sched c : Thread n m) := nofun
    have hchosen : phase s c = .chosen q := by
      rw [phase_of_on_none hon, hsw]
      rfl
    obtain ⟨k, hpc, -⟩ := h.chosen_state hchosen
    rw [active_proc.mpr honc, switchIn_of_ne hne, hpc] at hpass
    exact hpass

/-- **Step lemma.** -/
theorem awake_step (h : Inv initproc s) (hex : Exclusive s) (haw : Awake s)
    (hs : St.step initproc s (c, a) = some t) : Awake t := by
  by_cases hmv : ∃ mv, Moved initproc s c a mv t
  · obtain ⟨mv, hm⟩ := hmv
    exact awake_moved h hex haw hs hm
  · intro e l ch p hl hpass hsleep
    by_cases hne : e = c
    · subst hne
      exact not_passed_step h hs (fun mv hm => hmv ⟨mv, hm⟩) hl hpass
    · obtain ⟨hpc, hothers⟩ := frame_step h hs hne
      rw [hpc] at hpass
      rw [hothers] at hl
      obtain hold | ⟨-, -, hl'⟩ := asleep_step h hs hsleep
      · exact haw e l ch p hl hpass hold
      · exact hne (hex l e c hl hl')

theorem awake_run (hrun : Reachable (St.step initproc) (St.boot initproc) s) : Awake s := by
  have hall := run_rule (P := fun s => Exclusive s ∧ Awake s) ⟨?_, ?_⟩
    (fun s c a t h _ hp hs => ⟨exclusive_step hp.1 hs, awake_step h hp.1 hp.2 hs⟩) hrun
  · exact hall.2
  · intro l c d hc
    exact absurd hc (Finset.notMem_empty l)
  · intro e l ch p hl
    exact absurd hl (Finset.notMem_empty l)

/-! ### One call of `sleep` -/

theorem sleeps_moved (h : Inv initproc s) (hm : Moved initproc s c a mv t) (p : Fin n) :
    (t.sleeps p = s.sleeps p ∧ ((t.proc p).state = .sleeping → (s.proc p).state = .sleeping)) ∨
    (modeOf s (s.active c) = .proc p ∧ t.sleeps p = s.sleeps p + 1) := by
  by_cases hx : modeOf s (s.active c) = .proc p
  · have hst := state_moved h hm (on_of_own (by rw [hx]; rfl))
    have hsleeps := hm.sleeps
    have hmoves := hm.moves
    rw [hx] at hmoves
    generalize (s.ctl (s.active c)).pc = pc at hmoves
    cases hmoves
    case sleepUnlocked ch l | waitSleep addr i _ k _ =>
      refine Or.inr ⟨hx, ?_⟩
      rw [hsleeps]
      exact update_self _ _ _
    -- the other moves do not end in `sched`
    all_goals
      refine Or.inl ⟨by rw [hsleeps]; rfl, fun hc => ?_⟩
      rw [hst] at hc
      cases hc
  · refine Or.inl ⟨?_, sleeping_other h hm hx⟩
    have hmoves := hm.moves
    rw [hm.sleeps]
    generalize modeOf s (s.active c) = x at hmoves hx
    generalize (s.ctl (s.active c)).pc = pc at hmoves
    cases hmoves <;> try rfl
    case sleepUnlocked q ch l => exact update_of_ne (fun hc => hx (congrArg Mode.proc hc.symm)) _ _
    case waitSleep q addr i _ k _ =>
      exact update_of_ne (fun hc => hx (congrArg Mode.proc hc.symm)) _ _

/-- The call of `sleep` that made `p` sleep for the `k + 1`-st time, or a later one. -/
structure InCall (s : St n m) (p : Fin n) (k : ℕ) (ch : Chan n) (f : After) : Prop where
  later : k + 1 ≤ s.sleeps p
  place : s.sleeps p = k + 1 → (s.proc p).state = .sleeping →
    (base s p = .sched f ∨ base s p = .resumed f) ∧ (s.proc p).chan = some ch

/-- `p` has been woken from that call. -/
def Woken (s : St n m) (p : Fin n) (k : ℕ) : Prop :=
  k + 1 ≤ s.sleeps p ∧ (s.sleeps p = k + 1 → (s.proc p).state ≠ .sleeping)

theorem inCall_step {k : ℕ} {f : After} (h : Inv initproc s) (hcall : InCall s p k ch f)
    (hs : St.step initproc s (c, a) = some t) : InCall t p k ch f := by
  obtain ⟨mv, hm⟩ | ⟨hsame, hbase⟩ := moved_or_same hs
  · obtain ⟨hcount, hst⟩ | ⟨-, hcount⟩ := sleeps_moved h hm p
    · refine ⟨by rw [hcount]; exact hcall.later, fun hk hsl => ?_⟩
      rw [hcount] at hk
      have hold := hst hsl
      obtain ⟨hplace, hchan⟩ := hcall.place hk hold
      have hu : (s.proc p).state ≠ .unused := by rw [hold]; exact nofun
      have hx : modeOf s (s.active c) ≠ .proc p := by
        intro hx
        have hon := on_of_own (by rw [hx]; rfl)
        have hrun := (h.state_of_on hon).1
        have hmoves := hm.moves
        rw [← active_proc.mpr hon, pc_of_mode hx, hold] at hrun
        rw [hx, pc_of_mode hx] at hmoves
        obtain hb | hb := hplace
        · rw [hb] at hmoves
          cases hmoves
        · rw [hb] at hrun
          cases hrun
      rw [base_moved_other h hm hx fun he => hu (context_unused h hm he),
        chan_moved h hm hx hu (by rw [hsl]; exact nofun)]
      exact ⟨hplace, hchan⟩
    · have hlater := hcall.later
      exact ⟨by omega, fun hk => by omega⟩
  · refine ⟨by rw [hsame.sleeps]; exact hcall.later, fun hk hsl => ?_⟩
    rw [hsame.sleeps] at hk
    rw [hsame.proc] at hsl ⊢
    obtain ⟨hplace, hchan⟩ := hcall.place hk hsl
    refine ⟨?_, hchan⟩
    obtain hb | ⟨k', hk', hb⟩ := hbase p
    · rwa [hb]
    · rw [hk'] at hplace
      rw [hb]
      obtain hp | hp := hplace
      · exact Or.inr (congrArg Pc.resumed (Pc.sched.inj hp))
      · cases hp

theorem woken_step {k : ℕ} (h : Inv initproc s) (hw : Woken s p k)
    (hs : St.step initproc s (c, a) = some t) : Woken t p k := by
  obtain ⟨mv, hm⟩ | ⟨hsame, -⟩ := moved_or_same hs
  · obtain ⟨hcount, hst⟩ | ⟨-, hcount⟩ := sleeps_moved h hm p
    · refine ⟨by rw [hcount]; exact hw.1, fun hk hsl => ?_⟩
      rw [hcount] at hk
      exact hw.2 hk (hst hsl)
    · have hlater := hw.1
      exact ⟨by omega, fun hk => by omega⟩
  · unfold Woken
    rw [hsame.sleeps, hsame.proc]
    exact hw

theorem run_from {P : St n m → Prop} {s₀ : St n m} {ls : List (Fin m × Act n)}
    (hreach : Reachable (St.step initproc) (St.boot initproc) s₀)
    (hstep : ∀ s c a t, Inv initproc s → P s → St.step initproc s (c, a) = some t → P t) (h₀ : P s₀)
    (hrun : exec (St.step initproc) s₀ ls = some s) : P s ∧ Reachable (St.step initproc) (St.boot initproc) s := by
  have hboth : ∀ (s : St n m) x t, Inv initproc s ∧ P s → St.step initproc s x = some t →
      Inv initproc t ∧ P t := by
    intro s x t hi hs
    exact ⟨inv_step (c := x.1) (a := x.2) hi.1 hs, hstep s x.1 x.2 t hi.1 hi.2 hs⟩
  refine ⟨(reachable_invariant hboth ⟨inv_run hreach, h₀⟩ ⟨ls, hrun⟩).2, ?_⟩
  obtain ⟨ks, hks⟩ := hreach
  exact ⟨ks ++ ls, by rw [exec_append, hks, Option.bind_some, hrun]⟩

/-- `p` has released the lock and will sleep for the `k + 1`-st time, or it has gone on. -/
def Called (s : St n m) (p : Fin n) (k : ℕ) (ch : Chan n) (l : ℕ) : Prop :=
  (s.sleeps p = k ∧ (s.proc p).state = .running ∧ base s p = .sleepUnlocked ch l) ∨
    InCall s p k ch (.sleep l)

theorem called_step {k : ℕ} (h : Inv initproc s) (hcall : Called s p k ch l)
    (hs : St.step initproc s (c, a) = some t) : Called t p k ch l := by
  obtain ⟨hk, hrun, hb⟩ | hcall := hcall
  · have hu : (s.proc p).state ≠ .unused := by rw [hrun]; exact nofun
    obtain ⟨mv, hm⟩ | ⟨hsame, hbase⟩ := moved_or_same hs
    · by_cases hx : modeOf s (s.active c) = .proc p
      · -- it goes to sleep
        obtain ⟨hmv, hnext⟩ := base_moved_self h hm hx
        have hproc := hm.proc
        have hsleeps := hm.sleeps
        rw [hb] at hmv
        cases hmv
        refine Or.inr ⟨?_, fun _ _ => ⟨Or.inl hnext, ?_⟩⟩
        · rw [hsleeps, ← hk]
          exact Nat.le_of_eq (update_self p (s.sleeps p + 1) s.sleeps).symm
        · change t.proc = Function.update s.proc p _ at hproc
          rw [hproc, update_self]
      · left
        obtain ⟨hcount, -⟩ | ⟨hx', -⟩ := sleeps_moved h hm p
        · -- it has its lock
          have hin : p ∈ held initproc (some p) (base s p) := by
            rw [hb]
            exact List.mem_singleton.mpr rfl
          obtain ⟨d, hd, hlock⟩ := on_of_base h hu (by rw [hb]; exact fun _ => nofun) hin
          have hdc : d ≠ c := by
            rintro rfl
            exact hx hd
          rw [hcount, (proc_of_heldBy h hm hdc ((h.locks d p).mp hlock)).1,
            base_moved_other h hm hx fun he => hu (context_unused h hm he)]
          exact ⟨hk, hrun, hb⟩
        · exact absurd hx' hx
    · left
      rw [hsame.sleeps, hsame.proc]
      obtain hb' | ⟨k', hk', -⟩ := hbase p
      · exact ⟨hk, hrun, by rw [hb', hb]⟩
      · rw [hb] at hk'
        cases hk'
  · exact Or.inr (inCall_step h hcall hs)

theorem woken_of_wakeup {k i : ℕ} (haw : Awake s) (hcall : Called s p k ch l) (hl : l ∈ s.others c)
    (hpc : (s.ctl (s.active c)).pc = .wakeup ch i) (hi : n ≤ i) : Woken s p k := by
  have hno : ¬ Asleep s p ch l := by
    refine haw c l ch p hl ?_
    rw [hpc]
    exact ⟨rfl, Nat.lt_of_lt_of_le p.isLt hi⟩
  obtain ⟨-, hrun, hb⟩ | hcall := hcall
  · exact absurd ⟨by rw [hrun]; exact nofun, Or.inl hb⟩ hno
  · refine ⟨hcall.later, fun hk hsl => hno ⟨by rw [hsl]; exact nofun, Or.inr ?_⟩⟩
    obtain ⟨hplace, hchan⟩ := hcall.place hk hsl
    exact ⟨hplace, hsl, hchan⟩

/-- The process that `exit` calls `wakeup1` for, with its lock. -/
def wakes1 (initproc : Fin n) : Pc n → Option (Fin n)
  | .exitInit _ => some initproc
  | .reparent _ op i => if n ≤ i then some op else none
  | _ => none

theorem wakeup1_moved (h : Inv initproc s) (hm : Moved initproc s c a mv t)
    (hwakes : wakes1 initproc (s.ctl (s.active c)).pc = some p) :
    t.lock p = some c ∧ t.proc p = wake (.proc p) (s.proc p) := by
  have hmoves := hm.moves
  have hproc := hm.proc
  have hlock := hm.lock
  have hlocks := h.locks c p
  have hnodup := h.nodup c
  unfold heldBy at hlocks hnodup
  rw [← own_modeOf] at hlocks hnodup
  generalize modeOf s (s.active c) = x at hmoves hlocks hnodup
  generalize (s.ctl (s.active c)).pc = pc at hmoves hwakes hlocks hnodup
  cases hmoves <;> try (cases hwakes; done)
  case exitInit q st =>
    obtain rfl := Option.some.inj hwakes
    rw [hlock.2.1, hproc]
    exact ⟨update_self _ _ _, update_self _ _ _⟩
  case reparentFound q st op j _ | reparentOther q st op j _ =>
    rw [wakes1, if_neg (Nat.not_le.mpr j.isLt)] at hwakes
    cases hwakes
  case exitZombie q st op j hj =>
    rw [wakes1, if_pos hj] at hwakes
    obtain rfl := Option.some.inj hwakes
    -- the parent is another process
    have hne : op ≠ q := by
      rintro rfl
      exact (List.nodup_cons.mp hnodup).1 (List.mem_singleton.mpr rfl)
    constructor
    · rw [hlock.1, hlocks]
      exact List.mem_append_right _ (List.mem_singleton.mpr rfl)
    · change t.proc = Function.update (Function.update s.proc op _) q _ at hproc
      rw [hproc, update_of_ne hne, update_self]

theorem wakeup1_step (h : Inv initproc s) (hs : St.step initproc s (c, .go) = some t)
    (hwakes : wakes1 initproc (s.ctl (s.active c)).pc = some p) :
    t.lock p = some c ∧ t.proc p = wake (.proc p) (s.proc p) := by
  cases steps_of_step hs with
  | move mv hm => exact wakeup1_moved h hm hwakes
  | switchOut q k hon hpc _ =>
    rw [active_proc.mpr hon, hpc] at hwakes
    cases hwakes
  | switchIn q hon hsw =>
    rw [active_sched.mpr ⟨hon, rfl⟩, hsw] at hwakes
    cases hwakes

theorem inCall_of_wait {addr i : ℕ} {k : Bool} (h : Inv initproc s) (hon : s.on c = some p)
    (hctl : s.ctl (.proc p) = ⟨.waitScan addr i k, none⟩) (hs : St.step initproc s (c, .go) = some t)
    (hsleep : base t p = .sched (.wait addr)) : InCall t p (s.sleeps p) (.proc p) (.wait addr) := by
  have hx : modeOf s (s.active c) = .proc p := by
    rw [active_proc.mpr hon]
    exact if_pos (by rw [hctl])
  have hb : base s p = .waitScan addr i k := by rw [base, hctl]
  obtain ⟨mv, hm⟩ | ⟨-, hbase⟩ := moved_or_same hs
  · obtain ⟨hmv, hnext⟩ := base_moved_self h hm hx
    have hproc := hm.proc
    have hsleeps := hm.sleeps
    rw [hsleep] at hnext
    rw [hb] at hmv
    cases hmv <;> try (cases hnext; done)
    case waitSleep =>
      refine ⟨?_, fun _ _ => ⟨Or.inl hsleep, ?_⟩⟩
      · rw [hsleeps]
        exact Nat.le_of_eq (update_self p (s.sleeps p + 1) s.sleeps).symm
      · change t.proc = Function.update s.proc p _ at hproc
        rw [hproc, update_self]
  · obtain hb' | ⟨k', hk', -⟩ := hbase p
    · rw [hsleep, hb] at hb'
      cases hb'
    · rw [hb] at hk'
      cases hk'

/-- **No lost wakeup.**  First for a lock other than `p->lock`: `p` has released it in `sleep`, and a CPU
holds it at the end of `wakeup`.  Then for `p->lock`: the process is in `wait`, and a CPU that has the lock
calls `wakeup1`.  The process does not sleep again because of that call. -/
theorem no_lost_wakeup (initproc : Fin n) (s₀ : St n m)
    (hreach : Reachable (St.step initproc) (St.boot initproc) s₀) (p : Fin n) :
    (∀ ch l ls₁ s₁ c i ls₂ s₂, (s₀.proc p).state = .running → base s₀ p = .sleepUnlocked ch l →
      exec (St.step initproc) s₀ ls₁ = some s₁ → (s₁.ctl (s₁.active c)).pc = .wakeup ch i → n ≤ i →
      l ∈ s₁.others c → exec (St.step initproc) s₁ ls₂ = some s₂ →
      s₂.sleeps p = s₀.sleeps p + 1 → (s₂.proc p).state ≠ .sleeping) ∧
    ∀ addr i k d s₁ ls₁ s₂ c s₃ ls₂ s₄, s₀.on d = some p →
      s₀.ctl (.proc p) = ⟨.waitScan addr i k, none⟩ → St.step initproc s₀ (d, .go) = some s₁ →
      base s₁ p = .sched (.wait addr) → exec (St.step initproc) s₁ ls₁ = some s₂ →
      wakes1 initproc (s₂.ctl (s₂.active c)).pc = some p → St.step initproc s₂ (c, .go) = some s₃ →
      exec (St.step initproc) s₃ ls₂ = some s₄ →
      s₃.lock p = some c ∧ (s₄.sleeps p = s₀.sleeps p + 1 → (s₄.proc p).state ≠ .sleeping) := by
  constructor
  · intro ch l ls₁ s₁ c i ls₂ s₂ hrun hb h₁ hpc hi hl h₂
    obtain ⟨hcall, hreach₁⟩ := run_from (P := fun s => Called s p (s₀.sleeps p) ch l) hreach
      (fun s c a t h hcall hs => called_step h hcall hs) (Or.inl ⟨rfl, hrun, hb⟩) h₁
    have hwoken := woken_of_wakeup (awake_run hreach₁) hcall hl hpc hi
    exact (run_from (P := fun s => Woken s p (s₀.sleeps p)) hreach₁
      (fun s c a t h hw hs => woken_step h hw hs) hwoken h₂).1.2
  · intro addr i k d s₁ ls₁ s₂ c s₃ ls₂ s₄ hon hctl h₁ hb h₂ hwakes h₃ h₄
    have hreach₁ : Reachable (St.step initproc) (St.boot initproc) s₁ := by
      obtain ⟨ks, hks⟩ := hreach
      exact ⟨ks ++ [(d, .go)], exec_snoc_of hks h₁⟩
    obtain ⟨hcall, hreach₂⟩ := run_from (P := fun s => InCall s p (s₀.sleeps p) (.proc p) (.wait addr))
      hreach₁ (fun s c a t h hcall hs => inCall_step h hcall hs)
      (inCall_of_wait (inv_run hreach) hon hctl h₁ hb) h₂
    have hreach₃ : Reachable (St.step initproc) (St.boot initproc) s₃ := by
      obtain ⟨ks, hks⟩ := hreach₂
      exact ⟨ks ++ [(c, .go)], exec_snoc_of hks h₃⟩
    obtain ⟨hlock, hwake⟩ := wakeup1_step (inv_run hreach₂) h₃ hwakes
    have hcall₃ := inCall_step (inv_run hreach₂) hcall h₃
    have hwoken : Woken s₃ p (s₀.sleeps p) := by
      refine ⟨hcall₃.later, fun hk hsl => ?_⟩
      have hno := not_asleep_wake (.proc p) (s₂.proc p)
      rw [← hwake] at hno
      exact hno ⟨hsl, (hcall₃.place hk hsl).2⟩
    exact ⟨hlock, (run_from (P := fun s => Woken s p (s₀.sleeps p)) hreach₃
      (fun s c a t h hw hs => woken_step h hw hs) hwoken h₄).1.2⟩

/-- The first process, on CPU 0, sleeps on channel 7 with lock 5; its child is on CPU 1. -/
def sleeper : List (Fin 2 × Act 2) :=
  does 0 .go 2 ++ does 0 .fork 8 ++ does 1 .go 4 ++ does 0 (.acquire 5) 0 ++ does 0 (.sleep (.addr 7) 5) 2

/-- It goes on until CPU 0 returns its lock; the child acquires lock 5 and wakes channel 7. -/
def waker : List (Fin 2 × Act 2) := does 0 .go 3 ++ does 1 (.acquire 5) 0 ++ does 1 (.wakeup (.addr 7)) 4

theorem no_lost_wakeup_waker : ∃ s₀ s₁ s₂ : St 2 2, exec (St.step 0) (St.boot 0) sleeper = some s₀ ∧
    exec (St.step 0) s₀ waker = some s₁ ∧ exec (St.step 0) s₁ (does 1 .go 0) = some s₂ ∧
    s₂.sleeps 0 = s₀.sleeps 0 + 1 ∧ (s₂.proc 0).state ≠ .sleeping := by
  have h₀ := exec_final (St.step 0) (s := (St.boot 0 : St 2 2)) (l := sleeper) (by decide +kernel)
  have h₁ := exec_final (St.step 0) (s := final (St.step 0) (St.boot 0 : St 2 2) sleeper) (l := waker)
    (by decide +kernel)
  have h₂ := exec_final (St.step 0)
    (s := final (St.step 0) (final (St.step 0) (St.boot 0 : St 2 2) sleeper) waker) (l := does 1 .go 0)
    (by decide +kernel)
  refine ⟨_, _, _, h₀, h₁, h₂, by decide +kernel, ?_⟩
  exact (no_lost_wakeup 0 _ ⟨sleeper, h₀⟩ 0).1 (.addr 7) 5 waker _ 1 2 _ _ (by decide +kernel)
    (by decide +kernel) h₁ (by decide +kernel) (by decide) (by decide +kernel) h₂ (by decide +kernel)

end Xv6.ProcSleep
