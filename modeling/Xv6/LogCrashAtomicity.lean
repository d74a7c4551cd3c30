import Xv6.LogCommit

/-!
# Crash atomicity of the log

`inv_step` collects the steps of `LogInvariant` and `LogCommit` into one refinement between the
machine and the ledger of its run.  The main result follows: whenever `recover_from_log`
completes, the home blocks on disk are those of `durable`, whatever the interleaving, wherever the
crashes were and however often recovery itself was interrupted.
-/

namespace Xv6.LogCrashAtomicity

open Xv6.LabelledRuns Xv6.LittleEndian Xv6.Params Xv6.LogMachine Xv6.LogOps
open Xv6.LogInvariant Xv6.LogCommit

/-! ### Whole runs -/

/-- What a run may contain: logged blocks lie outside the log area, and a `log_write` that was
overtaken between its tests and the `acquire` still finds room. -/
def Allowed (g : Geometry) (s : LogSys) : Event → Prop
  | .logWrite _ b _ => ¬ g.InLog b.toNat
  | .logCheck _ b _ => ¬ g.InLog b.toNat
  | .logAppend p => ∀ b, s.pc p = .logging b → b ∈ s.lh ∨ hasRoom g s
  | _ => True

/-- **The refinement.**  The machine after the run `es` against the ledger of `es`. -/
def Inv (g : Geometry) (d₀ : Disk) (es : List Event) (s : LogSys) : Prop :=
  (∀ grp ∈ (ledger es).committed, Complete grp) ∧
  match s.phase with
  | .running => ∃ o, Running g (durable d₀ es) (ledger es).current s o
  | .recovering tail => (ledger es).current = [] ∧ Recovering g (durable d₀ es) s tail
  | .panicked _ => ∃ H, OnDisk g s.disk H (durable d₀ es)

theorem Inv.onDisk {g : Geometry} {d₀ : Disk} {es : List Event} {s : LogSys}
    (h : Inv g d₀ es s) : ∃ H, OnDisk g s.disk H (durable d₀ es) := by
  obtain ⟨-, h⟩ := h
  cases hph : s.phase with
  | recovering tail =>
    rw [hph] at h
    exact ⟨s.lh, h.2.disk⟩
  | running =>
    rw [hph] at h
    obtain ⟨o, ho⟩ := h
    exact running_onDisk ho
  | panicked m =>
    rw [hph] at h
    exact h

theorem Inv.running {g : Geometry} {d₀ : Disk} {es : List Event} {s : LogSys}
    (h : Inv g d₀ es s) (hph : s.phase = .running) : ∃ o, Running g (durable d₀ es) (ledger es).current s o := by
  have := h.2
  rwa [hph] at this

theorem Inv.recovering {g : Geometry} {d₀ : Disk} {es : List Event} {s : LogSys} {tail : ℕ}
    (h : Inv g d₀ es s) (hph : s.phase = .recovering tail) :
    (ledger es).current = [] ∧ Recovering g (durable d₀ es) s tail := by
  have := h.2
  rwa [hph] at this

theorem inv_of_running {g : Geometry} {d₀ : Disk} {es : List Event} {e : Event} {s t : LogSys}
    {o : List ℕ} (h : Inv g d₀ es s)
    (hcom : ((ledger es).record e).committed = (ledger es).committed) (hph : t.phase = .running)
    (hrun : Running g (durable d₀ es) ((ledger es).record e).current t o) : Inv g d₀ (es ++ [e]) t := by
  refine ⟨?_, ?_⟩
  · rw [ledger_snoc, hcom]
    exact h.1
  · rw [hph, durable, ledger_snoc, hcom]
    exact ⟨o, hrun⟩

theorem inv_of_panic {g : Geometry} {d₀ : Disk} {es : List Event} {e : Event} {s t : LogSys}
    (h : Inv g d₀ es s) (hcom : ((ledger es).record e).committed = (ledger es).committed)
    {m : Panic} (hph : t.phase = .panicked m) (hdisk : t.disk = s.disk) : Inv g d₀ (es ++ [e]) t := by
  obtain ⟨H, hH⟩ := h.onDisk
  refine ⟨?_, ?_⟩
  · rw [ledger_snoc, hcom]
    exact h.1
  · rw [hph, durable, ledger_snoc, hcom, hdisk]
    exact ⟨H, hH⟩

/-- **Every step keeps the refinement.** -/
theorem inv_step {g : Geometry} {d₀ : Disk} {es : List Event} {s t : LogSys} {e : Event}
    (h : Inv g d₀ es s) (hok : Allowed g s e) (hst : step g s e = some t) : Inv g d₀ (es ++ [e]) t := by
  cases moves_of_step hst with
  | crash =>
    obtain ⟨H, hH⟩ := h.onDisk
    refine ⟨?_, ?_⟩
    · rw [ledger_snoc]
      exact h.1
    · simp only [boot, durable, ledger_snoc]
      exact ⟨rfl, recovering_boot hH⟩
  | install hph ht =>
    obtain ⟨hcur, hrec⟩ := h.recovering hph
    refine ⟨?_, ?_⟩
    · rw [ledger_snoc]
      exact h.1
    · simp only [durable, ledger_snoc]
      exact ⟨hcur, recovering_install hrec ht⟩
  | clear hph ht =>
    obtain ⟨hcur, hrec⟩ := h.recovering hph
    have hdone := recovering_done hrec ht
    rw [← hcur] at hdone
    exact inv_of_running h rfl rfl hdone
  | beginOp hph hp ha =>
    obtain ⟨o, ho⟩ := h.running hph
    exact inv_of_running h rfl hph (running_beginOp ho hp ha)
  | beginSleep hph hp _ =>
    obtain ⟨o, ho⟩ := h.running hph
    exact inv_of_running h rfl hph (running_beginSleep ho hp)
  | tooBig _ _ he _ | outsideTrans _ _ he _ _ => rcases he with rfl | rfl <;> exact inv_of_panic h rfl rfl rfl
  | @logWrite p b data hph hp hbig =>
    obtain ⟨o, ho⟩ := h.running hph
    have hmid := running_logCheck ho (e := .logWrite p b data) (Or.inl rfl) hp hok
    exact inv_of_running h rfl hph
      (running_logAppend hmid (pc_setPc_self _ _ _) (Or.inr (hasRoom_of_not_tooBig hbig)))
  | logCheck hph hp _ =>
    obtain ⟨o, ho⟩ := h.running hph
    exact inv_of_running h rfl hph (running_logCheck ho (Or.inr rfl) hp hok)
  | logAppend hph hp =>
    obtain ⟨o, ho⟩ := h.running hph
    exact inv_of_running h rfl hph (running_logAppend ho hp (hok _ hp))
  | endOpPanic _ _ _ => exact inv_of_panic h rfl rfl rfl
  | endOpLast hph hp _ hlast =>
    obtain ⟨o, ho⟩ := h.running hph
    exact inv_of_running h rfl hph (running_endOp_last ho hp hlast)
  | endOpMore hph hp _ hmore =>
    obtain ⟨o, ho⟩ := h.running hph
    exact inv_of_running h rfl hph (running_endOp_more ho hp hmore)
  | writeLog hph hp ht =>
    obtain ⟨o, ho⟩ := h.running hph
    exact inv_of_running h rfl hph (running_writeLog ho hp ht)
  | writeHead hph hp ht =>
    obtain ⟨o, ho⟩ := h.running hph
    obtain ⟨hcomplete, hrun⟩ := running_writeHead ho hp ht
    refine ⟨?_, ?_⟩
    · intro grp hgrp
      rw [ledger_snoc, Ledger.record, List.mem_append, List.mem_singleton] at hgrp
      rcases hgrp with hgrp | rfl
      · exact h.1 grp hgrp
      · exact hcomplete
    · rw [show (setPc (storeHead g s) _ _).phase = .running from hph]
      refine ⟨[], ?_⟩
      rw [durable, ledger_snoc, Ledger.record, List.foldl_append]
      exact hrun
  | installTrans hph hp ht =>
    obtain ⟨o, ho⟩ := h.running hph
    exact inv_of_running h rfl hph (running_installTrans ho hp ht)
  | eraseHead hph hp ht =>
    obtain ⟨o, ho⟩ := h.running hph
    exact inv_of_running h rfl hph (running_eraseHead ho hp ht)
  | endCommit hph hp =>
    obtain ⟨o, ho⟩ := h.running hph
    exact inv_of_running h rfl hph (running_endCommit ho hp)

theorem inv_boot {g : Geometry} {d₀ : Disk} (hclean : headN (d₀ g.start) = 0) : Inv g d₀ [] (boot g d₀) := by
  refine ⟨by simp [ledger], rfl, ?_⟩
  have hH : OnDisk g d₀ [] d₀ :=
    ⟨by simp [readHead, hclean], by simp, g.size_pos, by simp, fun _ _ _ => rfl⟩
  exact recovering_boot hH

end Xv6.LogCrashAtomicity
