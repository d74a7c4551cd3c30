import Xv6.ProcFamily

/-!
# Process numbers

`allocpid` counts: the `k`-th call gives out `k`, as an `int`.  As long as the counter has not passed
`2^31 - 1`, the processes in the table have different positive numbers.
-/

namespace Xv6.ProcPids

open Xv6.LabelledRuns Xv6.ProcMachine Xv6.ProcMoves Xv6.ProcPlaces Xv6.ProcMoved Xv6.ProcInv
open Xv6.ProcFamily
open Function (update_self update_of_ne)

variable {n m : ℕ} {initproc : Fin n} {s t : St n m} {c d : Fin m} {p q : Fin n} {a : Act n}
  {mv : Move n}

/-- The number that the slot got at its last birth. -/
def number (s : St n m) (q : Fin n) : Int32 := .ofNat (s.birth q + 1)

/-- A slot that `fork` prepares has its number already. -/
def NumberAt (s : St n m) : Pc n → Prop
  | .trapframe i | .pagetable i | .uvmcopy i => (s.proc i).pid = number s i
  | _ => True

structure Numbered (initproc : Fin n) (s : St n m) : Prop where
  next : s.nextpid = .ofNat (s.calls + 1)
  uniq : ∀ p q, s.birth p = s.birth q → p = q ∨ s.birth p = 0
  used : ∀ q, (s.proc q).state ≠ .unused → q ≠ initproc → 0 < s.birth q
  pid : ∀ q, (s.proc q).state ≠ .unused → (s.proc q).pid = number s q
  place : ∀ p, (s.proc p).state ≠ .unused → NumberAt s (base s p)

section Moved

variable (h : Inv initproc s) (hfam : Family initproc s) (hnum : Numbered initproc s)
  (hm : Moved initproc s c a mv t)

include hm in
theorem counters_moved : (t.nextpid = s.nextpid ∧ t.calls = s.calls ∧ t.birth = s.birth) ∨
    ∃ i, (s.ctl (s.active c)).pc = .allocpid i ∧ t.nextpid = s.nextpid + 1 ∧ t.calls = s.calls + 1 ∧
      t.birth = Function.update s.birth i s.calls ∧ (t.proc i).pid = s.nextpid := by
  have hmoves := hm.moves
  rw [hm.nextpid, hm.calls, hm.birth, hm.proc]
  generalize (s.ctl (s.active c)).pc = pc at hmoves
  generalize modeOf s (s.active c) = x at hmoves
  cases hmoves <;> try exact Or.inl ⟨rfl, rfl, rfl⟩
  case allocpid p i =>
    refine Or.inr ⟨i, rfl, rfl, rfl, rfl, ?_⟩
    change (Function.update s.proc i _ i).pid = _
    rw [update_self]

include hnum hm in
theorem next_moved : t.nextpid = .ofNat (t.calls + 1) := by
  obtain ⟨hn, hc, -⟩ | ⟨i, -, hn, hc, -, -⟩ := counters_moved hm
  · rw [hn, hc, hnum.next]
  · rw [hn, hc, hnum.next, Int32.ofNat_add (s.calls + 1) 1]
    rfl

include hfam hnum hm in
theorem uniq_moved (hb : t.birth p = t.birth q) : p = q ∨ t.birth p = 0 := by
  obtain ⟨-, -, hbirth⟩ | ⟨i, -, -, -, hbirth, -⟩ := counters_moved hm
  · rw [hbirth] at hb ⊢
    exact hnum.uniq p q hb
  · -- the new birth is later than all others
    rw [hbirth] at hb ⊢
    by_cases hp : p = i
    · by_cases hq : q = i
      · exact Or.inl (hp.trans hq.symm)
      · rw [hp, update_self, update_of_ne hq] at hb
        exact absurd hb (Nat.ne_of_gt (hfam.young q))
    · rw [update_of_ne hp] at hb ⊢
      by_cases hq : q = i
      · rw [hq, update_self] at hb
        exact absurd hb (Nat.ne_of_lt (hfam.young p))
      · rw [update_of_ne hq] at hb
        exact hnum.uniq p q hb

include h hm

theorem number_alive (hu : (s.proc q).state ≠ .unused) : number t q = number s q := by
  unfold number
  rw [birth_alive h hm hu]

theorem pid_alive (hu : (s.proc q).state ≠ .unused) (hu' : (t.proc q).state ≠ .unused) :
    (t.proc q).pid = (s.proc q).pid := by
  have hw := wrote_moved h hm q
  have hf := h.found c
  generalize t.proc q = y at hw hu'
  cases hw with
  | numbered p _ hpc =>
    rw [hpc] at hf
    exact absurd hf hu
  | freed hd => exact absurd hd hu
  | reaped _ _ _ _ _ => exact absurd rfl hu'
  | same | woken _ | slain _ _ _ | yielded _ _ | slept _ _ _ | tidied _ | born _ _ _ | adopted _ _ _ _ _
  | exited _ _ _ _ _ _ | dispatched _ _ => rfl

theorem born_moved (hu : (s.proc q).state = .unused) (hu' : (t.proc q).state ≠ .unused) :
    (∃ p, modeOf s (s.active c) = .proc p) ∧ (s.ctl (s.active c)).pc = .uvmcopy q ∧
      (t.proc q).pid = (s.proc q).pid ∧ t.birth = s.birth := by
  have hbirth : (s.ctl (s.active c)).pc = .uvmcopy q → t.birth = s.birth := by
    intro hpc
    obtain ⟨-, -, hb⟩ | ⟨i, hi, -⟩ := counters_moved hm
    · exact hb
    · rw [hpc] at hi
      cases hi
  have hw := wrote_moved h hm q
  generalize t.proc q = y at hw hu'
  cases hw with
  | born p hx hpc => exact ⟨⟨p, hx⟩, hpc, rfl, hbirth hpc⟩
  | same | tidied _ | numbered _ _ _ | adopted _ _ _ _ _ => exact absurd hu hu'
  | freed _ | reaped _ _ _ _ _ => exact absurd rfl hu'
  | woken hsl => rw [hu] at hsl; cases hsl
  | dispatched _ hr => rw [hu] at hr; cases hr
  | slain _ _ _ =>
    unfold slay at hu'
    rw [hu] at hu'
    exact absurd rfl hu'
  | yielded hx _ | slept hx _ _ | exited hx _ _ _ _ _ => exact absurd hu (alive_of_on h (on_of_own (by rw [hx]; rfl)))

include hnum in
omit hm in
theorem number_of_mode (hx : modeOf s (s.active c) = .proc p) : NumberAt s (s.ctl (s.active c)).pc := by
  rw [pc_of_mode hx]
  exact hnum.place p (alive_of_on h (on_of_own (by rw [hx]; rfl)))

include hfam hnum in
theorem used_moved (hu : (t.proc q).state ≠ .unused) (hq : q ≠ initproc) : 0 < t.birth q := by
  by_cases hs : (s.proc q).state = .unused
  · obtain ⟨⟨p, hx⟩, hpc, -, hb⟩ := born_moved h hm hs hu
    have hkin := kin_of_mode h hfam hx
    rw [hpc] at hkin
    rw [hb]
    exact Nat.zero_lt_of_lt hkin
  · rw [birth_alive h hm hs]
    exact hnum.used q hs hq

include hnum in
theorem pid_moved (hu : (t.proc q).state ≠ .unused) : (t.proc q).pid = number t q := by
  by_cases hs : (s.proc q).state = .unused
  · obtain ⟨⟨p, hx⟩, hpc, hpid, hb⟩ := born_moved h hm hs hu
    have hnumber := number_of_mode h hnum hx
    rw [hpc] at hnumber
    rw [hpid, hnumber, number, number, hb]
  · rw [pid_alive h hm hs hu, number_alive h hm hs]
    exact hnum.pid q hs

omit h hm in
theorem numberAt_congr {pc : Pc n} (hproc : t.proc = s.proc) (hbirth : t.birth = s.birth)
    (hp : NumberAt s pc) : NumberAt t pc := by
  unfold NumberAt number at *
  rw [hproc, hbirth]
  exact hp

theorem numberAt_other (hx : modeOf s (s.active c) ≠ .proc p) (hu : (s.proc p).state ≠ .unused)
    (hp : NumberAt s (base s p)) : NumberAt t (base s p) := by
  have hslot : ∀ {i}, (∀ k, base s p ≠ .resumed k) → i ∈ held initproc (some p) (base s p) →
      (s.proc i).pid = number s i → (t.proc i).pid = number t i := by
    intro i hne hi heq
    obtain ⟨d, hd, hlock⟩ := on_of_base h hu hne hi
    have hdc : d ≠ c := by
      rintro rfl
      exact hx hd
    rw [(proc_of_heldBy h hm hdc ((h.locks d i).mp hlock)).1, number, birth_locked h hm hdc hlock]
    exact heq
  generalize base s p = pc at hp hslot
  cases pc <;> try trivial
  case trapframe i | pagetable i | uvmcopy i => exact hslot nofun (List.mem_singleton.mpr rfl) hp

include hnum in
omit h in
theorem numberAt_self (hmv : Moves initproc s.proc (.proc p) (base s p) a mv)
    (hp : NumberAt s (base s p)) : NumberAt t mv.next := by
  refine numberAt_congr hm.proc hm.birth ?_
  generalize base s p = pc at hmv hp
  cases hmv <;> try trivial
  case allocpid i =>
    change (Function.update s.proc i _ i).pid = .ofNat (Function.update s.birth i s.calls i + 1)
    rw [update_self, update_self]
    exact hnum.next

end Moved

/-- **Step lemma.** -/
theorem numbered_step (h : Inv initproc s) (hfam : Family initproc s) (hnum : Numbered initproc s)
    (hs : St.step initproc s (c, a) = some t) : Numbered initproc t := by
  have hplace : ∀ p, (t.proc p).state ≠ .unused → NumberAt t (base t p) := by
    intro p hu
    cases based_step h hs hu with
    | fresh hp => rw [hp]; trivial
    | self hu' mv hm hx hmv hp =>
      rw [hp]
      exact numberAt_self hnum hm hmv (hnum.place p hu')
    | other hu' mv hm hx hp =>
      rw [hp]
      exact numberAt_other h hm hx hu' (hnum.place p hu')
    | still hu' hsame hp =>
      refine numberAt_congr hsame.proc hsame.birth ?_
      obtain hp | ⟨k, -, hp⟩ := hp
      · rw [hp]
        exact hnum.place p hu'
      · rw [hp]
        trivial
  obtain ⟨mv, hm⟩ | ⟨hsame, -⟩ := moved_or_same hs
  · exact ⟨next_moved hnum hm, fun p q => uniq_moved hfam hnum hm,
      fun q => used_moved h hfam hnum hm, fun q => pid_moved h hnum hm, hplace⟩
  · refine ⟨?_, ?_, ?_, ?_, hplace⟩
    · rw [hsame.nextpid, hsame.calls]
      exact hnum.next
    · rw [hsame.birth]
      exact hnum.uniq
    · rw [hsame.proc, hsame.birth]
      exact hnum.used
    · unfold number
      rw [hsame.proc, hsame.birth]
      exact hnum.pid

theorem numbered_boot (initproc : Fin n) : Numbered initproc (St.boot initproc : St n m) := by
  have hstate : ∀ q, ((St.boot initproc : St n m).proc q).state ≠ .unused → q = initproc := by
    intro q hu
    by_contra hq
    simp only [St.boot, if_neg hq] at hu
    exact hu rfl
  refine ⟨rfl, fun _ _ _ => Or.inr rfl, fun q hu hq => absurd (hstate q hu) hq, ?_, fun _ _ => trivial⟩
  intro q hu
  obtain rfl := hstate q hu
  simp only [St.boot, if_true]
  rfl

/-- **Run lemma.** -/
theorem numbered_run (hrun : Reachable (St.step initproc) (St.boot initproc) s) : Numbered initproc s :=
  run_rule (numbered_boot initproc) (fun _ _ _ _ h hfam hnum hs => numbered_step h hfam hnum hs) hrun

/-! ### Different positive numbers -/

theorem toInt_number (hfam : Family initproc s) (hcalls : s.calls < 2 ^ 31 - 1) (q : Fin n) :
    (number s q).toInt = s.birth q + 1 := by
  have hb := hfam.young q
  rw [number, Int32.toInt_ofNat_of_lt (by omega)]
  rfl

theorem number_pos (hfam : Family initproc s) (hcalls : s.calls < 2 ^ 31 - 1) (q : Fin n) : 0 < number s q := by
  rw [Int32.lt_iff_toInt_lt, toInt_number hfam hcalls]
  change (0 : ℤ) < _
  omega

theorem birth_of_number (hfam : Family initproc s) (hcalls : s.calls < 2 ^ 31 - 1)
    (heq : number s p = number s q) : s.birth p = s.birth q := by
  have hint := congrArg Int32.toInt heq
  rw [toInt_number hfam hcalls, toInt_number hfam hcalls] at hint
  omega

theorem pid_inj (hfam : Family initproc s) (hnum : Numbered initproc s)
    (hcalls : s.calls < 2 ^ 31 - 1) (hp : (s.proc p).state ≠ .unused) (hq : (s.proc q).state ≠ .unused)
    (heq : (s.proc p).pid = (s.proc q).pid) : p = q := by
  rw [hnum.pid p hp, hnum.pid q hq] at heq
  have hbirth := birth_of_number hfam hcalls heq
  obtain he | hz := hnum.uniq p q hbirth
  · exact he
  · -- only the first process was there before `allocpid`
    have hroot : ∀ {r}, (s.proc r).state ≠ .unused → s.birth r = 0 → r = initproc := by
      intro r hr hb
      by_contra hne
      exact Nat.ne_of_gt (hnum.used r hr hne) hb
    rw [hroot hp hz, hroot hq (hbirth ▸ hz)]

end Xv6.ProcPids
