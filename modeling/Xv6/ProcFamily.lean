import Xv6.ProcInv

/-!
# Parents and children

Who may change `p->parent`: `fork` for a new slot, `reparent` for a child of the caller, and `freeproc`.
So the children of a process are its own affair, which is what `wait` and `reparent` rely on when they
read `parent` without the lock.

`St.birth` orders the processes by age; parents are older than their children (`Family.older`).
-/

namespace Xv6.ProcFamily

open Xv6.LabelledRuns Xv6.ProcMachine Xv6.ProcMoves Xv6.ProcPlaces Xv6.ProcMoved Xv6.ProcInv

variable {n m : ℕ} {initproc : Fin n} {s t : St n m} {c d : Fin m} {p q : Fin n} {a : Act n}
  {mv : Move n}

/-! ### Where a process is in its own code -/

def base (s : St n m) (p : Fin n) : Pc n := (s.ctl (.proc p)).base

theorem on_of_own (hx : (modeOf s (s.active c)).own = some p) : s.on c = some p := by
  rw [own_modeOf] at hx
  cases hact : s.active c with
  | proc q =>
    rw [hact] at hx
    obtain rfl := Option.some.inj hx
    exact active_proc.mp hact
  | sched d =>
    rw [hact] at hx
    cases hx

theorem trap_of_mode (hx : modeOf s (s.active c) = .proc p) : (s.ctl (.proc p)).trap = none := by
  have hon := on_of_own (by rw [hx]; rfl)
  rw [active_proc.mpr hon] at hx
  simp only [modeOf] at hx
  split at hx
  case isTrue ht => exact ht
  case isFalse => cases hx

theorem pc_of_mode (hx : modeOf s (s.active c) = .proc p) : (s.ctl (s.active c)).pc = base s p := by
  have hon := on_of_own (by rw [hx]; rfl)
  rw [active_proc.mpr hon, base, Ctl.pc, trap_of_mode hx]
  rfl

theorem alive_of_on (h : Inv initproc s) (hon : s.on c = some p) : (s.proc p).state ≠ .unused := by
  rw [(h.state_of_on hon).1]
  exact stateAt_ne_unused _

structure Same (s t : St n m) : Prop where
  proc : t.proc = s.proc
  lock : t.lock = s.lock
  others : t.others = s.others
  nextpid : t.nextpid = s.nextpid
  calls : t.calls = s.calls
  birth : t.birth = s.birth
  sleeps : t.sleeps = s.sleeps
  log : t.log = s.log

/-- How a step moves process `p` in its own code. -/
inductive Based (initproc : Fin n) (s : St n m) (c : Fin m) (a : Act n) (t : St n m) (p : Fin n) : Prop
  /-- `fork` has just made it. -/
  | fresh (place : base t p = .resumed .forkret)
  /-- It has moved. -/
  | self (alive : (s.proc p).state ≠ .unused) (mv : Move n) (moved : Moved initproc s c a mv t)
      (mode : modeOf s (s.active c) = .proc p) (moves : Moves initproc s.proc (.proc p) (base s p) a mv)
      (place : base t p = mv.next)
  /-- Somebody else has moved. -/
  | other (alive : (s.proc p).state ≠ .unused) (mv : Move n) (moved : Moved initproc s c a mv t)
      (mode : modeOf s (s.active c) ≠ .proc p) (place : base t p = base s p)
  /-- An interrupt or a switch. -/
  | still (alive : (s.proc p).state ≠ .unused) (same : Same s t)
      (place : base t p = base s p ∨ ∃ k, base s p = .sched k ∧ base t p = .resumed k)

theorem base_moved_self (h : Inv initproc s) (hm : Moved initproc s c a mv t) (hx : modeOf s (s.active c) = .proc p) :
    Moves initproc s.proc (.proc p) (base s p) a mv ∧ base t p = mv.next := by
  have hon := on_of_own (by rw [hx]; rfl)
  have hmoves := hm.moves
  rw [hx, pc_of_mode hx] at hmoves
  refine ⟨hmoves, ?_⟩
  have hself := ctl_self h hm
  rw [active_proc.mpr hon, goto_of_none (trap_of_mode hx)] at hself
  rw [base, hself]

theorem base_moved_other (h : Inv initproc s) (hm : Moved initproc s c a mv t)
    (hx : modeOf s (s.active c) ≠ .proc p) (hctx : mv.effect ≠ .context p) : base t p = base s p := by
  by_cases hact : Thread.proc p = s.active c
  · -- an interrupt moves on top of `p`
    have ht : (s.ctl (.proc p)).trap ≠ none := by
      intro ht
      rw [← hact] at hx
      simp only [modeOf, ht, if_true] at hx
      exact hx rfl
    have hself := ctl_self h hm
    rw [← hact] at hself
    rw [base, hself, goto_base ht, base]
  · rw [base, ctl_other hm hact fun i he hi => hctx (by rw [he, Thread.proc.inj hi]), base]

theorem based_moved (h : Inv initproc s) (hm : Moved initproc s c a mv t)
    (hu : (t.proc p).state ≠ .unused) : Based initproc s c a t p := by
  by_cases hs : (s.proc p).state = .unused
  · have hchange := change_moved h hm p
    generalize hst : (t.proc p).state = st at hchange hu
    cases hchange with
    | same => exact absurd hs hu
    | woken hsl => rw [hs] at hsl; cases hsl
    | freed _ => exact absurd rfl hu
    | dispatched _ hr => rw [hs] at hr; cases hr
    | yielded hx _ | slept hx _ | exited hx _ _ _ _ _ => exact absurd hs (alive_of_on h (on_of_own (by rw [hx]; rfl)))
    | born p' hx hpc =>
      have hf := h.found c
      rw [hpc] at hf
      have hne : modeOf s (s.active c) ≠ .proc p := by
        intro hp
        exact alive_of_on h (on_of_own (by rw [hp]; rfl)) hs
      have hctx : mv.effect ≠ .context p := by
        intro he
        have hpage := context_inv hm.moves he
        rw [hpc] at hpage
        cases hpage
      apply Based.fresh
      rw [base_moved_other h hm hne hctx, base, hf.2.2]
  · by_cases hx : modeOf s (s.active c) = .proc p
    · obtain ⟨hmoves, hplace⟩ := base_moved_self h hm hx
      exact .self hs mv hm hx hmoves hplace
    · exact .other hs mv hm hx
        (base_moved_other h hm hx fun he => hs (context_unused h hm he))

/-- A step is a move or it leaves the table alone. -/
theorem moved_or_same (hs : St.step initproc s (c, a) = some t) : (∃ mv, Moved initproc s c a mv t) ∨
    (Same s t ∧ ∀ p, base t p = base s p ∨ ∃ k, base s p = .sched k ∧ base t p = .resumed k) := by
  cases steps_of_step hs with
  | move mv hm => exact Or.inl ⟨mv, hm⟩
  | interrupt _ _ | iret _ _ =>
    exact Or.inr ⟨⟨rfl, rfl, rfl, rfl, rfl, rfl, rfl, rfl⟩, fun p => Or.inl (setCtl_base s _ _ _)⟩
  | switchIn q _ _ =>
    refine Or.inr ⟨⟨rfl, rfl, rfl, rfl, rfl, rfl, rfl, rfl⟩, fun p => Or.inl ?_⟩
    have hne : Thread.proc p ≠ (.sched c : Thread n m) := fun h => by cases h
    exact congrArg Ctl.base (switchIn_of_ne hne q)
  | switchOut q k hon hpc _ =>
    refine Or.inr ⟨⟨rfl, rfl, rfl, rfl, rfl, rfl, rfl, rfl⟩, fun p => ?_⟩
    by_cases hq : p = q
    · subst hq
      have hself := switchOut_self s c p k
      cases ht : (s.ctl (.proc p)).trap with
      | none =>
        refine Or.inr ⟨k, ?_, ?_⟩
        · rw [Ctl.pc, ht, Option.getD_none] at hpc
          exact hpc
        · rw [base, hself, goto_of_none ht]
      | some pc =>
        left
        rw [base, hself, goto_base (by rw [ht]; exact fun h => by cases h), base]
    · left
      exact congrArg Ctl.base (switchOut_of_ne (fun hc => hq (Thread.proc.inj hc)) k)

theorem based_step (h : Inv initproc s) (hs : St.step initproc s (c, a) = some t)
    (hu : (t.proc p).state ≠ .unused) : Based initproc s c a t p := by
  obtain ⟨mv, hm⟩ | ⟨hsame, hbase⟩ := moved_or_same hs
  · exact based_moved h hm hu
  · exact .still (by rwa [← hsame.proc]) hsame (hbase p)

theorem on_of_base (h : Inv initproc s) (hu : (s.proc p).state ≠ .unused)
    (hne : ∀ k, base s p ≠ .resumed k) (hq : q ∈ held initproc (some p) (base s p)) :
    ∃ d, modeOf s (s.active d) = .proc p ∧ s.lock q = some d := by
  have ht : (s.ctl (.proc p)).trap = none := by
    by_contra ht
    have hquiet := h.quiet (.proc p) ht
    change held initproc (some p) (base s p) = [] at hquiet
    rw [hquiet] at hq
    cases hq
  have hpc : (s.ctl (.proc p)).pc = base s p := by
    rw [Ctl.pc, ht]
    rfl
  have hp := h.placed p
  rw [hpc] at hp
  generalize (s.proc p).state = st at hp hu
  generalize s.saved p = sv at hp
  generalize hb : base s p = pc at hp
  cases hp with
  | unused _ => exact absurd rfl hu
  | out _ _ | chosen _ _ _ | left _ _ => exact absurd hb (hne _)
  | ran d hd =>
    have hon := on_of_ran hd
    refine ⟨d, ?_, ?_⟩
    · rw [active_proc.mpr hon]
      simp only [modeOf, ht, if_true]
    · rw [h.locks, heldBy_ran hon, hpc]
      exact hq

/-! ### Changes of `p->parent` -/

/-- What a move can do to the parent of slot `q`; `y` is the slot afterwards. -/
inductive Kinship (initproc : Fin n) (s : St n m) (x : Mode n) (pc : Pc n) (q : Fin n) (y : Proc n) :
    Prop
  | same (parent : y.parent = (s.proc q).parent) (state : y.state = .unused → (s.proc q).state = .unused)
  | born (p : Fin n) (mode : x = .proc p) (place : pc = .uvmcopy q) (parent : y.parent = some p)
      (state : y.state = .runnable)
  | adopted (p : Fin n) (mode : x = .proc p) (st : Int32) (op : Fin n)
      (place : pc = .reparentChild st op q) (parent : y.parent = some initproc)
      (state : y.state = (s.proc q).state)
  | freed (dead : (s.proc q).state = .unused) (clear : y = freeproc n)
  | reaped (p : Fin n) (mode : x = .proc p) (addr : ℕ) (place : pc = .waitZombie addr q)
      (clear : y = freeproc n)

theorem slay_unused {x : Proc n} (hu : (slay x).state = .unused) : x.state = .unused := by
  unfold slay at hu
  simp only at hu
  split at hu
  case isTrue => cases hu
  case isFalse => exact hu

theorem kinship_moved (h : Inv initproc s) (hm : Moved initproc s c a mv t) (q : Fin n) :
    Kinship initproc s (modeOf s (s.active c)) (s.ctl (s.active c)).pc q (t.proc q) := by
  have hw := wrote_moved h hm q
  generalize t.proc q = y at hw
  cases hw with
  | same | tidied _ | numbered _ _ _ => exact .same rfl id
  | woken _ | yielded _ _ | slept _ _ _ | exited _ _ _ _ _ _ | dispatched _ _ => exact .same rfl nofun
  | slain _ _ _ => exact .same rfl slay_unused
  | freed hu => exact .freed hu rfl
  | born p hx hpc => exact .born p hx hpc rfl rfl
  | adopted p hx st op hpc => exact .adopted p hx st op hpc rfl rfl
  | reaped p hx addr hpc _ => exact .reaped p hx addr hpc rfl

theorem birth_moved (hm : Moved initproc s c a mv t) (q : Fin n) : s.calls ≤ t.calls ∧ (t.birth q = s.birth q ∨
      ((s.ctl (s.active c)).pc = .allocpid q ∧ t.birth q = s.calls ∧ s.calls < t.calls)) := by
  have hmoves := hm.moves
  rw [hm.calls, hm.birth]
  generalize (s.ctl (s.active c)).pc = pc at hmoves
  generalize modeOf s (s.active c) = x at hmoves
  cases hmoves <;> try exact ⟨Nat.le_refl _, Or.inl rfl⟩
  case allocpid p i =>
    refine ⟨Nat.le_succ _, ?_⟩
    by_cases hi : q = i
    · subst hi
      exact Or.inr ⟨rfl, Function.update_self _ _ _, Nat.lt_succ_self _⟩
    · exact Or.inl (Function.update_of_ne hi _ _)

/-! ### The invariant -/

/-- The parent is `op`, unless `initproc` has taken over. -/
def ParentIs (initproc : Fin n) (s : St n m) (p op : Fin n) : Prop :=
  (s.proc p).parent = some op ∨ (s.proc p).parent = some initproc

/-- No children in the slots below `i`. -/
def NoneBelow (s : St n m) (p : Fin n) (i : ℕ) : Prop :=
  ∀ j : Fin n, j.val < i → (s.proc j).parent ≠ some p

/-- What a process knows about its parent and its children. -/
def KinAt (initproc : Fin n) (s : St n m) (p : Fin n) : Pc n → Prop
  | .trapframe i | .pagetable i | .uvmcopy i => s.birth p < s.birth i
  | .exitInit _ | .exitWoken _ | .exitSelf _ => p ≠ initproc
  | .exitRead _ op | .exitParent _ op | .exitOwn _ op => p ≠ initproc ∧ ParentIs initproc s p op
  | .reparent _ op i => p ≠ initproc ∧ ParentIs initproc s p op ∧ NoneBelow s p i
  | .reparentChild _ op i => p ≠ initproc ∧ ParentIs initproc s p op ∧ NoneBelow s p i ∧
      (s.proc i).parent = some p
  | .reparentNext _ op i => p ≠ initproc ∧ ParentIs initproc s p op ∧ NoneBelow s p (i + 1)
  | .waitChild _ i | .waitNext _ i | .waitZombie _ i => (s.proc i).parent = some p
  | _ => True

theorem kinAt_congr {pc : Pc n} (hproc : t.proc = s.proc) (hbirth : t.birth = s.birth)
    (hk : KinAt initproc s p pc) : KinAt initproc t p pc := by
  unfold KinAt ParentIs NoneBelow at *
  rw [hproc, hbirth]
  exact hk

theorem NoneBelow.succ {i : Fin n} (hn : NoneBelow s p i) (hi : (s.proc i).parent ≠ some p) :
    NoneBelow s p (i + 1) := by
  intro j hj
  obtain hlt | heq := Nat.lt_succ_iff_lt_or_eq.mp hj
  · exact hn j hlt
  · rwa [Fin.ext heq]

structure Family (initproc : Fin n) (s : St n m) : Prop where
  older : ∀ p q, (s.proc q).parent = some p → s.birth p < s.birth q
  live : ∀ p q, (s.proc q).parent = some p →
    (s.proc p).state ≠ .unused ∧ (s.proc p).state ≠ .zombie
  orphan : ∀ q, (s.proc q).state = .unused → (s.proc q).parent = none
  young : ∀ q, s.birth q < s.calls
  root : (s.proc initproc).state ≠ .unused ∧ (s.proc initproc).state ≠ .zombie ∧
    s.birth initproc = 0
  kin : ∀ p, (s.proc p).state ≠ .unused → KinAt initproc s p (base s p)

section Family

variable (h : Inv initproc s) (hfam : Family initproc s)

include h hfam in
theorem kin_of_mode (hx : modeOf s (s.active c) = .proc p) : KinAt initproc s p (s.ctl (s.active c)).pc := by
  rw [pc_of_mode hx]
  exact hfam.kin p (alive_of_on h (on_of_own (by rw [hx]; rfl)))

variable (hm : Moved initproc s c a mv t)

include h hm

theorem live_moved (hl : (s.proc p).state ≠ .unused ∧ (s.proc p).state ≠ .zombie)
    (hex : modeOf s (s.active c) = .proc p → ∀ st op i, (s.ctl (s.active c)).pc = .reparent st op i →
      i < n) : (t.proc p).state ≠ .unused ∧ (t.proc p).state ≠ .zombie := by
  have hchange := change_moved h hm p
  generalize (t.proc p).state = st at hchange
  cases hchange with
  | same => exact hl
  | freed hd => exact absurd hd (not_or.mpr hl)
  | exited hx st op i hpc hi => exact absurd (hex hx st op i hpc) (Nat.not_lt.mpr hi)
  | woken _ | born _ _ _ | yielded _ _ | slept _ _ | dispatched _ _ => exact ⟨nofun, nofun⟩

theorem no_child_moved (hp : p ≠ initproc) (hx : modeOf s (s.active c) ≠ .proc p)
    (hq : (s.proc q).parent ≠ some p) : (t.proc q).parent ≠ some p := by
  cases kinship_moved h hm q with
  | same hs _ => rwa [hs]
  | born p' hx' _ hs _ =>
    rw [hs]
    intro hc
    exact hx (Option.some.inj hc ▸ hx')
  | adopted _ _ _ _ _ hs _ =>
    rw [hs]
    intro hc
    exact hp (Option.some.inj hc).symm
  | freed _ hs | reaped _ _ _ _ hs => rw [hs]; exact nofun

theorem parentIs_moved {op : Fin n} (hu : (s.proc p).state ≠ .unused)
    (hu' : (t.proc p).state ≠ .unused) (hp : ParentIs initproc s p op) : ParentIs initproc t p op := by
  cases kinship_moved h hm p with
  | same hs _ =>
    unfold ParentIs
    rwa [hs]
  | born _ _ hpc _ _ =>
    have hf := h.found c
    rw [hpc] at hf
    exact absurd hf.1 hu
  | adopted _ _ _ _ _ hs _ => exact Or.inr hs
  | freed hd _ => exact absurd hd hu
  | reaped _ _ _ _ hs =>
    rw [hs] at hu'
    exact absurd rfl hu'

theorem birth_alive (hu : (s.proc p).state ≠ .unused) : t.birth p = s.birth p := by
  obtain ⟨-, hb | ⟨hpc, -, -⟩⟩ := birth_moved hm p
  · exact hb
  · have hf := h.found c
    rw [hpc] at hf
    exact absurd hf hu

theorem birth_locked (hne : d ≠ c) (hq : s.lock q = some d) : t.birth q = s.birth q := by
  obtain ⟨-, hb | ⟨hpc, -, -⟩⟩ := birth_moved hm q
  · exact hb
  · have hc : s.lock q = some c := by
      rw [h.locks, heldBy, hpc]
      exact List.mem_singleton.mpr rfl
    rw [hq] at hc
    exact absurd (Option.some.inj hc) hne

include hfam

theorem root_moved : (t.proc initproc).state ≠ .unused ∧ (t.proc initproc).state ≠ .zombie ∧
    t.birth initproc = 0 := by
  have hl := live_moved h hm ⟨hfam.root.1, hfam.root.2.1⟩ fun hx st op i hpc => by
    have hkin := kin_of_mode h hfam hx
    rw [hpc] at hkin
    exact absurd rfl hkin.1
  refine ⟨hl.1, hl.2, ?_⟩
  obtain ⟨-, hb | ⟨hpc, -, -⟩⟩ := birth_moved hm initproc
  · rw [hb]
    exact hfam.root.2.2
  · have hf := h.found c
    rw [hpc] at hf
    exact absurd hf hfam.root.1

theorem child_moved (hx : modeOf s (s.active c) ≠ .proc p) (hq : (s.proc q).parent = some p) :
    (t.proc q).parent = some p := by
  have hused : (s.proc q).state ≠ .unused := by
    intro hu
    rw [hfam.orphan q hu] at hq
    cases hq
  cases kinship_moved h hm q with
  | same hp _ => rw [hp, hq]
  | born p' _ hpc _ _ =>
    have hf := h.found c
    rw [hpc] at hf
    exact absurd hf.1 hused
  | freed hu _ => exact absurd hu hused
  | adopted p' hx' st op hpc _ _ =>
    have hkin := kin_of_mode h hfam hx'
    rw [hpc] at hkin
    obtain rfl := Option.some.inj (hkin.2.2.2.symm.trans hq)
    exact absurd hx' hx
  | reaped p' hx' addr hpc _ =>
    have hkin := kin_of_mode h hfam hx'
    rw [hpc] at hkin
    obtain rfl := Option.some.inj (Eq.trans (Eq.symm hkin) hq)
    exact absurd hx' hx

theorem kin_other (hx : modeOf s (s.active c) ≠ .proc p) (hu : (s.proc p).state ≠ .unused)
    (hu' : (t.proc p).state ≠ .unused) (hk : KinAt initproc s p (base s p)) : KinAt initproc t p (base s p) := by
  have hnone : ∀ {i}, p ≠ initproc → NoneBelow s p i → NoneBelow t p i :=
    fun hp hn j hj => no_child_moved h hm hp hx (hn j hj)
  have hbirth : ∀ {i}, (∀ k, base s p ≠ .resumed k) → i ∈ held initproc (some p) (base s p) →
      s.birth p < s.birth i → t.birth p < t.birth i := by
    intro i hne hi hlt
    obtain ⟨d, hd, hlock⟩ := on_of_base h hu hne hi
    have hdc : d ≠ c := by
      rintro rfl
      exact hx hd
    rw [birth_alive h hm hu, birth_locked h hm hdc hlock]
    exact hlt
  generalize base s p = pc at hk hbirth
  cases pc <;> try trivial
  case trapframe i | pagetable i | uvmcopy i => exact hbirth nofun (List.mem_singleton.mpr rfl) hk
  case exitRead st op | exitParent st op | exitOwn st op => exact ⟨hk.1, parentIs_moved h hm hu hu' hk.2⟩
  case reparent st op i | reparentNext st op i => exact ⟨hk.1, parentIs_moved h hm hu hu' hk.2.1, hnone hk.1 hk.2.2⟩
  case reparentChild st op i =>
    exact ⟨hk.1, parentIs_moved h hm hu hu' hk.2.1, hnone hk.1 hk.2.2.1,
      child_moved h hfam hm hx hk.2.2.2⟩
  case waitChild addr i | waitNext addr i | waitZombie addr i => exact child_moved h hfam hm hx hk

theorem kin_self (hx : modeOf s (s.active c) = .proc p)
    (hmv : Moves initproc s.proc (.proc p) (base s p) a mv) (hk : KinAt initproc s p (base s p)) :
    KinAt initproc t p mv.next := by
  refine kinAt_congr hm.proc hm.birth ?_
  have hf := h.found c
  rw [pc_of_mode hx] at hf
  generalize base s p = pc at hmv hk hf
  cases hmv <;> try trivial
  case allocpid i =>
    have hne : p ≠ i := by
      rintro rfl
      exact alive_of_on h (on_of_own (by rw [hx]; rfl)) hf
    change Function.update s.birth i s.calls p < Function.update s.birth i s.calls i
    rw [Function.update_self, Function.update_of_ne hne]
    exact hfam.young p
  case exitSelf st op hop => exact ⟨hk, Or.inl hop⟩
  case exitOwn st op => exact ⟨hk.1, hk.2, fun j hj => absurd hj (Nat.not_lt_zero _)⟩
  case reparentFound st op i hi => exact ⟨hk.1, hk.2.1, hk.2.2, hi⟩
  case reparentOther st op i hi => exact ⟨hk.1, hk.2.1, hk.2.2.succ hi⟩
  case reparentChild st op i =>
    obtain ⟨hp, hparent, hnone, -⟩ := hk
    have hself : (Function.update s.proc i { s.proc i with parent := some initproc } i).parent =
        some initproc := by rw [Function.update_self]
    have hother : ∀ {j}, j ≠ i →
        Function.update s.proc i { s.proc i with parent := some initproc } j = s.proc j :=
      fun hj => Function.update_of_ne hj _ _
    refine ⟨hp, ?_, ?_⟩
    · change _ = _ ∨ (Function.update s.proc i _ p).parent = _
      by_cases hpi : p = i
      · exact Or.inr (hpi ▸ hself)
      · change (Function.update s.proc i _ p).parent = _ ∨ _
        rw [hother hpi]
        exact hparent
    · intro j hj
      change (Function.update s.proc i _ j).parent ≠ _
      by_cases hji : j = i
      · rw [hji, hself]
        exact fun hc => hp (Option.some.inj hc).symm
      · rw [hother hji]
        have hlt : j.val < i.val :=
          lt_of_le_of_ne (Nat.lt_succ_iff.mp hj) fun hc => hji (Fin.ext hc)
        exact hnone j hlt

theorem older_moved (hq : (t.proc q).parent = some p) : t.birth p < t.birth q := by
  have hborn : ∀ {p q}, (s.proc q).parent = some p → t.birth p < t.birth q := by
    intro p q hq
    have hused : (s.proc q).state ≠ .unused := by
      intro hu
      rw [hfam.orphan q hu] at hq
      cases hq
    rw [birth_alive h hm (hfam.live p q hq).1, birth_alive h hm hused]
    exact hfam.older p q hq
  cases kinship_moved h hm q with
  | same hp _ => exact hborn (hp ▸ hq)
  | born p' hx hpc hp _ =>
    obtain rfl := Option.some.inj (hp.symm.trans hq)
    have hkin := kin_of_mode h hfam hx
    rw [hpc] at hkin
    rw [birth_alive h hm (alive_of_on h (on_of_own (by rw [hx]; rfl)))]
    obtain ⟨-, hb | ⟨hc, -, -⟩⟩ := birth_moved hm q
    · rw [hb]
      exact hkin
    · rw [hpc] at hc
      cases hc
  | adopted p' hx st op hpc hp _ =>
    obtain rfl := Option.some.inj (hp.symm.trans hq)
    have hkin := kin_of_mode h hfam hx
    rw [hpc] at hkin
    rw [(root_moved h hfam hm).2.2]
    exact Nat.zero_lt_of_lt (hborn hkin.2.2.2)
  | freed _ hc | reaped _ _ _ _ hc =>
    rw [hc] at hq
    cases hq

theorem parent_live_moved (hq : (t.proc q).parent = some p) :
    (t.proc p).state ≠ .unused ∧ (t.proc p).state ≠ .zombie := by
  cases kinship_moved h hm q with
  | same hp _ =>
    rw [hp] at hq
    refine live_moved h hm (hfam.live p q hq) fun hx st op i hpc => ?_
    have hkin := kin_of_mode h hfam hx
    rw [hpc] at hkin
    exact Nat.lt_of_not_le fun hi => hkin.2.2 q (Nat.lt_of_lt_of_le q.isLt hi) hq
  | born p' hx hpc hp _ =>
    obtain rfl := Option.some.inj (hp.symm.trans hq)
    have hon := on_of_own (by rw [hx]; rfl)
    have hst := (h.state_of_on hon).1
    rw [← active_proc.mpr hon, hpc] at hst
    refine live_moved h hm (by rw [hst]; exact ⟨nofun, nofun⟩) fun _ st op i hc => ?_
    rw [hpc] at hc
    cases hc
  | adopted p' hx st op hpc hp _ =>
    obtain rfl := Option.some.inj (hp.symm.trans hq)
    exact ⟨(root_moved h hfam hm).1, (root_moved h hfam hm).2.1⟩
  | freed _ hc | reaped _ _ _ _ hc =>
    rw [hc] at hq
    cases hq

theorem orphan_moved (hu : (t.proc q).state = .unused) : (t.proc q).parent = none := by
  cases kinship_moved h hm q with
  | same hp hs =>
    rw [hp]
    exact hfam.orphan q (hs hu)
  | born _ _ _ _ hs =>
    rw [hs] at hu
    cases hu
  | adopted p hx st op hpc _ hs =>
    have hkin := kin_of_mode h hfam hx
    rw [hpc] at hkin
    rw [hs] at hu
    have hchild := hkin.2.2.2
    rw [hfam.orphan q hu] at hchild
    cases hchild
  | freed _ hc | reaped _ _ _ _ hc => rw [hc]; rfl

omit h in
theorem young_moved (q : Fin n) : t.birth q < t.calls := by
  obtain ⟨hle, hb | ⟨-, hb, hlt⟩⟩ := birth_moved hm q
  · rw [hb]
    exact Nat.lt_of_lt_of_le (hfam.young q) hle
  · rwa [hb]

end Family

/-- **Step lemma.** -/
theorem family_step (h : Inv initproc s) (hfam : Family initproc s)
    (hs : St.step initproc s (c, a) = some t) : Family initproc t := by
  have hkin : ∀ p, (t.proc p).state ≠ .unused → KinAt initproc t p (base t p) := by
    intro p hu
    cases based_step h hs hu with
    | fresh hp => rw [hp]; trivial
    | self hu' mv hm hx hmv hp =>
      rw [hp]
      exact kin_self h hfam hm hx hmv (hfam.kin p hu')
    | other hu' mv hm hx hp =>
      rw [hp]
      exact kin_other h hfam hm hx hu' hu (hfam.kin p hu')
    | still hu' hsame hp =>
      refine kinAt_congr hsame.proc hsame.birth ?_
      obtain hp | ⟨k, -, hp⟩ := hp
      · rw [hp]
        exact hfam.kin p hu'
      · rw [hp]
        trivial
  obtain ⟨mv, hm⟩ | ⟨hsame, -⟩ := moved_or_same hs
  · exact ⟨fun p q => older_moved h hfam hm, fun p q => parent_live_moved h hfam hm,
      fun q => orphan_moved h hfam hm, young_moved hfam hm, root_moved h hfam hm, hkin⟩
  · refine ⟨?_, ?_, ?_, ?_, ?_, hkin⟩
    · rw [hsame.proc, hsame.birth]
      exact hfam.older
    · rw [hsame.proc]
      exact hfam.live
    · rw [hsame.proc]
      exact hfam.orphan
    · rw [hsame.birth, hsame.calls]
      exact hfam.young
    · rw [hsame.proc, hsame.birth]
      exact hfam.root

theorem family_boot (initproc : Fin n) : Family initproc (St.boot initproc : St n m) := by
  have hparent : ∀ q, ((St.boot initproc : St n m).proc q).parent = none := by
    intro q
    simp only [St.boot]
    split <;> rfl
  have hroot : ((St.boot initproc : St n m).proc initproc).state = .runnable := by
    simp only [St.boot, if_true]
  refine ⟨?_, ?_, fun q _ => hparent q, fun _ => Nat.zero_lt_one, ?_, fun _ _ => trivial⟩
  · intro p q hq
    rw [hparent] at hq
    cases hq
  · intro p q hq
    rw [hparent] at hq
    cases hq
  · rw [hroot]
    exact ⟨(fun h => by cases h), (fun h => by cases h), rfl⟩

/-- **Run lemma.** -/
theorem family_run (hrun : Reachable (St.step initproc) (St.boot initproc) s) : Family initproc s := by
  have hstep : ∀ (s : St n m) x t, Inv initproc s ∧ Family initproc s →
      St.step initproc s x = some t → Inv initproc t ∧ Family initproc t := by
    intro s x t hi hs
    exact ⟨inv_step (c := x.1) (a := x.2) hi.1 hs, family_step (c := x.1) (a := x.2) hi.1 hi.2 hs⟩
  exact (reachable_invariant hstep ⟨inv_boot initproc, family_boot initproc⟩ hrun).2

/-- The invariant rule for what rests on `Inv` and `Family`. -/
theorem exec_rule {P : St n m → Prop} {ok : St n m → Fin m × Act n → Prop} (hboot : P (St.boot initproc))
    (hstep : ∀ s c a t, Inv initproc s → Family initproc s → P s → ok s (c, a) →
      St.step initproc s (c, a) = some t → P t)
    {ls : List (Fin m × Act n)} (hok : Meets (St.step initproc) ok (St.boot initproc) ls)
    (hrun : exec (St.step initproc) (St.boot initproc) ls = some s) : P s := by
  refine exec_history (P := fun _ s => P s) hboot ?_ hok hrun
  intro ks s x t hks hp hx hs
  have hreach : Reachable (St.step initproc) (St.boot initproc) s := ⟨ks, hks⟩
  exact hstep s x.1 x.2 t (inv_run hreach) (family_run hreach) hp hx hs

theorem run_rule {P : St n m → Prop} (hboot : P (St.boot initproc))
    (hstep : ∀ s c a t, Inv initproc s → Family initproc s → P s → St.step initproc s (c, a) = some t → P t)
    (hrun : Reachable (St.step initproc) (St.boot initproc) s) : P s := by
  obtain ⟨ls, hls⟩ := hrun
  have hall : Meets (St.step initproc) (fun _ _ => True) (St.boot initproc : St n m) ls :=
    meets_of_forall (fun _ _ => trivial) ls _
  exact exec_rule hboot (fun s c a t h hfam hp _ hs => hstep s c a t h hfam hp hs) hall hls

end Xv6.ProcFamily
