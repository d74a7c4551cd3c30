import Xv6.LabelledRuns

/-!
# Interrupts and spinlocks across context switches (`kernel/spinlock.c`, `kernel/proc.c`)

`c` CPUs run `n` process threads and one scheduler each.  `noff` and `intena` are fields of the CPU; which locks
the code holds is known only to the code (`Code`).

* `localStep` is one step of `acquire`, `release`, `push_off`, `pop_off`, `intr_on` or `intr_off`.  The last two
  are only called outside of critical sections; a trap and its return are steps of this kind too.
* `St.out` is `p->state = …; sched();` as in `yield`, `sleep` and `exit`, and `St.run` the `swtch` of
  `scheduler` to a process: the process goes on in `sched`, which restores `intena`, or begins in `forkret`.
* `p->lock` is passed from the scheduler to the process and back.

`Code.entry` records the interrupt flag at the time the code entered its outermost critical section.  The code
does not read it.  `forkret` begins inside of a section that it did not enter.
-/

namespace Xv6.IntrNesting

open LabelledRuns
open Function (update_self update_of_ne)

inductive Lk (n : ℕ) (α : Type) where
  /-- `p->lock`. -/
  | proc (p : Fin n)
  | other (x : α)
deriving DecidableEq

inductive Panic where
  | popOffInterruptible
  | popOff
  | acquire
  | release
  | schedLock
  | schedLocks
  | schedInterruptible
deriving DecidableEq

/-! ### One CPU -/

structure Cpu where
  noff : ℕ
  intena : Bool
  /-- `intr_get()`. -/
  intr : Bool
deriving DecidableEq

def Cpu.pushOff (u : Cpu) : Cpu where
  intr := false
  intena := if u.noff = 0 then u.intr else u.intena
  noff := u.noff + 1

def Cpu.popOff (u : Cpu) : Except Panic Cpu :=
  if u.intr then .error .popOffInterruptible
  else if u.noff < 1 then .error .popOff
  else .ok { u with noff := u.noff - 1, intr := if u.noff - 1 = 0 ∧ u.intena then true else u.intr }

inductive Phase (n : ℕ) (α : Type) where
  | ready
  /-- In `acquire`, after `push_off`. -/
  | acquiring (x : Lk n α)
  /-- In `release`, before `pop_off`. -/
  | releasing
deriving DecidableEq

def Phase.count {n : ℕ} {α : Type} : Phase n α → ℕ
  | .ready => 0
  | _ => 1

/-- What is known to a process thread or to a scheduler: the locks it holds, its own calls of `push_off` that are
not matched yet. -/
structure Code (n : ℕ) (α : Type) where
  held : List (Lk n α)
  pushes : ℕ
  phase : Phase n α
  entry : Option Bool
deriving DecidableEq

variable {n c : ℕ} {α : Type} [DecidableEq α]

/-- The spinlocks and the unmatched calls of `push_off`. -/
def Code.count (x : Code n α) : ℕ := x.held.length + x.pushes + x.phase.count

/-- `push_off`, with what the record keeps. -/
def Code.enter (x : Code n α) (u : Cpu) : Code n α :=
  { x with entry := if x.count = 0 then some u.intr else x.entry }

inductive Op (n : ℕ) (α : Type) where
  | intr (b : Bool)
  | pushOff
  | popOff
  | acquire (x : Lk n α)
  /-- A turn of the loop in `acquire`. -/
  | spin
  | release (x : Lk n α)
  /-- The `pop_off` in `release`. -/
  | unlocked

/-- The locks: `lk->cpu` of one that is locked. -/
abbrev Locks (c n : ℕ) (α : Type) := Lk n α → Option (Fin c)

/-- One step of the code on CPU `k`; `none` if it is not at this place or has to wait. -/
def localStep (k : Fin c) (u : Cpu) (x : Code n α) (lock : Locks c n α) :
    Op n α → Option (Except Panic (Cpu × Code n α × Locks c n α))
  | .intr b => if x.count = 0 then some (.ok ({ u with intr := b }, x, lock)) else none
  | .pushOff =>
    if x.phase = .ready then some (.ok (u.pushOff, { x.enter u with pushes := x.pushes + 1 }, lock))
    else none
  | .popOff =>
    if x.phase = .ready ∧ 0 < x.pushes then
      some (u.popOff.map fun u' => (u', { x with pushes := x.pushes - 1 }, lock))
    else none
  | .acquire y =>
    if x.phase = .ready then some (.ok (u.pushOff, { x.enter u with phase := .acquiring y }, lock))
    else none
  | .spin =>
    match x.phase with
    | .acquiring y =>
      if lock y = some k then some (.error .acquire)
      else if lock y = none then
        some (.ok (u, { x with held := y :: x.held, phase := .ready }, Function.update lock y (some k)))
      else none
    | _ => none
  | .release y =>
    if x.phase = .ready then
      if lock y = some k then
        some (.ok (u, { x with held := x.held.erase y, phase := .releasing }, Function.update lock y none))
      else some (.error .release)
    else none
  | .unlocked =>
    if x.phase = .releasing then some (u.popOff.map fun u' => (u', { x with phase := .ready }, lock))
    else none

/-! ### The machine -/

inductive PState where
  | unused
  | sleeping
  | runnable
  | running
  | zombie
deriving DecidableEq

inductive Who (c n : ℕ) where
  | sched (k : Fin c)
  | proc (p : Fin n)
deriving DecidableEq

structure St (c n : ℕ) (α : Type) where
  cpu : Fin c → Cpu
  /-- `c->proc`. -/
  running : Fin c → Option (Fin n)
  code : Who c n → Code n α
  /-- The variable `intena` of `sched`; `none` before `forkret`. -/
  saved : Fin n → Option Bool
  state : Fin n → PState
  lock : Locks c n α
  panic : Option Panic

/-- Who runs on CPU `k`. -/
def St.who (s : St c n α) (k : Fin c) : Who c n :=
  match s.running k with
  | none => .sched k
  | some p => .proc p

def St.here (s : St c n α) (k : Fin c) : Code n α := s.code (s.who k)

/-- `p->state = st; sched();` up to `swtch`. -/
def St.out (s : St c n α) (k : Fin c) (p : Fin n) (st : PState) : St c n α :=
  if s.lock (.proc p) ≠ some k then { s with panic := some .schedLock }
  else if (s.cpu k).noff ≠ 1 then { s with panic := some .schedLocks }
  else if (s.cpu k).intr then { s with panic := some .schedInterruptible }
  else
    { s with
      state := Function.update s.state p st
      saved := Function.update s.saved p (some (s.cpu k).intena)
      running := Function.update s.running k none }

/-- `p->state = RUNNING; c->proc = p; swtch(…);` and what follows `swtch` in `sched`. -/
def St.run (s : St c n α) (k : Fin c) (p : Fin n) : St c n α :=
  { s with
    state := Function.update s.state p .running
    running := Function.update s.running k (some p)
    cpu := Function.update s.cpu k
      { s.cpu k with intena := (s.saved p).getD (s.cpu k).intena } }

/-- The record of a process that begins in `forkret`, with `p->lock` held. -/
def Code.forkret (p : Fin n) : Code n α := ⟨[.proc p], 0, .ready, none⟩

inductive Act (n : ℕ) (α : Type) where
  | op (o : Op n α)
  | out (st : PState)
  | run (p : Fin n)
  /-- `wakeup` and `kill`: SLEEPING to RUNNABLE. -/
  | wake (q : Fin n)
  /-- `allocproc` and what makes the process RUNNABLE. -/
  | create (q : Fin n)
  /-- `freeproc`. -/
  | reap (q : Fin n)

/-- The code on CPU `k` changes the state of another process, under its lock. -/
def St.setState (s : St c n α) (k : Fin c) (q : Fin n) (old new : PState) : Option (St c n α) :=
  if (s.here k).phase = .ready ∧ .proc q ∈ (s.here k).held ∧ s.state q = old then
    some { s with state := Function.update s.state q new }
  else none

def St.step (s : St c n α) (l : Fin c × Act n α) : Option (St c n α) :=
  if s.panic.isSome then none
  else
    match l.2 with
    | .op o =>
      (localStep l.1 (s.cpu l.1) (s.here l.1) s.lock o).map fun r =>
        match r with
        | .error e => { s with panic := some e }
        | .ok (u, x, lock) =>
          { s with
            cpu := Function.update s.cpu l.1 u
            code := Function.update s.code (s.who l.1) x
            lock := lock }
    | .out st =>
      match s.running l.1 with
      | none => none
      | some p =>
        if (s.here l.1).phase = .ready ∧ st ≠ .running ∧ st ≠ .unused then some (s.out l.1 p st) else none
    | .run p =>
      -- `scheduler` has just acquired `p->lock`
      if s.running l.1 = none ∧ (s.here l.1).held = [.proc p] ∧ (s.here l.1).pushes = 0 ∧
          (s.here l.1).phase = .ready ∧ s.state p = .runnable then some (s.run l.1 p)
      else none
    | .wake q => s.setState l.1 q .sleeping .runnable
    | .create q =>
      (s.setState l.1 q .unused .runnable).map fun t =>
        { t with
          code := Function.update t.code (.proc q) (Code.forkret q)
          saved := Function.update t.saved q none }
    | .reap q => s.setState l.1 q .zombie .unused

/-- Every CPU is in its scheduler, outside of critical sections. -/
def St.start (intr : Fin c → Bool) : St c n α where
  cpu := fun k => ⟨0, false, intr k⟩
  running := fun _ => none
  code := fun _ => ⟨[], 0, .ready, none⟩
  saved := fun _ => none
  state := fun _ => .unused
  lock := fun _ => none
  panic := none

/-! ### One step on one CPU -/

/-- The CPU and the locks agree with the code that runs there. -/
structure Fit (k : Fin c) (u : Cpu) (x : Code n α) (lock : Locks c n α) : Prop where
  noff : u.noff = x.count
  off : 0 < u.noff → u.intr = false
  nodup : x.held.Nodup
  lock : ∀ y, lock y = some k ↔ y ∈ x.held

/-- `intena` is the flag with which the code entered its critical section. -/
def Kept (u : Cpu) (x : Code n α) : Prop := 0 < x.count → ∀ b, x.entry = some b → u.intena = b

structure Stepped (k : Fin c) (u u' : Cpu) (x x' : Code n α) (lock lock' : Locks c n α) : Prop where
  fit : Fit k u' x' lock'
  kept : Kept u x → Kept u' x'
  others : ∀ y k', k' ≠ k → (lock' y = some k' ↔ lock y = some k')
  enters : x.count = 0 → 0 < x'.count → x'.entry = some u.intr
  same : 0 < x.count → x'.entry = x.entry
  leaves : Kept u x → 0 < x.count → x'.count = 0 → ∀ b, x.entry = some b → u'.intr = b

variable {k : Fin c} {u u' : Cpu} {x x' : Code n α} {lock lock' : Locks c n α}

omit [DecidableEq α] in
theorem stepped_pushOff (h : Fit k u x lock) (hcount : x'.count = x.count + 1) (hheld : x'.held = x.held)
    (hentry : x'.entry = (x.enter u).entry) : Stepped k u u.pushOff x x' lock lock where
  fit := by
    refine ⟨?_, fun _ => rfl, by rw [hheld]; exact h.nodup, fun y => by rw [hheld]; exact h.lock y⟩
    show u.noff + 1 = x'.count
    rw [hcount, h.noff]
  kept := by
    intro hk _ b hb
    show (if u.noff = 0 then u.intr else u.intena) = b
    rw [hentry, Code.enter] at hb
    by_cases hz : x.count = 0
    · have hb' : some u.intr = some b := by
        rw [← hb]
        exact (if_pos hz).symm
      rw [if_pos (h.noff.trans hz)]
      exact Option.some.inj hb'
    · have hb' : x.entry = some b := by
        rw [← hb]
        exact (if_neg hz).symm
      rw [if_neg (fun e => hz (h.noff.symm.trans e))]
      exact hk (Nat.pos_of_ne_zero hz) b hb'
  others := fun _ _ _ => Iff.rfl
  enters := by
    intro hz _
    rw [hentry]
    exact if_pos hz
  same := by
    intro hz
    rw [hentry]
    exact if_neg (Nat.ne_of_gt hz)
  leaves := by
    intro _ _ hz
    rw [hcount] at hz
    exact absurd hz (Nat.succ_ne_zero _)

omit [DecidableEq α] in
theorem stepped_popOff (h : Fit k u x lock) (hpop : u.popOff = .ok u') (hcount : x.count = x'.count + 1)
    (hheld : x'.held = x.held) (hentry : x'.entry = x.entry) : Stepped k u u' x x' lock lock := by
  have hnoff : u.noff = x'.count + 1 := h.noff.trans hcount
  have hintr : u.intr = false := h.off (by omega)
  rw [Cpu.popOff, if_neg (by rw [hintr]; exact Bool.false_ne_true), if_neg (by omega)] at hpop
  cases hpop
  have hleft : u.noff - 1 = x'.count := by omega
  refine ⟨⟨hleft, ?_, by rw [hheld]; exact h.nodup, fun y => by rw [hheld]; exact h.lock y⟩, ?_,
    fun _ _ _ => Iff.rfl, ?_, fun _ => hentry, ?_⟩
  · intro hpos
    show (if u.noff - 1 = 0 ∧ u.intena then true else u.intr) = false
    have hpos' : 0 < u.noff - 1 := hpos
    rw [if_neg (fun e => by omega)]
    exact hintr
  · intro hk _ b hb
    rw [hentry] at hb
    exact hk (by omega) b hb
  · intro hz
    omega
  · intro hk hpos hz b hb
    have hb' := hk hpos b hb
    show (if u.noff - 1 = 0 ∧ u.intena then true else u.intr) = b
    rw [hleft, hz, hb', hintr]
    cases b with
    | true | false => rfl

/-- One lock changes hands between CPU `k` and nobody, by code that goes on counting it. -/
theorem stepped_relock {y : Lk n α} {v : Option (Fin c)} (h : Fit k u x lock) (hcount : x'.count = x.count)
    (hpos : 0 < x.count) (hentry : x'.entry = x.entry) (hnodup : x'.held.Nodup)
    (hown : v = some k ↔ y ∈ x'.held) (hheld : ∀ z, z ≠ y → (z ∈ x'.held ↔ z ∈ x.held))
    (hothers : ∀ k', k' ≠ k → (v = some k' ↔ lock y = some k')) :
    Stepped k u u x x' lock (Function.update lock y v) := by
  refine ⟨⟨by rw [hcount]; exact h.noff, h.off, hnodup, fun z => ?_⟩, ?_, ?_, ?_, fun _ => hentry, ?_⟩
  · by_cases hz : z = y
    · rw [hz, update_self]
      exact hown
    · rw [update_of_ne hz, h.lock z, hheld z hz]
  · intro hk _ b hb
    rw [hentry] at hb
    exact hk hpos b hb
  · intro z k' hk'
    by_cases hz : z = y
    · rw [hz, update_self]
      exact hothers k' hk'
    · rw [update_of_ne hz]
  · intro hz
    omega
  · intro _ _ hz
    omega

theorem stepped_take {y : Lk n α} (h : Fit k u x lock) (hphase : x.phase = .acquiring y) (hfree : lock y = none) :
    Stepped k u u x { x with held := y :: x.held, phase := .ready } lock (Function.update lock y (some k)) := by
  have hnot : y ∉ x.held := by
    rw [← h.lock y, hfree]
    exact fun e => by cases e
  have hcount : x.count = x.held.length + x.pushes + 1 := by
    rw [Code.count, hphase]
    rfl
  refine stepped_relock h ?_ (by omega) rfl (List.nodup_cons.mpr ⟨hnot, h.nodup⟩)
    ⟨fun _ => List.mem_cons_self, fun _ => rfl⟩ (fun z hz => ?_) fun k' hk' => ?_
  · rw [hcount]
    show x.held.length + 1 + x.pushes + 0 = _
    omega
  · exact ⟨fun hm => (List.mem_cons.mp hm).resolve_left hz, fun hm => List.mem_cons_of_mem y hm⟩
  · rw [hfree]
    exact ⟨fun e => absurd (Option.some.inj e).symm hk', fun e => by cases e⟩

theorem stepped_release {y : Lk n α} (h : Fit k u x lock) (hphase : x.phase = .ready)
    (hlock : lock y = some k) :
    Stepped k u u x { x with held := x.held.erase y, phase := .releasing } lock
      (Function.update lock y none) := by
  have hmem : y ∈ x.held := (h.lock y).mp hlock
  have hlen := List.length_pos_of_mem hmem
  have hcount : x.count = x.held.length + x.pushes := by
    rw [Code.count, hphase]
    rfl
  refine stepped_relock h ?_ (by omega) rfl (h.nodup.erase y)
    ⟨(fun e => by cases e), fun hm => absurd hm h.nodup.not_mem_erase⟩ (fun z hz => List.mem_erase_of_ne hz) fun k' hk' => ?_
  · rw [hcount, Code.count, List.length_erase_of_mem hmem]
    show x.held.length - 1 + x.pushes + 1 = _
    omega
  · rw [hlock]
    exact ⟨(fun e => by cases e), fun e => absurd (Option.some.inj e).symm hk'⟩

theorem ok_of_map {ε β γ : Type} {r : Except ε β} {f : β → γ} {z : γ} (h : r.map f = .ok z) :
    ∃ v, r = .ok v ∧ f v = z := by
  cases r with
  | error e => cases h
  | ok v => exact ⟨v, rfl, Except.ok.inj h⟩

/-- **Every step on one CPU.** -/
theorem stepped_local {o : Op n α} (h : Fit k u x lock)
    (hs : localStep k u x lock o = some (.ok (u', x', lock'))) : Stepped k u u' x x' lock lock' := by
  have hready : x.phase = .ready → x.count = x.held.length + x.pushes := by
    intro hp
    rw [Code.count, hp]
    rfl
  cases o with
  | intr b =>
    obtain ⟨hz, he⟩ := some_of_guard hs
    cases he
    refine ⟨⟨h.noff, fun hpos => ?_, h.nodup, h.lock⟩, fun hk => hk, fun _ _ _ => Iff.rfl, ?_, fun _ => rfl, ?_⟩
    · have hpos' : 0 < u.noff := hpos
      rw [h.noff] at hpos'
      omega
    · intro _ hpos
      omega
    · intro _ hpos
      omega
  | pushOff =>
    obtain ⟨-, he⟩ := some_of_guard hs
    cases he
    refine stepped_pushOff h ?_ rfl rfl
    show x.held.length + (x.pushes + 1) + x.phase.count = x.held.length + x.pushes + x.phase.count + 1
    omega
  | popOff =>
    obtain ⟨hgo, he⟩ := some_of_guard hs
    obtain ⟨v, hpop, hv⟩ := ok_of_map he.symm
    cases hv
    refine stepped_popOff h hpop ?_ rfl rfl
    have := hgo.2
    show x.held.length + x.pushes + x.phase.count = x.held.length + (x.pushes - 1) + x.phase.count + 1
    omega
  | acquire y =>
    obtain ⟨hp, he⟩ := some_of_guard hs
    cases he
    refine stepped_pushOff h ?_ rfl rfl
    rw [hready hp]
    rfl
  | spin =>
    simp only [localStep] at hs
    split at hs
    · split at hs
      · cases hs
      · obtain ⟨hfree, he⟩ := some_of_guard hs
        cases he
        exact stepped_take h ‹_› hfree
    · cases hs
  | release y =>
    simp only [localStep] at hs
    split at hs
    · split at hs
      · cases hs
        exact stepped_release h ‹_› ‹_›
      · cases hs
    · cases hs
  | unlocked =>
    obtain ⟨hp, he⟩ := some_of_guard hs
    obtain ⟨v, hpop, hv⟩ := ok_of_map he.symm
    cases hv
    refine stepped_popOff h hpop ?_ rfl rfl
    show x.held.length + x.pushes + x.phase.count = x.held.length + x.pushes + 0 + 1
    rw [hp]
    rfl

/-! ### The invariant -/

/-- A process that is not running: it is in `sched`, or before `forkret`, and will go on with `p->lock` held. -/
structure Away (s : St c n α) (p : Fin n) : Prop where
  held : (s.code (.proc p)).held = [.proc p]
  pushes : (s.code (.proc p)).pushes = 0
  phase : (s.code (.proc p)).phase = .ready
  saved : ∀ b, (s.code (.proc p)).entry = some b → s.saved p = some b

structure Inv (s : St c n α) : Prop where
  fit : ∀ k, Fit k (s.cpu k) (s.here k) s.lock
  kept : ∀ k p, s.running k = some p → Kept (s.cpu k) (s.here k)
  runs : ∀ k p, s.running k = some p → s.state p = .running
  once : ∀ k k' p, s.running k = some p → s.running k' = some p → k' = k
  away : ∀ p, s.state p = .runnable ∨ s.state p = .sleeping → Away s p
  sched : ∀ k p, s.running k = some p → (s.code (.sched k)).held = [.proc p] ∧
    (s.code (.sched k)).pushes = 0 ∧ (s.code (.sched k)).phase = .ready

variable {s t : St c n α}

omit [DecidableEq α] in
theorem here_none (h : s.running k = none) : s.here k = s.code (.sched k) := by
  rw [St.here, St.who, h]

omit [DecidableEq α] in
theorem here_some {p : Fin n} (h : s.running k = some p) : s.here k = s.code (.proc p) := by
  rw [St.here, St.who, h]

omit [DecidableEq α] in
theorem count_one {x : Code n α} {y : Lk n α} (hheld : x.held = [y]) (hpushes : x.pushes = 0)
    (hphase : x.phase = .ready) : x.count = 1 := by
  rw [Code.count, hheld, hpushes, hphase]
  rfl

omit [DecidableEq α] in
theorem who_eq_proc {p : Fin n} : s.who k = .proc p ↔ s.running k = some p := by
  unfold St.who
  cases s.running k with
  | none => exact ⟨(fun e => by cases e), fun e => by cases e⟩
  | some q => exact ⟨fun e => congrArg some (Who.proc.inj e), fun e => congrArg Who.proc (Option.some.inj e)⟩

omit [DecidableEq α] in
theorem who_eq_sched {j : Fin c} : s.who k = .sched j ↔ k = j ∧ s.running k = none := by
  unfold St.who
  cases s.running k with
  | none => exact ⟨fun e => ⟨Who.sched.inj e, rfl⟩, fun e => congrArg Who.sched e.1⟩
  | some q => exact ⟨(fun e => by cases e), fun e => by cases e.2⟩

omit [DecidableEq α] in
theorem Inv.who_ne (h : Inv s) {k k' : Fin c} (hk : k' ≠ k) : s.who k' ≠ s.who k := by
  intro heq
  cases hw : s.who k with
  | sched j => exact hk ((who_eq_sched.mp (heq.trans hw)).1.trans (who_eq_sched.mp hw).1.symm)
  | proc p => exact hk (h.once k k' p (who_eq_proc.mp hw) (who_eq_proc.mp (heq.trans hw)))

omit [DecidableEq α] in
theorem Inv.not_running (h : Inv s) {p : Fin n} (hp : s.state p ≠ .running) (k : Fin c) : s.running k ≠ some p :=
  fun hk => hp (h.runs k p hk)

theorem ne_running {st : PState} (h : st = .runnable ∨ st = .sleeping) : st ≠ .running := by
  rintro rfl
  rcases h with e | e
  · cases e
  · cases e

omit [DecidableEq α] in
theorem Away.congr {p : Fin n} (h : Away s p) (hcode : t.code (.proc p) = s.code (.proc p))
    (hsaved : t.saved p = s.saved p) : Away t p :=
  ⟨by rw [hcode]; exact h.held, by rw [hcode]; exact h.pushes, by rw [hcode]; exact h.phase,
    by rw [hcode, hsaved]; exact h.saved⟩

omit [DecidableEq α] in
theorem inv_op (h : Inv s) (k : Fin c) {u : Cpu} {x : Code n α} {lock : Locks c n α}
    (hs : Stepped k (s.cpu k) u (s.here k) x s.lock lock) (ht : t = { s with
      cpu := Function.update s.cpu k u
      code := Function.update s.code (s.who k) x
      lock := lock }) : Inv t := by
  have hwho : ∀ j, t.who j = s.who j := by
    intro j
    rw [ht]
    rfl
  have hcode : ∀ w, w ≠ s.who k → t.code w = s.code w := by
    intro w hw
    rw [ht]
    exact update_of_ne hw _ _
  have hhere : t.here k = x := by
    rw [St.here, hwho, ht]
    exact update_self _ _ _
  have hhere' : ∀ j, j ≠ k → t.here j = s.here j := by
    intro j hj
    rw [St.here, hwho, hcode _ (h.who_ne hj)]
    rfl
  have hcpu : t.cpu k = u := by
    rw [ht]
    exact update_self _ _ _
  have hcpu' : ∀ j, j ≠ k → t.cpu j = s.cpu j := by
    intro j hj
    rw [ht]
    exact update_of_ne hj _ _
  have hlock : t.lock = lock := by rw [ht]
  have hrunning : t.running = s.running := by rw [ht]
  have hstate : t.state = s.state := by rw [ht]
  refine ⟨fun j => ?_, fun j p hp => ?_, ?_, ?_, fun p hp => ?_, fun j p hp => ?_⟩
  · by_cases hj : j = k
    · rw [hj, hcpu, hhere, hlock]
      exact hs.fit
    · rw [hcpu' j hj, hhere' j hj, hlock]
      have hfit := h.fit j
      exact ⟨hfit.noff, hfit.off, hfit.nodup, fun y => (hs.others y j hj).trans (hfit.lock y)⟩
  · rw [hrunning] at hp
    by_cases hj : j = k
    · rw [hj, hcpu, hhere]
      exact hs.kept (h.kept k p (hj ▸ hp))
    · rw [hcpu' j hj, hhere' j hj]
      exact h.kept j p hp
  · rw [hrunning, hstate]
    exact h.runs
  · rw [hrunning]
    exact h.once
  · rw [hstate] at hp
    have hne : s.who k ≠ .proc p := fun e => h.not_running (ne_running hp) k (who_eq_proc.mp e)
    exact (h.away p hp).congr (hcode _ hne.symm) (by rw [ht])
  · rw [hrunning] at hp
    have hne : s.who k ≠ .sched j := by
      intro e
      obtain ⟨rfl, hnone⟩ := who_eq_sched.mp e
      rw [hp] at hnone
      cases hnone
    rw [hcode _ hne.symm]
    exact h.sched j p hp

omit [DecidableEq α] in
theorem inv_state (h : Inv s) {q : Fin n} {st : PState} (hq : s.state q ≠ .running)
    (haway : st = .runnable ∨ st = .sleeping → Away s q) :
    Inv { s with state := Function.update s.state q st } := by
  refine ⟨h.fit, h.kept, fun k p hp => ?_, h.once, fun p hp => ?_, h.sched⟩
  · have hne : p ≠ q := fun e => h.not_running hq k (e ▸ hp)
    show Function.update s.state q st p = .running
    rw [update_of_ne hne]
    exact h.runs k p hp
  · have hp' : Function.update s.state q st p = .runnable ∨ Function.update s.state q st p = .sleeping := hp
    by_cases hpq : p = q
    · rw [hpq, update_self] at hp'
      rw [hpq]
      exact (haway hp').congr rfl rfl
    · rw [update_of_ne hpq] at hp'
      exact (h.away p hp').congr rfl rfl

omit [DecidableEq α] in
theorem only_lock {x : Code n α} {y : Lk n α} (hmem : y ∈ x.held) (hcount : x.count = 1) :
    x.held = [y] ∧ x.pushes = 0 := by
  have hlen := List.length_pos_of_mem hmem
  rw [Code.count] at hcount
  have hone : x.held.length = 1 := by omega
  obtain ⟨z, hz⟩ := List.length_eq_one_iff.mp hone
  rw [hz, List.mem_singleton] at hmem
  exact ⟨by rw [hz, hmem], by omega⟩

omit [DecidableEq α] in
/-- **The process switches to the scheduler.**  The scheduler goes on with `p->lock`. -/
theorem inv_out (h : Inv s) {p : Fin n} {st : PState} (hp : s.running k = some p)
    (hphase : (s.here k).phase = .ready) (hlock : s.lock (.proc p) = some k) (hnoff : (s.cpu k).noff = 1)
    (ht : t = { s with
      state := Function.update s.state p st
      saved := Function.update s.saved p (some (s.cpu k).intena)
      running := Function.update s.running k none }) : Inv t := by
  have hfit := h.fit k
  have hcount : (s.here k).count = 1 := hfit.noff.symm.trans hnoff
  obtain ⟨hheld, hpushes⟩ := only_lock ((hfit.lock _).mp hlock) hcount
  obtain ⟨hsheld, hspushes, hsphase⟩ := h.sched k p hp
  have hcode : t.code = s.code := by rw [ht]
  have hcpu : t.cpu = s.cpu := by rw [ht]
  have hlock' : t.lock = s.lock := by rw [ht]
  have hrun : t.running k = none := by
    rw [ht]
    exact update_self _ _ _
  have hrun' : ∀ j, j ≠ k → t.running j = s.running j := by
    intro j hj
    rw [ht]
    exact update_of_ne hj _ _
  have hhere' : ∀ j, j ≠ k → t.here j = s.here j := by
    intro j hj
    rw [St.here, St.who, hrun' j hj, hcode]
    rfl
  have hstill : ∀ {j q}, t.running j = some q → j ≠ k ∧ q ≠ p ∧ s.running j = some q := by
    intro j q hq
    have hjk : j ≠ k := by
      rintro rfl
      rw [hrun] at hq
      cases hq
    rw [hrun' j hjk] at hq
    exact ⟨hjk, fun e => hjk (h.once k j q (e ▸ hp) hq), hq⟩
  have hstate : ∀ q, q ≠ p → t.state q = s.state q ∧ t.saved q = s.saved q := by
    intro q hqp
    rw [ht]
    exact ⟨update_of_ne hqp _ _, update_of_ne hqp _ _⟩
  refine ⟨fun j => ?_, fun j q hq => ?_, fun j q hq => ?_, fun j j' q hq hq' => ?_, fun q hq => ?_,
    fun j q hq => ?_⟩
  · by_cases hj : j = k
    · rw [hj, here_none hrun, hcode, hcpu, hlock']
      refine ⟨?_, hfit.off, by rw [hsheld]; exact List.nodup_singleton _, fun y => ?_⟩
      · rw [hnoff, count_one hsheld hspushes hsphase]
      · rw [hfit.lock y, hheld, hsheld]
    · rw [hhere' j hj, hcpu, hlock']
      exact h.fit j
  · obtain ⟨hjk, -, hq⟩ := hstill hq
    rw [hhere' j hjk, hcpu]
    exact h.kept j q hq
  · obtain ⟨-, hqp, hq⟩ := hstill hq
    rw [(hstate q hqp).1]
    exact h.runs j q hq
  · exact h.once j j' q (hstill hq).2.2 (hstill hq').2.2
  · by_cases hqp : q = p
    · have hself : s.here k = s.code (.proc p) := here_some hp
      rw [hself] at hheld hpushes hphase
      rw [hqp]
      refine ⟨by rw [hcode]; exact hheld, by rw [hcode]; exact hpushes, by rw [hcode]; exact hphase, ?_⟩
      intro b hb
      rw [hcode, ← hself] at hb
      have hkept := h.kept k p hp (by omega) b hb
      rw [ht]
      show Function.update s.saved p (some (s.cpu k).intena) p = some b
      rw [update_self, hkept]
    · rw [(hstate q hqp).1] at hq
      exact (h.away q hq).congr (by rw [hcode]) (hstate q hqp).2
  · rw [hcode]
    exact h.sched j q (hstill hq).2.2

omit [DecidableEq α] in
/-- **The scheduler switches to a process.**  The process goes on with `p->lock` and its own `intena`. -/
theorem inv_run (h : Inv s) {p : Fin n} (hrun : s.running k = none) (hheld : (s.here k).held = [.proc p])
    (hpushes : (s.here k).pushes = 0) (hphase : (s.here k).phase = .ready) (hstate : s.state p = .runnable) :
    Inv (s.run k p) ∧ ((s.run k p).cpu k).noff = 1 := by
  have hfit := h.fit k
  have ha := h.away p (.inl hstate)
  have hnoff : (s.cpu k).noff = 1 := hfit.noff.trans (count_one hheld hpushes hphase)
  have hcpu : (s.run k p).cpu k = { s.cpu k with intena := (s.saved p).getD (s.cpu k).intena } :=
    update_self _ _ _
  have hcpu' : ∀ j, j ≠ k → (s.run k p).cpu j = s.cpu j := fun j hj => update_of_ne hj _ _
  have hrun₁ : (s.run k p).running k = some p := update_self _ _ _
  have hrun₂ : ∀ j, j ≠ k → (s.run k p).running j = s.running j := fun j hj => update_of_ne hj _ _
  have hhere : (s.run k p).here k = s.code (.proc p) := here_some hrun₁
  have hhere' : ∀ j, j ≠ k → (s.run k p).here j = s.here j := by
    intro j hj
    rw [St.here, St.who, hrun₂ j hj]
    rfl
  have hnot : ∀ j, s.running j ≠ some p := h.not_running (by rw [hstate]; decide)
  refine ⟨⟨fun j => ?_, fun j q hq => ?_, fun j q hq => ?_, fun j j' q hq hq' => ?_, fun q hq => ?_,
    fun j q hq => ?_⟩, by rw [hcpu]; exact hnoff⟩
  · by_cases hj : j = k
    · rw [hj, hhere, hcpu]
      refine ⟨?_, hfit.off, by rw [ha.held]; exact List.nodup_singleton _, fun y => ?_⟩
      · rw [count_one ha.held ha.pushes ha.phase]
        exact hnoff
      · rw [ha.held, ← hheld]
        exact hfit.lock y
    · rw [hhere' j hj, hcpu' j hj]
      exact h.fit j
  · by_cases hj : j = k
    · rw [hj, hhere, hcpu]
      intro _ b hb
      show (s.saved p).getD (s.cpu k).intena = b
      rw [ha.saved b hb]
      rfl
    · rw [hrun₂ j hj] at hq
      rw [hhere' j hj, hcpu' j hj]
      exact h.kept j q hq
  · show Function.update s.state p .running q = .running
    by_cases hqp : q = p
    · rw [hqp, update_self]
    · rw [update_of_ne hqp]
      by_cases hj : j = k
      · rw [hj, hrun₁] at hq
        exact absurd (Option.some.inj hq).symm hqp
      · rw [hrun₂ j hj] at hq
        exact h.runs j q hq
  · by_cases hj : j = k
    · rw [hj, hrun₁] at hq
      have hqp : p = q := Option.some.inj hq
      by_cases hj' : j' = k
      · rw [hj, hj']
      · rw [hrun₂ j' hj', ← hqp] at hq'
        exact absurd hq' (hnot j')
    · by_cases hj' : j' = k
      · rw [hj', hrun₁] at hq'
        rw [hrun₂ j hj, ← Option.some.inj hq'] at hq
        exact absurd hq (hnot j)
      · rw [hrun₂ j hj] at hq
        rw [hrun₂ j' hj'] at hq'
        exact h.once j j' q hq hq'
  · have hq' : Function.update s.state p .running q = .runnable ∨
        Function.update s.state p .running q = .sleeping := hq
    by_cases hqp : q = p
    · rw [hqp, update_self] at hq'
      rcases hq' with e | e
      · cases e
      · cases e
    · rw [update_of_ne hqp] at hq'
      exact (h.away q hq').congr rfl rfl
  · by_cases hj : j = k
    · rw [hj, hrun₁] at hq
      have hqp : p = q := Option.some.inj hq
      rw [hj, ← hqp]
      rw [here_none hrun] at hheld hpushes hphase
      exact ⟨hheld, hpushes, hphase⟩
    · rw [hrun₂ j hj] at hq
      exact h.sched j q hq

/-! ### Runs -/

inductive Steps (s : St c n α) (k : Fin c) : Act n α → St c n α → Prop where
  | opPanic (o : Op n α) (e : Panic) : Steps s k (.op o) { s with panic := some e }
  | outPanic (st : PState) (e : Panic) : Steps s k (.out st) { s with panic := some e }
  | op (o : Op n α) (u : Cpu) (x : Code n α) (lock : Locks c n α) :
      localStep k (s.cpu k) (s.here k) s.lock o = some (.ok (u, x, lock)) →
      Steps s k (.op o) { s with
        cpu := Function.update s.cpu k u
        code := Function.update s.code (s.who k) x
        lock := lock }
  | out (st : PState) (p : Fin n) : s.running k = some p → (s.here k).phase = .ready →
      s.lock (.proc p) = some k → (s.cpu k).noff = 1 →
      Steps s k (.out st) { s with
        state := Function.update s.state p st
        saved := Function.update s.saved p (some (s.cpu k).intena)
        running := Function.update s.running k none }
  | run (p : Fin n) : s.running k = none → (s.here k).held = [.proc p] → (s.here k).pushes = 0 →
      (s.here k).phase = .ready → s.state p = .runnable → Steps s k (.run p) (s.run k p)
  | wake (q : Fin n) : s.state q = .sleeping →
      Steps s k (.wake q) { s with state := Function.update s.state q .runnable }
  | create (q : Fin n) : s.state q = .unused →
      Steps s k (.create q) { s with
        state := Function.update s.state q .runnable
        code := Function.update s.code (.proc q) (Code.forkret q)
        saved := Function.update s.saved q none }
  | reap (q : Fin n) : s.state q = .zombie →
      Steps s k (.reap q) { s with state := Function.update s.state q .unused }

theorem setState_some {q : Fin n} {old new : PState} (h : s.setState k q old new = some t) :
    s.state q = old ∧ t = { s with state := Function.update s.state q new } := by
  obtain ⟨hgo, rfl⟩ := some_of_guard h
  exact ⟨hgo.2.2, rfl⟩

theorem steps_of_step {a : Act n α} (h : s.step (k, a) = some t) : Steps s k a t := by
  unfold St.step at h
  split at h
  · cases h
  cases a with
  | op o =>
    obtain ⟨r, hr, rfl⟩ := Option.map_eq_some_iff.mp h
    cases r with
    | error e => exact .opPanic o e
    | ok v => exact .op o v.1 v.2.1 v.2.2 hr
  | out st =>
    have hout : (match s.running k with
      | none => none
      | some p =>
        if (s.here k).phase = .ready ∧ st ≠ .running ∧ st ≠ .unused then some (s.out k p st)
        else none) = some t := h
    split at hout
    · cases hout
    · rename_i p hp
      obtain ⟨hgo, rfl⟩ := some_of_guard hout
      unfold St.out
      split
      · exact .outPanic st _
      · rename_i hlock
        split
        · exact .outPanic st _
        · rename_i hnoff
          split
          · exact .outPanic st _
          · exact .out st p hp hgo.1 (not_not.mp hlock) (not_not.mp hnoff)
  | run p =>
    obtain ⟨hgo, rfl⟩ := some_of_guard h
    exact .run p hgo.1 hgo.2.1 hgo.2.2.1 hgo.2.2.2.1 hgo.2.2.2.2
  | wake q =>
    obtain ⟨hq, rfl⟩ := setState_some h
    exact .wake q hq
  | create q =>
    obtain ⟨r, hr, rfl⟩ := Option.map_eq_some_iff.mp h
    obtain ⟨hq, rfl⟩ := setState_some hr
    exact .create q hq
  | reap q =>
    obtain ⟨hq, rfl⟩ := setState_some h
    exact .reap q hq

omit [DecidableEq α] in
theorem inv_record (h : Inv s) {q : Fin n} (hq : s.state q = .unused) (ht : t = { s with
      code := Function.update s.code (.proc q) (Code.forkret q)
      saved := Function.update s.saved q none }) : Inv t ∧ Away t q := by
  have hcode : ∀ w, w ≠ .proc q → t.code w = s.code w := by
    intro w hw
    rw [ht]
    exact update_of_ne hw _ _
  have hnew : t.code (.proc q) = Code.forkret q := by
    rw [ht]
    exact update_self _ _ _
  have hrunning : t.running = s.running := by rw [ht]
  have hhere : ∀ k, t.here k = s.here k := by
    intro k
    have hwho : s.who k ≠ .proc q := fun e => h.not_running (by rw [hq]; decide) k (who_eq_proc.mp e)
    rw [St.here, St.who, hrunning]
    exact hcode _ hwho
  refine ⟨⟨fun k => ?_, fun k p hp => ?_, ?_, ?_, fun p hp => ?_, fun k p hp => ?_⟩, ?_⟩
  · rw [hhere k, ht]
    exact h.fit k
  · rw [hrunning] at hp
    rw [hhere k, ht]
    exact h.kept k p hp
  · rw [ht]
    exact h.runs
  · rw [ht]
    exact h.once
  · have hp' : s.state p = .runnable ∨ s.state p = .sleeping := by
      rw [ht] at hp
      exact hp
    have hpq : p ≠ q := by
      rintro rfl
      rw [hq] at hp'
      rcases hp' with e | e
      · cases e
      · cases e
    refine (h.away p hp').congr (hcode _ fun e => hpq (Who.proc.inj e)) ?_
    rw [ht]
    exact update_of_ne hpq _ _
  · rw [hrunning] at hp
    rw [hcode _ (fun e => by cases e)]
    exact h.sched k p hp
  · refine ⟨by rw [hnew]; rfl, by rw [hnew]; rfl, by rw [hnew]; rfl, ?_⟩
    intro b hb
    rw [hnew] at hb
    cases hb

omit [DecidableEq α] in
theorem inv_create (h : Inv s) {q : Fin n} (hq : s.state q = .unused) :
    Inv { s with
      state := Function.update s.state q .runnable
      code := Function.update s.code (.proc q) (Code.forkret q)
      saved := Function.update s.saved q none } := by
  obtain ⟨hinv, haway⟩ := inv_record h hq rfl
  refine inv_state hinv ?_ fun _ => haway
  show s.state q ≠ .running
  rw [hq]
  decide

omit [DecidableEq α] in
theorem inv_panic (h : Inv s) (e : Panic) : Inv { s with panic := some e } := by
  exact ⟨h.fit, h.kept, h.runs, h.once, fun p hp => (h.away p hp).congr rfl rfl, h.sched⟩

/-- **Every step keeps the invariant.** -/
theorem inv_step {l : Fin c × Act n α} (h : Inv s) (hs : s.step l = some t) : Inv t := by
  obtain ⟨k, a⟩ := l
  cases steps_of_step hs with
  | opPanic o e | outPanic st e => exact inv_panic h e
  | op o u x lock hlocal => exact inv_op h k (stepped_local (h.fit k) hlocal) rfl
  | out st p hp hphase hlock hnoff => exact inv_out h hp hphase hlock hnoff rfl
  | run p hrun hheld hpushes hphase hstate => exact (inv_run h hrun hheld hpushes hphase hstate).1
  | wake q hq => exact inv_state h (by rw [hq]; decide) fun _ => h.away q (.inr hq)
  | create q hq => exact inv_create h hq
  | reap q hq =>
    refine inv_state h (by rw [hq]; decide) fun e => ?_
    rcases e with e | e
    · cases e
    · cases e

omit [DecidableEq α] in
theorem inv_start (intr : Fin c → Bool) : Inv (St.start intr : St c n α) where
  fit := fun k => ⟨rfl, fun h => absurd h (Nat.lt_irrefl 0), List.nodup_nil,
    fun y => ⟨fun e => absurd e (by simp [St.start]), fun e => absurd e List.not_mem_nil⟩⟩
  kept := fun _ _ hp => by cases hp
  runs := fun _ _ hp => by cases hp
  once := fun _ _ _ hp => by cases hp
  away := fun p hp => by
    rcases hp with e | e
    · cases e
    · cases e
  sched := fun _ _ hp => by cases hp

/-- A step of the CPU that runs process `p`, from `x` to `x'` of its record and from `u` to `u'` of the CPU. -/
structure Nests (u u' : Cpu) (x x' : Code n α) : Prop where
  /-- Entering the outermost section: the flag is noted. -/
  enters : x.count = 0 → 0 < x'.count → x'.entry = some u.intr
  same : 0 < x.count → x'.entry = x.entry
  /-- Leaving it: the flag is what was noted. -/
  leaves : 0 < x.count → x'.count = 0 → ∀ b, x.entry = some b → u'.intr = b

omit [DecidableEq α] in
theorem nests_same (u u' : Cpu) (x : Code n α) : Nests u u' x x where
  enters := fun hz hpos => absurd hz (Nat.ne_of_gt hpos)
  same := fun _ => rfl
  leaves := fun hpos hz => absurd hz (Nat.ne_of_gt hpos)

theorem nests_step (h : Inv s) {p : Fin n} {a : Act n α} (hp : s.running k = some p)
    (hs : s.step (k, a) = some t) : Nests (s.cpu k) (t.cpu k) (s.code (.proc p)) (t.code (.proc p)) := by
  have hhere : s.here k = s.code (.proc p) := here_some hp
  cases steps_of_step hs with
  | op o u x lock hlocal =>
    have hstep := stepped_local (h.fit k) hlocal
    have hkept := h.kept k p hp
    have hcode : Function.update s.code (s.who k) x (.proc p) = x := by
      rw [who_eq_proc.mpr hp, update_self]
    show Nests (s.cpu k) (Function.update s.cpu k u k) (s.code (.proc p))
      (Function.update s.code (s.who k) x (.proc p))
    rw [update_self, hcode, ← hhere]
    exact ⟨hstep.enters, hstep.same, hstep.leaves hkept⟩
  | run q hrun =>
    rw [hp] at hrun
    cases hrun
  | create q hq =>
    have hne : (.proc p : Who c n) ≠ .proc q := by
      intro e
      rw [Who.proc.inj e] at hp
      exact h.not_running (by rw [hq]; decide) k hp
    show Nests (s.cpu k) (s.cpu k) (s.code (.proc p)) (Function.update s.code (.proc q) _ (.proc p))
    rw [update_of_ne hne]
    exact nests_same _ _ _
  | _ => exact nests_same _ _ _

/-- The record of a process is its own: only the CPU that runs it changes it, or who creates the process. -/
theorem code_of_other {p : Fin n} {a : Act n α} (hp : s.running k ≠ some p) (ha : a ≠ .create p)
    (hs : s.step (k, a) = some t) : t.code (.proc p) = s.code (.proc p) := by
  cases steps_of_step hs with
  | op o u x lock hlocal =>
    exact update_of_ne (fun e => hp (who_eq_proc.mp e.symm)) _ _
  | create q hq =>
    have hne : (.proc p : Who c n) ≠ .proc q := by
      intro e
      rw [Who.proc.inj e] at ha
      exact ha rfl
    exact update_of_ne hne _ _
  | _ => rfl

/-- **Interrupts nest.**  On every CPU of every reachable state: `noff` is the number of spinlocks and unmatched
`push_off`s of the code there; interrupts are off while it is positive; a process goes on in `sched` with
`noff == 1`; and when a process leaves its outermost critical section, on whatever CPU, the interrupt flag is
what it was when it entered it. -/
theorem interrupts_nest {intr : Fin c → Bool} (hs : Reachable St.step (St.start intr) s) (k : Fin c) :
    (s.cpu k).noff = (s.here k).count ∧ (0 < (s.cpu k).noff → (s.cpu k).intr = false) ∧
    (∀ p t, s.step (k, .run p) = some t → (t.cpu k).noff = 1) ∧
    ∀ p a t, s.step (k, a) = some t →
      (s.running k = some p → Nests (s.cpu k) (t.cpu k) (s.code (.proc p)) (t.code (.proc p))) ∧
      (s.running k ≠ some p → a ≠ .create p → t.code (.proc p) = s.code (.proc p)) := by
  have hinv : Inv s := reachable_invariant (fun _ _ _ h hstep => inv_step h hstep) (inv_start intr) hs
  refine ⟨(hinv.fit k).noff, (hinv.fit k).off, fun p t hrun => ?_, fun p a t hstep => ⟨fun hp => ?_, ?_⟩⟩
  · cases steps_of_step hrun with
    | run _ hidle hheld hpushes hphase hstate => exact (inv_run hinv hidle hheld hpushes hphase hstate).2
  · exact nests_step hinv hp hstep
  · intro hp ha
    exact code_of_other hp ha hstep

/-- Process 0 is created by the scheduler of CPU 0 and runs there; it enters a section with interrupts on, yields
in it and goes on on CPU 1. -/
def moves : List (Fin 2 × Act 1 Unit) :=
  [(0, .op (.acquire (.proc 0))), (0, .op .spin), (0, .create 0), (0, .run 0), (0, .op (.release (.proc 0))),
    (0, .op .unlocked), (0, .op (.intr true)), (0, .op (.acquire (.proc 0))), (0, .op .spin), (0, .out .runnable),
    (0, .op (.release (.proc 0))), (0, .op .unlocked), (1, .op (.acquire (.proc 0))), (1, .op .spin), (1, .run 0),
    (1, .op (.release (.proc 0)))]

theorem interrupts_nest_moves : ∃ s t : St 2 1 Unit,
    exec St.step (St.start fun _ => false) moves = some s ∧ s.step (1, .op .unlocked) = some t ∧
      (s.cpu 1).intr = false ∧ (t.cpu 1).intr = true := by
  have hrun : (exec St.step (St.start fun _ => false : St 2 1 Unit) (moves ++ [(1, .op .unlocked)])).isSome := by
    decide +kernel
  obtain ⟨t, ht⟩ := Option.isSome_iff_exists.mp hrun
  obtain ⟨s, hs, hstep⟩ := exec_snoc ht
  have hval : (exec St.step (St.start fun _ => false : St 2 1 Unit) moves).map (fun s =>
      ((s.code (.proc 0)).count, (s.code (.proc 0)).entry, (s.cpu 1).noff, s.running 1)) =
      some (1, some true, 1, some 0) := by
    decide +kernel
  have hval' : (exec St.step (St.start fun _ => false : St 2 1 Unit) (moves ++ [(1, .op .unlocked)])).map
      (fun t => (t.code (.proc 0)).count) = some 0 := by
    decide +kernel
  rw [hs, Option.map_some, Option.some.injEq, Prod.mk.injEq, Prod.mk.injEq, Prod.mk.injEq] at hval
  rw [ht, Option.map_some, Option.some.injEq] at hval'
  obtain ⟨hcount, hentry, hnoff, hrunning⟩ := hval
  obtain ⟨-, hoff, -, hnest⟩ := interrupts_nest ⟨moves, hs⟩ 1
  refine ⟨s, t, hs, hstep, hoff (by rw [hnoff]; decide), ?_⟩
  exact ((hnest 0 _ t hstep).1 hrunning).leaves (by rw [hcount]; decide) hval' true hentry

end Xv6.IntrNesting
