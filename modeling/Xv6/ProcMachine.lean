import Mathlib.Tactic
import Xv6.LabelledRuns

/-!
# Processes, CPUs and their locks (`kernel/proc.c`)

A machine for `fork`, `exit`, `reparent`, `wait`, `kill`, `sleep`, `wakeup`, `yield`, `sched` and
`scheduler`, with `n` process slots and `m` CPUs.  One step of a CPU is one lock operation together
with what the code does under the lock until the next one; reads that the code makes without the lock
(`np->parent` in `wait`, `pp->parent` in `reparent`) are steps of their own.

* `Pc` is a place in the code.  Every process slot and every CPU has a kernel thread (`Thread`), the
  latter for `scheduler`; an interrupt runs on top of the interrupted code (`Ctl.trap`).
* `code`, `schedCode` and `trapCode` say what a thread does from a place: a `Move`.
* `Act` resolves what the environment decides: which system call comes next, whether an allocation or
  a copy to user memory fails, where an interrupt comes.

Spinlocks other than the process locks are numbered; kernel code outside of `proc.c` is any sequence of
`acquire`, `release`, `sleep` and `wakeup`.  A CPU takes interrupts exactly when it holds no spinlock,
which is what `noff` is for.
-/

namespace Xv6.ProcMachine

inductive ProcState where
  | unused
  | sleeping
  | runnable
  | running
  | zombie
deriving DecidableEq

/-- What `p->chan` may point to: a process slot, or something else in the kernel. -/
inductive Chan (n : ℕ) where
  | proc (p : Fin n)
  | addr (a : ℕ)
deriving DecidableEq

/-- The fields of `struct proc` that `p->lock` protects. -/
structure Proc (n : ℕ) where
  state : ProcState
  parent : Option (Fin n)
  chan : Option (Chan n)
  killed : Bool
  xstate : Int32
  pid : Int32

abbrev Table (n : ℕ) := Fin n → Proc n

/-- A slot after `freeproc`. -/
def freeproc (n : ℕ) : Proc n where
  state := .unused
  parent := none
  chan := none
  killed := false
  xstate := 0
  pid := 0

/-- `if(p->state == SLEEPING && p->chan == chan) p->state = RUNNABLE;`. -/
def wake {n : ℕ} (ch : Chan n) (p : Proc n) : Proc n :=
  if p.state = .sleeping ∧ p.chan = some ch then { p with state := .runnable } else p

/-- `p->killed = 1`, and out of `sleep`. -/
def slay {n : ℕ} (p : Proc n) : Proc n :=
  { p with killed := true, state := if p.state = .sleeping then .runnable else p.state }

/-! ### Places in the code -/

/-- What a thread does after it has been switched back in. -/
inductive After where
  | yield
  | sleep (l : ℕ)
  | wait (addr : ℕ)
  | exit
  | forkret
deriving DecidableEq

/-- Places.  A loop over the table has its index `i`; a place behind `acquire(&proc[i].lock)` has the
slot. -/
inductive Pc (n : ℕ) where
  /-- Outside of the functions below: user code, other kernel code or an interrupt handler. -/
  | run
  | wakeup (ch : Chan n) (i : ℕ)
  | wakeupNext (ch : Chan n) (i : Fin n)
  | yield
  /-- `sleep`: about to acquire `p->lock`, to release `lk`, to set `p->chan` and `p->state`. -/
  | sleep (ch : Chan n) (l : ℕ)
  | sleepLocked (ch : Chan n) (l : ℕ)
  | sleepUnlocked (ch : Chan n) (l : ℕ)
  /-- `sched`: about to switch, and switched back in. -/
  | sched (k : After)
  | resumed (k : After)
  | sleepAgain (l : ℕ)
  /-- `allocproc`, called by `fork`. -/
  | alloc (i : ℕ)
  | allocNext (i : Fin n)
  | allocpid (i : Fin n)
  | trapframe (i : Fin n)
  | pagetable (i : Fin n)
  | uvmcopy (i : Fin n)
  | forkFail (i : Fin n)
  | forkEnd (i : Fin n)
  /-- `exit`: about to acquire `initproc->lock`, to release it, … -/
  | exitInit (st : Int32)
  | exitWoken (st : Int32)
  | exitSelf (st : Int32)
  | exitRead (st : Int32) (op : Fin n)
  | exitParent (st : Int32) (op : Fin n)
  | exitOwn (st : Int32) (op : Fin n)
  | reparent (st : Int32) (op : Fin n) (i : ℕ)
  | reparentChild (st : Int32) (op i : Fin n)
  | reparentNext (st : Int32) (op i : Fin n)
  | exitZombie (op : Fin n)
  | waitStart (addr : ℕ)
  | waitScan (addr i : ℕ) (havekids : Bool)
  | waitChild (addr : ℕ) (i : Fin n)
  | waitNext (addr : ℕ) (i : Fin n)
  | waitZombie (addr : ℕ) (i : Fin n)
  | waitRelease (i : Fin n) (r : Int32)
  | waitEnd (r : Int32)
  | kill (pid : Int32) (i : ℕ)
  | killNext (pid : Int32) (i : Fin n)
  | killEnd (i : Fin n)
  /-- `scheduler`. -/
  | scan (i : ℕ)
  | scanNext (i : Fin n)
  | swtch (i : Fin n)
  | back (i : Fin n)
deriving DecidableEq

/-- What the environment decides. -/
inductive Act (n : ℕ) where
  /-- Go on; allocations and copies succeed. -/
  | go
  /-- Go on; the allocation or the copy fails. -/
  | fail
  | fork
  | exit (st : Int32)
  | wait (addr : ℕ)
  | kill (pid : Int32)
  | acquire (l : ℕ)
  | release (l : ℕ)
  | sleep (ch : Chan n) (l : ℕ)
  | wakeup (ch : Chan n)
  | yield
  | interrupt
  | iret

/-! ### Moves -/

inductive LockOp (n : ℕ) where
  | none
  | acquire (q : Fin n)
  | release (q : Fin n)
  | acquireOther (l : ℕ)
  | releaseOther (l : ℕ)

/-- What a move does besides the lock. -/
inductive Effect (n : ℕ) where
  | none
  /-- `if(p->state == SLEEPING && p->chan == chan) p->state = RUNNABLE;` for slot `i`. -/
  | wake (ch : Chan n) (i : Fin n)
  /-- `p->state = RUNNABLE;` -/
  | yield (p : Fin n)
  /-- `p->chan = chan; p->state = SLEEPING;` -/
  | sleep (p : Fin n) (ch : Chan n)
  /-- `p->chan = 0;` -/
  | tidy (p : Fin n)
  /-- `p->pid = allocpid();` -/
  | allocpid (i : Fin n)
  /-- `p->context.ra = (uint64)forkret;` -/
  | context (i : Fin n)
  | freeproc (i : Fin n)
  /-- `np->parent = p;` … `np->state = RUNNABLE;` -/
  | child (p i : Fin n)
  /-- `pp->parent = initproc;` -/
  | adopt (i : Fin n)
  /-- `wakeup1(original_parent); p->xstate = status; p->state = ZOMBIE;` -/
  | zombie (p op : Fin n) (st : Int32)
  /-- `copyout(.., &np->xstate, ..)` unless `addr` is 0, and `freeproc(np)`. -/
  | reap (p i : Fin n) (addr : ℕ)
  /-- `p->killed = 1;` and out of `sleep`. -/
  | slay (i : Fin n)
  /-- `p->state = RUNNING; c->proc = p;` -/
  | dispatch (i : Fin n)
  /-- `c->proc = 0;` -/
  | undispatch
  /-- The system call of `p` returns `r`. -/
  | ret (p : Fin n) (r : Int32)

structure Move (n : ℕ) where
  lock : LockOp n := .none
  effect : Effect n := .none
  next : Pc n

section Code

variable {n : ℕ}

/-- Other kernel code and `wakeup`, wherever they run. -/
def common : Pc n → Act n → Option (Move n)
  | .run, .acquire l => some { lock := .acquireOther l, next := .run }
  | .run, .release l => some { lock := .releaseOther l, next := .run }
  | .run, .wakeup ch => some { next := .wakeup ch 0 }
  | .wakeup ch i, .go =>
    if h : i < n then
      some { lock := .acquire ⟨i, h⟩, effect := .wake ch ⟨i, h⟩, next := .wakeupNext ch ⟨i, h⟩ }
    else some { next := .run }
  | .wakeupNext ch i, .go => some { lock := .release i, next := .wakeup ch (i + 1) }
  | _, _ => none

/-- Interrupts on top of process `p`; `yield` is called from there only. -/
def trapCode (p : Fin n) : Pc n → Act n → Option (Move n)
  | .run, .yield => some { next := .yield }
  | .yield, .go => some { lock := .acquire p, effect := .yield p, next := .sched .yield }
  | .resumed .yield, .go => some { lock := .release p, next := .run }
  | pc, a => common pc a

/-- The kernel thread of process `p`.  A test of the table under a lock is made with the `acquire`. -/
def code (initproc : Fin n) (T : Table n) (p : Fin n) : Pc n → Act n → Option (Move n)
  -- `sleep` with a lock other than `p->lock`
  | .run, .sleep ch l => some { next := .sleep ch l }
  | .sleep ch l, .go => some { lock := .acquire p, next := .sleepLocked ch l }
  | .sleepLocked ch l, .go => some { lock := .releaseOther l, next := .sleepUnlocked ch l }
  | .sleepUnlocked ch l, .go => some { effect := .sleep p ch, next := .sched (.sleep l) }
  | .resumed (.sleep l), .go => some { lock := .release p, effect := .tidy p, next := .sleepAgain l }
  | .sleepAgain l, .go => some { lock := .acquireOther l, next := .run }
  | .resumed .forkret, .go => some { lock := .release p, next := .run }
  -- `fork`
  | .run, .fork => some { next := .alloc 0 }
  | .alloc i, .go =>
    if h : i < n then
      if (T ⟨i, h⟩).state = .unused then
        some { lock := .acquire ⟨i, h⟩, next := .allocpid ⟨i, h⟩ }
      else some { lock := .acquire ⟨i, h⟩, next := .allocNext ⟨i, h⟩ }
    else some { effect := .ret p (-1), next := .run }
  | .allocNext i, .go => some { lock := .release i, next := .alloc (i + 1) }
  | .allocpid i, .go => some { effect := .allocpid i, next := .trapframe i }
  | .trapframe i, .go => some { next := .pagetable i }
  | .trapframe i, .fail => some { next := .forkFail i }
  | .pagetable i, .go => some { effect := .context i, next := .uvmcopy i }
  | .pagetable i, .fail => some { effect := .freeproc i, next := .forkFail i }
  | .uvmcopy i, .go => some { effect := .child p i, next := .forkEnd i }
  | .uvmcopy i, .fail => some { effect := .freeproc i, next := .forkFail i }
  | .forkFail i, .go => some { lock := .release i, effect := .ret p (-1), next := .run }
  | .forkEnd i, .go => some { lock := .release i, effect := .ret p (T i).pid, next := .run }
  -- `exit`
  | .run, .exit st => if p = initproc then none else some { next := .exitInit st }
  | .exitInit st, .go =>
    some { lock := .acquire initproc, effect := .wake (.proc initproc) initproc
           next := .exitWoken st }
  | .exitWoken st, .go => some { lock := .release initproc, next := .exitSelf st }
  | .exitSelf st, .go =>
    match (T p).parent with
    | none => none
    | some op => some { lock := .acquire p, next := .exitRead st op }
  | .exitRead st op, .go => some { lock := .release p, next := .exitParent st op }
  | .exitParent st op, .go => some { lock := .acquire op, next := .exitOwn st op }
  | .exitOwn st op, .go => some { lock := .acquire p, next := .reparent st op 0 }
  | .reparent st op i, .go =>
    if h : i < n then
      if (T ⟨i, h⟩).parent = some p then some { next := .reparentChild st op ⟨i, h⟩ }
      else some { next := .reparent st op (i + 1) }
    else some { effect := .zombie p op st, next := .exitZombie op }
  | .reparentChild st op i, .go =>
    some { lock := .acquire i, effect := .adopt i, next := .reparentNext st op i }
  | .reparentNext st op i, .go => some { lock := .release i, next := .reparent st op (i + 1) }
  | .exitZombie op, .go => some { lock := .release op, next := .sched .exit }
  -- `wait`
  | .run, .wait addr => some { next := .waitStart addr }
  | .waitStart addr, .go => some { lock := .acquire p, next := .waitScan addr 0 false }
  | .waitScan addr i havekids, .go =>
    if h : i < n then
      if (T ⟨i, h⟩).parent = some p then some { next := .waitChild addr ⟨i, h⟩ }
      else some { next := .waitScan addr (i + 1) havekids }
    else if havekids = false ∨ (T p).killed = true then some { next := .waitEnd (-1) }
    else some { effect := .sleep p (.proc p), next := .sched (.wait addr) }
  | .waitChild addr i, .go =>
    if (T i).state = .zombie then some { lock := .acquire i, next := .waitZombie addr i }
    else some { lock := .acquire i, next := .waitNext addr i }
  | .waitNext addr i, .go => some { lock := .release i, next := .waitScan addr (i + 1) true }
  | .waitZombie addr i, .go =>
    some { effect := .reap p i addr, next := .waitRelease i (T i).pid }
  | .waitZombie addr i, .fail => if addr = 0 then none else some { next := .waitRelease i (-1) }
  | .waitRelease i r, .go => some { lock := .release i, next := .waitEnd r }
  | .waitEnd r, .go => some { lock := .release p, effect := .ret p r, next := .run }
  | .resumed (.wait addr), .go => some { effect := .tidy p, next := .waitScan addr 0 false }
  -- `kill`
  | .run, .kill pid => some { next := .kill pid 0 }
  | .kill pid i, .go =>
    if h : i < n then
      if (T ⟨i, h⟩).pid = pid then
        some { lock := .acquire ⟨i, h⟩, effect := .slay ⟨i, h⟩, next := .killEnd ⟨i, h⟩ }
      else some { lock := .acquire ⟨i, h⟩, next := .killNext pid ⟨i, h⟩ }
    else some { effect := .ret p (-1), next := .run }
  | .killNext pid i, .go => some { lock := .release i, next := .kill pid (i + 1) }
  | .killEnd i, .go => some { lock := .release i, effect := .ret p 0, next := .run }
  | pc, a => common pc a

/-- The thread of `scheduler`, without the two switches. -/
def schedCode (T : Table n) : Pc n → Act n → Option (Move n)
  | .scan i, .go =>
    if h : i < n then
      if (T ⟨i, h⟩).state = .runnable then
        some { lock := .acquire ⟨i, h⟩, effect := .dispatch ⟨i, h⟩, next := .swtch ⟨i, h⟩ }
      else some { lock := .acquire ⟨i, h⟩, next := .scanNext ⟨i, h⟩ }
    else some { next := .scan 0 }
  | .scanNext i, .go => some { lock := .release i, next := .scan (i + 1) }
  | .back i, .go => some { effect := .undispatch, next := .scanNext i }
  | _, _ => none

end Code

/-! ### States -/

inductive Thread (n m : ℕ) where
  | proc (p : Fin n)
  | sched (c : Fin m)
deriving DecidableEq

/-- Where a thread is: in its own code, or in an interrupt on top of it. -/
structure Ctl (n : ℕ) where
  base : Pc n
  trap : Option (Pc n)
deriving DecidableEq

namespace Ctl

variable {n : ℕ}

def pc (x : Ctl n) : Pc n := x.trap.getD x.base

def goto (x : Ctl n) (pc : Pc n) : Ctl n :=
  match x.trap with
  | none => ⟨pc, none⟩
  | some _ => ⟨x.base, some pc⟩

end Ctl

/-- What `exit` and `wait` have done so far. -/
inductive Event (n : ℕ) where
  | exit (pid st : Int32)
  | wait (p : Fin n) (pid : Int32) (copied : Option Int32)

structure St (n m : ℕ) where
  proc : Table n
  ctl : Thread n m → Ctl n
  /-- `p->context` holds the registers of `p`. -/
  saved : Fin n → Bool
  /-- The holder of `p->lock`. -/
  lock : Fin n → Option (Fin m)
  /-- The other spinlocks that a CPU holds. -/
  others : Fin m → Finset ℕ
  /-- The process whose thread a CPU executes; `none` for `scheduler`. -/
  on : Fin m → Option (Fin n)
  /-- `c->proc`. -/
  cproc : Fin m → Option (Fin n)
  nextpid : Int32
  /-- What the last system call returned. -/
  a0 : Fin n → Int32
  /-- Bookkeeping: calls of `allocpid`, and for each slot how many there were before its last one. -/
  calls : ℕ
  birth : Fin n → ℕ
  /-- Bookkeeping: how often a process has gone to sleep. -/
  sleeps : Fin n → ℕ
  log : List (Event n)

namespace St

variable {n m : ℕ}

def active (s : St n m) (c : Fin m) : Thread n m :=
  match s.on c with
  | some p => .proc p
  | none => .sched c

/-- `mycpu()->noff == 0`. -/
def Free (s : St n m) (c : Fin m) : Prop := (∀ q, s.lock q ≠ some c) ∧ s.others c = ∅

instance (s : St n m) (c : Fin m) : Decidable (s.Free c) := inferInstanceAs (Decidable (_ ∧ _))

/-- The checks of `sched` pass. -/
def MaySwitch (s : St n m) (c : Fin m) (p : Fin n) : Prop :=
  (∀ q, s.lock q = some c ↔ q = p) ∧ s.others c = ∅ ∧ (s.proc p).state ≠ .running

instance (s : St n m) (c : Fin m) (p : Fin n) : Decidable (s.MaySwitch c p) :=
  inferInstanceAs (Decidable (_ ∧ _ ∧ _))

/-- What has to hold before a call.  System calls begin without locks, and `sleep` switches with no
lock but its own. -/
def Allowed (s : St n m) (c : Fin m) : Act n → Prop
  | .fork | .exit _ | .wait _ | .kill _ | .yield | .interrupt | .iret => s.Free c
  | .sleep _ l => s.others c = {l}
  | _ => True

instance (s : St n m) (c : Fin m) : (a : Act n) → Decidable (s.Allowed c a)
  | .fork | .exit _ | .wait _ | .kill _ | .yield | .interrupt | .iret =>
    inferInstanceAs (Decidable (s.Free c))
  | .sleep _ l => inferInstanceAs (Decidable (s.others c = {l}))
  | .go | .fail | .acquire _ | .release _ | .wakeup _ => inferInstanceAs (Decidable True)

/-- `acquire` waits until the lock is free; `release` panics unless this CPU holds it. -/
def lockOp (s : St n m) (c : Fin m) : LockOp n → Option (St n m)
  | .none => some s
  | .acquire q =>
    if s.lock q = none then some { s with lock := Function.update s.lock q (some c) } else none
  | .release q =>
    if s.lock q = some c then some { s with lock := Function.update s.lock q none } else none
  | .acquireOther l =>
    if ∀ d, l ∉ s.others d then
      some { s with others := Function.update s.others c (insert l (s.others c)) }
    else none
  | .releaseOther l =>
    if l ∈ s.others c then
      some { s with others := Function.update s.others c ((s.others c).erase l) }
    else none

def setProc (s : St n m) (i : Fin n) (x : Proc n) : St n m :=
  { s with proc := Function.update s.proc i x }

def setCtl (s : St n m) (th : Thread n m) (x : Ctl n) : St n m :=
  { s with ctl := Function.update s.ctl th x }

def effect (initproc : Fin n) (s : St n m) (c : Fin m) : Effect n → St n m
  | .none => s
  | .wake ch i => s.setProc i (wake ch (s.proc i))
  | .yield p => s.setProc p { s.proc p with state := .runnable }
  | .sleep p ch => { s.setProc p { s.proc p with chan := some ch, state := .sleeping } with
      sleeps := Function.update s.sleeps p (s.sleeps p + 1) }
  | .tidy p => s.setProc p { s.proc p with chan := none }
  | .allocpid i => { s.setProc i { s.proc i with pid := s.nextpid } with
      nextpid := s.nextpid + 1
      calls := s.calls + 1
      birth := Function.update s.birth i s.calls }
  | .context i => { s.setCtl (.proc i) ⟨.resumed .forkret, none⟩ with
      saved := Function.update s.saved i true }
  | .freeproc i => s.setProc i (ProcMachine.freeproc n)
  | .child p i => s.setProc i { s.proc i with parent := some p, state := .runnable }
  | .adopt i => s.setProc i { s.proc i with parent := some initproc }
  | .zombie p op st =>
    { (s.setProc op (wake (.proc op) (s.proc op))).setProc p
        { s.proc p with xstate := st, state := .zombie } with
      log := .exit (s.proc p).pid st :: s.log }
  | .reap p i addr => { s.setProc i (ProcMachine.freeproc n) with
      log := .wait p (s.proc i).pid (if addr = 0 then Option.none else some (s.proc i).xstate) :: s.log }
  | .slay i => s.setProc i (slay (s.proc i))
  | .dispatch i => { s.setProc i { s.proc i with state := .running } with
      cproc := Function.update s.cproc c (some i) }
  | .undispatch => { s with cproc := Function.update s.cproc c Option.none }
  | .ret p r => { s with a0 := Function.update s.a0 p r }

def move (initproc : Fin n) (s : St n m) (c : Fin m) (th : Thread n m) (mv : Move n) :
    Option (St n m) :=
  (s.lockOp c mv.lock).map fun t =>
    let u := t.effect initproc c mv.effect
    u.setCtl th ((u.ctl th).goto mv.next)

/-- `swtch(&p->context, &mycpu()->context)`. -/
def switchOut (s : St n m) (c : Fin m) (p : Fin n) (k : After) : St n m :=
  { s.setCtl (.proc p) ((s.ctl (.proc p)).goto (.resumed k)) with
    saved := Function.update s.saved p true
    on := Function.update s.on c none }

/-- `swtch(&c->context, &p->context)`. -/
def switchIn (s : St n m) (c : Fin m) (p : Fin n) : St n m :=
  { s.setCtl (.sched c) ⟨.back p, none⟩ with
    saved := Function.update s.saved p false
    on := Function.update s.on c (some p) }

def next (initproc : Fin n) (s : St n m) (th : Thread n m) (a : Act n) : Option (Move n) :=
  match th, (s.ctl th).trap with
  | .proc p, none => code initproc s.proc p (s.ctl th).base a
  | .proc p, some pc => trapCode p pc a
  | .sched _, none => schedCode s.proc (s.ctl th).base a
  | .sched _, some pc => common pc a

def step (initproc : Fin n) (s : St n m) (x : Fin m × Act n) : Option (St n m) :=
  let c := x.1
  let th := s.active c
  if s.Allowed c x.2 then
    match x.2, th, (s.ctl th).pc, (s.ctl th).trap with
    | .interrupt, _, _, none => some (s.setCtl th ⟨(s.ctl th).base, some .run⟩)
    | .iret, _, .run, some _ => some (s.setCtl th ⟨(s.ctl th).base, none⟩)
    | .go, .proc p, .sched k, _ => if s.MaySwitch c p then some (s.switchOut c p k) else none
    | .go, .sched _, .swtch p, none => some (s.switchIn c p)
    | a, _, _, _ => (s.next initproc th a).bind fun mv => s.move initproc c th mv
  else none

/-- After `userinit`, with every CPU at the start of `scheduler`. -/
def boot (initproc : Fin n) : St n m where
  proc := fun p =>
    if p = initproc then { ProcMachine.freeproc n with state := .runnable, pid := 1 }
    else ProcMachine.freeproc n
  ctl := fun
    | .proc _ => ⟨.resumed .forkret, none⟩
    | .sched _ => ⟨.scan 0, none⟩
  saved := fun p => decide (p = initproc)
  lock := fun _ => none
  others := fun _ => ∅
  on := fun _ => none
  cproc := fun _ => none
  nextpid := 2
  a0 := fun _ => 0
  calls := 1
  birth := fun _ => 0
  sleeps := fun _ => 0
  log := []

end St

end Xv6.ProcMachine
