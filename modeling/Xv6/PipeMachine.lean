import Xv6.LabelledRuns
import Xv6.RingBuffer

/-!
# Pipes (`kernel/pipe.c`)

A machine for `pipewrite`, `piperead` and `pipeclose` on one pipe, with `n` processes.  One step of a
process is one lock operation, or one round of a loop under `pi->lock`; the reads of `pr->killed`, which
no lock protects, are steps of their own.

* `Pc` is a place in the code.  `sleep` and `wakeup` are the ones of `kernel/proc.c`: `sleep` takes
  `p->lock` before it gives up `pi->lock`, and `wakeup` takes the lock of one process after the other.
* `St.go` is the code.  `Act` is what the processes decide: the next call, `fork`, `dup`, `kill`, and what
  user code does to its own memory.
* The two ends are the files that `pipealloc` made, with their reference counts; `fileclose` calls
  `pipeclose` for the last reference.

What a process does outside of the pipe is not modelled (`Pc.user`).  `accepted`, `delivered` and `fresh`
record what happened; the code does not read them.
-/

namespace Xv6.PipeMachine

open LabelledRuns RingBuffer

def PIPESIZE : ℕ := 512

instance : NeZero PIPESIZE := ⟨by decide⟩

/-- `&pi->nread` and `&pi->nwrite`. -/
inductive Chan where
  | nread
  | nwrite
deriving DecidableEq

/-- The files `f0` and `f1` of `pipealloc`. -/
inductive End where
  | read
  | write
deriving DecidableEq

/-- What `pipeclose` wakes up. -/
def End.chan : End → Chan
  | .read => .nwrite
  | .write => .nread

/-- The user buffer of a call: `addr` and `n`. -/
structure Buf where
  addr : UInt64
  n : Int
deriving DecidableEq

inductive Call where
  | write (b : Buf)
  | read (b : Buf)
  | close (e : End)
deriving DecidableEq

inductive Loop where
  | write (b : Buf) (i : ℕ)
  | read (b : Buf)
deriving DecidableEq

def Loop.chan : Loop → Chan
  | .write _ _ => .nwrite
  | .read _ => .nread

inductive After where
  | sleep (b : Buf) (i : ℕ)
  | writeEnd (b : Buf) (i : ℕ)
  | readEnd (b : Buf) (i : ℕ)
  | close (e : End)
deriving DecidableEq

def After.chan : After → Chan
  | .sleep _ _ => .nread
  | .writeEnd _ _ => .nread
  | .readEnd _ _ => .nwrite
  | .close e => e.chan

inductive Pc where
  /-- Outside of the functions below. -/
  | user
  /-- About to acquire `pi->lock`, first and after `sleep`. -/
  | enter (c : Call)
  | again (k : Loop)
  /-- `pipewrite`: the test `i < n`, the test for a full pipe, the test that gives up. -/
  | write (b : Buf) (i : ℕ)
  | full (b : Buf) (i : ℕ)
  | fullCheck (b : Buf) (i : ℕ)
  /-- `piperead`: the test for an empty pipe, the test that gives up, the copy loop. -/
  | empty (b : Buf)
  | emptyCheck (b : Buf)
  | read (b : Buf) (i : ℕ)
  /-- `wakeup`, at `proc[j]`. -/
  | wakeup (a : After) (j : ℕ)
  /-- About to release `pi->lock` and to return `r`. -/
  | leave (c : Call) (r : Int)
  /-- `sleep`: about to acquire `p->lock`, to release `pi->lock`, to set `p->chan` and `p->state`, to
  switch to the scheduler (which releases `p->lock`), to be switched back in. -/
  | sleep (k : Loop)
  | sleepLocked (k : Loop)
  | sleepUnlocked (k : Loop)
  | sched (k : Loop)
  | resume (k : Loop)
  /-- `pipeclose`. -/
  | close (e : End)
  | closeCheck
  | kfree
deriving DecidableEq

/-- Where a call goes on with `pi->lock`. -/
def Call.pc : Call → Pc
  | .write b => .write b 0
  | .read b => .empty b
  | .close e => .close e

def Loop.pc : Loop → Pc
  | .write b i => .full b i
  | .read b => .empty b

def After.pc : After → Pc
  | .sleep b i => .sleep (.write b i)
  | .writeEnd b i => .leave (.write b) i
  | .readEnd b i => .leave (.read b) i
  | .close _ => .closeCheck

structure Pipe where
  data : Fin PIPESIZE → UInt8
  nread : BitVec 32
  nwrite : BitVec 32
  readopen : Bool
  writeopen : Bool

/-- What `pipealloc` makes of a page. -/
def Pipe.alloc (page : Fin PIPESIZE → UInt8) : Pipe where
  data := page
  nread := 0
  nwrite := 0
  readopen := true
  writeopen := true

/-- `pi->nwrite == pi->nread + PIPESIZE`. -/
def Pipe.isFull (q : Pipe) : Bool := q.nwrite == q.nread + BitVec.ofNat 32 PIPESIZE

/-- `pi->nread == pi->nwrite`. -/
def Pipe.isEmpty (q : Pipe) : Bool := q.nread == q.nwrite

def Pipe.isOpen (q : Pipe) : End → Bool
  | .read => q.readopen
  | .write => q.writeopen

/-- `pi->data[pi->nwrite++ % PIPESIZE] = ch;`. -/
def Pipe.store (q : Pipe) (ch : UInt8) : Pipe :=
  { q with data := Function.update q.data (slot PIPESIZE q.nwrite) ch, nwrite := q.nwrite + 1 }

/-- `pi->data[pi->nread++ % PIPESIZE]`. -/
def Pipe.first (q : Pipe) : UInt8 := q.data (slot PIPESIZE q.nread)

def Pipe.skip (q : Pipe) : Pipe := { q with nread := q.nread + 1 }

def Pipe.shut (q : Pipe) : End → Pipe
  | .read => { q with readopen := false }
  | .write => { q with writeopen := false }

structure Proc where
  pc : Pc
  /-- `p->state == SLEEPING`. -/
  sleeping : Bool
  chan : Option Chan
  /-- `p->lock` is held. -/
  locked : Bool
  killed : Bool
  /-- User memory; `none` where a copy fails. -/
  mem : UInt64 → Option UInt8
  /-- How many descriptors refer to each end. -/
  fds : End → ℕ
  /-- What the last call returned. -/
  ret : Option Int

structure St (n : ℕ) where
  pipe : Pipe
  /-- Who holds `pi->lock`. -/
  lock : Option (Fin n)
  /-- The page was given back. -/
  freed : Bool
  /-- `f->ref`. -/
  ref : End → ℕ
  proc : Fin n → Proc
  /-- The bytes stored by `pipewrite` so far. -/
  accepted : List UInt8
  /-- The bytes copied out by `piperead` so far. -/
  delivered : List UInt8
  /-- Whoever holds `pi->lock` has stored a byte since it acquired it. -/
  fresh : Bool

variable {n : ℕ}

def St.setProc (s : St n) (p : Fin n) (x : Proc) : St n :=
  { s with proc := Function.update s.proc p x }

def St.setPc (s : St n) (p : Fin n) (pc : Pc) : St n := s.setProc p { s.proc p with pc := pc }

/-- `acquire(&pi->lock)`. -/
def St.acquire (s : St n) (p : Fin n) (pc : Pc) : St n :=
  { s with lock := some p, fresh := false }.setPc p pc

/-- `release(&pi->lock)`. -/
def St.release (s : St n) (p : Fin n) (pc : Pc) : St n := { s with lock := none }.setPc p pc

/-- `if(p->state == SLEEPING && p->chan == chan) p->state = RUNNABLE;`. -/
def wake (ch : Chan) (x : Proc) : Proc :=
  if x.sleeping ∧ x.chan = some ch then { x with sleeping := false } else x

/-- What `kill` does to the process it finds. -/
def slay (x : Proc) : Proc := { x with killed := true, sleeping := false }

/-! ### The code -/

/-- `pipewrite`, the body of the `for` loop. -/
def St.goFull (s : St n) (p : Fin n) (b : Buf) (i : ℕ) : St n :=
  if s.pipe.isFull then s.setPc p (.fullCheck b i)
  else
    match (s.proc p).mem (b.addr + UInt64.ofNat i) with
    | none => s.setPc p (.wakeup (.writeEnd b i) 0)
    | some ch =>
      { s with pipe := s.pipe.store ch, accepted := s.accepted ++ [ch], fresh := true }.setPc p
        (.write b (i + 1))

/-- `piperead`, the body of the `for` loop. -/
def St.goRead (s : St n) (p : Fin n) (b : Buf) (i : ℕ) : St n :=
  if (i : Int) < b.n ∧ !s.pipe.isEmpty then
    match (s.proc p).mem (b.addr + UInt64.ofNat i) with
    | none => { s with pipe := s.pipe.skip }.setPc p (.wakeup (.readEnd b i) 0)
    | some _ =>
      { s with pipe := s.pipe.skip, delivered := s.delivered ++ [s.pipe.first] }.setProc p
        { s.proc p with
          pc := .read b (i + 1)
          mem := Function.update (s.proc p).mem (b.addr + UInt64.ofNat i) (some s.pipe.first) }
  else s.setPc p (.wakeup (.readEnd b i) 0)

/-- `wakeup`, at `proc[j]`. -/
def St.goWakeup (s : St n) (p : Fin n) (a : After) (j : ℕ) : Option (St n) :=
  if h : j < n then
    if (s.proc ⟨j, h⟩).locked then none
    else some ((s.setProc ⟨j, h⟩ (wake a.chan (s.proc ⟨j, h⟩))).setPc p (.wakeup a (j + 1)))
  else some (s.setPc p a.pc)

def St.go (s : St n) (p : Fin n) : Option (St n) :=
  match (s.proc p).pc with
  | .user => none
  | .enter c => if s.lock = none then some (s.acquire p c.pc) else none
  | .again k => if s.lock = none then some (s.acquire p k.pc) else none
  | .write b i => some (s.setPc p (if (i : Int) < b.n then .full b i else .wakeup (.writeEnd b i) 0))
  | .full b i => some (s.goFull p b i)
  | .fullCheck b i =>
    some (s.setPc p (if !s.pipe.readopen || (s.proc p).killed then .leave (.write b) (-1)
      else .wakeup (.sleep b i) 0))
  | .empty b => some (s.setPc p (if s.pipe.isEmpty && s.pipe.writeopen then .emptyCheck b else .read b 0))
  | .emptyCheck b =>
    some (s.setPc p (if (s.proc p).killed then .leave (.read b) (-1) else .sleep (.read b)))
  | .read b i => some (s.goRead p b i)
  | .wakeup a j => s.goWakeup p a j
  | .leave _ r => some ({ s with lock := none }.setProc p { s.proc p with pc := .user, ret := some r })
  | .sleep k =>
    if (s.proc p).locked then none
    else some (s.setProc p { s.proc p with pc := .sleepLocked k, locked := true })
  | .sleepLocked k => some (s.release p (.sleepUnlocked k))
  | .sleepUnlocked k =>
    some (s.setProc p { s.proc p with pc := .sched k, sleeping := true, chan := some k.chan })
  | .sched k => some (s.setProc p { s.proc p with pc := .resume k, locked := false })
  | .resume k =>
    if (s.proc p).sleeping ∨ (s.proc p).locked then none
    else some (s.setProc p { s.proc p with pc := .again k, chan := none })
  | .close e => some ({ s with pipe := s.pipe.shut e }.setPc p (.wakeup (.close e) 0))
  | .closeCheck =>
    some (s.release p (if !s.pipe.readopen && !s.pipe.writeopen then .kfree else .user))
  | .kfree => some ({ s with freed := true }.setPc p .user)

inductive Act (n : ℕ) where
  | go
  | write (b : Buf)
  | read (b : Buf)
  | close (e : End)
  | dup (e : End)
  /-- A child in the free slot `c`. -/
  | fork (c : Fin n)
  | kill (q : Fin n)
  /-- User code, `exec` or `sbrk`: any change to its memory. -/
  | run (mem : UInt64 → Option UInt8)

/-- `filedup`. -/
def St.dup (s : St n) (p : Fin n) (e : End) : St n :=
  { s with ref := Function.update s.ref e (s.ref e + 1) }.setProc p
    { s.proc p with fds := Function.update (s.proc p).fds e ((s.proc p).fds e + 1) }

/-- `fileclose`, with what comes next. -/
def St.drop (s : St n) (p : Fin n) (e : End) : St n :=
  { s with ref := Function.update s.ref e (s.ref e - 1) }.setProc p
    { s.proc p with
      fds := Function.update (s.proc p).fds e ((s.proc p).fds e - 1)
      pc := if 0 < s.ref e - 1 then .user else .enter (.close e) }

/-- `fork`: the child has its parent's descriptors and is not killed. -/
def St.fork (s : St n) (p c : Fin n) : St n :=
  { s with ref := fun e => s.ref e + (s.proc p).fds e }.setProc c
    { s.proc c with killed := false, mem := (s.proc p).mem, fds := (s.proc p).fds }

def St.step (s : St n) : Fin n × Act n → Option (St n)
  | (p, .go) => s.go p
  | (p, a) =>
    if (s.proc p).pc = .user then
      match a with
      | .go => none
      | .write b => if 0 < (s.proc p).fds .write then some (s.setPc p (.enter (.write b))) else none
      | .read b => if 0 < (s.proc p).fds .read then some (s.setPc p (.enter (.read b))) else none
      | .close e => if 0 < (s.proc p).fds e then some (s.drop p e) else none
      | .dup e => if 0 < (s.proc p).fds e then some (s.dup p e) else none
      | .fork c =>
        if (s.proc c).pc = .user ∧ (s.proc c).fds .read = 0 ∧ (s.proc c).fds .write = 0 then
          some (s.fork p c)
        else none
      | .kill q => if (s.proc q).locked then none else some (s.setProc q (slay (s.proc q)))
      | .run mem => some (s.setProc p { s.proc p with mem := mem })
    else none

/-- `pipealloc` has made the pipe for process `p`. -/
def St.boot (page : Fin PIPESIZE → UInt8) (p : Fin n) : St n where
  pipe := Pipe.alloc page
  lock := none
  freed := false
  ref := fun _ => 1
  proc := fun q =>
    { pc := .user, sleeping := false, chan := none, locked := false, killed := false,
      mem := fun _ => none, fds := fun _ => if q = p then 1 else 0, ret := none }
  accepted := []
  delivered := []
  fresh := false

def goes (p : Fin n) (k : ℕ) : List (Fin n × Act n) := List.replicate k (p, .go)

end Xv6.PipeMachine
