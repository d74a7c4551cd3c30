import Xv6.LabelledRuns
import Xv6.RingBuffer

/-!
# The console and the UART (`kernel/console.c`, `kernel/uart.c`)

A machine for `consolewrite`, `consoleread`, `uartputc`, `uartintr` and `consoleintr`, with `n` threads:
processes in a system call, or the interrupt handler of a CPU.  A thread that holds a spinlock is not
interrupted and not preempted, so `mycpu()->noff` belongs to the thread that runs (`Thread.noff`).

* `Cons` is the input ring with its three indices, `Uart` the transmit ring.
* `Pc` is a place in the code; `St.go` is the code.  One step is one lock operation or one round of a
  loop.  What the environment answers comes with the step: whether a copy works, which byte it brings,
  whether the UART is idle (`LSR_TX_IDLE`) and whether it has received a byte.
* `sleep` is one step: it takes `p->lock`, releases `lk` and calls `sched`, which panics unless
  `noff == 1`.

`got` records what `consoleread` has copied out; the code does not read it.
-/

namespace Xv6.ConsoleMachine

open LabelledRuns RingBuffer

def INPUT_BUF : ℕ := 128

def UART_TX_BUF_SIZE : ℕ := 32

instance : NeZero INPUT_BUF := ⟨by decide⟩

instance : NeZero UART_TX_BUF_SIZE := ⟨by decide⟩

/-! ### The input ring -/

/-- `C('D')`, `C('H')`, `C('P')` and `C('U')`. -/
def ctrlD : UInt8 := 4

def ctrlH : UInt8 := 8

def ctrlP : UInt8 := 16

def ctrlU : UInt8 := 21

def del : UInt8 := 127

def newline : UInt8 := 10

def carriageReturn : UInt8 := 13

structure Cons where
  buf : Fin INPUT_BUF → UInt8
  r : BitVec 32
  w : BitVec 32
  e : BitVec 32

/-- The loop of `case C('U')`, with at most `fuel` rounds. -/
def Cons.killLine : ℕ → Cons → Cons
  | 0, k => k
  | fuel + 1, k =>
    if k.e ≠ k.w ∧ k.buf (slot INPUT_BUF (k.e - 1)) ≠ newline then
      killLine fuel { k with e := k.e - 1 }
    else k

/-- `case C('H')`. -/
def Cons.erase (k : Cons) : Cons := if k.e ≠ k.w then { k with e := k.e - 1 } else k

/-- `cons.buf[cons.e++ % INPUT_BUF] = c;`. -/
def Cons.store (k : Cons) (c : UInt8) : Cons :=
  { k with buf := Function.update k.buf (slot INPUT_BUF k.e) c, e := k.e + 1 }

/-- `c == '\n' || c == C('D') || cons.e == cons.r+INPUT_BUF`. -/
def Cons.ends (k : Cons) (c : UInt8) : Bool :=
  c == newline || c == ctrlD || k.e == k.r + BitVec.ofNat 32 INPUT_BUF

/-- `case` `default`, for a character that is stored. -/
def Cons.input (k : Cons) (c : UInt8) : Cons × Bool :=
  if (k.store c).ends c then ({ k.store c with w := (k.store c).e }, true) else (k.store c, false)

/-- `consoleintr` under its lock, with whether it calls `wakeup(&cons.r)`. -/
def Cons.intr (k : Cons) (c : UInt8) : Cons × Bool :=
  if c = ctrlP then (k, false)
  else if c = ctrlU then (k.killLine (k.e - k.w).toNat, false)
  else if c = ctrlH ∨ c = del then (k.erase, false)
  else if c ≠ 0 ∧ (k.e - k.r).toNat < INPUT_BUF then
    k.input (if c = carriageReturn then newline else c)
  else (k, false)

/-- `cons.buf[cons.r % INPUT_BUF]`. -/
def Cons.first (k : Cons) : UInt8 := k.buf (slot INPUT_BUF k.r)

/-- `cons.r++`. -/
def Cons.skip (k : Cons) : Cons := { k with r := k.r + 1 }

/-! ### The transmit ring -/

structure Uart where
  buf : Fin UART_TX_BUF_SIZE → UInt8
  w : Fin UART_TX_BUF_SIZE
  r : Fin UART_TX_BUF_SIZE

/-- `((uart_tx_w + 1) % UART_TX_BUF_SIZE) == uart_tx_r`. -/
def Uart.isFull (u : Uart) : Bool := u.w + 1 == u.r

def Uart.store (u : Uart) (c : UInt8) : Uart :=
  { u with buf := Function.update u.buf u.w c, w := u.w + 1 }

/-! ### Threads -/

inductive Lock where
  | cons
  | uart
deriving DecidableEq

/-- The loops that sleep: `consoleread` with `target` and `n`, and `uartputc` called by `consolewrite`
with `n` and `i`. -/
inductive Loop where
  | read (target n : Int)
  | put (n : Int) (i : ℕ) (c : UInt8)
deriving DecidableEq

/-- The second argument of `sleep`. -/
def Loop.lock : Loop → Lock
  | .read _ _ => .cons
  | .put _ _ _ => .uart

/-- Who called `uartstart`. -/
inductive Caller where
  | put (n : Int) (i : ℕ)
  | intr
deriving DecidableEq

inductive Pc where
  /-- Outside of the functions below. -/
  | user
  /-- `consolewrite`: about to acquire `cons.lock`, at the test `i < n`, about to release it. -/
  | write (n : Int)
  | writeNext (n : Int) (i : ℕ)
  | writeEnd (i : ℕ)
  /-- `uartputc`: about to acquire `uart_tx_lock`, in `while(1)`, about to release it. -/
  | put (n : Int) (i : ℕ) (c : UInt8)
  | putLoop (n : Int) (i : ℕ) (c : UInt8)
  | putEnd (n : Int) (i : ℕ)
  /-- `uartstart`. -/
  | start (k : Caller)
  /-- `consoleread`: about to acquire `cons.lock`, at the test `n > 0`, at the test `cons.r == cons.w`,
  about to release `cons.lock` and to return. -/
  | read (n : Int)
  | readNext (target n : Int)
  | readWait (target n : Int)
  | readEnd (r : Int)
  /-- `sleep`: about to go to sleep, asleep, about to acquire the lock again. -/
  | sleep (k : Loop)
  | asleep (k : Loop)
  | again (k : Loop)
  /-- `uartintr`, and `consoleintr` called by it. -/
  | intr
  | consoleintr (c : UInt8)
  | consoleintrBody (c : UInt8)
  | consoleintrEnd
  | intrTx
  | intrTxEnd
deriving DecidableEq

/-- Where a loop goes on with its lock. -/
def Loop.pc : Loop → Pc
  | .read target n => .readWait target n
  | .put n i c => .putLoop n i c

def Caller.pc : Caller → Pc
  | .put n i => .putEnd n i
  | .intr => .intrTxEnd

structure Thread where
  pc : Pc
  noff : ℕ
  killed : Bool
  /-- `p->state == SLEEPING`. -/
  sleeping : Bool
  /-- What the last call returned. -/
  ret : Option Int

inductive Panic where
  | acquire
  | schedLocks
deriving DecidableEq

structure St (n : ℕ) where
  cons : Cons
  uart : Uart
  holder : Lock → Option (Fin n)
  thread : Fin n → Thread
  panic : Option Panic
  got : Fin n → List UInt8

variable {n : ℕ}

def St.setThread (s : St n) (p : Fin n) (x : Thread) : St n :=
  { s with thread := Function.update s.thread p x }

def St.setPc (s : St n) (p : Fin n) (pc : Pc) : St n :=
  s.setThread p { s.thread p with pc := pc }

/-- `acquire(lk)`: `push_off`, and `panic("acquire")` when this thread has it. -/
def St.acquire (s : St n) (p : Fin n) (lk : Lock) (pc : Pc) : Option (St n) :=
  if s.holder lk = some p then some { s with panic := some .acquire }
  else if s.holder lk = none then
    some ({ s with holder := Function.update s.holder lk (some p) }.setThread p
      { s.thread p with pc := pc, noff := (s.thread p).noff + 1 })
  else none

def St.release (s : St n) (p : Fin n) (lk : Lock) (pc : Pc) : St n :=
  { s with holder := Function.update s.holder lk none }.setThread p
    { s.thread p with pc := pc, noff := (s.thread p).noff - 1 }

/-- `release(lk); return r;`. -/
def St.ret (s : St n) (p : Fin n) (lk : Lock) (r : Int) : St n :=
  { s with holder := Function.update s.holder lk none }.setThread p
    { s.thread p with pc := .user, noff := (s.thread p).noff - 1, ret := some r }

/-- `sleep(chan, lk)`: `acquire(&p->lock)` and `release(lk)` leave `noff` as it was, and `sched` tests
it.  The scheduler releases `p->lock`. -/
def St.sleep (s : St n) (p : Fin n) (k : Loop) : St n :=
  if (s.thread p).noff + 1 - 1 ≠ 1 then { s with panic := some .schedLocks }
  else
    { s with holder := Function.update s.holder k.lock none }.setThread p
      { s.thread p with pc := .asleep k, noff := 0, sleeping := true }

/-- A sleeper in one of the loops of this lock. -/
def Pc.sleepsOn (lk : Lock) : Pc → Bool
  | .asleep k => k.lock == lk
  | _ => false

/-- `wakeup(&cons.r)` or `wakeup(&uart_tx_r)`. -/
def St.wakeup (s : St n) (lk : Lock) : St n :=
  { s with thread := fun q =>
      if (s.thread q).pc.sleepsOn lk then { s.thread q with sleeping := false } else s.thread q }

/-! ### The code -/

/-- `consoleread`, from the test `cons.r == cons.w` on; `ok` when `either_copyout` works. -/
def St.goRead (s : St n) (p : Fin n) (target m : Int) (ok : Bool) : St n :=
  if s.cons.r = s.cons.w then
    s.setPc p (if (s.thread p).killed then .readEnd (-1) else .sleep (.read target m))
  else if s.cons.first = ctrlD then
    { s with cons := if m < target then s.cons else s.cons.skip }.setPc p (.readEnd (target - m))
  else if ok then
    { s with
      cons := s.cons.skip
      got := Function.update s.got p (s.got p ++ [s.cons.first]) }.setPc p
      (if s.cons.first = newline then .readEnd (target - (m - 1)) else .readNext target (m - 1))
  else { s with cons := s.cons.skip }.setPc p (.readEnd (target - m))

/-- `uartstart`, one round; `ok` when the UART is idle. -/
def St.goStart (s : St n) (p : Fin n) (k : Caller) (ok : Bool) : St n :=
  if s.uart.w = s.uart.r ∨ ok = false then s.setPc p k.pc
  else ({ s with uart := { s.uart with r := s.uart.r + 1 } }.wakeup .uart).setPc p (.start k)

/-- `consoleintr`, the `switch`. -/
def St.goInput (s : St n) (p : Fin n) (c : UInt8) : St n :=
  let k := s.cons.intr c
  let s := { s with cons := k.1 }
  (if k.2 then s.wakeup .cons else s).setPc p .consoleintrEnd

def St.go (s : St n) (p : Fin n) (ok : Bool) (c : UInt8) : Option (St n) :=
  match (s.thread p).pc with
  | .user => none
  | .write m => s.acquire p .cons (.writeNext m 0)
  | .writeNext m i =>
    -- `ok` and `c` are what `either_copyin` answers
    some (s.setPc p (if (i : Int) < m ∧ ok then .put m i c else .writeEnd i))
  | .writeEnd i => some (s.ret p .cons i)
  | .put m i c => s.acquire p .uart (.putLoop m i c)
  | .putLoop m i c =>
    if s.uart.isFull then some (s.setPc p (.sleep (.put m i c)))
    else some ({ s with uart := s.uart.store c }.setPc p (.start (.put m i)))
  | .putEnd m i => some (s.release p .uart (.writeNext m (i + 1)))
  | .start k => some (s.goStart p k ok)
  | .read m => s.acquire p .cons (.readNext m m)
  | .readNext target m =>
    some (s.setPc p (if 0 < m then .readWait target m else .readEnd (target - m)))
  | .readWait target m => some (s.goRead p target m ok)
  | .readEnd r => some (s.ret p .cons r)
  | .sleep k => some (s.sleep p k)
  | .asleep k => if (s.thread p).sleeping then none else some (s.setPc p (.again k))
  | .again k => s.acquire p k.lock k.pc
  | .intr => some (s.setPc p (if ok then .consoleintr c else .intrTx))
  | .consoleintr c => s.acquire p .cons (.consoleintrBody c)
  | .consoleintrBody c => some (s.goInput p c)
  | .consoleintrEnd => some (s.release p .cons .intr)
  | .intrTx => s.acquire p .uart (.start .intr)
  | .intrTxEnd => some (s.release p .uart .user)

inductive Act (n : ℕ) where
  | go (ok : Bool) (c : UInt8)
  /-- The system calls, with the length. -/
  | write (m : Int)
  | read (m : Int)
  /-- A UART interrupt. -/
  | interrupt
  | kill (q : Fin n)

/-- One step; there is none after a panic. -/
def St.step (s : St n) (l : Fin n × Act n) : Option (St n) :=
  if s.panic.isSome then none
  else
    match l.2 with
    | .go ok c => s.go l.1 ok c
    | .kill q => some (s.setThread q { s.thread q with killed := true, sleeping := false })
    | .write m => if (s.thread l.1).pc = .user then some (s.setPc l.1 (.write m)) else none
    | .read m => if (s.thread l.1).pc = .user then some (s.setPc l.1 (.read m)) else none
    | .interrupt => if (s.thread l.1).pc = .user then some (s.setPc l.1 .intr) else none

def St.boot (n : ℕ) : St n where
  cons := { buf := fun _ => 0, r := 0, w := 0, e := 0 }
  uart := { buf := fun _ => 0, w := 0, r := 0 }
  holder := fun _ => none
  thread := fun _ => { pc := .user, noff := 0, killed := false, sleeping := false, ret := none }
  panic := none
  got := fun _ => []

/-- `k` steps of one thread with the same answers. -/
def goes (p : Fin n) (ok : Bool) (c : UInt8) (k : ℕ) : List (Fin n × Act n) :=
  List.replicate k (p, .go ok c)

end Xv6.ConsoleMachine
