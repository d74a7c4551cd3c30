import Xv6.ConsoleMachine
import Xv6.Monitors

/-!
# The transmit ring of the UART (`kernel/uart.c`)

`uartputc`, called by any number of threads that hold no spinlock, and `uartintr`, as one monitor with the lock
`uart_tx_lock`; `sleep` and `wakeup` on `&uart_tx_r` are those of the library of monitors.  With each step comes
what the thread reads outside of the lock: `panicked`, and whether the UART is idle.

`accepted` records the bytes stored in the ring and `sent` those written to THR; the code does not read them.
What `uartintr` does with input is not modelled here.
-/

namespace Xv6.UartQueue

open ConsoleMachine (Uart UART_TX_BUF_SIZE)
open Monitors LabelledRuns RingBuffer

structure Tx where
  uart : Uart
  accepted : List UInt8
  sent : List UInt8

structure Env where
  panicked : Bool
  /-- `ReadReg(LSR) & LSR_TX_IDLE`. -/
  idle : Bool

/-- Places with `uart_tx_lock` held. -/
inductive Place where
  /-- `uartputc`: the test of `panicked`, `for(;;)`, `while(1)`. -/
  | putc (c : UInt8)
  | spin
  | loop (c : UInt8)
  /-- `uartstart`: `while(1)`, and before `WriteReg(THR, c)`. -/
  | start
  | thr (c : UInt8)
  /-- Before `release`. -/
  | done
deriving DecidableEq

variable {n : ℕ}

def code (_ : Fin n) (e : Env) : Place → Tx → Option (Move Place Tx)
  | .putc c, x => some (.goto (if e.panicked then .spin else .loop c) x)
  | .spin, _ => none
  | .loop c, x =>
    if x.uart.isFull then some (.sleep (.loop c))
    else some (.goto .start { x with uart := x.uart.store c, accepted := x.accepted ++ [c] })
  | .start, x =>
    if x.uart.w = x.uart.r ∨ e.idle = false then some (.goto .done x)
    else some (.wakeup (.thr (x.uart.buf x.uart.r)) { x with uart := { x.uart with r := x.uart.r + 1 } })
  | .thr c, x => some (.goto .start { x with sent := x.sent ++ [c] })
  | .done, _ => some .leave

/-- What a thread that waits for `uart_tx_lock` is about to run: `uartputc`, from the beginning or after `sleep`,
or the rest of `uartintr`. -/
def MayCall (_ : Fin n) (k : Place) (_ : Tx) : Prop :=
  match k with
  | .putc _ => True
  | .start => True
  | .loop _ => True
  | _ => False

instance decidableMayCall (p : Fin n) : ∀ (k : Place) (x : Tx), Decidable (MayCall p k x)
  | .putc _, _ => isTrue trivial
  | .start, _ => isTrue trivial
  | .loop _, _ => isTrue trivial
  | .spin, _ => isFalse id
  | .thr _, _ => isFalse id
  | .done, _ => isFalse id

/-! ### The ring -/

/-- An index as a counter of 5 bits. -/
def counter (i : Fin UART_TX_BUF_SIZE) : BitVec 5 := BitVec.ofFin i

def queue (u : Uart) : List UInt8 := contents u.buf (counter u.r) (counter u.w)

theorem slot_counter (i : Fin UART_TX_BUF_SIZE) : slot UART_TX_BUF_SIZE (counter i) = i :=
  Fin.ext (Nat.mod_eq_of_lt i.isLt)

theorem counter_add_one (i : Fin UART_TX_BUF_SIZE) : counter (i + 1) = counter i + 1 := rfl

theorem counter_inj {i j : Fin UART_TX_BUF_SIZE} (h : counter i = counter j) : i = j :=
  Fin.ext (congrArg BitVec.toNat h)

theorem length_queue (u : Uart) : (queue u).length ≤ 31 := by
  rw [queue, length_contents, size]
  exact Nat.le_of_lt_succ (BitVec.isLt _)

/-- One slot is never used: the ring is full with 31 bytes. -/
theorem size_of_not_full {u : Uart} (h : u.isFull = false) : size (counter u.r) (counter u.w) < 31 := by
  have hle : size (counter u.r) (counter u.w) ≤ 31 := Nat.le_of_lt_succ (BitVec.isLt _)
  refine lt_of_le_of_ne hle fun heq => ?_
  have hadd := add_size (counter u.r) (counter u.w)
  rw [heq] at hadd
  have hnext : counter (u.w + 1) = counter u.r := by
    rw [counter_add_one, ← hadd, BitVec.add_assoc]
    show _ + (0 : BitVec 5) = _
    exact BitVec.add_zero _
  have hfull : u.isFull = true := beq_iff_eq.mpr (counter_inj hnext)
  exact Bool.false_ne_true (h.symm.trans hfull)

/-- **`uartputc` appends a byte.** -/
theorem queue_store {u : Uart} (h : u.isFull = false) (c : UInt8) : queue (u.store c) = queue u ++ [c] := by
  have hsize := size_of_not_full h
  have hdvd : UART_TX_BUF_SIZE ∣ 2 ^ 5 := by decide
  have hpush := contents_push hdvd (Nat.lt_trans hsize (by decide)) (by omega) u.buf c
  rw [slot_counter, ← counter_add_one] at hpush
  exact hpush

/-- **`uartstart` takes the oldest one.** -/
theorem queue_next {u : Uart} (h : u.w ≠ u.r) :
    queue u = u.buf u.r :: queue { u with r := u.r + 1 } := by
  have hne : counter u.r ≠ counter u.w := fun e => h (counter_inj e).symm
  have hpop := contents_pop hne u.buf
  rw [slot_counter, ← counter_add_one] at hpop
  exact hpop

/-! ### First in, first out -/

/-- A byte that was taken from the ring and not yet written to THR. -/
def Place.inHand : Place → List UInt8
  | .thr c => [c]
  | _ => []

/-- Every byte that was accepted was sent, is in hand or in the ring, in this order. -/
def Fifo (hand : List UInt8) (x : Tx) : Prop := x.accepted = x.sent ++ hand ++ queue x.uart

theorem outline : Outline (code (n := n)) MayCall (fun _ k x => Fifo k.inHand x) (Fifo []) where
  enter := by
    intro p k x hI hB
    cases k with
    | thr c => exact absurd hB id
    | _ => exact hI
  goto := by
    intro p e k k' x x' hA hcode
    cases k with
    | putc c =>
      cases hcode
      split
      · exact hA
      · exact hA
    | spin | done => cases hcode
    | loop c =>
      simp only [code] at hcode
      split at hcode
      · cases hcode
      · rename_i hroom
        cases hcode
        have hA' : x.accepted = x.sent ++ [] ++ queue x.uart := hA
        show x.accepted ++ [c] = x.sent ++ [] ++ queue (x.uart.store c)
        rw [queue_store (Bool.eq_false_iff.mpr hroom), hA', List.append_assoc]
    | start =>
      simp only [code] at hcode
      split at hcode
      · cases hcode
        exact hA
      · cases hcode
    | thr c =>
      cases hcode
      have hA' : x.accepted = x.sent ++ [c] ++ queue x.uart := hA
      show x.accepted = x.sent ++ [c] ++ [] ++ queue x.uart
      rw [List.append_nil]
      exact hA'
  wakeup := by
    intro p e k k' x x' hA hcode
    cases k with
    | start =>
      simp only [code] at hcode
      split at hcode
      · cases hcode
      · rename_i hsend
        cases hcode
        rw [not_or] at hsend
        have hA' : x.accepted = x.sent ++ [] ++ queue x.uart := hA
        show x.accepted = x.sent ++ [x.uart.buf x.uart.r] ++ queue { x.uart with r := x.uart.r + 1 }
        rw [hA', queue_next hsend.1, List.append_nil, List.append_assoc]
        rfl
    | loop c =>
      simp only [code] at hcode
      split at hcode
      · cases hcode
      · cases hcode
    | putc c | spin | thr c | done => cases hcode
  sleep := by
    intro p e k k' x hA hcode
    cases k with
    | loop c =>
      simp only [code] at hcode
      split at hcode
      · cases hcode
        exact ⟨hA, trivial⟩
      · cases hcode
    | start =>
      simp only [code] at hcode
      split at hcode
      · cases hcode
      · cases hcode
    | putc c | spin | thr c | done => cases hcode
  leave := by
    intro p e k x hA hcode
    cases k with
    | done => exact hA
    | loop c | start =>
      simp only [code] at hcode
      split at hcode
      · cases hcode
      · cases hcode
    | putc c | spin | thr c => cases hcode
  stable := fun _ _ _ _ _ _ _ _ _ _ _ hB => hB

/-- `uartputc` sleeps when the ring is full, and `uartstart`, which makes room, calls `wakeup`. -/
theorem wakes : Wakes (code (n := n)) (fun _ k x => Fifo k.inHand x) fun x => x.uart.isFull = false where
  sleep := by
    intro p e k k' x hA hcode hroom
    cases k with
    | loop c =>
      simp only [code] at hcode
      split at hcode
      · rename_i hfull
        exact Bool.false_ne_true (hroom.symm.trans hfull)
      · cases hcode
    | start =>
      simp only [code] at hcode
      split at hcode
      · cases hcode
      · cases hcode
    | putc c | spin | thr c | done => cases hcode
  goto := by
    intro p e k k' x x' hA hcode hroom
    cases k with
    | loop c =>
      simp only [code] at hcode
      split at hcode
      · cases hcode
      · exact Bool.eq_false_iff.mpr ‹_›
    | start =>
      simp only [code] at hcode
      split at hcode
      · cases hcode
        exact hroom
      · cases hcode
    | putc c | thr c =>
      cases hcode
      exact hroom
    | spin | done => cases hcode

/-- The ring at the beginning, with the bytes that are in it. -/
def Tx.begin (u : Uart) : Tx := ⟨u, queue u, []⟩

/-- **UART output is a FIFO.**  From any ring, along every interleaving: the bytes written to THR are the bytes
accepted, in this order, up to those in the ring (and one in the hand of the thread that has `uart_tx_lock`); at
most 31 are in the ring; and while the lock is free nobody sleeps when the ring has room. -/
theorem uart_is_fifo (u : Uart) {ls : List (Fin n × Act Unit Place Env n)} {s : Monitors.St Unit Place Tx n}
    (hls : Meets (Monitors.St.step code) (Calls MayCall) (Monitors.St.boot fun _ => Tx.begin u) ls)
    (hrun : exec (Monitors.St.step code) (Monitors.St.boot fun _ => Tx.begin u) ls = some s) :
    (∃ hand, (s.shared ()).accepted = (s.shared ()).sent ++ hand ++ queue (s.shared ()).uart ∧
      hand.length ≤ 1 ∧ (s.lock () = none → hand = [])) ∧
    (queue (s.shared ()).uart).length ≤ 31 ∧
    (s.lock () = none → (s.shared ()).uart.isFull = false →
      ∀ p, ¬ ((s.thread p).sleeping = true ∧ (s.thread p).chan = some ())) := by
  have hstart : ∀ _ : Unit, Fifo [] (Tx.begin u) := fun _ => rfl
  obtain ⟨hinv, ha⟩ := asserts_exec outline hstart hls hrun
  refine ⟨?_, length_queue _, fun hfree hroom p => no_sleeper_left outline wakes hstart hls hrun hfree hroom p⟩
  cases hlock : s.lock () with
  | none => exact ⟨[], ha.free () hlock, Nat.zero_le 1, fun _ => rfl⟩
  | some p =>
    have hfifo : ∃ hand : List UInt8, hand.length ≤ 1 ∧ Fifo hand (s.shared ()) := by
      refine ha.always (J := fun x => ∃ hand : List UInt8, hand.length ≤ 1 ∧ Fifo hand x) hinv
        (fun x hx => ⟨[], Nat.zero_le 1, hx⟩) (fun _ k _ hx => ⟨k.inHand, ?_, hx⟩) ()
      cases k with
      | thr c => exact Nat.le_refl 1
      | _ => exact Nat.zero_le 1
    obtain ⟨hand, hlen, hand'⟩ := hfifo
    exact ⟨hand, hand', hlen, fun hnone => by cases hnone⟩

/-- Thread 0 puts a byte while the UART is busy; the interrupt handler, thread 1, sends it. -/
def putAndSend : List (Fin 2 × Act Unit Place Env 2) :=
  [(0, .call () (.putc 65))] ++ List.replicate 5 (0, .go ⟨false, false⟩) ++ [(1, .call () .start)] ++
    List.replicate 8 (1, .go ⟨false, true⟩)

def emptyRing : Uart := ⟨fun _ => 0, 31, 31⟩

theorem uart_is_fifo_putAndSend : ∃ s : Monitors.St Unit Place Tx 2,
    exec (Monitors.St.step code) (Monitors.St.boot fun _ => Tx.begin emptyRing) putAndSend = some s ∧
      (s.shared ()).sent = [65] ∧ (s.shared ()).accepted = (s.shared ()).sent ++ queue (s.shared ()).uart := by
  have hls : Meets (Monitors.St.step code) (Calls MayCall)
      (Monitors.St.boot fun _ => Tx.begin emptyRing) putAndSend := by
    decide +kernel
  have hrun : (exec (Monitors.St.step code) (Monitors.St.boot fun _ => Tx.begin emptyRing) putAndSend).map
      (fun s => (s.lock (), (s.shared ()).sent)) = some (none, [65]) := by
    decide +kernel
  obtain ⟨s, hs, hval⟩ := Option.map_eq_some_iff.mp hrun
  obtain ⟨hand, hfifo, -, hnone⟩ := (uart_is_fifo emptyRing hls hs).1
  rw [hnone (congrArg Prod.fst hval), List.append_nil] at hfifo
  exact ⟨s, hs, congrArg Prod.snd hval, hfifo⟩

end Xv6.UartQueue
