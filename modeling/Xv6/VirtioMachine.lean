import Xv6.LabelledRuns
import Xv6.Params
import Xv6.RingBuffer

/-!
# The disk driver and its device (`kernel/virtio_disk.c`)

A machine for `virtio_disk_rw`, `virtio_disk_intr` and the device, with `n` threads: processes in
`virtio_disk_rw`, or the interrupt handler of a CPU.

* `Table` holds the descriptors and `disk.free`; `allocDesc`, `freeDesc`, `freeChain` and `alloc3Desc` are
  the functions of those names.
* `avail[1]` is a 16-bit counter that is never reduced, `disk.used_idx` one that is kept below `NUM`, and
  `used->id` is the device's 16-bit counter.
* The device takes the entries of the avail ring in order (`consume`), finishes a request it has taken in
  two steps (`post` writes the status and the used element, `publish` increments `used->id`), in any order.

One step of a thread is what it does between two places where the device or another thread can see a
difference; `sleep` releases the lock in the same step.  The callers hold the sleep-lock of their buffer
(`bread`, `bwrite`), so no two of them have the same one.

`count`, `req`, `cur` and `log` record the requests; the code does not read them.
-/

namespace Xv6.VirtioMachine

open LabelledRuns RingBuffer Params

def NUM : ℕ := 8

instance : NeZero NUM := ⟨by decide⟩

/-! ### The descriptors -/

/-- What a descriptor points to: `buf0`, `b->data` or `disk.info[i].status`. -/
inductive Addr where
  | null
  | header
  | data (b : ℕ)
  | status (i : ℕ)

structure Desc where
  addr : Addr
  len : ℕ
  /-- `VRING_DESC_F_NEXT` -/
  hasNext : Bool
  /-- `VRING_DESC_F_WRITE` -/
  write : Bool
  next : ℕ

structure Table where
  desc : ℕ → Desc
  free : ℕ → Bool

/-- The panics, by message; `kerneltrap` is what a null pointer leads to. -/
inductive Panic where
  /-- `"virtio_disk_intr 1"` -/
  | intr1
  /-- `"virtio_disk_intr 2"` -/
  | intr2
  /-- `"virtio_disk_intr status"` -/
  | intrStatus
  | acquire
  | kerneltrap
  deriving DecidableEq

/-- `idx[3]`. -/
structure Chain where
  d0 : ℕ
  d1 : ℕ
  d2 : ℕ
  deriving DecidableEq

def Chain.list (c : Chain) : List ℕ := [c.d0, c.d1, c.d2]

def Table.allocDesc (t : Table) : Option (ℕ × Table) :=
  ((List.range NUM).find? t.free).map fun i => (i, { t with free := Function.update t.free i false })

def Table.freeDesc (t : Table) (i : ℕ) : Except Panic Table :=
  if NUM ≤ i then .error .intr1
  else if t.free i then .error .intr2
  else .ok
    { desc := Function.update t.desc i { t.desc i with addr := .null }
      free := Function.update t.free i true }

/-- `free_chain`.  Each round frees one more descriptor, so the loop cannot go on for more than `NUM`
rounds without meeting a free one. -/
def Table.freeChain : ℕ → ℕ → Table → Except Panic Table
  | 0, _, _ => .error .intr2
  | fuel + 1, i, t =>
    (t.freeDesc i).bind fun t => if (t.desc i).hasNext then freeChain fuel (t.desc i).next t else .ok t

/-- `alloc3_desc`, with whether it has called `wakeup(&disk.free[0])`. -/
def Table.alloc3Desc (t : Table) : Except Panic (Option Chain × Table × Bool) :=
  match t.allocDesc with
  | none => .ok (none, t, false)
  | some (i, t) =>
    match t.allocDesc with
    | none => (t.freeDesc i).map fun t => (none, t, true)
    | some (j, t) =>
      match t.allocDesc with
      | none => ((t.freeDesc i).bind fun t => t.freeDesc j).map fun t => (none, t, true)
      | some (k, t) => .ok (some ⟨i, j, k⟩, t, false)

/-- The three descriptors of a request. -/
def Table.format (t : Table) (b : ℕ) (write : Bool) (c : Chain) : Table :=
  { t with
    desc := Function.update
      (Function.update
        (Function.update t.desc c.d0 ⟨.header, 16, true, false, c.d1⟩)
        c.d1 ⟨.data b, BSIZE, true, !write, c.d2⟩)
      c.d2 ⟨.status c.d0, 1, false, true, 0⟩ }

/-! ### Threads -/

inductive Pc where
  | user
  /-- `virtio_disk_rw`: about to acquire the lock; in the loop that allocates; asleep on `&disk.free[0]`;
  about to acquire the lock again. -/
  | rw (b : ℕ) (write : Bool)
  | alloc (b : ℕ) (write : Bool)
  | asleepFree (b : ℕ) (write : Bool)
  | againFree (b : ℕ) (write : Bool)
  /-- About to format the descriptors; to store in the avail ring; to increment `avail[1]`. -/
  | format (b : ℕ) (write : Bool) (c : Chain)
  | ring (b : ℕ) (c : Chain)
  | bump (b : ℕ) (c : Chain)
  /-- At the test `b->disk == 1`; asleep on `b`; about to acquire the lock again; about to release it. -/
  | wait (b : ℕ) (c : Chain)
  | asleepBuf (b : ℕ) (c : Chain)
  | againBuf (b : ℕ) (c : Chain)
  | rwEnd (b : ℕ)
  /-- `virtio_disk_intr`: about to acquire the lock; in the loop; about to release it. -/
  | intr
  | intrLoop
  | intrEnd
  deriving DecidableEq

structure Thread where
  pc : Pc
  /-- `p->state == SLEEPING`. -/
  sleeping : Bool

structure Info where
  b : Option ℕ
  status : UInt8

/-- What happens to a request. -/
inductive Event where
  /-- `avail[1]` is incremented. -/
  | submit (r : ℕ)
  /-- The device has finished it. -/
  | complete (r : ℕ)
  /-- `b->disk = 0`. -/
  | done (r : ℕ)
  /-- `free_chain`. -/
  | free (r : ℕ)
  deriving DecidableEq

def Event.request : Event → ℕ
  | .submit r | .complete r | .done r | .free r => r

structure St (n : ℕ) where
  table : Table
  /-- `avail[2..]` and `avail[1]`. -/
  ring : Fin NUM → ℕ
  avail : BitVec 16
  /-- `used->elems[].id` and `used->id`. -/
  elems : Fin NUM → ℕ
  usedId : BitVec 16
  usedIdx : BitVec 16
  info : ℕ → Info
  /-- `b->disk`. -/
  onDisk : ℕ → Bool
  lock : Option (Fin n)
  thread : Fin n → Thread
  /-- The device: how many avail entries it has taken, the requests it works on, and the one whose used
  element is written but not published. -/
  last : BitVec 16
  busy : List ℕ
  posted : Option ℕ
  panic : Option Panic
  /-- How many requests were submitted; the request of a head descriptor and of a buffer. -/
  count : ℕ
  req : ℕ → ℕ
  cur : ℕ → ℕ
  log : List Event

variable {n : ℕ}

def St.setThread (s : St n) (p : Fin n) (x : Thread) : St n :=
  { s with thread := Function.update s.thread p x }

def St.setPc (s : St n) (p : Fin n) (pc : Pc) : St n :=
  s.setThread p { s.thread p with pc := pc }

def St.acquire (s : St n) (p : Fin n) (pc : Pc) : Option (St n) :=
  if s.lock = some p then some { s with panic := some .acquire }
  else if s.lock = none then some ({ s with lock := some p }.setPc p pc)
  else none

def St.release (s : St n) (p : Fin n) : St n := { s with lock := none }.setPc p .user

/-- `sleep`: releases the lock. -/
def St.sleep (s : St n) (p : Fin n) (pc : Pc) : St n :=
  { s with lock := none }.setThread p { pc := pc, sleeping := true }

/-- `wakeup`, for the threads that sleep at these places. -/
def St.wakeup (s : St n) (sleeps : Pc → Bool) : St n :=
  { s with thread := fun q =>
      if sleeps (s.thread q).pc then { s.thread q with sleeping := false } else s.thread q }

/-- On `&disk.free[0]`. -/
def Pc.onFree : Pc → Bool
  | .asleepFree _ _ => true
  | _ => false

/-- On `b`. -/
def Pc.onBuf (b : ℕ) : Pc → Bool
  | .asleepBuf b' _ => b' == b
  | _ => false

/-! ### The code -/

/-- The loop that allocates. -/
def St.goAlloc (s : St n) (p : Fin n) (b : ℕ) (write : Bool) : St n :=
  match s.table.alloc3Desc with
  | .error e => { s with panic := some e }
  | .ok (some c, t, _) => { s with table := t }.setPc p (.format b write c)
  | .ok (none, t, woke) =>
    let s := { s with table := t }
    (if woke then s.wakeup Pc.onFree else s).sleep p (.asleepFree b write)

def St.goFormat (s : St n) (p : Fin n) (b : ℕ) (write : Bool) (c : Chain) : St n :=
  { s with
    table := s.table.format b write c
    onDisk := Function.update s.onDisk b true
    info := Function.update s.info c.d0 ⟨some b, 0⟩ }.setPc p (.ring b c)

/-- `disk.avail[2 + (disk.avail[1] % NUM)] = idx[0]`. -/
def St.goRing (s : St n) (p : Fin n) (b : ℕ) (c : Chain) : St n :=
  { s with ring := Function.update s.ring (slot NUM s.avail) c.d0 }.setPc p (.bump b c)

def St.goBump (s : St n) (p : Fin n) (b : ℕ) (c : Chain) : St n :=
  { s with
    avail := s.avail + 1
    count := s.count + 1
    req := Function.update s.req c.d0 s.count
    cur := Function.update s.cur b s.count
    log := s.log ++ [Event.submit s.count] }.setPc p (.wait b c)

/-- `while(b->disk == 1)`, and `disk.info[idx[0]].b = 0; free_chain(idx[0])` behind it. -/
def St.goWait (s : St n) (p : Fin n) (b : ℕ) (c : Chain) : St n :=
  if s.onDisk b then s.sleep p (.asleepBuf b c)
  else
    match s.table.freeChain (NUM + 1) c.d0 with
    | .error e => { s with panic := some e }
    | .ok t =>
      ({ s with
        table := t
        info := Function.update s.info c.d0 { s.info c.d0 with b := none }
        log := s.log ++ [Event.free (s.cur b)] }.wakeup Pc.onFree).setPc p (.rwEnd b)

/-- One round of `virtio_disk_intr`. -/
def St.goIntr (s : St n) (p : Fin n) : St n :=
  if slot NUM s.usedIdx = slot NUM s.usedId then s.setPc p .intrEnd
  else
    let id := s.elems (slot NUM s.usedIdx)
    if (s.info id).status ≠ 0 then { s with panic := some .intrStatus }
    else
      match (s.info id).b with
      | none => { s with panic := some .kerneltrap }
      | some b =>
        { s with
          onDisk := Function.update s.onDisk b false
          usedIdx := BitVec.ofNat 16 ((s.usedIdx + 1).toNat % NUM)
          log := s.log ++ [Event.done (s.cur b)] }.wakeup (Pc.onBuf b)

def St.go (s : St n) (p : Fin n) : Option (St n) :=
  match (s.thread p).pc with
  | .user => none
  | .rw b w => s.acquire p (.alloc b w)
  | .alloc b w => some (s.goAlloc p b w)
  | .asleepFree b w => if (s.thread p).sleeping then none else some (s.setPc p (.againFree b w))
  | .againFree b w => s.acquire p (.alloc b w)
  | .format b w c => some (s.goFormat p b w c)
  | .ring b c => some (s.goRing p b c)
  | .bump b c => some (s.goBump p b c)
  | .wait b c => some (s.goWait p b c)
  | .asleepBuf b c => if (s.thread p).sleeping then none else some (s.setPc p (.againBuf b c))
  | .againBuf b c => s.acquire p (.wait b c)
  | .rwEnd _ => some (s.release p)
  | .intr => s.acquire p .intrLoop
  | .intrLoop => some (s.goIntr p)
  | .intrEnd => some (s.release p)

/-! ### The device -/

/-- The device takes the next entry of the avail ring. -/
def St.consume (s : St n) : Option (St n) :=
  if s.last = s.avail then none
  else some { s with last := s.last + 1, busy := s.busy ++ [s.ring (slot NUM s.last)] }

/-- The device writes the status `0` where the third descriptor of the chain points to. -/
def St.writeStatus (s : St n) (h : ℕ) : ℕ → Info :=
  match (s.table.desc (s.table.desc (s.table.desc h).next).next).addr with
  | .status k => Function.update s.info k { s.info k with status := 0 }
  | _ => s.info

/-- The device finishes the `i`th request it works on. -/
def St.post (s : St n) (i : ℕ) : Option (St n) :=
  match s.posted, s.busy[i]? with
  | none, some h =>
    some { s with
      busy := s.busy.eraseIdx i
      info := s.writeStatus h
      elems := Function.update s.elems (slot NUM s.usedId) h
      posted := some h
      log := s.log ++ [Event.complete (s.req h)] }
  | _, _ => none

def St.publish (s : St n) : Option (St n) :=
  match s.posted with
  | some _ => some { s with usedId := s.usedId + 1, posted := none }
  | none => none

/-- The buffer of a call. -/
def Pc.buf : Pc → Option ℕ
  | .rw b _ | .alloc b _ | .asleepFree b _ | .againFree b _ | .format b _ _ => some b
  | .ring b _ | .bump b _ | .wait b _ | .asleepBuf b _ | .againBuf b _ | .rwEnd b => some b
  | _ => none

inductive Act (n : ℕ) where
  | go (p : Fin n)
  /-- A call of `virtio_disk_rw`, by the holder of the sleep-lock of `b`. -/
  | rw (p : Fin n) (b : ℕ) (write : Bool)
  | interrupt (p : Fin n)
  | kill (q : Fin n)
  | consume
  | post (i : ℕ)
  | publish

/-- One step; there is none after a panic. -/
def St.step (s : St n) (a : Act n) : Option (St n) :=
  if s.panic.isSome then none
  else
    match a with
    | .go p => s.go p
    | .rw p b w =>
      if (s.thread p).pc = .user ∧ ∀ q, (s.thread q).pc.buf ≠ some b then some (s.setPc p (.rw b w))
      else none
    | .interrupt p => if (s.thread p).pc = .user then some (s.setPc p .intr) else none
    | .kill q => some (s.setThread q { s.thread q with sleeping := false })
    | .consume => s.consume
    | .post i => s.post i
    | .publish => s.publish

/-- After `virtio_disk_init`. -/
def St.boot (n : ℕ) : St n where
  table := { desc := fun _ => ⟨.null, 0, false, false, 0⟩, free := fun i => decide (i < NUM) }
  ring := fun _ => 0
  avail := 0
  elems := fun _ => 0
  usedId := 0
  usedIdx := 0
  info := fun _ => ⟨none, 0⟩
  onDisk := fun _ => false
  lock := none
  thread := fun _ => ⟨.user, false⟩
  last := 0
  busy := []
  posted := none
  panic := none
  count := 0
  req := fun _ => 0
  cur := fun _ => 0
  log := []

end Xv6.VirtioMachine
