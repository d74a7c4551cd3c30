import Xv6.BufRefs
import Xv6.LabelledRuns

/-!
# The log on top of the buffer cache

`log.c` with its calls of `bread`, `bwrite`, `brelse`, `bpin` and `bunpin` written out.  A process
in `commit` or in `recover_from_log` has a `Place`: the next call it makes, with the buffers in its
local variables.  All other processes read, change and release buffers as they like, and call
`begin_op`, `log_write` and `end_op`.

The machine starts at boot, with process `0` in `recover_from_log` and any contents of the disk.
Critical sections are atomic.  `log_write` is cut at its `acquire`, after the two panic tests.
-/

namespace Xv6.BufLog

open Xv6.Params Xv6.LabelledRuns Xv6.LogMachine Xv6.BufCache

/-- The two calls of `write_head`. -/
inductive HeadWrite where
  | commitPoint
  | erase
deriving DecidableEq

inductive Place where
  -- read_head
  | readHead
  | readHeadCopy (buf : Fin NBUF)
  | readHeadRelse (buf : Fin NBUF)
  -- write_log
  | writeLog (tail : ℕ)
  | writeLogFrom (tail : ℕ) (dst : Fin NBUF)
  | writeLogCopy (tail : ℕ) (dst src : Fin NBUF)
  | writeLogRelse (tail : ℕ) (dst src : Fin NBUF)
  | writeLogRelseTo (tail : ℕ) (dst : Fin NBUF)
  -- write_head
  | writeHead (w : HeadWrite)
  | writeHeadCopy (w : HeadWrite) (buf : Fin NBUF)
  | writeHeadRelse (w : HeadWrite) (buf : Fin NBUF)
  -- install_trans
  | install (tail : ℕ)
  | installHome (tail : ℕ) (lbuf : Fin NBUF)
  | installCopy (tail : ℕ) (lbuf dbuf : Fin NBUF)
  | unpin (tail : ℕ) (lbuf dbuf : Fin NBUF)
  | relseLog (tail : ℕ) (lbuf dbuf : Fin NBUF)
  | relseHome (tail : ℕ) (dbuf : Fin NBUF)
  | finished
deriving DecidableEq

inductive Pc where
  | idle
  | asleep
  | woken
  | inOp
  | logging (b : Fin NBUF)
  | commit (c : Place)
deriving DecidableEq

inductive Panic where
  | noBuffers
  | brelse
  | bwrite
  | tooBig
  | outsideTrans
  | committing
deriving DecidableEq

inductive Phase where
  | recovering
  | running
  | panicked (m : Panic)
deriving DecidableEq

structure Sys where
  disk : Disk
  bio : Bio
  lh : List UInt32
  outstanding : ℕ
  committing : Bool
  pc : Fin NPROC → Pc
  phase : Phase

inductive Event where
  | bread (p : Fin NPROC) (dev blockno : UInt32)
  | lock (p : Fin NPROC)
  | modify (p : Fin NPROC) (b : Fin NBUF) (data : Block)
  | brelse (p : Fin NPROC) (b : Fin NBUF)
  | put (p : Fin NPROC)
  | beginOp (p : Fin NPROC)
  | beginSleep (p : Fin NPROC)
  | logWrite (p : Fin NPROC) (b : Fin NBUF)
  | logAppend (p : Fin NPROC)
  | endOp (p : Fin NPROC)
  /-- the next step of `commit` or `recover_from_log` -/
  | go (p : Fin NPROC)

/-- Boot with this disk. -/
def boot (disk : Disk) : Sys where
  disk := disk
  bio := binit
  lh := []
  outstanding := 0
  committing := false
  pc := fun p => if p.val = 0 then .commit .readHead else .idle
  phase := .recovering

/-! ### Calls of `bio.c` -/

def Sys.setPc (s : Sys) (p : Fin NPROC) (c : Pc) : Sys := { s with pc := Function.update s.pc p c }

def Sys.panic (s : Sys) (m : Panic) : Sys := { s with phase := .panicked m }

/-- `bread` up to `acquiresleep`. -/
def Sys.startBread (s : Sys) (p : Fin NPROC) (dev blockno : UInt32) : Sys :=
  match s.bio.bget p dev blockno with
  | some bio => { s with bio := bio }
  | none => s.panic .noBuffers

/-- `brelse` up to the end of `releasesleep`. -/
def Sys.startRelse (s : Sys) (p : Fin NPROC) (b : Fin NBUF) : Sys :=
  if (s.bio.buf b).owner = some p then { s with bio := s.bio.unlock p b } else s.panic .brelse

/-- `memmove(b->data, data, BSIZE); bwrite(b)`. -/
def Sys.copyOut (s : Sys) (p : Fin NPROC) (b : Fin NBUF) (data : Block) (c : Place) : Sys :=
  if (s.bio.buf b).owner = some p then
    { s with
      bio := s.bio.store b data
      disk := Function.update s.disk (s.bio.buf b).blockno.toNat data }.setPc p (.commit c)
  else s.panic .bwrite

/-! ### `commit` and `recover_from_log` -/

/-- Where `bread` returns `b` to. -/
def Place.got : Place → Fin NBUF → Place
  | .readHead, b => .readHeadCopy b
  | .writeLog tail, b => .writeLogFrom tail b
  | .writeLogFrom tail dst, b => .writeLogCopy tail dst b
  | .writeHead w, b => .writeHeadCopy w b
  | .install tail, b => .installHome tail b
  | .installHome tail lbuf, b => .installCopy tail lbuf b
  | c, _ => c

/-- Where `brelse` returns to. -/
def Place.released : Place → Place
  | .readHeadRelse _ => .install 0
  | .writeLogRelse tail dst _ => .writeLogRelseTo tail dst
  | .writeLogRelseTo tail _ => .writeLog (tail + 1)
  | .writeHeadRelse .commitPoint _ => .install 0
  | .writeHeadRelse .erase _ => .finished
  | .relseLog tail _ dbuf => .relseHome tail dbuf
  | .relseHome tail _ => .install (tail + 1)
  | c => c

/-- `log.start + tail + 1`. -/
def logBlock (g : Geometry) (tail : ℕ) : UInt32 := UInt32.ofNat (g.start + tail + 1)

def wakeup (s : Sys) : Sys :=
  { s with pc := fun p => if s.pc p = .asleep then .woken else s.pc p }

def Sys.act (g : Geometry) (s : Sys) (p : Fin NPROC) : Place → Sys
  | .readHead => s.startBread p g.dev (UInt32.ofNat g.start)
  | .readHeadCopy buf =>
    { s with lh := LogMachine.readHead (s.bio.buf buf).data }.setPc p
      (.commit (.readHeadRelse buf))
  | .readHeadRelse buf => s.startRelse p buf
  | .writeLog tail =>
    if tail < s.lh.length then s.startBread p g.dev (logBlock g tail)
    else s.setPc p (.commit (.writeHead .commitPoint))
  | .writeLogFrom tail _ => s.startBread p g.dev (s.lh.getD tail 0)
  | .writeLogCopy tail dst src =>
    s.copyOut p dst (s.bio.buf src).data (.writeLogRelse tail dst src)
  | .writeLogRelse _ _ src => s.startRelse p src
  | .writeLogRelseTo _ dst => s.startRelse p dst
  | .writeHead _ => s.startBread p g.dev (UInt32.ofNat g.start)
  | .writeHeadCopy w buf =>
    s.copyOut p buf (putHead (s.bio.buf buf).data s.lh) (.writeHeadRelse w buf)
  | .writeHeadRelse _ buf => s.startRelse p buf
  | .install tail =>
    if tail < s.lh.length then s.startBread p g.dev (logBlock g tail)
    else { s with lh := [] }.setPc p (.commit (.writeHead .erase))
  | .installHome tail _ => s.startBread p g.dev (s.lh.getD tail 0)
  | .installCopy tail lbuf dbuf =>
    s.copyOut p dbuf (s.bio.buf lbuf).data (.unpin tail lbuf dbuf)
  | .unpin tail lbuf dbuf =>
    { s with bio := s.bio.bunpin dbuf }.setPc p (.commit (.relseLog tail lbuf dbuf))
  | .relseLog _ lbuf _ => s.startRelse p lbuf
  | .relseHome _ dbuf => s.startRelse p dbuf
  | .finished =>
    if s.phase = .recovering then { s with phase := .running }.setPc p .idle
    else (wakeup { s with committing := false }).setPc p .idle

/-- A process inside `commit` or `recover_from_log` at place `c`. -/
def Sys.goOn (g : Geometry) (s : Sys) (p : Fin NPROC) (c : Place) : Option Sys :=
  match s.bio.call p with
  | .none => some (s.act g p c)
  | .waiting b =>
    if (s.bio.buf b).owner = none then
      some ({ s with bio := s.bio.fill s.disk p b }.setPc p (.commit (c.got b)))
    else none
  | .releasing b => some ({ s with bio := s.bio.put p b }.setPc p (.commit c.released))

/-! ### The transition function -/

/-- Process `p` runs code outside `bio.c` and `log.c`. -/
def Sys.atLarge (s : Sys) (p : Fin NPROC) : Bool :=
  decide (s.phase = .running) && decide (s.bio.call p = .none) &&
    (decide (s.pc p = .idle) || decide (s.pc p = .inOp))

/-- Process `p` is inside `bread` or `brelse` called from such code. -/
def Sys.inCall (s : Sys) (p : Fin NPROC) : Bool :=
  decide (s.phase = .running) && (decide (s.pc p = .idle) || decide (s.pc p = .inOp))

def admits (s : Sys) : Bool :=
  !s.committing && decide (s.lh.length + (s.outstanding + 1) * MAXOPBLOCKS ≤ LOGSIZE)

def tooBig (g : Geometry) (s : Sys) : Bool :=
  decide (s.lh.length ≥ LOGSIZE) || decide (s.lh.length ≥ g.size - 1)

/-- `log_write` up to its `acquire`. -/
def Sys.checkLogWrite (g : Geometry) (s : Sys) (p : Fin NPROC) (b : Fin NBUF) : Sys :=
  if tooBig g s then s.panic .tooBig
  else if s.outstanding < 1 then s.panic .outsideTrans
  else s.setPc p (.logging b)

/-- The locked part of `log_write`. -/
def Sys.appendLog (s : Sys) (p : Fin NPROC) (b : Fin NBUF) : Sys :=
  let blockno := (s.bio.buf b).blockno
  if blockno ∈ s.lh then s.setPc p .inOp
  else { s with bio := s.bio.bpin b, lh := s.lh ++ [blockno] }.setPc p .inOp

/-- `end_op` up to the `release`. -/
def Sys.endOp (s : Sys) (p : Fin NPROC) : Sys :=
  let s := { s with outstanding := s.outstanding - 1 }
  if s.committing then s.panic .committing
  else if s.outstanding = 0 then
    { s with committing := true }.setPc p
      (.commit (if s.lh.length > 0 then .writeLog 0 else .finished))
  else (wakeup s).setPc p .idle

/-- **The transition function.**  A caller of `log_write` holds the buffer, and the buffer caches a
block of the file system's device.  The array `log.lh.block` has `LOGSIZE` elements; an addition
beyond them has no meaning in C and no step here. -/
def step (g : Geometry) (s : Sys) : Event → Option Sys
  | .bread p dev blockno => if s.atLarge p then some (s.startBread p dev blockno) else none
  | .lock p =>
    match s.bio.call p with
    | .waiting b =>
      if s.inCall p ∧ (s.bio.buf b).owner = none then
        some { s with bio := s.bio.fill s.disk p b }
      else none
    | _ => none
  | .modify p b data =>
    if s.atLarge p ∧ b ∈ s.bio.held p then some { s with bio := s.bio.store b data } else none
  | .brelse p b => if s.atLarge p ∧ b ∈ s.bio.held p then some (s.startRelse p b) else none
  | .put p =>
    match s.bio.call p with
    | .releasing b => if s.inCall p then some { s with bio := s.bio.put p b } else none
    | _ => none
  | .beginOp p =>
    if s.phase = .running ∧ s.bio.call p = .none ∧ (s.pc p = .idle ∨ s.pc p = .woken) ∧
        admits s = true then
      some ({ s with outstanding := s.outstanding + 1 }.setPc p .inOp)
    else none
  | .beginSleep p =>
    if s.phase = .running ∧ s.bio.call p = .none ∧ (s.pc p = .idle ∨ s.pc p = .woken) ∧
        admits s = false then
      some (s.setPc p .asleep)
    else none
  | .logWrite p b =>
    if s.phase = .running ∧ s.bio.call p = .none ∧ s.pc p = .inOp ∧ b ∈ s.bio.held p ∧
        (s.bio.buf b).dev = g.dev then
      some (s.checkLogWrite g p b)
    else none
  | .logAppend p =>
    match s.pc p with
    | .logging b =>
      if s.phase = .running ∧ ((s.bio.buf b).blockno ∈ s.lh ∨ s.lh.length < LOGSIZE) then
        some (s.appendLog p b)
      else none
    | _ => none
  | .endOp p =>
    if s.phase = .running ∧ s.bio.call p = .none ∧ s.pc p = .inOp then some (s.endOp p) else none
  | .go p =>
    match s.pc p, s.phase with
    | .commit _, .panicked _ => none
    | .commit c, _ => s.goOn g p c
    | _, _ => none

/-! ### Inversion -/

/-- The block the place reads, when its next call is `bread`. -/
def Place.breads (g : Geometry) (lh : List UInt32) : Place → Option UInt32
  | .readHead => some (UInt32.ofNat g.start)
  | .writeLog tail => if tail < lh.length then some (logBlock g tail) else none
  | .writeLogFrom tail _ => some (lh.getD tail 0)
  | .writeHead _ => some (UInt32.ofNat g.start)
  | .install tail => if tail < lh.length then some (logBlock g tail) else none
  | .installHome tail _ => some (lh.getD tail 0)
  | _ => none

/-- The buffer the place releases, when its next call is `brelse`. -/
def Place.relses : Place → Option (Fin NBUF)
  | .readHeadRelse buf => some buf
  | .writeLogRelse _ _ src => some src
  | .writeLogRelseTo _ dst => some dst
  | .writeHeadRelse _ buf => some buf
  | .relseLog _ lbuf _ => some lbuf
  | .relseHome _ dbuf => some dbuf
  | _ => none

/-- The place after a `memmove` and `bwrite`. -/
def Place.copied : Place → Option Place
  | .writeLogCopy tail dst src => some (.writeLogRelse tail dst src)
  | .writeHeadCopy w buf => some (.writeHeadRelse w buf)
  | .installCopy tail lbuf dbuf => some (.unpin tail lbuf dbuf)
  | _ => none

/-- Everything process `p` can do at place `c` when it is in no call. -/
inductive Acts (g : Geometry) (s : Sys) (p : Fin NPROC) : Place → Sys → Prop where
  | panic {c : Place} (m : Panic) : Acts g s p c (s.panic m)
  | bread {c : Place} {blockno : UInt32} {bio : Bio} (hc : c.breads g s.lh = some blockno)
      (hg : s.bio.bget p g.dev blockno = some bio) : Acts g s p c { s with bio := bio }
  | relse {c : Place} {b : Fin NBUF} (hc : c.relses = some b)
      (ho : (s.bio.buf b).owner = some p) : Acts g s p c { s with bio := s.bio.unlock p b }
  | copy {c c' : Place} {b : Fin NBUF} {data : Block} {n : ℕ} (hc : c.copied = some c') :
      Acts g s p c ({ s with
        bio := s.bio.store b data, disk := Function.update s.disk n data }.setPc p (.commit c'))
  | readHeadCopy {buf : Fin NBUF} :
      Acts g s p (.readHeadCopy buf)
        ({ s with lh := LogMachine.readHead (s.bio.buf buf).data }.setPc p
          (.commit (.readHeadRelse buf)))
  | logWritten {tail : ℕ} (ht : ¬ tail < s.lh.length) :
      Acts g s p (.writeLog tail) (s.setPc p (.commit (.writeHead .commitPoint)))
  | installed {tail : ℕ} (ht : ¬ tail < s.lh.length) :
      Acts g s p (.install tail) ({ s with lh := [] }.setPc p (.commit (.writeHead .erase)))
  | unpin {tail : ℕ} {lbuf dbuf : Fin NBUF} :
      Acts g s p (.unpin tail lbuf dbuf)
        ({ s with bio := s.bio.bunpin dbuf }.setPc p (.commit (.relseLog tail lbuf dbuf)))
  | recovered (hph : s.phase = .recovering) :
      Acts g s p .finished ({ s with phase := .running }.setPc p .idle)
  | endCommit (hph : s.phase ≠ .recovering) :
      Acts g s p .finished ((wakeup { s with committing := false }).setPc p .idle)

section Inversion

variable {g : Geometry} {s t : Sys} {p : Fin NPROC} {c : Place}

theorem acts_startBread {blockno : UInt32} (hc : c.breads g s.lh = some blockno) :
    Acts g s p c (s.startBread p g.dev blockno) := by
  unfold Sys.startBread
  split
  · exact .bread hc ‹_›
  · exact .panic _

theorem acts_startRelse {b : Fin NBUF} (hc : c.relses = some b) : Acts g s p c (s.startRelse p b) := by
  unfold Sys.startRelse
  split
  · exact .relse hc ‹_›
  · exact .panic _

theorem acts_copyOut {b : Fin NBUF} {data : Block} {c' : Place} (hc : c.copied = some c') :
    Acts g s p c (s.copyOut p b data c') := by
  unfold Sys.copyOut
  split
  · exact .copy hc
  · exact .panic _

theorem acts_act (g : Geometry) (s : Sys) (p : Fin NPROC) (c : Place) : Acts g s p c (s.act g p c) := by
  cases c with
  | readHead | writeLogFrom tail dst | writeHead w | installHome tail lbuf => exact acts_startBread rfl
  | readHeadCopy buf => exact .readHeadCopy
  | readHeadRelse buf | writeLogRelse tail dst src | writeLogRelseTo tail dst | writeHeadRelse w buf
  | relseLog tail lbuf dbuf | relseHome tail dbuf => exact acts_startRelse rfl
  | writeLog tail =>
    by_cases ht : tail < s.lh.length
    · simp only [Sys.act, if_pos ht]
      exact acts_startBread (if_pos ht)
    · simp only [Sys.act, if_neg ht]
      exact .logWritten ht
  | writeLogCopy tail dst src | writeHeadCopy w buf | installCopy tail lbuf dbuf => exact acts_copyOut rfl
  | install tail =>
    by_cases ht : tail < s.lh.length
    · simp only [Sys.act, if_pos ht]
      exact acts_startBread (if_pos ht)
    · simp only [Sys.act, if_neg ht]
      exact .installed ht
  | unpin tail lbuf dbuf => exact .unpin
  | finished =>
    by_cases hph : s.phase = .recovering
    · simp only [Sys.act, if_pos hph]
      exact .recovered hph
    · simp only [Sys.act, if_neg hph]
      exact .endCommit hph

end Inversion

inductive Moves (g : Geometry) (s : Sys) : Sys → Prop where
  | panic (m : Panic) : Moves g s (s.panic m)
  | bread {p : Fin NPROC} {dev blockno : UInt32} {bio : Bio} (hp : s.atLarge p = true)
      (hg : s.bio.bget p dev blockno = some bio) : Moves g s { s with bio := bio }
  | lock {p : Fin NPROC} {b : Fin NBUF} (hp : s.inCall p = true) (hc : s.bio.call p = .waiting b)
      (ho : (s.bio.buf b).owner = none) : Moves g s { s with bio := s.bio.fill s.disk p b }
  | modify {p : Fin NPROC} {b : Fin NBUF} {data : Block} (hp : s.atLarge p = true)
      (hb : b ∈ s.bio.held p) : Moves g s { s with bio := s.bio.store b data }
  | brelse {p : Fin NPROC} {b : Fin NBUF} (hp : s.atLarge p = true) (hb : b ∈ s.bio.held p) :
      Moves g s { s with bio := s.bio.unlock p b }
  | put {p : Fin NPROC} {b : Fin NBUF} (hp : s.inCall p = true)
      (hc : s.bio.call p = .releasing b) : Moves g s { s with bio := s.bio.put p b }
  | beginOp {p : Fin NPROC} (hph : s.phase = .running) (hp : s.pc p = .idle ∨ s.pc p = .woken)
      (ha : admits s = true) :
      Moves g s ({ s with outstanding := s.outstanding + 1 }.setPc p .inOp)
  | beginSleep {p : Fin NPROC} (hph : s.phase = .running) (hp : s.pc p = .idle ∨ s.pc p = .woken) :
      Moves g s (s.setPc p .asleep)
  | logCheck {p : Fin NPROC} {b : Fin NBUF} (hph : s.phase = .running) (hp : s.pc p = .inOp)
      (hb : b ∈ s.bio.held p) (hd : (s.bio.buf b).dev = g.dev) :
      Moves g s (s.setPc p (.logging b))
  | absorb {p : Fin NPROC} {b : Fin NBUF} (hph : s.phase = .running) (hp : s.pc p = .logging b) :
      Moves g s (s.setPc p .inOp)
  | append {p : Fin NPROC} {b : Fin NBUF} (hph : s.phase = .running) (hp : s.pc p = .logging b)
      (hb : (s.bio.buf b).blockno ∉ s.lh) :
      Moves g s ({ s with
        bio := s.bio.bpin b, lh := s.lh ++ [(s.bio.buf b).blockno] }.setPc p .inOp)
  | endOpPanic :
      Moves g s { s with outstanding := s.outstanding - 1, phase := .panicked .committing }
  | endOpLast {p : Fin NPROC} (hph : s.phase = .running) (hp : s.pc p = .inOp)
      (hc : s.bio.call p = .none) (hcom : s.committing = false) (hlast : s.outstanding - 1 = 0) :
      Moves g s ({ s with outstanding := s.outstanding - 1, committing := true }.setPc p
        (.commit (if s.lh.length > 0 then .writeLog 0 else .finished)))
  | endOpMore {p : Fin NPROC} (hph : s.phase = .running) (hp : s.pc p = .inOp) :
      Moves g s ((wakeup { s with outstanding := s.outstanding - 1 }).setPc p .idle)
  | goFill {p : Fin NPROC} {c : Place} {b : Fin NBUF} (hp : s.pc p = .commit c)
      (hph : ∀ m, s.phase ≠ .panicked m) (hc : s.bio.call p = .waiting b)
      (ho : (s.bio.buf b).owner = none) :
      Moves g s ({ s with bio := s.bio.fill s.disk p b }.setPc p (.commit (c.got b)))
  | goPut {p : Fin NPROC} {c : Place} {b : Fin NBUF} (hp : s.pc p = .commit c)
      (hph : ∀ m, s.phase ≠ .panicked m) (hc : s.bio.call p = .releasing b) :
      Moves g s ({ s with bio := s.bio.put p b }.setPc p (.commit c.released))
  | goAct {p : Fin NPROC} {c : Place} {t : Sys} (hp : s.pc p = .commit c)
      (hph : ∀ m, s.phase ≠ .panicked m) (hc : s.bio.call p = .none) (ha : Acts g s p c t) :
      Moves g s t

section Inversion

variable {g : Geometry} {s t : Sys} {p : Fin NPROC}

theorem moves_goOn {c : Place} (hp : s.pc p = .commit c) (hph : ∀ m, s.phase ≠ .panicked m)
    (h : s.goOn g p c = some t) : Moves g s t := by
  unfold Sys.goOn at h
  split at h
  case h_1 hc =>
    cases h
    exact .goAct hp hph hc (acts_act g s p c)
  case h_2 b hc =>
    obtain ⟨ho, rfl⟩ := some_of_guard h
    exact .goFill hp hph hc ho
  case h_3 b hc =>
    cases h
    exact .goPut hp hph hc

theorem moves_logCheck {b : Fin NBUF} (hph : s.phase = .running) (hp : s.pc p = .inOp)
    (hb : b ∈ s.bio.held p) (hd : (s.bio.buf b).dev = g.dev) : Moves g s (s.checkLogWrite g p b) := by
  unfold Sys.checkLogWrite
  split
  · exact .panic _
  · split
    · exact .panic _
    · exact .logCheck hph hp hb hd

theorem moves_appendLog {b : Fin NBUF} (hph : s.phase = .running) (hp : s.pc p = .logging b) :
    Moves g s (s.appendLog p b) := by
  by_cases hb : (s.bio.buf b).blockno ∈ s.lh
  · simp only [Sys.appendLog, if_pos hb]
    exact .absorb hph hp
  · simp only [Sys.appendLog, if_neg hb]
    exact .append hph hp hb

theorem moves_endOp (hph : s.phase = .running) (hc : s.bio.call p = .none)
    (hp : s.pc p = .inOp) : Moves g s (s.endOp p) := by
  cases hcom : s.committing with
  | true =>
    have heq : s.endOp p =
        { s with outstanding := s.outstanding - 1, phase := .panicked .committing } := by
      simp [Sys.endOp, hcom, Sys.panic]
    rw [heq]
    exact .endOpPanic
  | false =>
    by_cases hlast : s.outstanding - 1 = 0
    · have heq : s.endOp p =
          { s with outstanding := s.outstanding - 1, committing := true }.setPc p
            (.commit (if s.lh.length > 0 then .writeLog 0 else .finished)) := by
        simp [Sys.endOp, hcom, hlast]
      rw [heq]
      exact .endOpLast hph hp hc hcom hlast
    · have heq : s.endOp p =
          (wakeup { s with outstanding := s.outstanding - 1 }).setPc p .idle := by
        simp [Sys.endOp, hcom, hlast]
      rw [heq]
      exact .endOpMore hph hp

theorem moves_startBread {dev blockno : UInt32} (hp : s.atLarge p = true) :
    Moves g s (s.startBread p dev blockno) := by
  unfold Sys.startBread
  split
  · exact .bread hp ‹_›
  · exact .panic _

theorem moves_startRelse {b : Fin NBUF} (hp : s.atLarge p = true) (hb : b ∈ s.bio.held p) :
    Moves g s (s.startRelse p b) := by
  unfold Sys.startRelse
  split
  · exact .brelse hp hb
  · exact .panic _

/-- **Inversion of `step`.** -/
theorem moves_of_step {e : Event} (h : step g s e = some t) : Moves g s t := by
  cases e with
  | bread p dev blockno =>
    obtain ⟨hp, rfl⟩ := some_of_guard h
    exact moves_startBread hp
  | lock p =>
    simp only [step] at h
    split at h
    case h_2 => cases h
    case h_1 b hc =>
      obtain ⟨hg, rfl⟩ := some_of_guard h
      exact .lock hg.1 hc hg.2
  | modify p b data =>
    obtain ⟨hg, rfl⟩ := some_of_guard h
    exact .modify hg.1 hg.2
  | brelse p b =>
    obtain ⟨hg, rfl⟩ := some_of_guard h
    exact moves_startRelse hg.1 hg.2
  | put p =>
    simp only [step] at h
    split at h
    case h_2 => cases h
    case h_1 b hc =>
      obtain ⟨hp, rfl⟩ := some_of_guard h
      exact .put hp hc
  | beginOp p =>
    obtain ⟨hg, rfl⟩ := some_of_guard h
    exact .beginOp hg.1 hg.2.2.1 hg.2.2.2
  | beginSleep p =>
    obtain ⟨hg, rfl⟩ := some_of_guard h
    exact .beginSleep hg.1 hg.2.2.1
  | logWrite p b =>
    obtain ⟨hg, rfl⟩ := some_of_guard h
    exact moves_logCheck hg.1 hg.2.2.1 hg.2.2.2.1 hg.2.2.2.2
  | logAppend p =>
    simp only [step] at h
    split at h
    case h_2 => cases h
    case h_1 b hp =>
      obtain ⟨hg, rfl⟩ := some_of_guard h
      exact moves_appendLog hg.1 hp
  | endOp p =>
    obtain ⟨hg, rfl⟩ := some_of_guard h
    exact moves_endOp hg.1 hg.2.1 hg.2.2
  | go p =>
    simp only [step] at h
    split at h
    case h_1 | h_3 => cases h
    case h_2 c hp hph =>
      exact moves_goOn hp hph h

end Inversion

end Xv6.BufLog
