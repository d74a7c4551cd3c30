import Xv6.LabelledRuns
import Xv6.LittleEndian
import Xv6.Params

/-!
# The redo log (`kernel/log.c`) as a transition system

The state is the disk, the buffer cache taken as a map from block number to current contents,
the in-memory `struct log`, and for every process the place in `begin_op` / `log_write` /
`end_op` it has reached.  Every label is one atomic action: a critical section of `log.lock`, or
a single disk write of `commit` or of `recover_from_log`.  A crash may happen anywhere; it keeps
the disk and nothing else.

`log_write` tests `log.lh.n` *before* it acquires `log.lock`.  The label `logWrite` is the whole
call; the pair `logCheck`, `logAppend` is the same call cut at the `acquire`, so that other
processes can move in between.

Sleeping in `begin_op` and `wakeup(&log)` are modelled (`Pc.asleep`, `Pc.woken`).  The log
header is a real block: `n` and `block[]` are little-endian 32-bit fields of it, and `write_head`
leaves the bytes behind the first `n` entries as they were.
-/

namespace Xv6.LogMachine

open Xv6.LabelledRuns Xv6.LittleEndian Xv6.Params

abbrev Block := ℕ → UInt8

/-- Block number to contents. -/
abbrev Disk := ℕ → Block

/-- `log.start` and `log.size`, as `initlog` takes them from the superblock, and `log.dev`.  The header
block is part of the log, so the log is never empty; device `0` is what an unused buffer has. -/
structure Geometry where
  start : ℕ
  size : ℕ
  size_pos : 0 < size
  dev : UInt32
  dev_ne : dev ≠ 0

/-- Block `b` belongs to the log area. -/
def Geometry.InLog (g : Geometry) (b : ℕ) : Prop := g.start ≤ b ∧ b < g.start + g.size

instance (g : Geometry) (b : ℕ) : Decidable (g.InLog b) :=
  inferInstanceAs (Decidable (_ ∧ _))

/-- The log `mkfs` lays out, after the boot block and the super block. -/
def mkfsLog : Geometry := ⟨2, nlog, by decide, ROOTDEV, by decide⟩

/-! ### The header block -/

/-- `lh->n`. -/
def headN (blk : Block) : ℕ := getLE blk 0 4

/-- `lh->block[i]`. -/
def headBlock (blk : Block) (i : ℕ) : UInt32 := UInt32.ofNat (getLE blk (4 + 4 * i) 4)

/-- `read_head`: the first `n` block numbers of the header. -/
def readHead (blk : Block) : List UInt32 := (List.range (headN blk)).map (headBlock blk)

/-- The loop of `write_head`, from index `i` on. -/
def putBlocks (blk : Block) : ℕ → List UInt32 → Block
  | _, [] => blk
  | i, b :: bs => putBlocks (setLE blk (4 + 4 * i) 4 b.toNat) (i + 1) bs

/-- The header block after `write_head` has stored `n` and the first `n` block numbers in it. -/
def putHead (blk : Block) (lh : List UInt32) : Block :=
  putBlocks (setLE blk 0 4 lh.length) 0 lh

theorem headN_putBlocks (blk : Block) (i : ℕ) (bs : List UInt32) : headN (putBlocks blk i bs) = headN blk := by
  induction bs generalizing blk i with
  | nil => rfl
  | cons b bs ih =>
    rw [putBlocks, ih]
    exact getLE_setLE_disjoint blk (by omega)

theorem headBlock_putBlocks_below (blk : Block) (i k : ℕ) (bs : List UInt32) (h : k < i) :
    headBlock (putBlocks blk i bs) k = headBlock blk k := by
  induction bs generalizing blk i with
  | nil => rfl
  | cons b bs ih =>
    rw [putBlocks, ih _ (i + 1) (by omega), headBlock, headBlock,
      getLE_setLE_disjoint blk (by omega)]

theorem headBlock_putBlocks (blk : Block) (i k : ℕ) (bs : List UInt32) (h : k < bs.length) :
    headBlock (putBlocks blk i bs) (i + k) = bs.getD k 0 := by
  induction bs generalizing blk i k with
  | nil => simp at h
  | cons b bs ih =>
    cases k with
    | zero =>
      have hb : b.toNat < 256 ^ 4 := b.toNat_lt
      rw [putBlocks, headBlock_putBlocks_below _ _ _ _ (by omega), headBlock, Nat.add_zero,
        getLE_setLE blk hb, UInt32.ofNat_toNat, List.getD_cons_zero]
    | succ k =>
      rw [putBlocks, show i + (k + 1) = i + 1 + k from by omega, List.getD_cons_succ]
      exact ih _ _ _ (by simpa using h)

/-- **The header reads back what `write_head` stored.** -/
theorem readHead_putHead (blk : Block) (lh : List UInt32) (h : lh.length < 2 ^ 32) :
    readHead (putHead blk lh) = lh := by
  have hn : headN (putHead blk lh) = lh.length := by
    rw [putHead, headN_putBlocks]
    exact getLE_setLE blk h
  apply List.ext_getElem
  · rw [readHead, List.length_map, List.length_range, hn]
  · intro k h₁ h₂
    have hk := headBlock_putBlocks (setLE blk 0 4 lh.length) 0 k lh h₂
    rw [Nat.zero_add, List.getD_eq_getElem?_getD, List.getElem?_eq_getElem h₂] at hk
    simpa [readHead, putHead] using hk

/-! ### States -/

/-- Where `commit` is; each constructor names the next disk write. -/
inductive CommitPc where
  | writeLog (tail : ℕ)
  | installTrans (tail : ℕ)
  | finished
  deriving DecidableEq, Repr

inductive Pc where
  /-- outside every operation -/
  | idle
  /-- in `begin_op`, SLEEPING on `&log` -/
  | asleep
  /-- in `begin_op`, woken up, about to test the loop condition again -/
  | woken
  /-- between `begin_op` and `end_op` -/
  | inOp
  /-- in `log_write(b)`, past the two panic tests, before `acquire(&log.lock)` -/
  | logging (b : UInt32)
  /-- in `end_op`, running `commit` -/
  | commit (c : CommitPc)
  deriving DecidableEq, Repr

/-- The panics of `log.c`, by message. -/
inductive Panic where
  /-- `"too big a transaction"` -/
  | tooBig
  /-- `"log_write outside of trans"` -/
  | outsideTrans
  /-- `"log.committing"` -/
  | committing
  deriving DecidableEq, Repr

inductive Phase where
  | recovering (tail : ℕ)
  | running
  | panicked (m : Panic)
  deriving DecidableEq, Repr

structure LogSys where
  disk : Disk
  cache : Disk
  lh : List UInt32
  outstanding : ℕ
  committing : Bool
  pc : ℕ → Pc
  phase : Phase

/-- One atomic action.  `p` is the process that takes it. -/
inductive Event where
  | beginOp (p : ℕ)
  | beginSleep (p : ℕ)
  | logWrite (p : ℕ) (b : UInt32) (data : Block)
  | logCheck (p : ℕ) (b : UInt32) (data : Block)
  | logAppend (p : ℕ)
  | endOp (p : ℕ)
  | writeLog (p : ℕ)
  | writeHead (p : ℕ)
  | installTrans (p : ℕ)
  | eraseHead (p : ℕ)
  | endCommit (p : ℕ)
  | crash
  | recover

/-! ### The functions of `log.c` -/

/-- `to = bread(start + tail + 1); from = bread(lh.block[tail]); memmove; bwrite(to)`. -/
def writeLogBlock (g : Geometry) (s : LogSys) (tail : ℕ) : LogSys :=
  let data := s.cache (s.lh.getD tail 0).toNat
  { s with
    cache := Function.update s.cache (g.start + tail + 1) data
    disk := Function.update s.disk (g.start + tail + 1) data }

/-- `lbuf = bread(start + tail + 1); dbuf = bread(lh.block[tail]); memmove; bwrite(dbuf)`. -/
def installBlock (g : Geometry) (s : LogSys) (tail : ℕ) : LogSys :=
  let data := s.cache (g.start + tail + 1)
  { s with
    cache := Function.update s.cache (s.lh.getD tail 0).toNat data
    disk := Function.update s.disk (s.lh.getD tail 0).toNat data }

/-- `write_head`. -/
def storeHead (g : Geometry) (s : LogSys) : LogSys :=
  let hb := putHead (s.cache g.start) s.lh
  { s with
    cache := Function.update s.cache g.start hb
    disk := Function.update s.disk g.start hb }

def setPc (s : LogSys) (p : ℕ) (c : Pc) : LogSys := { s with pc := Function.update s.pc p c }

/-- `wakeup(&log)`. -/
def wakeup (s : LogSys) : LogSys :=
  { s with pc := fun p => if s.pc p = .asleep then .woken else s.pc p }

/-- The loop of `begin_op` lets the operation in. -/
def admits (s : LogSys) : Bool :=
  !s.committing && decide (s.lh.length + (s.outstanding + 1) * MAXOPBLOCKS ≤ LOGSIZE)

/-- The first panic test of `log_write`: `"too big a transaction"`. -/
def tooBig (g : Geometry) (s : LogSys) : Bool :=
  decide (s.lh.length ≥ LOGSIZE) || decide (s.lh.length ≥ g.size - 1)

/-- The locked part of `log_write`: absorb `b`, or add it to the log. -/
def append (lh : List UInt32) (b : UInt32) : List UInt32 :=
  let i := lh.idxOf b
  if i = lh.length then lh ++ [b] else lh.set i b

theorem append_of_mem {lh : List UInt32} {b : UInt32} (hb : b ∈ lh) : append lh b = lh := by
  have hlt := List.idxOf_lt_length_of_mem hb
  have hset := List.set_getElem_self hlt
  rw [List.getElem_idxOf hlt] at hset
  simp only [append, if_neg (show lh.idxOf b ≠ lh.length from by omega)]
  exact hset

theorem append_of_not_mem {lh : List UInt32} {b : UInt32} (hb : b ∉ lh) : append lh b = lh ++ [b] := by
  simp [append, List.idxOf_eq_length_iff.mpr hb]

theorem mem_append {lh : List UInt32} {b x : UInt32} : x ∈ append lh b ↔ x ∈ lh ∨ x = b := by
  by_cases hb : b ∈ lh
  · rw [append_of_mem hb]
    exact ⟨Or.inl, fun h => h.elim id fun he => he ▸ hb⟩
  · simp [append_of_not_mem hb]

/-- A machine that has just been switched on with this disk, after `read_head`. -/
def boot (g : Geometry) (d : Disk) : LogSys where
  disk := d
  cache := d
  lh := readHead (d g.start)
  outstanding := 0
  committing := false
  pc := fun _ => .idle
  phase := .recovering 0

/-- The next disk write of `recover_from_log`: an `install_trans` iteration, or the `write_head`
that clears the log. -/
def recoverWrite (g : Geometry) (s : LogSys) (tail : ℕ) : LogSys :=
  if tail < s.lh.length then { installBlock g s tail with phase := .recovering (tail + 1) }
  else { storeHead g { s with lh := [] } with phase := .running }

/-- The caller of `log_write` has set `b->data`; then come the two panic tests, made without the
lock. -/
def checkLogWrite (g : Geometry) (s : LogSys) (p : ℕ) (b : UInt32) (data : Block) : LogSys :=
  let s := { s with cache := Function.update s.cache b.toNat data }
  if tooBig g s then { s with phase := .panicked .tooBig }
  else if s.outstanding < 1 then { s with phase := .panicked .outsideTrans }
  else setPc s p (.logging b)

theorem checkLogWrite_cases (g : Geometry) (s : LogSys) (p : ℕ) (b : UInt32) (data : Block) :
    (tooBig g s = true ∧ checkLogWrite g s p b data =
      { s with cache := Function.update s.cache b.toNat data, phase := .panicked .tooBig }) ∨
    (tooBig g s = false ∧ s.outstanding < 1 ∧ checkLogWrite g s p b data =
      { s with cache := Function.update s.cache b.toNat data, phase := .panicked .outsideTrans }) ∨
    (tooBig g s = false ∧ checkLogWrite g s p b data =
      setPc { s with cache := Function.update s.cache b.toNat data } p (.logging b)) := by
  have hbig : tooBig g { s with cache := Function.update s.cache b.toNat data } = tooBig g s := rfl
  unfold checkLogWrite
  simp only [hbig]
  cases htb : tooBig g s with
  | true => exact Or.inl ⟨rfl, rfl⟩
  | false =>
    by_cases hout : s.outstanding < 1
    · exact Or.inr (Or.inl ⟨rfl, hout, by simp [hout]⟩)
    · exact Or.inr (Or.inr ⟨rfl, by simp [hout]⟩)

/-- `end_op` up to the `release`. -/
def endOp (s : LogSys) (p : ℕ) : LogSys :=
  let s := { s with outstanding := s.outstanding - 1 }
  if s.committing then { s with phase := .panicked .committing }
  else if s.outstanding = 0 then
    setPc { s with committing := true } p
      (.commit (if s.lh.length > 0 then .writeLog 0 else .finished))
  else setPc (wakeup s) p .idle

/-- **The transition function.** -/
def step (g : Geometry) (s : LogSys) : Event → Option LogSys
  | .crash => some (boot g s.disk)
  | .recover =>
    match s.phase with
    | .recovering tail => some (recoverWrite g s tail)
    | _ => none
  | .beginOp p =>
    if s.phase = .running ∧ (s.pc p = .idle ∨ s.pc p = .woken) ∧ admits s = true then
      some (setPc { s with outstanding := s.outstanding + 1 } p .inOp)
    else none
  | .beginSleep p =>
    if s.phase = .running ∧ (s.pc p = .idle ∨ s.pc p = .woken) ∧ admits s = false then
      some (setPc s p .asleep)
    else none
  | .logWrite p b data =>
    if s.phase = .running ∧ s.pc p = .inOp then
      let t := checkLogWrite g s p b data
      if t.phase = .running then some (setPc { t with lh := append t.lh b } p .inOp)
      else some t
    else none
  | .logCheck p b data =>
    if s.phase = .running ∧ s.pc p = .inOp then some (checkLogWrite g s p b data) else none
  | .logAppend p =>
    match s.phase, s.pc p with
    | .running, .logging b => some (setPc { s with lh := append s.lh b } p .inOp)
    | _, _ => none
  | .endOp p => if s.phase = .running ∧ s.pc p = .inOp then some (endOp s p) else none
  | .writeLog p =>
    match s.phase, s.pc p with
    | .running, .commit (.writeLog tail) =>
      if tail < s.lh.length then
        some (setPc (writeLogBlock g s tail) p (.commit (.writeLog (tail + 1))))
      else none
    | _, _ => none
  | .writeHead p =>
    match s.phase, s.pc p with
    | .running, .commit (.writeLog tail) =>
      if tail < s.lh.length then none
      else some (setPc (storeHead g s) p (.commit (.installTrans 0)))
    | _, _ => none
  | .installTrans p =>
    match s.phase, s.pc p with
    | .running, .commit (.installTrans tail) =>
      if tail < s.lh.length then
        some (setPc (installBlock g s tail) p (.commit (.installTrans (tail + 1))))
      else none
    | _, _ => none
  | .eraseHead p =>
    match s.phase, s.pc p with
    | .running, .commit (.installTrans tail) =>
      if tail < s.lh.length then none
      else some (setPc (storeHead g { s with lh := [] }) p (.commit .finished))
    | _, _ => none
  | .endCommit p =>
    if s.phase = .running ∧ s.pc p = .commit .finished then
      some (setPc (wakeup { s with committing := false }) p .idle)
    else none

inductive Moves (g : Geometry) (s : LogSys) : Event → LogSys → Prop where
  | crash : Moves g s .crash (boot g s.disk)
  | install {tail : ℕ} (hph : s.phase = .recovering tail) (ht : tail < s.lh.length) :
      Moves g s .recover { installBlock g s tail with phase := .recovering (tail + 1) }
  | clear {tail : ℕ} (hph : s.phase = .recovering tail) (ht : ¬ tail < s.lh.length) :
      Moves g s .recover { storeHead g { s with lh := [] } with phase := .running }
  | beginOp {p : ℕ} (hph : s.phase = .running) (hp : s.pc p = .idle ∨ s.pc p = .woken)
      (ha : admits s = true) :
      Moves g s (.beginOp p) (setPc { s with outstanding := s.outstanding + 1 } p .inOp)
  | beginSleep {p : ℕ} (hph : s.phase = .running) (hp : s.pc p = .idle ∨ s.pc p = .woken)
      (ha : admits s = false) : Moves g s (.beginSleep p) (setPc s p .asleep)
  | tooBig {p : ℕ} {b : UInt32} {data : Block} {e : Event} (hph : s.phase = .running)
      (hp : s.pc p = .inOp) (he : e = .logWrite p b data ∨ e = .logCheck p b data)
      (hbig : tooBig g s = true) :
      Moves g s e
        { s with cache := Function.update s.cache b.toNat data, phase := .panicked .tooBig }
  | outsideTrans {p : ℕ} {b : UInt32} {data : Block} {e : Event} (hph : s.phase = .running)
      (hp : s.pc p = .inOp) (he : e = .logWrite p b data ∨ e = .logCheck p b data)
      (hbig : LogMachine.tooBig g s = false) (hout : s.outstanding < 1) :
      Moves g s e
        { s with cache := Function.update s.cache b.toNat data, phase := .panicked .outsideTrans }
  | logWrite {p : ℕ} {b : UInt32} {data : Block} (hph : s.phase = .running) (hp : s.pc p = .inOp)
      (hbig : LogMachine.tooBig g s = false) :
      Moves g s (.logWrite p b data)
        (setPc { setPc { s with cache := Function.update s.cache b.toNat data } p (.logging b) with
          lh := append s.lh b } p .inOp)
  | logCheck {p : ℕ} {b : UInt32} {data : Block} (hph : s.phase = .running) (hp : s.pc p = .inOp)
      (hbig : LogMachine.tooBig g s = false) :
      Moves g s (.logCheck p b data)
        (setPc { s with cache := Function.update s.cache b.toNat data } p (.logging b))
  | logAppend {p : ℕ} {b : UInt32} (hph : s.phase = .running) (hp : s.pc p = .logging b) :
      Moves g s (.logAppend p) (setPc { s with lh := append s.lh b } p .inOp)
  | endOpPanic {p : ℕ} (hph : s.phase = .running) (hp : s.pc p = .inOp)
      (hcom : s.committing = true) :
      Moves g s (.endOp p)
        { s with outstanding := s.outstanding - 1, phase := .panicked .committing }
  | endOpLast {p : ℕ} (hph : s.phase = .running) (hp : s.pc p = .inOp)
      (hcom : s.committing = false) (hlast : s.outstanding - 1 = 0) :
      Moves g s (.endOp p)
        (setPc { s with outstanding := s.outstanding - 1, committing := true } p
          (.commit (if s.lh.length > 0 then .writeLog 0 else .finished)))
  | endOpMore {p : ℕ} (hph : s.phase = .running) (hp : s.pc p = .inOp)
      (hcom : s.committing = false) (hmore : s.outstanding - 1 ≠ 0) :
      Moves g s (.endOp p)
        (setPc (wakeup { s with outstanding := s.outstanding - 1 }) p .idle)
  | writeLog {p tail : ℕ} (hph : s.phase = .running) (hp : s.pc p = .commit (.writeLog tail))
      (ht : tail < s.lh.length) :
      Moves g s (.writeLog p)
        (setPc (writeLogBlock g s tail) p (.commit (.writeLog (tail + 1))))
  | writeHead {p tail : ℕ} (hph : s.phase = .running) (hp : s.pc p = .commit (.writeLog tail))
      (ht : ¬ tail < s.lh.length) :
      Moves g s (.writeHead p) (setPc (storeHead g s) p (.commit (.installTrans 0)))
  | installTrans {p tail : ℕ} (hph : s.phase = .running)
      (hp : s.pc p = .commit (.installTrans tail)) (ht : tail < s.lh.length) :
      Moves g s (.installTrans p)
        (setPc (installBlock g s tail) p (.commit (.installTrans (tail + 1))))
  | eraseHead {p tail : ℕ} (hph : s.phase = .running)
      (hp : s.pc p = .commit (.installTrans tail)) (ht : ¬ tail < s.lh.length) :
      Moves g s (.eraseHead p) (setPc (storeHead g { s with lh := [] }) p (.commit .finished))
  | endCommit {p : ℕ} (hph : s.phase = .running) (hp : s.pc p = .commit .finished) :
      Moves g s (.endCommit p) (setPc (wakeup { s with committing := false }) p .idle)

theorem moves_logWrite {g : Geometry} {s t : LogSys} {p : ℕ} {b : UInt32} {data : Block}
    (h : step g s (.logWrite p b data) = some t) : Moves g s (.logWrite p b data) t := by
  simp only [step] at h
  split at h
  case isFalse => cases h
  case isTrue hg =>
    rcases checkLogWrite_cases g s p b data with ⟨hbig, heq⟩ | ⟨hbig, hout, heq⟩ | ⟨hbig, heq⟩
    · rw [heq] at h
      cases h
      exact .tooBig hg.1 hg.2 (Or.inl rfl) hbig
    · rw [heq] at h
      cases h
      exact .outsideTrans hg.1 hg.2 (Or.inl rfl) hbig hout
    · have hph : (checkLogWrite g s p b data).phase = .running := by
        rw [heq]
        exact hg.1
      rw [if_pos hph, heq] at h
      cases h
      exact .logWrite hg.1 hg.2 hbig

theorem moves_logCheck {g : Geometry} {s t : LogSys} {p : ℕ} {b : UInt32} {data : Block}
    (h : step g s (.logCheck p b data) = some t) : Moves g s (.logCheck p b data) t := by
  obtain ⟨hg, rfl⟩ := some_of_guard h
  rcases checkLogWrite_cases g s p b data with ⟨hbig, heq⟩ | ⟨hbig, hout, heq⟩ | ⟨hbig, heq⟩
  · rw [heq]
    exact .tooBig hg.1 hg.2 (Or.inr rfl) hbig
  · rw [heq]
    exact .outsideTrans hg.1 hg.2 (Or.inr rfl) hbig hout
  · rw [heq]
    exact .logCheck hg.1 hg.2 hbig

theorem moves_endOp {g : Geometry} {s t : LogSys} {p : ℕ}
    (h : step g s (.endOp p) = some t) : Moves g s (.endOp p) t := by
  obtain ⟨hg, rfl⟩ := some_of_guard h
  cases hcom : s.committing with
  | true =>
    have heq : endOp s p =
        { s with outstanding := s.outstanding - 1, phase := .panicked .committing } := by
      simp [endOp, hcom]
    rw [heq]
    exact .endOpPanic hg.1 hg.2 hcom
  | false =>
    by_cases hlast : s.outstanding - 1 = 0
    · have heq : endOp s p =
          setPc { s with outstanding := s.outstanding - 1, committing := true } p
            (.commit (if s.lh.length > 0 then .writeLog 0 else .finished)) := by
        simp [endOp, hcom, hlast]
      rw [heq]
      exact .endOpLast hg.1 hg.2 hcom hlast
    · have heq : endOp s p =
          setPc (wakeup { s with outstanding := s.outstanding - 1 }) p .idle := by
        simp [endOp, hcom, hlast]
      rw [heq]
      exact .endOpMore hg.1 hg.2 hcom hlast

theorem moves_recover {g : Geometry} {s t : LogSys} (h : step g s .recover = some t) : Moves g s .recover t := by
  simp only [step] at h
  split at h
  case h_2 => cases h
  case h_1 tail hph =>
    cases h
    unfold recoverWrite
    split
    · exact .install hph ‹_›
    · exact .clear hph ‹_›

/-- **Inversion of `step`.** -/
theorem moves_of_step {g : Geometry} {s t : LogSys} {e : Event} (h : step g s e = some t) : Moves g s e t := by
  cases e with
  | logWrite p b data => exact moves_logWrite h
  | logCheck p b data => exact moves_logCheck h
  | endOp p => exact moves_endOp h
  | recover => exact moves_recover h
  | crash =>
    cases h
    exact .crash
  | beginOp p =>
    obtain ⟨hg, rfl⟩ := some_of_guard h
    exact .beginOp hg.1 hg.2.1 hg.2.2
  | beginSleep p =>
    obtain ⟨hg, rfl⟩ := some_of_guard h
    exact .beginSleep hg.1 hg.2.1 hg.2.2
  | logAppend p =>
    simp only [step] at h
    split at h
    case h_2 => cases h
    case h_1 b hph hp =>
      cases h
      exact .logAppend hph hp
  | writeLog p =>
    simp only [step] at h
    split at h
    case h_2 => cases h
    case h_1 tail hph hp =>
      obtain ⟨ht, rfl⟩ := some_of_guard h
      exact .writeLog hph hp ht
  | writeHead p =>
    simp only [step] at h
    split at h
    case h_2 => cases h
    case h_1 tail hph hp =>
      split at h
      case isTrue => cases h
      case isFalse ht =>
        cases h
        exact .writeHead hph hp ht
  | installTrans p =>
    simp only [step] at h
    split at h
    case h_2 => cases h
    case h_1 tail hph hp =>
      obtain ⟨ht, rfl⟩ := some_of_guard h
      exact .installTrans hph hp ht
  | eraseHead p =>
    simp only [step] at h
    split at h
    case h_2 => cases h
    case h_1 tail hph hp =>
      split at h
      case isTrue => cases h
      case isFalse ht =>
        cases h
        exact .eraseHead hph hp ht
  | endCommit p =>
    obtain ⟨hg, rfl⟩ := some_of_guard h
    exact .endCommit hg.1 hg.2

end Xv6.LogMachine
