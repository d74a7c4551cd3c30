import Xv6.Panics
import Xv6.FsLayout

/-!
# Blocks, inodes and directories (`kernel/fs.c`)

The functions of `fs.c` as programs on the file-system state: the disk, seen through the buffer
cache as a map from block number to contents, and the inode cache.  `bread` reads the map and
`log_write` stores into it; what the log and the buffer cache do below is the subject of
`LogMachine` and `BufLog`.  A call runs to its end without others in between, as it does under the
locks it holds.

User memory enters through `avail`: the number of bytes at the user address that can be accessed
before the first page that cannot.  `either_copyin` and `either_copyout` of a piece that lies within
them succeed and the first other one fails.

`Fs.handed` is bookkeeping of the model: the blocks `balloc` has returned, newest first.
-/

namespace Xv6.FsInodes

open Xv6.Params Xv6.LittleEndian Xv6.ByteBitmap Xv6.Panics Xv6.FsLayout
open Xv6.LogMachine (Block Disk)

/-- `T_DIR`, `T_FILE` and `T_DEVICE` of `stat.h`. -/
def T_DIR : UInt16 := 1

def T_FILE : UInt16 := 2

def T_DEVICE : UInt16 := 3

/-- `struct inode`, without the lock and the device number: there is one disk. -/
structure Inode where
  inum : ℕ
  ref : ℤ
  valid : Bool
  d : Dinode

structure Fs where
  disk : Disk
  icache : Fin NINODE → Inode
  handed : List ℕ

inductive Panic where
  | ballocOutOfBlocks
  | freeingFreeBlock
  | iallocNoInodes
  | igetNoInodes
  | ilock
  | ilockNoType
  | bmapOutOfRange
  | dirlookupNotDir
  | dirlookupRead
  | dirlinkRead
  | dirlink
deriving DecidableEq

def Panic.msg : Panic → String
  | ballocOutOfBlocks => "balloc: out of blocks"
  | freeingFreeBlock => "freeing free block"
  | iallocNoInodes => "ialloc: no inodes"
  | igetNoInodes => "iget: no inodes"
  | ilock => "ilock"
  | ilockNoType => "ilock: no type"
  | bmapOutOfRange => "bmap: out of range"
  | dirlookupNotDir => "dirlookup not DIR"
  | dirlookupRead => "dirlookup read"
  | dirlinkRead => "dirlink read"
  | dirlink => "dirlink"

abbrev Call := Prog Fs Panic

/-! ### Access to the state -/

namespace Fs

/-- `log_write` of block `b`, whose buffer now holds `blk`. -/
def put (s : Fs) (b : ℕ) (blk : Block) : Fs := { s with disk := Function.update s.disk b blk }

def setInode (s : Fs) (ip : Fin NINODE) (x : Inode) : Fs :=
  { s with icache := Function.update s.icache ip x }

/-- A change of the on-disk fields of the in-memory inode `ip`. -/
def setD (s : Fs) (ip : Fin NINODE) (d : Dinode) : Fs := s.setInode ip { s.icache ip with d := d }

@[simp] theorem put_icache (s : Fs) (b : ℕ) (blk : Block) : (s.put b blk).icache = s.icache := rfl

@[simp] theorem put_handed (s : Fs) (b : ℕ) (blk : Block) : (s.put b blk).handed = s.handed := rfl

@[simp] theorem put_disk (s : Fs) (b : ℕ) (blk : Block) :
    (s.put b blk).disk = Function.update s.disk b blk := rfl

@[simp] theorem setInode_disk (s : Fs) (ip : Fin NINODE) (x : Inode) :
    (s.setInode ip x).disk = s.disk := rfl

@[simp] theorem setInode_handed (s : Fs) (ip : Fin NINODE) (x : Inode) :
    (s.setInode ip x).handed = s.handed := rfl

@[simp] theorem setInode_self (s : Fs) (ip : Fin NINODE) (x : Inode) : (s.setInode ip x).icache ip = x := by
  simp [setInode]

@[simp] theorem setD_handed (s : Fs) (ip : Fin NINODE) (d : Dinode) :
    (s.setD ip d).handed = s.handed := rfl

@[simp] theorem setD_self (s : Fs) (ip : Fin NINODE) (d : Dinode) :
    (s.setD ip d).icache ip = { s.icache ip with d := d } := setInode_self s ip _

theorem setD_icache (s : Fs) (ip : Fin NINODE) (d : Dinode) : (s.setD ip d).icache =
    Function.update s.icache ip { s.icache ip with d := ((s.setD ip d).icache ip).d } := by
  rw [setD_self]
  rfl

theorem setD_icache_of {s t : Fs} {ip : Fin NINODE} {d₀ : Dinode}
    (h : t.icache = Function.update s.icache ip { s.icache ip with d := d₀ }) (d : Dinode) :
    (t.setD ip d).icache = Function.update s.icache ip { s.icache ip with d := d } := by
  unfold setD setInode
  simp [h]

end Fs

variable (sb : SuperBlock)

/-! ### Blocks -/

/-- The inner loop of `balloc`, from bit `bi` of the free-map block `blk` on. -/
def scanBits (blk : Block) (b : ℕ) : ℕ → ℕ → Option ℕ
  | 0, _ => none
  | fuel + 1, bi =>
    if b + bi < sb.size then
      if testBit blk bi then scanBits blk b fuel (bi + 1) else some (b + bi)
    else none

/-- The outer loop of `balloc`, from block number `b` on. -/
def scanMap (disk : Disk) : ℕ → ℕ → Option ℕ
  | 0, _ => none
  | fuel + 1, b =>
    if b < sb.size then
      match scanBits sb (disk (sb.bblock b)) b BPB 0 with
      | some c => some c
      | none => scanMap disk fuel (b + BPB)
    else none

/-- The free block `balloc` finds. -/
def findFree (disk : Disk) : Option ℕ := scanMap sb disk (sb.size / BPB + 1) 0

def bzero (b : ℕ) : Call Unit := update fun s => s.put b (setBytes (s.disk b) 0 BSIZE fun _ => 0)

def balloc : Call ℕ := do
  match findFree sb (← gets Fs.disk) with
  | none => panic .ballocOutOfBlocks
  | some b =>
    update fun s => { s with disk := markUsed sb s.disk b, handed := b :: s.handed }
    bzero b
    return b

def bfree (b : ℕ) : Call Unit := do
  if bitOf sb (← gets Fs.disk) b then
    update fun s => { s with disk := markFree sb s.disk b }
  else
    panic .freeingFreeBlock

/-! ### Inodes -/

def iupdate (ip : Fin NINODE) : Call Unit := update fun s =>
  let inum := (s.icache ip).inum
  s.put (sb.iblock inum) (putDinode (s.disk (sb.iblock inum)) (inum % IPB) (s.icache ip).d)

/-- `iget`: the entry of `inum`, or the first empty one. -/
def iget (inum : ℕ) : Call (Fin NINODE) := do
  let icache ← gets Fs.icache
  match (List.finRange NINODE).find? fun ip =>
      decide (0 < (icache ip).ref) && decide ((icache ip).inum = inum) with
  | some ip =>
    update fun s => s.setInode ip { s.icache ip with ref := (s.icache ip).ref + 1 }
    return ip
  | none =>
    match (List.finRange NINODE).find? fun ip => decide ((icache ip).ref = 0) with
    | none => panic .igetNoInodes
    | some ip =>
      update fun s => s.setInode ip { s.icache ip with inum := inum, ref := 1, valid := false }
      return ip

/-- `ialloc`: the first free inode from number 1 on. -/
def ialloc (type : UInt16) : Call (Fin NINODE) := do
  let disk ← gets Fs.disk
  match (List.range' 1 (sb.ninodes - 1)).find? fun i => decide ((dinode sb disk i).type = 0) with
  | none => panic .iallocNoInodes
  | some i =>
    update fun s => s.put (sb.iblock i) (clearDinode (s.disk (sb.iblock i)) (i % IPB) type)
    iget i

def idup (ip : Fin NINODE) : Call Unit := update fun s =>
  s.setInode ip { s.icache ip with ref := (s.icache ip).ref + 1 }

/-- `ilock`, once the sleep lock is there. -/
def ilock (ip : Fin NINODE) : Call Unit := do
  let x ← gets fun s => s.icache ip
  if x.ref < 1 then
    panic .ilock
  else if x.valid then
    return ()
  else
    let d ← gets fun s => dinode sb s.disk x.inum
    update fun s => s.setInode ip { x with d := d, valid := true }
    onlyIf (d.type = 0) (panic .ilockNoType)

/-! ### Contents -/

/-- `if((addr = ip->addrs[k]) == 0) ip->addrs[k] = addr = balloc(ip->dev);`. -/
def bmapAddr (ip : Fin NINODE) (k : Fin (NDIRECT + 1)) : Call ℕ := do
  let addr ← gets fun s => (s.icache ip).d.addrs k
  if addr = 0 then
    let b ← balloc sb
    update fun s => s.setD ip
      { (s.icache ip).d with addrs := Function.update (s.icache ip).d.addrs k (UInt32.ofNat b) }
    return b
  else
    return addr.toNat

/-- `if((addr = a[j]) == 0){ a[j] = addr = balloc(ip->dev); log_write(bp); }`, where `a` is the
indirect block `ind`. -/
def bmapEntry (ind j : ℕ) : Call ℕ := do
  let addr ← gets fun s => word (s.disk ind) j
  if addr = 0 then
    let b ← balloc sb
    update fun s => s.put ind (setWord (s.disk ind) j (UInt32.ofNat b))
    return b
  else
    return addr.toNat

def bmap (ip : Fin NINODE) (bn : ℕ) : Call ℕ := do
  if h : bn < NDIRECT then
    bmapAddr sb ip ⟨bn, Nat.lt_succ_of_lt h⟩
  else if bn - NDIRECT < NINDIRECT then
    let ind ← bmapAddr sb ip (Fin.last NDIRECT)
    bmapEntry sb ind (bn - NDIRECT)
  else
    panic .bmapOutOfRange

/-- One round of the first loop of `itrunc`, and what follows the second: free `addrs[k]`. -/
def freeAddr (ip : Fin NINODE) (k : Fin (NDIRECT + 1)) : Call Unit := do
  let addr ← gets fun s => (s.icache ip).d.addrs k
  if addr = 0 then
    return ()
  else
    bfree sb addr.toNat
    update fun s => s.setD ip
      { (s.icache ip).d with addrs := Function.update (s.icache ip).d.addrs k 0 }

/-- The first loop of `itrunc`. -/
def freeDirect (ip : Fin NINODE) : List (Fin NDIRECT) → Call Unit
  | [] => return ()
  | k :: ks => do
    freeAddr sb ip k.castSucc
    freeDirect ip ks

/-- The second loop of `itrunc`, over the entries of the indirect block `ind`. -/
def freeEntries (ind : ℕ) : List (Fin NINDIRECT) → Call Unit
  | [] => return ()
  | j :: js => do
    let a ← gets fun s => word (s.disk ind) j
    onlyIf (a ≠ 0) (bfree sb a.toNat)
    freeEntries ind js

def itrunc (ip : Fin NINODE) : Call Unit := do
  freeDirect sb ip (List.finRange NDIRECT)
  let ind ← gets fun s => (s.icache ip).d.addrs (Fin.last NDIRECT)
  onlyIf (ind ≠ 0) do
    freeEntries sb ind.toNat (List.finRange NINDIRECT)
    freeAddr sb ip (Fin.last NDIRECT)
  update fun s => s.setD ip { (s.icache ip).d with size := 0 }
  iupdate sb ip

def iput (ip : Fin NINODE) : Call Unit := do
  let x ← gets fun s => s.icache ip
  onlyIf (x.ref = 1 ∧ x.valid = true ∧ x.d.nlink = 0) do
    itrunc sb ip
    update fun s => s.setD ip { (s.icache ip).d with type := 0 }
    iupdate sb ip
    update fun s => s.setInode ip { s.icache ip with valid := false }
  update fun s => s.setInode ip { s.icache ip with ref := (s.icache ip).ref - 1 }

/-- The loop of `readi`; the result is `tot` and the bytes that have been copied out. -/
def readLoop (ip : Fin NINODE) (avail n : ℕ) : ℕ → ℕ → ℕ → List UInt8 → Call (ℕ × List UInt8)
  | 0, tot, _, out => return (tot, out)
  | fuel + 1, tot, off, out => do
    if tot < n then
      let b ← bmap sb ip (off / BSIZE)
      let blk ← gets fun s => s.disk b
      let m := min (n - tot) (BSIZE - off % BSIZE)
      if tot + m ≤ avail then
        readLoop ip avail n fuel (tot + m) (off + m)
          (out ++ (List.range m).map fun x => blk (off % BSIZE + x))
      else
        return (tot, out)
    else
      return (tot, out)

def readi (ip : Fin NINODE) (avail : ℕ) (off n : UInt32) : Call (ℕ × List UInt8) := do
  let size ← gets fun s => (s.icache ip).d.size
  if off > size ∨ off + n < off then
    return (0, [])
  else
    let n := if off + n > size then size - off else n
    readLoop sb ip avail n.toNat n.toNat 0 off.toNat []

/-- The loop of `writei`; the result is `off` after it.  A copy that faults leaves the bytes before
the fault in the buffer and ends the loop. -/
def writeLoop (ip : Fin NINODE) (src : ℕ → UInt8) (avail n : ℕ) : ℕ → ℕ → ℕ → Call ℕ
  | 0, _, off => return off
  | fuel + 1, tot, off => do
    if tot < n then
      let b ← bmap sb ip (off / BSIZE)
      let m := min (n - tot) (BSIZE - off % BSIZE)
      update fun s => s.put b
        (setBytes (s.disk b) (off % BSIZE) (min m (avail - tot)) fun x => src (tot + x))
      if tot + m ≤ avail then
        writeLoop ip src avail n fuel (tot + m) (off + m)
      else
        return off
    else
      return off

def writei (ip : Fin NINODE) (src : ℕ → UInt8) (avail : ℕ) (off n : UInt32) : Call ℤ := do
  let size ← gets fun s => (s.icache ip).d.size
  if off > size ∨ off + n < off then
    return -1
  else if (off + n).toNat > MAXFILE * BSIZE then
    return -1
  else
    let off' ← writeLoop sb ip src avail n.toNat n.toNat 0 off.toNat
    onlyIf (n > 0) do
      update fun s =>
        if off' > (s.icache ip).d.size.toNat then
          s.setD ip { (s.icache ip).d with size := UInt32.ofNat off' }
        else s
      iupdate sb ip
    return n.toNat

end Xv6.FsInodes
