import Xv6.FsDirs
import Xv6.FsMapping

/-!
# Building an image (`mkfs/mkfs.c`)

`mkfs` writes the image file block by block.  It never frees: inode numbers and block numbers come from
two counters, and the free map is written at the end from the second one.  The host is little-endian,
so that `xint` and `xshort` are the identity.

A failed assertion and `exit(1)` end the run; `Abort` says which it was.  Of the system calls only `read`
past the end of the image and `open` of an input file are taken to fail, the others end the run too.
-/

namespace Xv6.Mkfs

open Xv6.Params Xv6.LittleEndian Xv6.ByteBitmap Xv6.Panics Xv6.FsLayout Xv6.FsMapping
open Xv6.FsInodes (T_DIR T_FILE)
open Xv6.FsDirs (Name direntBytes DIRENT)
open Xv6.LogMachine (Block Disk)

/-- `FSSIZE` of `param.h`. -/
def FSSIZE : ℕ := 1000

def NINODES : ℕ := 200

def ROOTINO : ℕ := 1

def FSMAGIC : ℕ := 0x10203040

def nbitmap : ℕ := FSSIZE / (BSIZE * 8) + 1

def ninodeblocks : ℕ := NINODES / IPB + 1

def nmeta : ℕ := 2 + nlog + ninodeblocks + nbitmap

def nblocks : ℕ := FSSIZE - nmeta

/-- The super block, as far as `fs.c` reads it. -/
def sb : SuperBlock where
  size := FSSIZE
  nblocks := nblocks
  ninodes := NINODES
  inodestart := 2 + nlog
  bmapstart := 2 + nlog + ninodeblocks
  inodes_lt := by decide
  bmap_lt := by decide
  size_lt := by decide

/-- The fields of `struct superblock`, in order. -/
def sbFields : List ℕ :=
  [FSMAGIC, FSSIZE, nblocks, NINODES, nlog, 2, 2 + nlog, 2 + nlog + ninodeblocks]

/-- `memset(buf, 0, sizeof(buf)); memmove(buf, &sb, sizeof(sb));` from field `k` on. -/
def putFields : ℕ → List ℕ → Block → Block
  | _, [], buf => buf
  | k, v :: vs, buf => putFields (k + 1) vs (setLE buf (4 * k) 4 v)

/-- The image file, `sectors` blocks long, and the two counters. -/
structure Img where
  disk : Disk
  sectors : ℕ
  freeinode : ℕ
  freeblock : ℕ

inductive Abort where
  /-- `assert(index(shortname, '/') == 0)` -/
  | slash
  /-- `perror(argv[i]); exit(1)` -/
  | cannotOpen
  /-- `perror("read"); exit(1)` -/
  | read
  /-- `assert(rootino == ROOTINO)` -/
  | rootino
  /-- `assert(fbn < MAXFILE)` -/
  | maxfile
  /-- `assert(used < BSIZE*8)` -/
  | used
deriving DecidableEq

abbrev Call := Prog Img Abort

def rsect (sec : ℕ) : Call Block := do
  if sec < (← gets Img.sectors) then gets fun s => s.disk sec else panic .read

def wsect (sec : ℕ) (buf : Block) : Call Unit := update fun s =>
  { s with disk := Function.update s.disk sec buf, sectors := max s.sectors (sec + 1) }

def winode (inum : ℕ) (d : Dinode) : Call Unit := do
  let buf ← rsect (sb.iblock inum)
  wsect (sb.iblock inum) (putDinode buf (inum % IPB) d)

def rinode (inum : ℕ) : Call Dinode := do
  let buf ← rsect (sb.iblock inum)
  return readDinode buf (inum % IPB)

def ialloc (type : UInt16) : Call ℕ := do
  let inum ← gets Img.freeinode
  update fun s => { s with freeinode := s.freeinode + 1 }
  winode inum ⟨type, 0, 0, 1, 0, fun _ => 0⟩
  return inum

/-- The bits of the first `n` blocks: the loop of `balloc`. -/
def usedBits : ℕ → Block
  | 0 => fun _ => 0
  | n + 1 => setBit (usedBits n) n

def balloc (used : ℕ) : Call Unit := do
  if used < BSIZE * 8 then wsect sb.bmapstart (usedBits used) else panic .used

/-! ### `iappend` -/

/-- `freeblock++`. -/
def newBlock : Call ℕ := do
  let b ← gets Img.freeblock
  update fun s => { s with freeblock := s.freeblock + 1 }
  return b

/-- `if(xint(din.addrs[k]) == 0) din.addrs[k] = xint(freeblock++);`. -/
def addrBlock (din : Dinode) (k : Fin (NDIRECT + 1)) : Call Dinode := do
  if din.addrs k = 0 then
    let b ← newBlock
    return setAddr din k b
  else
    return din

/-- The block in entry `j` of the indirect block `ind`. -/
def entryBlock (ind j : ℕ) : Call ℕ := do
  let indirect ← rsect ind
  if word indirect j = 0 then
    let b ← newBlock
    let indirect := setWord indirect j (UInt32.ofNat b)
    wsect ind indirect
    return (word indirect j).toNat
  else
    return (word indirect j).toNat

/-- The block `x` of file block `fbn`, and `din` afterwards. -/
def blockOf (din : Dinode) (fbn : ℕ) : Call (ℕ × Dinode) := do
  if h : fbn < NDIRECT then
    let din ← addrBlock din ⟨fbn, Nat.lt_succ_of_lt h⟩
    return ((din.addrs ⟨fbn, Nat.lt_succ_of_lt h⟩).toNat, din)
  else
    let din ← addrBlock din (Fin.last NDIRECT)
    let x ← entryBlock (din.addrs (Fin.last NDIRECT)).toNat (fbn - NDIRECT)
    return (x, din)

/-- The loop of `iappend`, with `done` of the `n` bytes at `p` written; the result is `off` and `din`. -/
def appendLoop (p : ℕ → UInt8) (n : ℕ) : ℕ → ℕ → ℕ → Dinode → Call (ℕ × Dinode)
  | 0, _, off, din => return (off, din)
  | fuel + 1, done, off, din => do
    if done < n then
      let fbn := off / BSIZE
      if fbn < MAXFILE then
        let (x, din) ← blockOf din fbn
        let n1 := min (n - done) ((fbn + 1) * BSIZE - off)
        let buf ← rsect x
        wsect x (setBytes buf (off - fbn * BSIZE) n1 fun k => p (done + k))
        appendLoop p n fuel (done + n1) (off + n1) din
      else
        panic .maxfile
    else
      return (off, din)

def iappend (inum : ℕ) (p : ℕ → UInt8) (n : ℕ) : Call Unit := do
  let din ← rinode inum
  let (off, din) ← appendLoop p n n 0 din.size.toNat din
  winode inum { din with size := UInt32.ofNat off }

/-! ### `main` -/

/-- What one `read` of an input file returned. -/
structure Chunk where
  bytes : List UInt8
  pos : 0 < bytes.length
  le : bytes.length ≤ BSIZE

/-- An argument: the path, and what the reads of the file returned; `none` if it cannot be opened. -/
structure HostFile where
  path : List UInt8
  reads : Option (List Chunk)
  nul : 0 ∉ path

/-- A string in memory, with its terminating 0. -/
def cstr (bytes : List UInt8) : Name := fun k => bytes.getD k 0

/-- `"user/"` -/
def userDir : List UInt8 := [117, 115, 101, 114, 47]

/-- `'/'` -/
def slashChar : UInt8 := 47

/-- `'_'` -/
def underscore : UInt8 := 95

/-- The path without `user/`. -/
def baseName (path : List UInt8) : List UInt8 :=
  if userDir.isPrefixOf path then path.drop 5 else path

/-- The name without the leading `_`. -/
def shortName (path : List UInt8) : List UInt8 :=
  match baseName path with
  | [] => []
  | c :: cs => if c = underscore then cs else c :: cs

/-- A directory entry is appended to the root directory. -/
def addEntry (rootino inum : ℕ) (name : List UInt8) : Call Unit :=
  iappend rootino (direntBytes (UInt16.ofNat inum) (cstr name)) DIRENT

/-- `while((cc = read(fd, buf, sizeof(buf))) > 0) iappend(inum, buf, cc);`. -/
def copyFile (inum : ℕ) : List Chunk → Call Unit
  | [] => return ()
  | c :: cs => do
    iappend inum (cstr c.bytes) c.bytes.length
    copyFile inum cs

def addFile (rootino : ℕ) (f : HostFile) : Call Unit := do
  if slashChar ∈ baseName f.path then
    panic .slash
  else
    match f.reads with
    | none => panic .cannotOpen
    | some reads =>
      let inum ← ialloc T_FILE
      addEntry rootino inum (shortName f.path)
      copyFile inum reads

def addFiles (rootino : ℕ) : List HostFile → Call Unit
  | [] => return ()
  | f :: fs => do
    addFile rootino f
    addFiles rootino fs

/-- `"."` -/
def dot : List UInt8 := [46]

/-- `".."` -/
def dotdot : List UInt8 := [46, 46]

/-- The image after the loop that writes `FSSIZE` zero blocks. -/
def blank : Img := ⟨fun _ _ => 0, FSSIZE, 1, nmeta⟩

def main (files : List HostFile) : Call Unit := do
  wsect 1 (putFields 0 sbFields fun _ => 0)
  let rootino ← ialloc T_DIR
  if rootino = ROOTINO then
    addEntry rootino rootino dot
    addEntry rootino rootino dotdot
    addFiles rootino files
    -- fix size of root inode dir
    let din ← rinode rootino
    winode rootino { din with size := UInt32.ofNat ((din.size.toNat / BSIZE + 1) * BSIZE) }
    balloc (← gets Img.freeblock)
  else
    panic .rootino

end Xv6.Mkfs
