import Mathlib.Tactic

/-!
# Kernel constants

The constants of `kernel/param.h`, `kernel/fs.h` and `mkfs/mkfs.c` that the models read.
-/

namespace Xv6.Params

/-- Maximum number of processes. -/
def NPROC : ℕ := 64

/-- Maximum number of CPUs. -/
def NCPU : ℕ := 8

/-- Open files per process. -/
def NOFILE : ℕ := 16

/-- Device number of the file system root disk. -/
def ROOTDEV : UInt32 := 1

/-- Maximum number of blocks any file-system operation writes. -/
def MAXOPBLOCKS : ℕ := 10

/-- Maximum number of data blocks in the on-disk log. -/
def LOGSIZE : ℕ := MAXOPBLOCKS * 3

/-- Size of the disk block cache. -/
def NBUF : ℕ := MAXOPBLOCKS * 3

/-- Maximum length of a path name, with its terminator. -/
def MAXPATH : ℕ := 128

/-- Block size. -/
def BSIZE : ℕ := 1024

/-- Maximum number of active i-nodes. -/
def NINODE : ℕ := 50

/-- Direct block addresses of an inode. -/
def NDIRECT : ℕ := 12

/-- Block addresses in the indirect block. -/
def NINDIRECT : ℕ := BSIZE / 4

/-- Maximum file size in blocks. -/
def MAXFILE : ℕ := NDIRECT + NINDIRECT

/-- Length of a name in a directory entry. -/
def DIRSIZ : ℕ := 14

/-- Inodes per block; a `struct dinode` has 64 bytes. -/
def IPB : ℕ := BSIZE / 64

/-- Bitmap bits per block. -/
def BPB : ℕ := BSIZE * 8

/-- `nlog` of `mkfs.c`: the number of log blocks the image gets, header block included. -/
def nlog : ℕ := LOGSIZE

end Xv6.Params
