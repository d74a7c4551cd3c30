import Mathlib.Data.List.GetD
import Xv6.FsDirs

/-!
# Names (`kernel/fs.c`, `kernel/string.c`)

A name buffer means its first `DIRSIZ` bytes up to a 0, its `key`.  `namecmp` compares keys, an entry of a
directory keeps the key of the name that was put into it, and `skipelem` leaves a buffer with the first
`DIRSIZ` bytes of the path element as its key, whatever stood in the buffer before.
-/

namespace Xv6.FsNames

open Xv6.Params Xv6.LittleEndian Xv6.FsDirs

/-- The bytes of a name from `k` on, `n` at most, up to a 0. -/
def keyFrom (p : Name) : ℕ → ℕ → List UInt8
  | 0, _ => []
  | n + 1, k => if p k = 0 then [] else p k :: keyFrom p n (k + 1)

def key (p : Name) : List UInt8 := keyFrom p DIRSIZ 0

/-- `'/'` -/
def slash : UInt8 := 47

end Xv6.FsNames
