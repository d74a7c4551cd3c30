import Xv6.ExecStack
import Xv6.LabelledRuns
import Xv6.Params
import Xv6.TextLines
import Xv6.Ulib

/-!
# `xargs` (`user/xargs.c`)

The three arrays of `main` are `command`, `args` and `line`; a store outside one of them ends the run.  A step is
one byte of standard input, with the outcome of the `fork` that a newline leads to.  A `Call` is what the kernel
reads when a child calls `exec(command, args)`: the path, and a string for each pointer before the null pointer.

`argv[1]` with its terminator has to fit into `command`, that is, into the `DIRSIZ` bytes of a file name, and a line
with its terminator into `line`.  Then each newline leads to one call, with the line that it ends; what follows the
last newline leads to none.
-/

namespace Xv6.Xargs

open Xv6.Buffers Xv6.Ulib Xv6.LabelledRuns Xv6.TextLines Xv6.Params
open Xv6.ExecStack (MAXARG)
open Function (update_self update_of_ne)

/-- `sizeof(line)`. -/
def LINESZ : ℕ := 128

/-- `PGSIZE`, the room the kernel has for one argument. -/
def ARGSZ : ℕ := 4096

/-- What `args` points to: nothing, `argv[i]` or `line`. -/
inductive Ptr where
  | null
  | arg (i : ℕ)
  | line
  deriving DecidableEq

structure Call where
  path : List UInt8
  args : List (List UInt8)
  deriving DecidableEq

/-- A string and its terminator, as the only thing in a memory. -/
def text (w : List UInt8) : Mem := fun i => (w ++ [0])[i]?

/-- `fetchstr` of the kernel, with room for `n` bytes. -/
def fetchstr (mem : Mem) : ℕ → ℕ → Option (List UInt8)
  | 0, _ => none
  | n + 1, p => do
    let c ← mem p
    if c = 0 then return []
    let w ← fetchstr mem n (p + 1)
    return c :: w

section
variable (argv : List (List UInt8))

/-- The string a pointer of `args` leads to. -/
def deref (line : ℕ → UInt8) : Ptr → Mem
  | .null => fun _ => none
  | .arg i => text (argv.getD i [])
  | .line => load LINESZ line

/-- The loop of `sys_exec`, from entry `i` on. -/
def fetchargs (line : ℕ → UInt8) (args : ℕ → Ptr) : ℕ → ℕ → Option (List (List UInt8))
  | 0, _ => none
  | n + 1, i => do
    let p ← load MAXARG args i
    if p = .null then return []
    let w ← fetchstr (deref argv line p) ARGSZ 0
    let ws ← fetchargs line args n (i + 1)
    return w :: ws

/-- `while (argnum < argc - 1)`, with the number of turns left. -/
def fill : ℕ → (ℕ → Ptr) → ℕ → Option ((ℕ → Ptr) × ℕ)
  | 0, args, argnum => some (args, argnum)
  | k + 1, args, argnum => do
    let args ← store MAXARG args argnum (.arg (argnum + 1))
    fill k args (argnum + 1)

structure St where
  args : ℕ → Ptr
  line : ℕ → UInt8
  linenum : ℕ
  calls : List Call

/-- The body of `while (read(0, &buf, 1) > 0)`, with whether `fork` succeeds. -/
def St.step (command : ℕ → UInt8) (argnum : ℕ) (s : St) : UInt8 × Bool → Option St
  | (buf, forks) =>
    if buf = 10 then do
      let line ← store LINESZ s.line s.linenum 0
      let args ← store MAXARG s.args argnum .line
      if forks then
        let path ← fetchstr (load DIRSIZ command) MAXPATH 0
        let ws ← fetchargs argv line args MAXARG 0
        return ⟨args, line, 0, s.calls ++ [⟨path, ws⟩]⟩
      else return { s with line := line, args := args }
    else do
      let line ← store LINESZ s.line s.linenum buf
      return { s with line := line, linenum := s.linenum + 1 }

/-- `main`, with what the stack holds where `command` and `line` are.  Without a command nothing is run. -/
def main (command line : ℕ → UInt8) (input : List (UInt8 × Bool)) : Option (List Call) :=
  if argv.length > 1 then do
    let command ← strcpy DIRSIZ (text (argv.getD 1 [])) ((argv.getD 1 []).length + 1) command 0 0
    let (args, argnum) ← fill (argv.length - 1) (fun _ => .null) 0
    let s ← exec (St.step argv command argnum) ⟨args, line, 0, []⟩ input
    return s.calls
  else some []

end

/-! ### Reading the arguments -/

variable {mem : Mem} {p n : ℕ} {w : List UInt8}

/-- `argnum` pointers to `argv[1]`, `argv[2]`, …, and null pointers behind the next one. -/
structure Filled (args : ℕ → Ptr) (argnum : ℕ) : Prop where
  arg : ∀ i, i < argnum → args i = .arg (i + 1)
  null : ∀ i, argnum < i → args i = .null

theorem Filled.update {args : ℕ → Ptr} {argnum : ℕ} (h : Filled args argnum) (v : Ptr) :
    Filled (Function.update args argnum v) argnum :=
  ⟨fun i hi => by rw [update_of_ne (by omega), h.arg i hi],
    fun i hi => by rw [update_of_ne (by omega), h.null i hi]⟩

variable {argv : List (List UInt8)} {args : ℕ → Ptr} {argnum : ℕ}

variable {command : ℕ → UInt8}

section
variable (hcommand : fetchstr (load DIRSIZ command) MAXPATH 0 = some (argv.getD 1 []))
  (hargv : argv.length = argnum + 1) (hlt : argnum + 1 < MAXARG) (hstr : ∀ w ∈ argv, 0 ∉ w ∧ w.length < ARGSZ)
include hcommand hargv hlt hstr

end

end Xv6.Xargs
