import Xv6.ShellTokens

/-!
# The parser of the shell (`user/sh.c`)

`parsecmd` and the procedures it calls, over the memory that holds the command line.  A tree of `struct cmd` is a
value of `Cmd`; strings stay where they are, between two addresses, until `nulterminate` ends each with a NUL.

`n` bounds the depth of the recursion and the number of turns of the loops; with more than four for every byte of
the line it is never used up.  That `malloc` fails, and the size of the stack, are left out.
-/

namespace Xv6.ShellParser

open Xv6.Panics Xv6.ShellTokens

def MAXARGS : ℕ := 10

def O_RDONLY : ℕ := 0x000
def O_WRONLY : ℕ := 0x001
def O_CREATE : ℕ := 0x200
def O_TRUNC : ℕ := 0x400

/-- `struct cmd`.  `argv` and `eargv` are in pairs, up to the null pointer. -/
inductive Cmd where
  | exec (argv : List (ℕ × ℕ))
  | redir (cmd : Cmd) (file efile mode fd : ℕ)
  | pipe (left right : Cmd)
  | list (left right : Cmd)
  | back (cmd : Cmd)
deriving DecidableEq

/-- `cmd->argv[argc] = q; cmd->eargv[argc] = eq;`, where `cmd` is the node under the redirections. -/
def Cmd.addArg (a : ℕ × ℕ) : Cmd → Cmd
  | .exec argv => .exec (argv ++ [a])
  | .redir cmd file efile mode fd => .redir (cmd.addArg a) file efile mode fd
  | cmd => cmd

/-- The `switch` of `parseredirs`. -/
def redirect (tok : UInt8) (q eq : ℕ) (cmd : Cmd) : Cmd :=
  if tok = 60 then .redir cmd q eq O_RDONLY 0
  else if tok = 62 then .redir cmd q eq (O_WRONLY ||| O_CREATE ||| O_TRUNC) 1
  else if tok = 43 then .redir cmd q eq (O_WRONLY ||| O_CREATE) 1
  else cmd

section
variable (mem : Mem) (es : ℕ)

/-- `while(peek(ps, es, "<>"))`. -/
def parseredirs : ℕ → Cmd → Parser Cmd
  | 0, _ => panic .fuel
  | n + 1, cmd => do
    let more ← peek mem es [60, 62]
    if more then
      let tok ← gettoken mem es
      let file ← gettoken mem es
      if file.1 ≠ 97 then panic .missingFile
      else parseredirs n (redirect tok.1 file.2.1 file.2.2 cmd)
    else return cmd

/-- The loop of `parseexec`, `while(!peek(ps, es, "|)&;"))`. -/
def parseargs : ℕ → ℕ → Cmd → Parser Cmd
  | 0, _, _ => panic .fuel
  | n + 1, argc, ret => do
    let stop ← peek mem es [124, 41, 38, 59]
    if stop then return ret
    else
      let tok ← gettoken mem es
      if tok.1 = 0 then return ret
      else if tok.1 ≠ 97 then panic .badToken
      else if argc + 1 ≥ MAXARGS then panic .tooManyArgs
      else
        let ret ← parseredirs mem es n (ret.addArg tok.2)
        parseargs n (argc + 1) ret

/-- The loop of `parseline`, `while(peek(ps, es, "&"))`. -/
def parsebacks : ℕ → Cmd → Parser Cmd
  | 0, _ => panic .fuel
  | n + 1, cmd => do
    let more ← peek mem es [38]
    if more then
      let _ ← gettoken mem es
      parsebacks n (.back cmd)
    else return cmd

mutual

def parseline : ℕ → Parser Cmd
  | 0 => panic .fuel
  | n + 1 => do
    let cmd ← parsepipe n
    let cmd ← parsebacks mem es (n + 1) cmd
    let more ← peek mem es [59]
    if more then
      let _ ← gettoken mem es
      let right ← parseline n
      return .list cmd right
    else return cmd

def parsepipe : ℕ → Parser Cmd
  | 0 => panic .fuel
  | n + 1 => do
    let cmd ← parseexec n
    let more ← peek mem es [124]
    if more then
      let _ ← gettoken mem es
      let right ← parsepipe n
      return .pipe cmd right
    else return cmd

def parseblock : ℕ → Parser Cmd
  | 0 => panic .fuel
  | n + 1 => do
    let opened ← peek mem es [40]
    if !opened then panic .parseblock
    else
      let _ ← gettoken mem es
      let cmd ← parseline n
      let closed ← peek mem es [41]
      if !closed then panic .missingParen
      else
        let _ ← gettoken mem es
        parseredirs mem es (n + 1) cmd

def parseexec : ℕ → Parser Cmd
  | 0 => panic .fuel
  | n + 1 => do
    let block ← peek mem es [40]
    if block then parseblock n
    else
      let ret ← parseredirs mem es (n + 1) (.exec [])
      parseargs mem es (n + 1) 0 ret

end

end

/-- `strlen(s)`. -/
def strlen (mem : Mem) : ℕ → ℕ → ℕ
  | 0, _ => 0
  | n + 1, s => if mem s = 0 then 0 else strlen mem n (s + 1) + 1

/-- `*e = 0` for each of the words. -/
def terminate (mem : Mem) (words : List (ℕ × ℕ)) : Mem := words.foldl (fun mem w => Function.update mem w.2 0) mem

def nulterminate : Cmd → Mem → Mem
  | .exec argv, mem => terminate mem argv
  | .redir cmd file efile _ _, mem => terminate (nulterminate cmd mem) [(file, efile)]
  | .pipe left right, mem => nulterminate right (nulterminate left mem)
  | .list left right, mem => nulterminate right (nulterminate left mem)
  | .back cmd, mem => nulterminate cmd mem

/-- The part of `parsecmd` before `nulterminate`. -/
def parse (mem : Mem) (es n : ℕ) : Parser Cmd := do
  let cmd ← parseline mem es n
  let _ ← peek mem es []
  let s ← gets id
  if s ≠ es then panic .leftovers
  else return cmd

/-- The command line is at address `s`. -/
def parsecmd (n s : ℕ) : Prog Mem Panic Cmd := fun mem =>
  match parse mem (s + strlen mem n s) n s with
  | .ok (cmd, _) => .ok (cmd, nulterminate cmd mem)
  | .error e => .error e

/-! ### The grammar -/

structure Redir where
  file : ℕ
  efile : ℕ
  mode : ℕ
  fd : ℕ

/-- Each redirection wraps those before it. -/
def wrap (cmd : Cmd) (rs : List Redir) : Cmd := rs.foldl (fun cmd r => .redir cmd r.file r.efile r.mode r.fd) cmd

/-- The mode and the descriptor of a redirection. -/
def opens : Token → Option (ℕ × ℕ)
  | .inp => some (O_RDONLY, 0)
  | .out => some (O_WRONLY ||| O_CREATE ||| O_TRUNC, 1)
  | .append => some (O_WRONLY ||| O_CREATE, 1)
  | _ => none

/-- `redir*`, where `redir -> ('<' | '>' | '>>') word`. -/
inductive Redirs : List Token → List Redir → Prop
  | nil : Redirs [] []
  | cons {t : Token} {q e mode fd : ℕ} {ts : List Token} {rs : List Redir} :
      opens t = some (mode, fd) → Redirs ts rs → Redirs (t :: .word q e :: ts) (⟨q, e, mode, fd⟩ :: rs)

/-- `(word redir*)*`. -/
inductive Words : List Token → List (ℕ × ℕ) → List Redir → Prop
  | nil : Words [] [] []
  | cons {q e : ℕ} {a b : List Token} {ws : List (ℕ × ℕ)} {rs rs' : List Redir} :
      Redirs a rs → Words b ws rs' → Words (.word q e :: (a ++ b)) ((q, e) :: ws) (rs ++ rs')

mutual

/-- `line -> pipe '&'* [';' line]`. -/
inductive Line : List Token → Cmd → Prop
  | one {a : List Token} {c : Cmd} (n : ℕ) : Pipe a c → Line (a ++ List.replicate n .amp) (Cmd.back^[n] c)
  | list {a b : List Token} {c d : Cmd} (n : ℕ) : Pipe a c → Line b d →
      Line (a ++ (List.replicate n .amp ++ .semi :: b)) (.list (Cmd.back^[n] c) d)

/-- `pipe -> exec ['|' pipe]`. -/
inductive Pipe : List Token → Cmd → Prop
  | one {a : List Token} {c : Cmd} : Exec a c → Pipe a c
  | pipe {a b : List Token} {c d : Cmd} : Exec a c → Pipe b d → Pipe (a ++ .bar :: b) (.pipe c d)

/-- `exec -> '(' line ')' redir* | redir* (word redir*)*`, with at most `MAXARGS - 1` words. -/
inductive Exec : List Token → Cmd → Prop
  | block {a b : List Token} {c : Cmd} {rs : List Redir} : Line a c → Redirs b rs →
      Exec (.lpar :: (a ++ .rpar :: b)) (wrap c rs)
  | words {a b : List Token} {ws : List (ℕ × ℕ)} {rs rs' : List Redir} : Redirs a rs → Words b ws rs' →
      ws.length ≤ MAXARGS - 1 → Exec (a ++ b) (wrap (.exec ws) (rs ++ rs'))

end

end Xv6.ShellParser
