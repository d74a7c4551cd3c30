import Xv6.Grep
import Xv6.LabelledRuns
import Xv6.Memmove
import Xv6.TextLines
import Xv6.Ulib

/-!
# The lines `grep` prints (`user/grep.c`, `grep`)

The buffer holds the part of a line that has been read and not yet ended.  A step is one call of `read` that
returns something, with the bytes it delivers as the label, and what the loop does with them.  Any load or store
outside the 1024 bytes of `buf` ends the run.

`Cut` splits a text into the lines that end with a newline and the rest.  After the chunks of any text the buffer
holds the rest, and the lines among the others that match have been written.
-/

namespace Xv6.GrepLines

open Function (update_self update_of_ne)

open Xv6.LabelledRuns Xv6.Grep Xv6.Buffers Xv6.TextLines Xv6.Ulib
open Classical in
noncomputable def printed (pat : List UInt8) (ls : List (List UInt8)) : List UInt8 :=
  (ls.filter fun l => decide (Matches pat l)).flatMap fun l => l ++ [10]

/-- `sizeof(buf)`. -/
def BUFSZ : ℕ := 1024

abbrev Buf := ℕ → UInt8

/-- `memmove(buf, p, m)`. -/
def memmove (buf : Buf) (p m : ℕ) : Option Buf :=
  if p + m ≤ BUFSZ then
    some fun i => Memmove.userMemmove 0 (UInt64.ofNat p) (BitVec.ofNat 32 m) (fun a => buf a.toNat) (UInt64.ofNat i)
  else none

section
variable (pm : Mem) (re n : ℕ)

/-- `while((q = strchr(p, '\n')) != 0)`. -/
def lines : ℕ → Buf → ℕ → List UInt8 → Option (Buf × ℕ × List UInt8)
  | 0, _, _, _ => none
  | k + 1, buf, p, out => do
    match ← strchr (load BUFSZ buf) 10 n p with
    | none => return (buf, p, out)
    | some q =>
      let buf ← store BUFSZ buf q 0
      if ← matchText pm (load BUFSZ buf) n re p then
        let buf ← store BUFSZ buf q 10
        let line ← loads BUFSZ buf p (q + 1 - p)
        lines k buf (q + 1) (out ++ line)
      else lines k buf (q + 1) out

structure St where
  buf : Buf
  m : ℕ
  out : List UInt8

/-- The third argument of `read`. -/
def St.request (s : St) : ℕ := BUFSZ - s.m - 1

/-- `read` has returned `chunk`. -/
def St.step (s : St) (chunk : List UInt8) : Option St := do
  let buf ← stores BUFSZ s.buf s.m chunk
  let m := s.m + chunk.length
  let buf ← store BUFSZ buf m 0
  let (buf, p, out) ← lines pm re n n buf 0 s.out
  if m > 0 then
    let buf ← memmove buf p (m - p)
    return ⟨buf, m - p, out⟩
  else return ⟨buf, m, out⟩

end

/-- `buf` is a global array, with what an earlier file has left in it. -/
def St.start (buf : Buf) : St := ⟨buf, 0, []⟩

/-- What `read` may deliver: something, and not more than was asked for. -/
def Delivers (s : St) (chunk : List UInt8) : Prop := 0 < chunk.length ∧ chunk.length ≤ s.request

instance (s : St) (chunk : List UInt8) : Decidable (Delivers s chunk) := inferInstanceAs (Decidable (_ ∧ _))

/-! ### The buffer -/

variable {buf : Buf} {p q k : ℕ} {w : List UInt8}

theorem memmove_spec (buf : Buf) {m : ℕ} (h : p + m ≤ BUFSZ) : ∃ buf', memmove buf p m = some buf' ∧
    ∀ i, i < m → buf' i = buf (p + i) := by
  have hBUF : BUFSZ = 1024 := rfl
  have hp : (UInt64.ofNat p).toNat = p := by
    rw [UInt64.toNat_ofNat', Nat.mod_eq_of_lt (by omega)]
  have hm : (BitVec.ofNat 32 m).toInt = m := by
    rw [BitVec.toInt_eq_toNat_cond, BitVec.toNat_ofNat, Nat.mod_eq_of_lt (by omega), if_pos (by omega)]
  have hsrc : Memmove.NoWrap (UInt64.ofNat p) m := by
    unfold Memmove.NoWrap
    omega
  have hdst : Memmove.NoWrap 0 m := by
    show 0 + m < 2 ^ 64
    omega
  have hmoved := Memmove.userMemmove_moved hm hdst hsrc fun a => buf a.toNat
  refine ⟨_, if_pos h, fun i hi => ?_⟩
  have hcopied := hmoved.copied i hi
  rw [UInt64.zero_add] at hcopied
  rw [hcopied, Memmove.toNat_add hsrc (Nat.le_of_lt hi), hp]

/-! ### The lines in the buffer -/

theorem printed_hit {pat l : List UInt8} {ls : List (List UInt8)} (h : Matches pat l) :
    printed pat (l :: ls) = l ++ [10] ++ printed pat ls := by
  classical
  rw [printed, List.filter_cons, if_pos (decide_eq_true h), List.flatMap_cons]
  rfl

theorem printed_miss {pat l : List UInt8} {ls : List (List UInt8)} (h : ¬ Matches pat l) :
    printed pat (l :: ls) = printed pat ls := by
  classical
  rw [printed, List.filter_cons, if_neg (by simpa using h)]
  rfl

theorem printed_append (pat : List UInt8) (ls ls' : List (List UInt8)) :
    printed pat (ls ++ ls') = printed pat ls ++ printed pat ls' := by
  rw [printed, List.filter_append, List.flatMap_append]
  rfl

variable {pm : Mem} {re n : ℕ} {pat : List UInt8}

/-- One line: its newline becomes a NUL for `match`, and a newline again if the line is written. -/
theorem lines_cons (hpat : CString pm re pat) (hn : pat.length + BUFSZ + 1 < n) {l r : List UInt8} (out : List UInt8)
    (hl : 10 ∉ l) (h : CString (load BUFSZ buf) p (l ++ 10 :: r)) :
    ∃ buf', lines pm re n (k + 1) buf p out = lines pm re n k buf' (p + l.length + 1) (out ++ printed pat [l]) ∧
      ∀ i, p + l.length < i → buf' i = buf i := by
  obtain ⟨hholds, hend⟩ := h.holds
  rw [List.length_append, List.length_cons] at hend
  have hlt : p + l.length < BUFSZ := by omega
  have hq : strchr (load BUFSZ buf) 10 n p = some (some (p + l.length)) := strchr_found h hl (by omega)
  obtain ⟨hline, hnewline, -⟩ := holds_append.mp hholds
  have hnul : 0 ∉ l := fun hm => h.not_mem (List.mem_append_left _ hm)
  have hcut : Holds (Function.update buf (p + l.length) 0) p l :=
    hline.congr fun i _ hi => update_of_ne (Nat.ne_of_lt hi) _ _
  have htext : CString (load BUFSZ (Function.update buf (p + l.length) 0)) p l :=
    cstring_of_holds hcut hnul (update_self ..) hlt
  obtain ⟨b, hmatch, hb⟩ := matchText_spec (n := n) hpat htext (by omega)
  have hstep : lines pm re n (k + 1) buf p out =
      if b then (do
        let buf ← store BUFSZ (Function.update buf (p + l.length) 0) (p + l.length) 10
        let line ← loads BUFSZ buf p (p + l.length + 1 - p)
        lines pm re n k buf (p + l.length + 1) (out ++ line))
      else lines pm re n k (Function.update buf (p + l.length) 0) (p + l.length + 1) out := by
    rw [lines, hq]
    show (store BUFSZ buf (p + l.length) 0 >>= _) = _
    rw [store_of_lt hlt]
    show (matchText pm (load BUFSZ (Function.update buf (p + l.length) 0)) n re p >>= _) = _
    rw [hmatch]
    rfl
  cases b with
  | true =>
    have hback : Holds (Function.update (Function.update buf (p + l.length) 0) (p + l.length) 10) p (l ++ [10]) := by
      have hwhole : Holds buf p (l ++ [10]) := holds_append.mpr ⟨hline, hnewline, trivial⟩
      refine hwhole.congr fun i _ hi => ?_
      by_cases hi' : i = p + l.length
      · rw [hi', update_self, hnewline]
      · rw [update_of_ne hi', update_of_ne hi']
    have hlen : (l ++ [10]).length = l.length + 1 := List.length_append
    have hloads : loads BUFSZ _ p (l ++ [10]).length = some (l ++ [10]) := loads_of_holds hback (by omega)
    refine ⟨Function.update (Function.update buf (p + l.length) 0) (p + l.length) 10, ?_, fun i hi => ?_⟩
    · rw [hstep, if_pos rfl, store_of_lt hlt]
      show (loads BUFSZ _ p (p + l.length + 1 - p) >>= _) = _
      rw [show p + l.length + 1 - p = (l ++ [10]).length by omega,
        hloads, printed_hit (hb.mp rfl)]
      show lines pm re n k _ (p + l.length + 1) (out ++ (l ++ [10])) = _
      rw [show printed pat [] = [] from rfl, List.append_nil]
    · rw [update_of_ne (Nat.ne_of_gt hi), update_of_ne (Nat.ne_of_gt hi)]
  | false =>
    refine ⟨Function.update buf (p + l.length) 0, ?_, fun i hi => update_of_ne (Nat.ne_of_gt hi) _ _⟩
    have hmiss : ¬ Matches pat l := fun h => Bool.false_ne_true (hb.mpr h)
    rw [hstep, if_neg Bool.false_ne_true, printed_miss hmiss, show printed pat [] = [] from rfl, List.append_nil]

theorem lines_spec (hpat : CString pm re pat) (hn : pat.length + BUFSZ + 1 < n) (ls : List (List UInt8)) :
    ∀ (k p : ℕ) (buf : Buf) (w r out : List UInt8), Cut 10 w ls r → CString (load BUFSZ buf) p w → ls.length < k →
      ∃ buf' p', lines pm re n k buf p out = some (buf', p', out ++ printed pat ls) ∧
        p' + r.length = p + w.length ∧ Holds buf' p' r := by
  induction ls with
  | nil =>
    intro k p buf w r out hcut h hk
    have hwr : w = r := hcut.eq
    obtain ⟨k, rfl⟩ := Nat.exists_eq_add_one_of_ne_zero (Nat.ne_of_gt hk)
    obtain ⟨hholds, hlt⟩ := h.holds
    refine ⟨buf, p, ?_, by rw [hwr], hwr ▸ hholds⟩
    rw [lines, strchr_none h (hwr ▸ hcut.rest) (by omega)]
    show some (buf, p, out) = _
    rw [show printed pat [] = [] from rfl, List.append_nil]
  | cons l ls ih =>
    intro k p buf w r out hcut h hk
    obtain ⟨k, rfl⟩ := Nat.exists_eq_add_one_of_ne_zero (Nat.ne_of_gt (Nat.zero_lt_of_lt hk))
    rw [List.length_cons] at hk
    obtain ⟨w', rfl, hcut'⟩ := hcut.uncons
    obtain ⟨buf₁, hrun, hsame⟩ := lines_cons (k := k) hpat hn out (hcut.lines l List.mem_cons_self) h
    have hrest : CString (load BUFSZ buf) (p + l.length + 1) w' := (CString.drop h).2.2
    obtain ⟨buf₂, p', hrun', hp', hholds⟩ := ih k (p + l.length + 1) buf₁ w' r (out ++ printed pat [l]) hcut'
      (hrest.congr fun i hi _ => hsame i hi) (by omega)
    refine ⟨buf₂, p', ?_, ?_, hholds⟩
    · rw [hrun, hrun', List.append_assoc, ← printed_append, List.singleton_append]
    · rw [hp', List.length_append, List.length_cons]
      omega

/-! ### Runs -/

/-- Between two reads, with the text `x` read so far. -/
def Carries (pat x : List UInt8) (s : St) : Prop :=
  ∃ ls r, Cut 10 x ls r ∧ s.m = r.length ∧ Holds s.buf 0 r ∧ s.out = printed pat ls

theorem step_carries (hpat : CString pm re pat) (hn : pat.length + BUFSZ + 1 < n) {x chunk : List UInt8} {s : St}
    (hs : Carries pat x s) (hchunk : Delivers s chunk) (hnul : 0 ∉ x ++ chunk) :
    ∃ t, St.step pm re n s chunk = some t ∧ Carries pat (x ++ chunk) t := by
  obtain ⟨ls, r, hcut, hm, hholds, hout⟩ := hs
  obtain ⟨hpos, hle⟩ := hchunk
  unfold St.request at hle
  obtain ⟨ls', r', hcut'⟩ := exists_cut 10 (r ++ chunk)
  obtain ⟨buf₁, hstores, hnew, hold⟩ := stores_spec BUFSZ chunk s.buf s.m (by omega)
  have hw : Holds buf₁ 0 (r ++ chunk) := by
    refine holds_append.mpr ⟨hholds.congr fun i _ hi => hold i (by omega), ?_⟩
    rw [Nat.zero_add, ← hm]
    exact hnew
  have hlen : (r ++ chunk).length = s.m + chunk.length := by rw [List.length_append, hm]
  have hw₀ : Holds (Function.update buf₁ (s.m + chunk.length) 0) 0 (r ++ chunk) :=
    hw.congr fun i _ hi => update_of_ne (by omega) _ _
  have hnul' : 0 ∉ r ++ chunk := by
    intro hmem
    refine hnul ?_
    rw [hcut.eq, List.append_assoc]
    exact List.mem_append_right _ hmem
  have hstr : CString (load BUFSZ (Function.update buf₁ (s.m + chunk.length) 0)) 0 (r ++ chunk) :=
    cstring_of_holds hw₀ hnul' (by rw [Nat.zero_add, hlen, update_self]) (by omega)
  have hcount := hcut'.length_le
  obtain ⟨buf₂, p, hlines, hp, hrest⟩ := lines_spec hpat hn ls' n 0 (Function.update buf₁ (s.m + chunk.length) 0)
    (r ++ chunk) r' s.out hcut' hstr (by omega)
  have hmove : s.m + chunk.length - p = r'.length := by omega
  obtain ⟨buf₃, hmemmove, hmoved⟩ := memmove_spec buf₂ (show p + r'.length ≤ BUFSZ by omega)
  refine ⟨⟨buf₃, r'.length, s.out ++ printed pat ls'⟩, ?_, ls ++ ls', r', hcut.more hcut', rfl, ?_, ?_⟩
  · unfold St.step
    rw [hstores]
    show (store BUFSZ buf₁ (s.m + chunk.length) 0 >>= _) = _
    rw [store_of_lt (by omega)]
    show (lines pm re n n _ 0 s.out >>= _) = _
    rw [hlines]
    show (if s.m + chunk.length > 0 then memmove buf₂ p (s.m + chunk.length - p) >>= _ else _) = _
    rw [if_pos (by omega), hmove, hmemmove]
    rfl
  · exact hrest.shift fun i hi => by rw [Nat.zero_add]; exact hmoved i hi
  · show s.out ++ printed pat ls' = _
    rw [hout, printed_append]

theorem run_carries (hpat : CString pm re pat) (hn : pat.length + BUFSZ + 1 < n) (buf : Buf)
    (chunks : List (List UInt8)) : 0 ∉ chunks.flatten → Meets (St.step pm re n) Delivers (St.start buf) chunks →
      ∃ s, exec (St.step pm re n) (St.start buf) chunks = some s ∧ Carries pat chunks.flatten s := by
  induction chunks using List.reverseRecOn with
  | nil =>
    intro _ _
    exact ⟨St.start buf, rfl, [], [], ⟨rfl, fun l hl => absurd hl List.not_mem_nil, List.not_mem_nil⟩, rfl, trivial, rfl⟩
  | append_singleton chunks chunk ih =>
    intro hnul hreads
    rw [List.flatten_concat] at hnul ⊢
    obtain ⟨hbefore, hlast⟩ := meets_snoc hreads
    obtain ⟨s, hs, hcarries⟩ := ih (fun hm => hnul (List.mem_append_left _ hm)) hbefore
    obtain ⟨t, ht, hcarries'⟩ := step_carries hpat hn hcarries (hlast s hs) hnul
    exact ⟨t, exec_snoc_of hs ht, hcarries'⟩

/-- **What `grep` prints does not depend on how `read` splits the input.**  However far the reads have come, no load
or store has left `buf`, the next `read` asks for something, and what has been written is an initial part of the
matching lines; after the whole input it is all of them. -/
theorem grep_prints_matching_lines (hpat : CString pm re pat) (hn : pat.length + BUFSZ + 1 < n) (buf : Buf)
    {input r : List UInt8} {ls : List (List UInt8)} (hnul : 0 ∉ input) (hcut : Cut 10 input ls r)
    (hls : ∀ l ∈ ls, l.length ≤ 1022) (hr : r.length ≤ 1022) {chunks : List (List UInt8)}
    (hinput : chunks.flatten <+: input) (hreads : Meets (St.step pm re n) Delivers (St.start buf) chunks) :
    ∃ s, exec (St.step pm re n) (St.start buf) chunks = some s ∧ 0 < s.request ∧ s.out <+: printed pat ls ∧
      (chunks.flatten = input → s.out = printed pat ls) := by
  obtain ⟨y, rfl⟩ := hinput
  obtain ⟨s, hs, ls₁, r₁, hcut₁, hm, -, hout⟩ :=
    run_carries hpat hn buf chunks (fun hm => hnul (List.mem_append_left _ hm)) hreads
  refine ⟨s, hs, ?_, ?_, ?_⟩
  · have hle := hcut₁.rest_le hcut hls hr
    unfold St.request BUFSZ
    omega
  · obtain ⟨ls₂, r₂, hcut₂⟩ := exists_cut 10 (r₁ ++ y)
    rw [hout, ← ((hcut₁.more hcut₂).unique hcut).1, printed_append]
    exact List.prefix_append ..
  · intro hall
    rw [← hall] at hcut
    rw [hout, (hcut₁.unique hcut).1]

/-- `grep a` on `ba\nc`, read in two parts. -/
theorem grep_prints_matching_lines_twoReads : ∃ s, exec (St.step (fun i => [97, 0][i]?) 0 2000) (St.start fun _ => 0)
    [[98], [97, 10, 99]] = some s ∧ s.out = [98, 97, 10] := by
  have hpat : CString (fun i => [97, 0][i]?) 0 [97] := by simp [CString]
  have hcut : Cut (10 : UInt8) [98, 97, 10, 99] [[98, 97]] [99] := ⟨rfl, by simp, by simp⟩
  have hmatches : Matches [97] [98, 97] := by
    obtain ⟨b, hb, hiff⟩ := matchText_spec (n := 20) hpat
      (show CString (fun i => [98, 97, 0][i]?) 0 [98, 97] by simp [CString]) (by decide)
    have hrun : matchText (fun i => [97, 0][i]?) (fun i => [98, 97, 0][i]?) 20 0 0 = some true := by decide
    exact hiff.mp (Option.some.inj (hb.symm.trans hrun))
  obtain ⟨s, hs, -, -, hout⟩ := grep_prints_matching_lines hpat (show 1 + 1024 + 1 < 2000 by decide) (fun _ => 0)
    (by simp) hcut (by simp) (by decide) (show [[98], [97, 10, 99]].flatten <+: _ from List.prefix_refl _) (by decide +kernel)
  refine ⟨s, hs, ?_⟩
  rw [hout rfl, printed_hit hmatches]
  rfl

end Xv6.GrepLines
