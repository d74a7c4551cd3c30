import Xv6.Panics

/-!
# Tokens of the shell (`user/sh.c`, `gettoken` and `peek`)

The parser works on a string in memory, between the cursor `*ps` and the address `es` of its NUL.  `gettoken`
takes a token and the blanks after it, `peek` passes over blanks and looks at the next byte.

`tokens` says what the tokens of a text are.  `Reads` relates it to the cursor, and the lemmas about `peek` and
`gettoken` say how the cursor goes along the list of tokens: the proofs about the parser use nothing else.
-/

namespace Xv6.ShellTokens

open Xv6.Panics

abbrev Mem := ℕ → UInt8

/-- `" \t\r\n\v"`. -/
def whitespace : List UInt8 := [32, 9, 13, 10, 11]

/-- `"<|>&;()"`. -/
def symbols : List UInt8 := [60, 124, 62, 38, 59, 40, 41]

def isBlank (c : UInt8) : Bool := whitespace.contains c

def isWord (c : UInt8) : Bool := !whitespace.contains c && !symbols.contains c

inductive Panic where
  | missingFile
  | parseblock
  | missingParen
  | badToken
  | tooManyArgs
  | leftovers
  /-- No call of `panic`: the fuel of the recursion is used up. -/
  | fuel
deriving DecidableEq

/-- What the shell prints. -/
def Panic.text : Panic → String
  | .missingFile => "missing file for redirection"
  | .parseblock => "parseblock"
  | .missingParen => "syntax - missing )"
  | .badToken | .leftovers => "syntax"
  | .tooManyArgs => "too many args"
  | .fuel => ""

abbrev Parser := Prog ℕ Panic

section
variable (mem : Mem) (es : ℕ)

/-- `while(s < es && p(*s)) s++;`, with `n = es - s`. -/
def scan (p : UInt8 → Bool) : ℕ → ℕ → ℕ
  | 0, s => s
  | n + 1, s => if p (mem s) then scan p n (s + 1) else s

def skip (s : ℕ) : ℕ := scan mem isBlank (es - s) s

/-- The `switch` of `gettoken`: `ret`, and `s` after it. -/
def lexeme (s : ℕ) : UInt8 × ℕ :=
  if mem s = 0 then (0, s)
  else if mem s ∈ [124, 40, 41, 59, 38, 60] then (mem s, s + 1)
  else if mem s = 62 then
    if mem (s + 1) = 62 then (43, s + 2) else (62, s + 1)
  else (97, scan mem isWord (es - s) s)

/-- Returns `ret`, `*q` and `*eq`. -/
def gettoken : Parser (UInt8 × ℕ × ℕ) := do
  let q ← gets (skip mem es)
  let r := lexeme mem es q
  update fun _ => skip mem es r.2
  return (r.1, q, r.2)

def peek (toks : List UInt8) : Parser Bool := do
  update (skip mem es)
  gets fun s => mem s != 0 && toks.contains (mem s)

end

/-! ### The tokens of a text -/

inductive Token where
  | bar | lpar | rpar | semi | amp
  | inp | out | append
  /-- From the first address up to the second. -/
  | word (q e : ℕ)
deriving DecidableEq

/-- What `gettoken` returns for a token. -/
def Token.ret : Token → UInt8
  | .bar => 124
  | .lpar => 40
  | .rpar => 41
  | .semi => 59
  | .amp => 38
  | .inp => 60
  | .out => 62
  | .append => 43
  | .word _ _ => 97

def single : List Token := [.bar, .lpar, .rpar, .semi, .amp, .inp, .out]

def symbol (c : UInt8) : Option Token := single.find? fun t => t.ret == c

/-- The tokens of a text at address `p`.  A word goes on as long as it can, and `>>` is one token. -/
def tokens : ℕ → List UInt8 → List Token
  | _, [] => []
  | p, c :: cs =>
    if isBlank c then tokens (p + 1) cs
    else if c = 62 ∧ cs.head? = some 62 then .append :: tokens (p + 2) cs.tail
    else
      match symbol c with
      | some t => t :: tokens (p + 1) cs
      | none =>
        .word p (p + 1 + (cs.takeWhile isWord).length) ::
          tokens (p + 1 + (cs.takeWhile isWord).length) (cs.dropWhile isWord)
termination_by _ cs => cs.length
decreasing_by
  · exact Nat.lt_succ_self _
  · rw [List.length_tail, List.length_cons]
    omega
  · exact Nat.lt_succ_self _
  · exact Nat.lt_succ_of_le (List.dropWhile_sublist _).length_le

/-- What `peek` looks at: the first byte of a symbol; any byte of no symbol for a word. -/
def Token.char : Token → UInt8
  | .append => 62
  | t => t.ret

def starts (toks : List UInt8) : List Token → Bool
  | [] => false
  | t :: _ => toks.contains t.char

/-- The text of `n` bytes at `s`. -/
def text (mem : Mem) : ℕ → ℕ → List UInt8
  | _, 0 => []
  | s, n + 1 => mem s :: text mem (s + 1) n

/-- The cursor is at `s`, and what is left to read are the tokens `ts`. -/
structure Reads (mem : Mem) (es s : ℕ) (ts : List Token) : Prop where
  le : s ≤ es
  nul : mem es = 0
  nonzero : ∀ i, s ≤ i → i < es → mem i ≠ 0
  eq : tokens s (text mem s (es - s)) = ts

variable {mem : Mem} {es s : ℕ} {ts : List Token}

theorem text_length (n : ℕ) : ∀ s, (text mem s n).length = n := by
  induction n with
  | zero => exact fun _ => rfl
  | succ n ih => exact fun s => congrArg (· + 1) (ih (s + 1))

theorem text_cons (h : s < es) : text mem s (es - s) = mem s :: text mem (s + 1) (es - (s + 1)) := by
  obtain ⟨n, hn⟩ : ∃ n, es - s = n + 1 := ⟨es - s - 1, by omega⟩
  have hn' : es - (s + 1) = n := by omega
  rw [hn, hn']
  rfl

/-- `scan` stops behind the longest prefix of the text whose bytes are in `p`. -/
theorem scan_spec (p : UInt8 → Bool) (n : ℕ) : ∀ s, scan mem p n s = s + ((text mem s n).takeWhile p).length ∧
    text mem (scan mem p n s) (s + n - scan mem p n s) = (text mem s n).dropWhile p := by
  induction n with
  | zero =>
    intro s
    refine ⟨rfl, ?_⟩
    show text mem s (s + 0 - s) = []
    rw [Nat.add_zero, Nat.sub_self]
    rfl
  | succ n ih =>
    intro s
    show (if p (mem s) then scan mem p n (s + 1) else s) = s + ((mem s :: text mem (s + 1) n).takeWhile p).length ∧
      text mem (if p (mem s) then scan mem p n (s + 1) else s)
        (s + (n + 1) - (if p (mem s) then scan mem p n (s + 1) else s)) = (mem s :: text mem (s + 1) n).dropWhile p
    by_cases hp : p (mem s) = true
    · have hih := ih (s + 1)
      rw [if_pos hp, List.takeWhile_cons_of_pos hp, List.dropWhile_cons_of_pos hp, List.length_cons, ← hih.2]
      refine ⟨by rw [hih.1]; omega, ?_⟩
      rw [show s + (n + 1) = s + 1 + n by omega]
    · rw [if_neg hp, List.takeWhile_cons_of_neg hp, List.dropWhile_cons_of_neg hp]
      refine ⟨rfl, ?_⟩
      rw [Nat.add_sub_cancel_left]
      rfl

theorem le_scan (p : UInt8 → Bool) (n s : ℕ) : s ≤ scan mem p n s := by
  rw [(scan_spec p n s).1]
  exact Nat.le_add_right _ _

theorem scan_le (p : UInt8 → Bool) (h : s ≤ es) : scan mem p (es - s) s ≤ es := by
  have hlen := (List.takeWhile_sublist (l := text mem s (es - s)) p).length_le
  rw [text_length] at hlen
  rw [(scan_spec p _ s).1]
  omega

theorem text_scan (p : UInt8 → Bool) (h : s ≤ es) :
    text mem (scan mem p (es - s) s) (es - scan mem p (es - s) s) = (text mem s (es - s)).dropWhile p := by
  rw [← (scan_spec p (es - s) s).2, Nat.add_sub_cancel' h]

theorem scan_all (p : UInt8 → Bool) (n : ℕ) : ∀ s i, s ≤ i → i < scan mem p n s → p (mem i) = true := by
  induction n with
  | zero => exact fun s i hs hi => absurd hi (Nat.not_lt_of_le hs)
  | succ n ih =>
    intro s i hs hi
    rw [scan] at hi
    by_cases hp : p (mem s) = true
    · rw [if_pos hp] at hi
      rcases Nat.eq_or_lt_of_le hs with rfl | hlt
      · exact hp
      · exact ih (s + 1) i hlt hi
    · rw [if_neg hp] at hi
      exact absurd hi (Nat.not_lt_of_le hs)

theorem scan_stop (p : UInt8 → Bool) (n : ℕ) : ∀ s, scan mem p n s < s + n → p (mem (scan mem p n s)) = false := by
  induction n with
  | zero => exact fun s h => absurd h (Nat.lt_irrefl s)
  | succ n ih =>
    intro s h
    rw [scan] at h ⊢
    by_cases hp : p (mem s) = true
    · rw [if_pos hp] at h ⊢
      exact ih (s + 1) (by omega)
    · rw [if_neg hp]
      exact eq_false_of_ne_true hp

theorem tokens_blank {c : UInt8} {cs : List UInt8} (p : ℕ) (h : isBlank c = true) :
    tokens p (c :: cs) = tokens (p + 1) cs := by
  rw [tokens, if_pos h]

theorem tokens_skip (cs : List UInt8) : ∀ p,
    tokens (p + (cs.takeWhile isBlank).length) (cs.dropWhile isBlank) = tokens p cs := by
  induction cs with
  | nil => exact fun _ => rfl
  | cons c cs ih =>
    intro p
    by_cases hc : isBlank c = true
    · rw [List.takeWhile_cons_of_pos hc, List.dropWhile_cons_of_pos hc, List.length_cons, tokens_blank p hc,
        ← ih (p + 1), show p + ((cs.takeWhile isBlank).length + 1) = p + 1 + (cs.takeWhile isBlank).length by omega]
    · rw [List.takeWhile_cons_of_neg hc, List.dropWhile_cons_of_neg hc]
      rfl

theorem length_tokens_le (p : ℕ) (cs : List UInt8) : (tokens p cs).length ≤ cs.length := by
  induction p, cs using tokens.induct with
  | case1 p =>
    rw [tokens]
    exact Nat.le_refl _
  | case2 p c cs hblank ih =>
    rw [tokens_blank p hblank, List.length_cons]
    omega
  | case3 p c cs hblank hdouble ih =>
    rw [tokens, if_neg hblank, if_pos hdouble, List.length_cons, List.length_cons]
    rw [List.length_tail] at ih
    omega
  | case4 p c cs hblank hdouble t hsym ih =>
    rw [tokens, if_neg hblank, if_neg hdouble, hsym]
    exact Nat.succ_le_succ ih
  | case5 p c cs hblank hdouble hsym ih =>
    rw [tokens, if_neg hblank, if_neg hdouble, hsym]
    exact Nat.succ_le_succ (ih.trans (List.dropWhile_sublist _).length_le)

theorem reads_skip (h : Reads mem es s ts) : Reads mem es (skip mem es s) ts ∧
    (skip mem es s = es ∨ skip mem es s < es ∧ isBlank (mem (skip mem es s)) = false) := by
  have hle : skip mem es s ≤ es := scan_le isBlank h.le
  have htext : text mem (skip mem es s) (es - skip mem es s) = (text mem s (es - s)).dropWhile isBlank :=
    text_scan isBlank h.le
  refine ⟨⟨hle, h.nul, fun i hi => h.nonzero i ((le_scan _ _ _).trans hi), ?_⟩, ?_⟩
  · rw [htext, skip, (scan_spec isBlank _ s).1, tokens_skip]
    exact h.eq
  · rcases Nat.lt_or_ge (skip mem es s) es with hlt | hge
    · refine .inr ⟨hlt, ?_⟩
      rw [text_cons hlt] at htext
      have hhead := List.head?_dropWhile_not isBlank (text mem s (es - s))
      rw [← htext] at hhead
      exact hhead
    · exact .inl (Nat.le_antisymm hle hge)

theorem reads_end (h : Reads mem es es ts) : ts = [] := by
  have heq := h.eq
  rw [Nat.sub_self] at heq
  rw [← heq, text, tokens]

theorem Reads.later (h : Reads mem es s ts) {s' : ℕ} (hs : s ≤ s') (hle : s' ≤ es) :
    Reads mem es s' (tokens s' (text mem s' (es - s'))) :=
  ⟨hle, h.nul, fun i hi => h.nonzero i (hs.trans hi), rfl⟩

theorem head_text (h : Reads mem es s ts) (hlt : s < es) :
    (text mem (s + 1) (es - (s + 1))).head? = some 62 ↔ mem (s + 1) = 62 := by
  rcases Nat.lt_or_ge (s + 1) es with hlt' | hge
  · rw [text_cons hlt']
    exact ⟨fun e => Option.some.inj e, fun e => congrArg some e⟩
  · have hes : es = s + 1 := Nat.le_antisymm hge hlt
    have hnul := h.nul
    rw [hes] at hnul ⊢
    rw [Nat.sub_self, hnul]
    exact ⟨fun e => absurd e (by simp [text]), fun e => absurd e (by decide)⟩

theorem single_spec : ∀ t ∈ single, t.char = t.ret ∧ (t.ret ∈ [124, 40, 41, 59, 38, 60] ∨ t.ret = 62) ∧
    t.ret ≠ 0 := by decide

theorem symbol_some {c : UInt8} {t : Token} (h : symbol c = some t) : t ∈ single ∧ t.ret = c := by
  unfold symbol at h
  have hret := List.find?_some h
  exact ⟨List.mem_of_find?_eq_some h, eq_of_beq hret⟩

theorem symbol_none {c : UInt8} (h : symbol c = none) : c ∉ symbols := by
  intro hc
  have hall := List.find?_eq_none.mp h
  have hsym : symbols ⊆ single.map Token.ret := by decide
  obtain ⟨t, ht, hret⟩ := List.mem_map.mp (hsym hc)
  exact hall t ht (beq_of_eq hret)

theorem lexeme_single {t : Token} (h : t ∈ single) (hc : t.ret = mem s)
    (hnot : ¬ (mem s = 62 ∧ mem (s + 1) = 62)) : lexeme mem es s = (t.ret, s + 1) := by
  obtain ⟨-, hret, hzero⟩ := single_spec t h
  rw [hc] at hret hzero ⊢
  rw [lexeme, if_neg hzero]
  by_cases hone : mem s ∈ [124, 40, 41, 59, 38, 60]
  · rw [if_pos hone]
  · have hgt : mem s = 62 := hret.resolve_left hone
    rw [if_neg hone, if_pos hgt, if_neg fun e => hnot ⟨hgt, e⟩, hgt]

theorem lexeme_append (hgt : mem s = 62) (hgt' : mem (s + 1) = 62) : lexeme mem es s = (43, s + 2) := by
  have hone : ¬ (62 : UInt8) ∈ [124, 40, 41, 59, 38, 60] := by decide
  rw [lexeme, hgt, if_neg (by decide), if_neg hone, if_pos rfl, if_pos hgt']

theorem lexeme_word (hzero : mem s ≠ 0) (hsym : mem s ∉ symbols) :
    lexeme mem es s = (97, scan mem isWord (es - s) s) := by
  have hsub : [124, 40, 41, 59, 38, 60] ⊆ symbols := by decide
  have hgt : ¬ mem s = 62 := by
    intro e
    rw [e] at hsym
    exact hsym (by decide)
  rw [lexeme, if_neg hzero, if_neg fun hc => hsym (hsub hc), if_neg hgt]

theorem le_lexeme (mem : Mem) (es s : ℕ) : s ≤ (lexeme mem es s).2 := by
  unfold lexeme
  split
  · exact Nat.le_refl s
  split
  · exact Nat.le_succ s
  split
  · split
    · exact Nat.le_add_right s 2
    · exact Nat.le_succ s
  · exact le_scan _ _ _

theorem reads_lexeme (h : Reads mem es s ts) (hlt : s < es) (hblank : isBlank (mem s) = false) :
    ∃ t us, ts = t :: us ∧ (lexeme mem es s).1 = t.ret ∧ Reads mem es (lexeme mem es s).2 us ∧
      (∀ q e, t = .word q e → q = s ∧ e = (lexeme mem es s).2 ∧ e = scan mem isWord (es - s) s ∧
        isWord (mem s) = true) ∧ (∀ toks, toks ⊆ symbols → toks.contains (mem s) = toks.contains t.char) := by
  have hzero : mem s ≠ 0 := h.nonzero s (Nat.le_refl s) hlt
  have heq := h.eq
  rw [text_cons hlt, tokens, if_neg (by rw [hblank]; exact Bool.false_ne_true)] at heq
  by_cases hdouble : mem s = 62 ∧ mem (s + 1) = 62
  · have hhead := (head_text h hlt).mpr hdouble.2
    have hlt' : s + 1 < es := by
      rcases Nat.lt_or_ge (s + 1) es with hlt' | hge
      · exact hlt'
      · rw [Nat.sub_eq_zero_of_le hge] at hhead
        cases hhead
    rw [if_pos ⟨hdouble.1, hhead⟩, text_cons hlt'] at heq
    rw [lexeme_append hdouble.1 hdouble.2]
    refine ⟨.append, _, heq.symm, rfl, h.later (by omega) hlt', fun q e he => (by cases he), fun toks _ => ?_⟩
    rw [hdouble.1]
    rfl
  rw [if_neg fun e => hdouble ⟨e.1, (head_text h hlt).mp e.2⟩] at heq
  cases hsym : symbol (mem s) with
  | some t =>
    obtain ⟨hsingle, hret⟩ := symbol_some hsym
    rw [hsym] at heq
    rw [lexeme_single hsingle hret hdouble]
    refine ⟨t, _, heq.symm, rfl, h.later (Nat.le_succ s) hlt, fun q e he => ?_, fun toks _ => ?_⟩
    · rw [he] at hsingle
      exact absurd hsingle (by simp [single])
    · rw [(single_spec t hsingle).1, hret]
  | none =>
    have hnot := symbol_none hsym
    have hword : isWord (mem s) = true := by
      rw [isWord, show whitespace.contains (mem s) = false from hblank]
      simpa using hnot
    rw [hsym] at heq
    rw [lexeme_word hzero hnot]
    -- the first byte is one of the word, as the loop sees it
    have hscan : scan mem isWord (es - s) s =
        s + 1 + ((text mem (s + 1) (es - (s + 1))).takeWhile isWord).length := by
      rw [(scan_spec isWord _ s).1, text_cons hlt, List.takeWhile_cons_of_pos hword, List.length_cons]
      omega
    have htext : text mem (scan mem isWord (es - s) s) (es - scan mem isWord (es - s) s) =
        (text mem (s + 1) (es - (s + 1))).dropWhile isWord := by
      rw [text_scan isWord h.le, text_cons hlt, List.dropWhile_cons_of_pos hword]
    refine ⟨.word s (scan mem isWord (es - s) s), tokens (scan mem isWord (es - s) s) (text mem
      (scan mem isWord (es - s) s) (es - scan mem isWord (es - s) s)), ?_, rfl,
      h.later (le_scan _ _ _) (scan_le isWord h.le), fun q e he => ?_, fun toks htoks => ?_⟩
    · rw [htext, hscan]
      exact heq.symm
    · cases he
      exact ⟨rfl, rfl, rfl, hword⟩
    · have h97 : (97 : UInt8) ∉ symbols := by decide
      show toks.contains (mem s) = toks.contains 97
      rw [List.contains_eq_mem, List.contains_eq_mem, decide_eq_false fun hc => hnot (htoks hc),
        decide_eq_false fun hc => h97 (htoks hc)]

/-! ### The cursor goes along the tokens -/

theorem peek_reads {toks : List UInt8} (htoks : toks ⊆ symbols) (h : Reads mem es s ts) :
    ∃ s', peek mem es toks s = .ok (starts toks ts, s') ∧ Reads mem es s' ts := by
  obtain ⟨hskip, hat⟩ := reads_skip h
  refine ⟨skip mem es s, ?_, hskip⟩
  show Except.ok (mem (skip mem es s) != 0 && toks.contains (mem (skip mem es s)), skip mem es s) = _
  rcases hat with hend | ⟨hlt, hblank⟩
  · rw [hend] at hskip ⊢
    rw [reads_end hskip, hskip.nul]
    rfl
  · obtain ⟨t, us, hts, -, -, -, hchar⟩ := reads_lexeme hskip hlt hblank
    have hzero : mem (skip mem es s) ≠ 0 := hskip.nonzero _ (Nat.le_refl _) hlt
    rw [hts, hchar toks htoks, bne_iff_ne.mpr hzero]
    rfl

theorem skip_eq_end (h : Reads mem es s ts) : skip mem es s = es ↔ ts = [] := by
  obtain ⟨hskip, hat⟩ := reads_skip h
  constructor
  · intro hend
    rw [hend] at hskip
    exact reads_end hskip
  · intro hts
    rcases hat with hend | ⟨hlt, hblank⟩
    · exact hend
    · obtain ⟨t, us, ht, -⟩ := reads_lexeme hskip hlt hblank
      rw [hts] at ht
      cases ht

theorem gettoken_nil (h : Reads mem es s []) :
    ∃ q e s', gettoken mem es s = .ok ((0, q, e), s') ∧ Reads mem es s' [] := by
  obtain ⟨hskip, hat⟩ := reads_skip h
  rcases hat with hend | ⟨hlt, hblank⟩
  · have hlex : lexeme mem es (skip mem es s) = (0, skip mem es s) := by
      rw [lexeme, hend, if_pos h.nul]
    refine ⟨skip mem es s, skip mem es s, skip mem es (skip mem es s), ?_, (reads_skip hskip).1⟩
    show Except.ok (((lexeme mem es (skip mem es s)).1, skip mem es s, (lexeme mem es (skip mem es s)).2),
      skip mem es (lexeme mem es (skip mem es s)).2) = _
    rw [hlex]
  · obtain ⟨t, us, hts, -⟩ := reads_lexeme hskip hlt hblank
    cases hts

theorem gettoken_cons {t : Token} (h : Reads mem es s (t :: ts)) :
    ∃ q e s', gettoken mem es s = .ok ((t.ret, q, e), s') ∧ Reads mem es s' ts ∧
      ∀ q' e', t = .word q' e' → q = q' ∧ e = e' := by
  obtain ⟨hskip, hat⟩ := reads_skip h
  rcases hat with hend | ⟨hlt, hblank⟩
  · rw [hend] at hskip
    cases reads_end hskip
  · obtain ⟨t', us, hts, hret, hlex, hword, -⟩ := reads_lexeme hskip hlt hblank
    cases hts
    refine ⟨skip mem es s, (lexeme mem es (skip mem es s)).2, _, ?_, (reads_skip hlex).1, fun q' e' ht => ?_⟩
    · rw [← hret]
      rfl
    · exact ⟨(hword q' e' ht).1.symm, (hword q' e' ht).2.1.symm⟩

theorem peek_bind (toks : List UInt8) (htoks : toks ⊆ symbols) (h : Reads mem es s ts) : ∃ s', Reads mem es s' ts ∧
      ∀ {α : Type} (f : Bool → Parser α), (peek mem es toks >>= f) s = f (starts toks ts) s' := by
  obtain ⟨s', hpeek, hs'⟩ := peek_reads htoks h
  exact ⟨s', hs', fun f => bind_of_ok hpeek⟩

theorem gettoken_bind_nil (h : Reads mem es s []) : ∃ q e s', Reads mem es s' [] ∧
      ∀ {α : Type} (f : UInt8 × ℕ × ℕ → Parser α), (gettoken mem es >>= f) s = f (0, q, e) s' := by
  obtain ⟨q, e, s', hget, hs'⟩ := gettoken_nil h
  exact ⟨q, e, s', hs', fun f => bind_of_ok hget⟩

theorem gettoken_bind {t : Token} (h : Reads mem es s (t :: ts)) : ∃ q e s', Reads mem es s' ts ∧
      ∀ {α : Type} (f : UInt8 × ℕ × ℕ → Parser α), (gettoken mem es >>= f) s = f (t.ret, q, e) s' := by
  obtain ⟨q, e, s', hget, hs', -⟩ := gettoken_cons h
  exact ⟨q, e, s', hs', fun f => bind_of_ok hget⟩

theorem gettoken_bind_word {q e : ℕ} (h : Reads mem es s (.word q e :: ts)) : ∃ s', Reads mem es s' ts ∧
      ∀ {α : Type} (f : UInt8 × ℕ × ℕ → Parser α), (gettoken mem es >>= f) s = f (97, q, e) s' := by
  obtain ⟨q', e', s', hget, hs', hword⟩ := gettoken_cons h
  obtain ⟨rfl, rfl⟩ := hword q e rfl
  exact ⟨s', hs', fun f => bind_of_ok hget⟩

/-! ### Words -/

structure CString (mem : Mem) (p : ℕ) (w : List UInt8) : Prop where
  text : text mem p w.length = w
  nonzero : 0 ∉ w
  nul : mem (p + w.length) = 0

theorem mem_text (n : ℕ) : ∀ p c, c ∈ text mem p n ↔ ∃ i, p ≤ i ∧ i < p + n ∧ mem i = c := by
  induction n with
  | zero =>
    intro p c
    refine ⟨fun h => absurd h List.not_mem_nil, ?_⟩
    rintro ⟨i, hi, hi', -⟩
    omega
  | succ n ih =>
    intro p c
    rw [text, List.mem_cons, ih (p + 1) c]
    constructor
    · rintro (h | ⟨i, hi, hi', h⟩)
      · exact ⟨p, Nat.le_refl p, by omega, h.symm⟩
      · exact ⟨i, by omega, by omega, h⟩
    · rintro ⟨i, hi, hi', h⟩
      rcases Nat.eq_or_lt_of_le hi with rfl | hlt
      · exact .inl h.symm
      · exact .inr ⟨i, hlt, by omega, h⟩

theorem text_congr {mem' : Mem} (n : ℕ) : ∀ p, (∀ i, p ≤ i → i < p + n → mem' i = mem i) →
    text mem' p n = text mem p n := by
  induction n with
  | zero => exact fun p _ => rfl
  | succ n ih =>
    intro p h
    rw [text, text, h p (Nat.le_refl p) (by omega), ih (p + 1) fun i hi hi' => h i (by omega) (by omega)]

theorem CString.reads {line : List UInt8} (h : CString mem s line) :
    Reads mem (s + line.length) s (tokens s line) := by
  refine ⟨Nat.le_add_right _ _, h.nul, fun i hi hi' hzero => ?_, by rw [Nat.add_sub_cancel_left, h.text]⟩
  have hmem := (mem_text line.length s 0).mpr ⟨i, hi, hi', hzero⟩
  rw [h.text] at hmem
  exact h.nonzero hmem

/-- A word of the text: its bytes are bytes of words, and the byte behind it is none, or is the NUL. -/
structure IsWordAt (mem : Mem) (s es q e : ℕ) : Prop where
  start : s ≤ q
  lt : q < e
  stop : e ≤ es
  bytes : ∀ i, q ≤ i → i < e → isWord (mem i) = true
  behind : e = es ∨ isWord (mem e) = false

theorem Reads.words (h : Reads mem es s ts) : ∀ q e, .word q e ∈ ts → IsWordAt mem s es q e := by
  induction ts generalizing s with
  | nil => exact fun q e hmem => absurd hmem List.not_mem_nil
  | cons t ts ih =>
    intro q e hmem
    have hge : s ≤ skip mem es s := le_scan _ _ _
    obtain ⟨hskip, hat⟩ := reads_skip h
    rcases hat with hend | ⟨hlt, hblank⟩
    · rw [hend] at hskip
      cases reads_end hskip
    obtain ⟨t', us, hts, -, hlex, hword, -⟩ := reads_lexeme hskip hlt hblank
    cases hts
    rcases List.mem_cons.mp hmem with ht | hmem
    · obtain ⟨hq, -, he, hbyte⟩ := hword q e ht.symm
      have hstop : e ≤ es := he ▸ scan_le isWord hskip.le
      have hin : q < es := hq ▸ hlt
      rw [← hq] at he hbyte hge
      have hqe : q < e := by
        rcases Nat.lt_or_ge q e with hqe | hqe
        · exact hqe
        · have hnot : isWord (mem e) = false := he ▸ scan_stop isWord (es - q) q (by omega)
          have heq : e = q := Nat.le_antisymm hqe (he ▸ le_scan _ _ _)
          rw [heq, hbyte] at hnot
          cases hnot
      refine ⟨hge, hqe, hstop, fun i hi hi' => ?_, ?_⟩
      · exact scan_all isWord _ q i hi (he ▸ hi')
      · rcases Nat.eq_or_lt_of_le hstop with heq | hlt'
        · exact .inl heq
        · exact .inr (he ▸ scan_stop isWord (es - q) q (by omega))
    · have hw := ih hlex q e hmem
      exact ⟨hge.trans ((le_lexeme _ _ _).trans hw.start), hw.lt, hw.stop, hw.bytes, hw.behind⟩

end Xv6.ShellTokens
