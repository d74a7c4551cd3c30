import Xv6.ShellParser

/-!
# The parser of the shell accepts its grammar

For each procedure two lemmas, by induction on the fuel.  `*_sound`: what it returns is derived from the tokens it
passed, and it does not run out of fuel.  `*_complete`: it returns the tree of any derivation, if what follows
cannot be read as a longer one.  The grammar lets `exec` end before any token, while `parseargs` panics before a
`(`: the tokens that can follow decide.

`nulterminate` writes a NUL behind each word.  No such byte is in a word, so that the texts stay.
-/

namespace Xv6.ShellParser

open Xv6.Panics Xv6.ShellTokens

variable {mem : Mem} {es s : ℕ} {ts : List Token}

/-! ### What follows -/

/-- The text ends, or goes on with one of these symbols. -/
def Ends (toks : List UInt8) (ts : List Token) : Prop := ts = [] ∨ starts toks ts = true

theorem starts_cons {toks : List UInt8} (h : starts toks ts = true) : ∃ t us, ts = t :: us ∧ t.char ∈ toks := by
  cases ts with
  | nil => cases h
  | cons t us => exact ⟨t, us, rfl, List.contains_iff_mem.mp h⟩

theorem not_starts {toks : List UInt8} {t : Token} (h : t.char ∉ toks) : starts toks (t :: ts) = false := by
  show toks.contains t.char = false
  rw [List.contains_eq_mem]
  exact decide_eq_false h

theorem Ends.not_starts {A B : List UInt8} (h : Ends A ts) (hAB : A.all (fun c => !B.contains c) = true) :
    starts B ts = false := by
  rcases h with rfl | h
  · rfl
  · obtain ⟨t, us, rfl, ht⟩ := starts_cons h
    have hnot := List.all_eq_true.mp hAB _ ht
    rwa [Bool.not_eq_true'] at hnot

theorem Ends.mono {A B : List UInt8} (h : Ends A ts) (hAB : A ⊆ B) : Ends B ts := by
  rcases h with rfl | h
  · exact .inl rfl
  · obtain ⟨t, us, rfl, ht⟩ := starts_cons h
    exact .inr (List.contains_iff_mem.mpr (hAB ht))

theorem ends_cons {toks : List UInt8} {t : Token} (h : t.char ∈ toks) : Ends toks (t :: ts) :=
  .inr (List.contains_iff_mem.mpr h)

/-- The tokens that `peek` tells from all others. -/
def plain : List Token := [.bar, .lpar, .rpar, .semi, .amp]

theorem eq_of_char {t u : Token} (hu : u ∈ plain) (h : t.char = u.char) : t = u := by
  cases t with
  | bar => exact (show ∀ u ∈ plain, Token.bar.char = u.char → Token.bar = u by decide) u hu h
  | lpar => exact (show ∀ u ∈ plain, Token.lpar.char = u.char → Token.lpar = u by decide) u hu h
  | rpar => exact (show ∀ u ∈ plain, Token.rpar.char = u.char → Token.rpar = u by decide) u hu h
  | semi => exact (show ∀ u ∈ plain, Token.semi.char = u.char → Token.semi = u by decide) u hu h
  | amp => exact (show ∀ u ∈ plain, Token.amp.char = u.char → Token.amp = u by decide) u hu h
  | inp => exact absurd h ((show ∀ u ∈ plain, Token.inp.char ≠ u.char by decide) u hu)
  | out | append => exact absurd h ((show ∀ u ∈ plain, Token.out.char ≠ u.char by decide) u hu)
  | word q e => exact absurd h ((show ∀ u ∈ plain, (97 : UInt8) ≠ u.char by decide) u hu)

theorem starts_plain {u : Token} (hu : u ∈ plain) (h : starts [u.char] ts = true) : ∃ us, ts = u :: us := by
  obtain ⟨t, us, rfl, ht⟩ := starts_cons h
  exact ⟨us, by rw [eq_of_char hu (List.mem_singleton.mp ht)]⟩

theorem opens_of_char {t : Token} (h : t.char ∈ [60, 62]) : ∃ mode fd, opens t = some (mode, fd) := by
  cases t with
  | inp | out | append => exact ⟨_, _, rfl⟩
  | bar | lpar | rpar | semi | amp => exact absurd h (by decide)
  | word q e => exact absurd (show (97 : UInt8) ∈ [60, 62] from h) (by decide)

theorem redirect_of_opens {t : Token} {mode fd : ℕ} (h : opens t = some (mode, fd)) (q e : ℕ) (c : Cmd) :
    t.char ∈ [60, 62] ∧ redirect t.ret q e c = .redir c q e mode fd := by
  cases t with
  | inp | out | append =>
    cases h
    exact ⟨by decide, rfl⟩
  | bar | lpar | rpar | semi | amp | word _ _ => cases h

theorem word_of_ret {t : Token} (h : t.ret = 97) : ∃ q e, t = .word q e := by
  cases t with
  | word q e => exact ⟨q, e, rfl⟩
  | inp | out | append | bar | lpar | rpar | semi | amp => exact absurd h (by decide)

theorem ret_ne_zero (t : Token) : t.ret ≠ 0 := by
  cases t with
  | word q e => exact show (97 : UInt8) ≠ 0 by decide
  | inp | out | append | bar | lpar | rpar | semi | amp => decide

theorem wrap_append (c : Cmd) (rs rs' : List Redir) : wrap (wrap c rs) rs' = wrap c (rs ++ rs') :=
  (List.foldl_append ..).symm

theorem wrap_cons (c : Cmd) (r : Redir) (rs : List Redir) :
    wrap c (r :: rs) = wrap (.redir c r.file r.efile r.mode r.fd) rs := rfl

theorem addArg_wrap (a : ℕ × ℕ) (ws : List (ℕ × ℕ)) (rs : List Redir) :
    (wrap (.exec ws) rs).addArg a = wrap (.exec (ws ++ [a])) rs := by
  induction rs using List.reverseRecOn with
  | nil => rfl
  | append_singleton rs r ih =>
    rw [← wrap_append, ← wrap_append]
    show (Cmd.addArg a (wrap (.exec ws) rs)).redir r.file r.efile r.mode r.fd = _
    rw [ih]
    rfl

/-! ### Redirections -/

theorem redirs_sound (n : ℕ) : ∀ (c : Cmd) (s : ℕ) (ts : List Token), Reads mem es s ts → ts.length < n →
    Wp (parseredirs mem es n c) s
      (fun d s' => ∃ a rs rest, ts = a ++ rest ∧ Redirs a rs ∧ d = wrap c rs ∧ Reads mem es s' rest) (· ≠ .fuel) := by
  induction n with
  | zero => exact fun c s ts _ hn => absurd hn (Nat.not_lt_zero _)
  | succ n ih =>
    intro c s ts h hn
    unfold parseredirs
    obtain ⟨s₁, h₁, hrun⟩ := peek_bind [60, 62] (by decide) h
    refine wp_of_eq (hrun _) ?_
    cases hmore : starts [60, 62] ts with
    | false => exact wp_pure ⟨[], [], ts, rfl, .nil, rfl, h₁⟩
    | true =>
      obtain ⟨t, us, rfl, ht⟩ := starts_cons hmore
      obtain ⟨mode, fd, hopens⟩ := opens_of_char ht
      obtain ⟨q, e, s₂, h₂, hrun⟩ := gettoken_bind h₁
      refine wp_of_eq (hrun _) ?_
      cases us with
      | nil =>
        obtain ⟨q, e, s₃, h₃, hrun⟩ := gettoken_bind_nil h₂
        refine wp_of_eq (hrun _) ?_
        exact wp_panic (by decide)
      | cons t' us =>
        by_cases ht' : t'.ret = 97
        · obtain ⟨q', e', rfl⟩ := word_of_ret ht'
          obtain ⟨s₃, h₃, hrun⟩ := gettoken_bind_word h₂
          refine wp_of_eq (hrun _) ?_
          rw [if_neg (not_not.mpr rfl), (redirect_of_opens hopens q' e' c).2]
          refine wp_mono (ih _ s₃ us h₃ ?_) ?_ fun _ he => he
          · rw [List.length_cons, List.length_cons] at hn
            omega
          · rintro d s₄ ⟨a, rs, rest, rfl, hrs, rfl, h₄⟩
            exact ⟨_, _, rest, rfl, .cons hopens hrs, rfl, h₄⟩
        · obtain ⟨q', e', s₃, h₃, hrun⟩ := gettoken_bind h₂
          refine wp_of_eq (hrun _) ?_
          rw [if_pos ht']
          exact wp_panic (by decide)

theorem redirs_complete {a : List Token} {rs : List Redir} (hrs : Redirs a rs) :
    ∀ (n : ℕ) (c : Cmd) (s : ℕ) (rest : List Token), Reads mem es s (a ++ rest) → starts [60, 62] rest = false →
      (a ++ rest).length < n → ∃ s', parseredirs mem es n c s = .ok (wrap c rs, s') ∧ Reads mem es s' rest := by
  induction hrs with
  | nil =>
    intro n c s rest h hrest hn
    obtain ⟨n, rfl⟩ := Nat.exists_eq_add_one_of_ne_zero (Nat.ne_of_gt (Nat.zero_lt_of_lt hn))
    unfold parseredirs
    obtain ⟨s₁, h₁, hrun⟩ := peek_bind [60, 62] (by decide) h
    rw [hrun, List.nil_append, hrest]
    exact ⟨s₁, rfl, h₁⟩
  | @cons t q e mode fd ts rs hopens _ ih =>
    intro n c s rest h hrest hn
    obtain ⟨n, rfl⟩ := Nat.exists_eq_add_one_of_ne_zero (Nat.ne_of_gt (Nat.zero_lt_of_lt hn))
    unfold parseredirs
    obtain ⟨hchar, hredirect⟩ := redirect_of_opens hopens q e c
    obtain ⟨s₁, h₁, hrun⟩ := peek_bind [60, 62] (by decide) h
    have hmore : starts [60, 62] (t :: .word q e :: ts ++ rest) = true := List.contains_iff_mem.mpr hchar
    rw [hrun, hmore]
    obtain ⟨q', e', s₂, h₂, hrun⟩ := gettoken_bind h₁
    rw [if_pos rfl, hrun]
    obtain ⟨s₃, h₃, hrun⟩ := gettoken_bind_word h₂
    rw [hrun, if_neg (not_not.mpr rfl), hredirect]
    refine ih n _ s₃ rest h₃ hrest ?_
    rw [List.cons_append, List.cons_append, List.length_cons, List.length_cons] at hn
    omega

/-! ### Words -/

theorem words_starts {b : List Token} {ws : List (ℕ × ℕ)} {rs : List Redir} (h : Words b ws rs)
    (hts : starts [60, 62] ts = false) : starts [60, 62] (b ++ ts) = false := by
  cases h with
  | nil => exact hts
  | cons _ _ => rfl

theorem args_sound (n : ℕ) : ∀ (argc : ℕ) (ws : List (ℕ × ℕ)) (rs : List Redir) (s : ℕ) (ts : List Token),
    Reads mem es s ts → ts.length < n → argc < MAXARGS → Wp (parseargs mem es n argc (wrap (.exec ws) rs)) s
      (fun d s' => ∃ b ws' rs' rest, ts = b ++ rest ∧ Words b ws' rs' ∧ argc + ws'.length < MAXARGS ∧
        d = wrap (.exec (ws ++ ws')) (rs ++ rs') ∧ Reads mem es s' rest) (· ≠ .fuel) := by
  induction n with
  | zero => exact fun argc ws rs s ts _ hn => absurd hn (Nat.not_lt_zero _)
  | succ n ih =>
    intro argc ws rs s ts h hn hargc
    have hnone : ∀ s', Reads mem es s' ts → ∃ b ws' rs' rest, ts = b ++ rest ∧ Words b ws' rs' ∧
        argc + ws'.length < MAXARGS ∧ wrap (.exec ws) rs = wrap (.exec (ws ++ ws')) (rs ++ rs') ∧
        Reads mem es s' rest := by
      intro s' h'
      exact ⟨[], [], [], ts, rfl, .nil, hargc, by rw [List.append_nil, List.append_nil], h'⟩
    unfold parseargs
    obtain ⟨s₁, h₁, hrun⟩ := peek_bind [124, 41, 38, 59] (by decide) h
    refine wp_of_eq (hrun _) ?_
    cases hstop : starts [124, 41, 38, 59] ts with
    | true => exact wp_pure (hnone s₁ h₁)
    | false =>
      cases ts with
      | nil =>
        obtain ⟨q, e, s₂, h₂, hrun⟩ := gettoken_bind_nil h₁
        refine wp_of_eq (hrun _) ?_
        exact wp_pure (hnone s₂ h₂)
      | cons t us =>
        by_cases ht : t.ret = 97
        · obtain ⟨q, e, rfl⟩ := word_of_ret ht
          obtain ⟨s₂, h₂, hrun⟩ := gettoken_bind_word h₁
          refine wp_of_eq (hrun _) ?_
          rw [if_neg (show ¬ (97 : UInt8) = 0 by decide), if_neg (not_not.mpr rfl)]
          by_cases hmany : argc + 1 ≥ MAXARGS
          · rw [if_pos hmany]
            exact wp_panic (by decide)
          · rw [if_neg hmany, addArg_wrap]
            rw [List.length_cons] at hn
            refine wp_seq (redirs_sound n _ s₂ us h₂ (by omega)) ?_
            rintro d s₃ ⟨a, rs₁, rest₁, rfl, hrs, rfl, h₃⟩
            rw [List.length_append] at hn
            rw [wrap_append]
            refine wp_mono (ih (argc + 1) _ _ s₃ rest₁ h₃ (by omega) (by omega)) ?_ fun _ he => he
            rintro d s₄ ⟨b, ws', rs', rest, rfl, hws, hlen, rfl, h₄⟩
            refine ⟨.word q e :: (a ++ b), (q, e) :: ws', rs₁ ++ rs', rest, ?_, .cons hrs hws, ?_, ?_, h₄⟩
            · rw [List.cons_append, List.append_assoc]
            · rw [List.length_cons]
              omega
            · rw [List.append_assoc, List.append_assoc]
              rfl
        · obtain ⟨q, e, s₂, h₂, hrun⟩ := gettoken_bind h₁
          refine wp_of_eq (hrun _) ?_
          rw [if_neg (ret_ne_zero t), if_pos ht]
          exact wp_panic (by decide)

theorem args_complete {b : List Token} {ws' : List (ℕ × ℕ)} {rs' : List Redir} (hws : Words b ws' rs') :
    ∀ (n argc : ℕ) (ws : List (ℕ × ℕ)) (rs : List Redir) (s : ℕ) (rest : List Token),
      Reads mem es s (b ++ rest) → Ends [124, 41, 38, 59] rest → argc + ws'.length < MAXARGS →
      (b ++ rest).length < n →
      ∃ s', parseargs mem es n argc (wrap (.exec ws) rs) s = .ok (wrap (.exec (ws ++ ws')) (rs ++ rs'), s') ∧
        Reads mem es s' rest := by
  induction hws with
  | nil =>
    intro n argc ws rs s rest h hrest hargc hn
    obtain ⟨n, rfl⟩ := Nat.exists_eq_add_one_of_ne_zero (Nat.ne_of_gt (Nat.zero_lt_of_lt hn))
    rw [List.append_nil, List.append_nil]
    unfold parseargs
    obtain ⟨s₁, h₁, hrun⟩ := peek_bind [124, 41, 38, 59] (by decide) h
    rw [hrun]
    rcases hrest with rfl | hrest
    · obtain ⟨q, e, s₂, h₂, hrun⟩ := gettoken_bind_nil h₁
      exact ⟨s₂, hrun _, h₂⟩
    · rw [List.nil_append, hrest]
      exact ⟨s₁, rfl, h₁⟩
  | @cons q e a b ws' rs₁ rs' hrs hws ih =>
    intro n argc ws rs s rest h hrest hargc hn
    obtain ⟨n, rfl⟩ := Nat.exists_eq_add_one_of_ne_zero (Nat.ne_of_gt (Nat.zero_lt_of_lt hn))
    rw [List.cons_append, List.append_assoc, List.length_cons] at hn
    rw [List.cons_append, List.append_assoc] at h
    rw [List.length_cons] at hargc
    unfold parseargs
    obtain ⟨s₁, h₁, hrun⟩ := peek_bind [124, 41, 38, 59] (by decide) h
    rw [hrun]
    obtain ⟨s₂, h₂, hrun⟩ := gettoken_bind_word h₁
    rw [show starts [124, 41, 38, 59] (.word q e :: (a ++ (b ++ rest))) = false from rfl,
      if_neg Bool.false_ne_true, hrun, if_neg (show ¬ (97 : UInt8) = 0 by decide), if_neg (not_not.mpr rfl),
      if_neg (by omega), addArg_wrap]
    have hredir : starts [60, 62] (b ++ rest) = false :=
      words_starts hws (hrest.not_starts (by decide))
    obtain ⟨s₃, hrun, h₃⟩ := redirs_complete hrs n (wrap (.exec (ws ++ [(q, e)])) rs) s₂ (b ++ rest) h₂ hredir
      (by omega)
    rw [bind_of_ok hrun, wrap_append]
    obtain ⟨s₄, hrun, h₄⟩ := ih n (argc + 1) (ws ++ [(q, e)]) (rs ++ rs₁) s₃ rest h₃ hrest (by omega) (by
      rw [List.length_append] at hn
      omega)
    refine ⟨s₄, ?_, h₄⟩
    rw [hrun, List.append_assoc, List.append_assoc]
    rfl

/-! ### The loop over `&` -/

theorem backs_sound (n : ℕ) : ∀ (c : Cmd) (s : ℕ) (ts : List Token), Reads mem es s ts → ts.length < n →
    Wp (parsebacks mem es n c) s
      (fun d s' => ∃ k rest, ts = List.replicate k .amp ++ rest ∧ d = Cmd.back^[k] c ∧ Reads mem es s' rest)
      (· ≠ .fuel) := by
  induction n with
  | zero => exact fun c s ts _ hn => absurd hn (Nat.not_lt_zero _)
  | succ n ih =>
    intro c s ts h hn
    unfold parsebacks
    obtain ⟨s₁, h₁, hrun⟩ := peek_bind [38] (by decide) h
    refine wp_of_eq (hrun _) ?_
    cases hmore : starts [38] ts with
    | false => exact wp_pure ⟨0, ts, rfl, rfl, h₁⟩
    | true =>
      obtain ⟨us, rfl⟩ := starts_plain (show Token.amp ∈ plain by decide) hmore
      obtain ⟨q, e, s₂, h₂, hrun⟩ := gettoken_bind h₁
      refine wp_of_eq (hrun _) ?_
      refine wp_mono (ih _ s₂ us h₂ (Nat.lt_of_succ_lt_succ hn)) ?_ fun _ he => he
      rintro d s₃ ⟨k, rest, rfl, rfl, h₃⟩
      exact ⟨k + 1, rest, rfl, rfl, h₃⟩

theorem backs_complete (k : ℕ) : ∀ (n : ℕ) (c : Cmd) (s : ℕ) (rest : List Token),
    Reads mem es s (List.replicate k .amp ++ rest) → starts [38] rest = false →
    (List.replicate k Token.amp ++ rest).length < n →
    ∃ s', parsebacks mem es n c s = .ok (Cmd.back^[k] c, s') ∧ Reads mem es s' rest := by
  induction k with
  | zero =>
    intro n c s rest h hrest hn
    obtain ⟨n, rfl⟩ := Nat.exists_eq_add_one_of_ne_zero (Nat.ne_of_gt (Nat.zero_lt_of_lt hn))
    unfold parsebacks
    obtain ⟨s₁, h₁, hrun⟩ := peek_bind [38] (by decide) h
    rw [hrun, show starts [38] (List.replicate 0 .amp ++ rest) = false from hrest]
    exact ⟨s₁, rfl, h₁⟩
  | succ k ih =>
    intro n c s rest h hrest hn
    obtain ⟨n, rfl⟩ := Nat.exists_eq_add_one_of_ne_zero (Nat.ne_of_gt (Nat.zero_lt_of_lt hn))
    unfold parsebacks
    obtain ⟨s₁, h₁, hrun⟩ := peek_bind [38] (by decide) h
    rw [hrun, show starts [38] (List.replicate (k + 1) .amp ++ rest) = true from rfl, if_pos rfl]
    obtain ⟨q, e, s₂, h₂, hrun⟩ := gettoken_bind h₁
    rw [hrun]
    exact ih n (.back c) s₂ rest h₂ hrest (Nat.lt_of_succ_lt_succ hn)

/-! ### Lines, pipes and blocks -/

/-- What a procedure returns is derived from what it passed. -/
def Sound (mem : Mem) (es : ℕ) (N : List Token → Cmd → Prop) (m : Parser Cmd) (s : ℕ) (ts : List Token) : Prop :=
  Wp m s (fun c s' => ∃ a rest, ts = a ++ rest ∧ N a c ∧ Reads mem es s' rest) (· ≠ .fuel)

/-- All procedures at one depth.  Between two lines with four calls there is a `(`. -/
structure SoundAt (mem : Mem) (es n : ℕ) : Prop where
  line : ∀ s ts, Reads mem es s ts → 4 * ts.length + 3 < n → Sound mem es Line (parseline mem es n) s ts
  pipe : ∀ s ts, Reads mem es s ts → 4 * ts.length + 2 < n → Sound mem es Pipe (parsepipe mem es n) s ts
  exec : ∀ s ts, Reads mem es s ts → 4 * ts.length + 1 < n → Sound mem es Exec (parseexec mem es n) s ts
  block : ∀ s ts, Reads mem es s ts → 4 * ts.length < n → Sound mem es Exec (parseblock mem es n) s ts

variable {n : ℕ}

theorem line_step (ih : SoundAt mem es n) (h : Reads mem es s ts) (hn : 4 * ts.length + 3 < n + 1) :
    Sound mem es Line (parseline mem es (n + 1)) s ts := by
  unfold Sound parseline
  refine wp_seq (ih.pipe s ts h (by omega)) ?_
  rintro c s₁ ⟨a, rest, rfl, ha, h₁⟩
  rw [List.length_append] at hn
  refine wp_seq (backs_sound (n + 1) c s₁ rest h₁ (by omega)) ?_
  rintro d s₂ ⟨k, rest, rfl, rfl, h₂⟩
  rw [List.length_append] at hn
  obtain ⟨s₃, h₃, hrun⟩ := peek_bind [59] (by decide) h₂
  refine wp_of_eq (hrun _) ?_
  cases hmore : starts [59] rest with
  | false => exact wp_pure ⟨a ++ List.replicate k .amp, rest, (List.append_assoc ..).symm, .one k ha, h₃⟩
  | true =>
    obtain ⟨us, rfl⟩ := starts_plain (show Token.semi ∈ plain by decide) hmore
    obtain ⟨q, e, s₄, h₄, hrun⟩ := gettoken_bind h₃
    refine wp_of_eq (hrun _) ?_
    rw [List.length_cons] at hn
    refine wp_seq (ih.line s₄ us h₄ (by omega)) ?_
    rintro d s₅ ⟨b, rest, rfl, hb, h₅⟩
    refine wp_pure ⟨a ++ (List.replicate k .amp ++ .semi :: b), rest, ?_, .list k ha hb, h₅⟩
    rw [List.append_assoc, List.append_assoc]
    rfl

theorem pipe_step (ih : SoundAt mem es n) (h : Reads mem es s ts) (hn : 4 * ts.length + 2 < n + 1) :
    Sound mem es Pipe (parsepipe mem es (n + 1)) s ts := by
  unfold Sound parsepipe
  refine wp_seq (ih.exec s ts h (by omega)) ?_
  rintro c s₁ ⟨a, rest, rfl, ha, h₁⟩
  rw [List.length_append] at hn
  obtain ⟨s₂, h₂, hrun⟩ := peek_bind [124] (by decide) h₁
  refine wp_of_eq (hrun _) ?_
  cases hmore : starts [124] rest with
  | false => exact wp_pure ⟨a, rest, rfl, .one ha, h₂⟩
  | true =>
    obtain ⟨us, rfl⟩ := starts_plain (show Token.bar ∈ plain by decide) hmore
    obtain ⟨q, e, s₃, h₃, hrun⟩ := gettoken_bind h₂
    refine wp_of_eq (hrun _) ?_
    rw [List.length_cons] at hn
    refine wp_seq (ih.pipe s₃ us h₃ (by omega)) ?_
    rintro d s₄ ⟨b, rest, rfl, hb, h₄⟩
    refine wp_pure ⟨a ++ .bar :: b, rest, ?_, .pipe ha hb, h₄⟩
    rw [List.append_assoc]
    rfl

theorem block_step (ih : SoundAt mem es n) (h : Reads mem es s ts) (hn : 4 * ts.length < n + 1) :
    Sound mem es Exec (parseblock mem es (n + 1)) s ts := by
  unfold Sound parseblock
  obtain ⟨s₁, h₁, hrun⟩ := peek_bind [40] (by decide) h
  refine wp_of_eq (hrun _) ?_
  cases hopen : starts [40] ts with
  | false => exact wp_panic (by decide)
  | true =>
    obtain ⟨us, rfl⟩ := starts_plain (show Token.lpar ∈ plain by decide) hopen
    obtain ⟨q, e, s₂, h₂, hrun⟩ := gettoken_bind h₁
    refine wp_of_eq (hrun _) ?_
    rw [List.length_cons] at hn
    refine wp_seq (ih.line s₂ us h₂ (by omega)) ?_
    rintro c s₃ ⟨a, rest, rfl, ha, h₃⟩
    rw [List.length_append] at hn
    obtain ⟨s₄, h₄, hrun⟩ := peek_bind [41] (by decide) h₃
    refine wp_of_eq (hrun _) ?_
    cases hclose : starts [41] rest with
    | false => exact wp_panic (by decide)
    | true =>
      obtain ⟨vs, rfl⟩ := starts_plain (show Token.rpar ∈ plain by decide) hclose
      obtain ⟨q, e, s₅, h₅, hrun⟩ := gettoken_bind h₄
      refine wp_of_eq (hrun _) ?_
      rw [List.length_cons] at hn
      refine wp_mono (redirs_sound (n + 1) c s₅ vs h₅ (by omega)) ?_ fun _ he => he
      rintro d s₆ ⟨b, rs, rest, rfl, hb, rfl, h₆⟩
      refine ⟨.lpar :: (a ++ .rpar :: b), rest, ?_, .block ha hb, h₆⟩
      rw [List.cons_append, List.append_assoc]
      rfl

theorem exec_step (ih : SoundAt mem es n) (h : Reads mem es s ts) (hn : 4 * ts.length + 1 < n + 1) :
    Sound mem es Exec (parseexec mem es (n + 1)) s ts := by
  unfold Sound parseexec
  obtain ⟨s₁, h₁, hrun⟩ := peek_bind [40] (by decide) h
  refine wp_of_eq (hrun _) ?_
  cases hopen : starts [40] ts with
  | true => exact ih.block s₁ ts h₁ (by omega)
  | false =>
    refine wp_seq (redirs_sound (n + 1) (.exec []) s₁ ts h₁ (by omega)) ?_
    rintro c s₂ ⟨a, rs, rest, rfl, ha, rfl, h₂⟩
    rw [List.length_append] at hn
    refine wp_mono (args_sound (n + 1) 0 [] rs s₂ rest h₂ (by omega) (by decide)) ?_ fun _ he => he
    rintro d s₃ ⟨b, ws, rs', rest, rfl, hb, hlen, rfl, h₃⟩
    have hlen' : ws.length ≤ MAXARGS - 1 := by omega
    exact ⟨a ++ b, rest, (List.append_assoc ..).symm, .words ha hb hlen', h₃⟩

theorem sound_at (n : ℕ) : SoundAt mem es n := by
  induction n with
  | zero =>
    exact ⟨fun s ts _ hn => absurd hn (Nat.not_lt_zero _), fun s ts _ hn => absurd hn (Nat.not_lt_zero _),
      fun s ts _ hn => absurd hn (Nat.not_lt_zero _), fun s ts _ hn => absurd hn (Nat.not_lt_zero _)⟩
  | succ n ih =>
    exact ⟨fun s ts h hn => line_step ih h hn, fun s ts h hn => pipe_step ih h hn,
      fun s ts h hn => exec_step ih h hn, fun s ts h hn => block_step ih h hn⟩

/-- A procedure returns the tree of a derivation, and stops behind it. -/
def Complete (mem : Mem) (es : ℕ) (m : Parser Cmd) (s : ℕ) (c : Cmd) (rest : List Token) : Prop :=
  ∃ s', m s = .ok (c, s') ∧ Reads mem es s' rest

structure CompleteAt (mem : Mem) (es n : ℕ) : Prop where
  line : ∀ s a c rest, Line a c → Reads mem es s (a ++ rest) → Ends [41] rest → 4 * (a ++ rest).length + 3 < n →
    Complete mem es (parseline mem es n) s c rest
  pipe : ∀ s a c rest, Pipe a c → Reads mem es s (a ++ rest) → Ends [41, 38, 59] rest →
    4 * (a ++ rest).length + 2 < n → Complete mem es (parsepipe mem es n) s c rest
  exec : ∀ s a c rest, Exec a c → Reads mem es s (a ++ rest) → Ends [124, 41, 38, 59] rest →
    4 * (a ++ rest).length + 1 < n → Complete mem es (parseexec mem es n) s c rest
  block : ∀ s a b c rs rest, Line a c → Redirs b rs → Reads mem es s (.lpar :: (a ++ .rpar :: b) ++ rest) →
    Ends [124, 41, 38, 59] rest → 4 * (Token.lpar :: (a ++ .rpar :: b) ++ rest).length < n →
    Complete mem es (parseblock mem es n) s (wrap c rs) rest

theorem line_complete_step (ih : CompleteAt mem es n) {a rest : List Token} {c : Cmd} (hline : Line a c)
    (h : Reads mem es s (a ++ rest)) (hrest : Ends [41] rest) (hn : 4 * (a ++ rest).length + 3 < n + 1) :
    Complete mem es (parseline mem es (n + 1)) s c rest := by
  unfold parseline
  cases hline with
  | @one a c k ha =>
    rw [List.append_assoc] at h hn
    have hamp : Ends [41, 38, 59] (List.replicate k .amp ++ rest) := by
      cases k with
      | zero => exact hrest.mono (by decide)
      | succ k => exact ends_cons (show Token.amp.char ∈ [41, 38, 59] by decide)
    obtain ⟨s₁, hrun, h₁⟩ := ih.pipe s a c _ ha h hamp (by omega)
    unfold Complete
    rw [bind_of_ok hrun]
    rw [List.length_append] at hn
    obtain ⟨s₂, hrun, h₂⟩ := backs_complete k (n + 1) c s₁ rest h₁ (hrest.not_starts (by decide)) (by omega)
    rw [bind_of_ok hrun]
    obtain ⟨s₃, h₃, hrun⟩ := peek_bind [59] (by decide) h₂
    rw [hrun, hrest.not_starts (by decide)]
    exact ⟨s₃, rfl, h₃⟩
  | @list a b c d k ha hb =>
    rw [List.append_assoc, List.append_assoc] at h hn
    have hamp : Ends [41, 38, 59] (List.replicate k .amp ++ (.semi :: b ++ rest)) := by
      cases k with
      | zero => exact ends_cons (show Token.semi.char ∈ [41, 38, 59] by decide)
      | succ k => exact ends_cons (show Token.amp.char ∈ [41, 38, 59] by decide)
    obtain ⟨s₁, hrun, h₁⟩ := ih.pipe s a c _ ha h hamp (by omega)
    unfold Complete
    rw [bind_of_ok hrun]
    rw [List.length_append] at hn
    obtain ⟨s₂, hrun, h₂⟩ := backs_complete k (n + 1) c s₁ (.semi :: b ++ rest) h₁ rfl (by omega)
    rw [bind_of_ok hrun]
    obtain ⟨s₃, h₃, hrun⟩ := peek_bind [59] (by decide) h₂
    rw [hrun, show starts [59] (.semi :: b ++ rest) = true from rfl, if_pos rfl]
    obtain ⟨q, e, s₄, h₄, hrun⟩ := gettoken_bind h₃
    rw [hrun]
    rw [List.length_append, List.cons_append, List.length_cons] at hn
    obtain ⟨s₅, hrun, h₅⟩ := ih.line s₄ b d rest hb h₄ hrest (by omega)
    rw [bind_of_ok hrun]
    exact ⟨s₅, rfl, h₅⟩

theorem pipe_complete_step (ih : CompleteAt mem es n) {a rest : List Token} {c : Cmd} (hpipe : Pipe a c)
    (h : Reads mem es s (a ++ rest)) (hrest : Ends [41, 38, 59] rest) (hn : 4 * (a ++ rest).length + 2 < n + 1) :
    Complete mem es (parsepipe mem es (n + 1)) s c rest := by
  unfold parsepipe Complete
  cases hpipe with
  | one ha =>
    obtain ⟨s₁, hrun, h₁⟩ := ih.exec s a c rest ha h (hrest.mono (by decide)) (by omega)
    rw [bind_of_ok hrun]
    obtain ⟨s₂, h₂, hrun⟩ := peek_bind [124] (by decide) h₁
    rw [hrun, hrest.not_starts (by decide)]
    exact ⟨s₂, rfl, h₂⟩
  | @pipe a b c d ha hb =>
    rw [List.append_assoc] at h hn
    obtain ⟨s₁, hrun, h₁⟩ := ih.exec s a c (.bar :: b ++ rest) ha h
      (ends_cons (show Token.bar.char ∈ [124, 41, 38, 59] by decide)) (by omega)
    rw [bind_of_ok hrun]
    obtain ⟨s₂, h₂, hrun⟩ := peek_bind [124] (by decide) h₁
    rw [hrun, show starts [124] (.bar :: b ++ rest) = true from rfl, if_pos rfl]
    obtain ⟨q, e, s₃, h₃, hrun⟩ := gettoken_bind h₂
    rw [hrun]
    rw [List.length_append, List.cons_append, List.length_cons] at hn
    obtain ⟨s₄, hrun, h₄⟩ := ih.pipe s₃ b d rest hb h₃ hrest (by omega)
    rw [bind_of_ok hrun]
    exact ⟨s₄, rfl, h₄⟩

theorem block_complete_step (ih : CompleteAt mem es n) {a b rest : List Token} {c : Cmd} {rs : List Redir}
    (ha : Line a c) (hb : Redirs b rs) (h : Reads mem es s (.lpar :: (a ++ .rpar :: b) ++ rest))
    (hrest : Ends [124, 41, 38, 59] rest) (hn : 4 * (Token.lpar :: (a ++ .rpar :: b) ++ rest).length < n + 1) :
    Complete mem es (parseblock mem es (n + 1)) s (wrap c rs) rest := by
  unfold parseblock Complete
  rw [List.cons_append, List.append_assoc] at h hn
  obtain ⟨s₁, h₁, hrun⟩ := peek_bind [40] (by decide) h
  rw [hrun, show starts [40] (.lpar :: (a ++ (.rpar :: b ++ rest))) = true from rfl,
    if_neg (by decide)]
  obtain ⟨q, e, s₂, h₂, hrun⟩ := gettoken_bind h₁
  rw [hrun]
  rw [List.length_cons] at hn
  obtain ⟨s₃, hrun, h₃⟩ := ih.line s₂ a c (.rpar :: b ++ rest) ha h₂
    (ends_cons (show Token.rpar.char ∈ [41] by decide)) (by omega)
  rw [bind_of_ok hrun]
  obtain ⟨s₄, h₄, hrun⟩ := peek_bind [41] (by decide) h₃
  rw [hrun, show starts [41] (.rpar :: b ++ rest) = true from rfl, if_neg (by decide)]
  obtain ⟨q, e, s₅, h₅, hrun⟩ := gettoken_bind h₄
  rw [hrun]
  rw [List.length_append, List.cons_append, List.length_cons] at hn
  exact redirs_complete hb (n + 1) c s₅ rest h₅ (hrest.not_starts (by decide)) (by omega)

theorem exec_complete_step (ih : CompleteAt mem es n) {a rest : List Token} {c : Cmd} (hexec : Exec a c)
    (h : Reads mem es s (a ++ rest)) (hrest : Ends [124, 41, 38, 59] rest)
    (hn : 4 * (a ++ rest).length + 1 < n + 1) : Complete mem es (parseexec mem es (n + 1)) s c rest := by
  unfold parseexec Complete
  cases hexec with
  | @block a b c rs ha hb =>
    obtain ⟨s₁, h₁, hrun⟩ := peek_bind [40] (by decide) h
    rw [hrun, show starts [40] (.lpar :: (a ++ .rpar :: b) ++ rest) = true from rfl, if_pos rfl]
    exact ih.block s₁ a b c rs rest ha hb h₁ hrest (by omega)
  | @words a b ws rs rs' ha hb hlen =>
    have hMAX : MAXARGS = 10 := rfl
    rw [List.append_assoc] at h hn
    have hbrest : starts [60, 62] (b ++ rest) = false := words_starts hb (hrest.not_starts (by decide))
    have hopen : starts [40] (a ++ (b ++ rest)) = false := by
      cases ha with
      | nil =>
        cases hb with
        | nil => exact hrest.not_starts (by decide)
        | cons _ _ => rfl
      | @cons t q e mode fd a rs hopens _ =>
        refine not_starts fun ht => ?_
        have hchar := (redirect_of_opens hopens q e (.exec [])).1
        rw [List.mem_singleton.mp ht] at hchar
        exact absurd hchar (by decide)
    obtain ⟨s₁, h₁, hrun⟩ := peek_bind [40] (by decide) h
    rw [hrun, hopen]
    obtain ⟨s₂, hrun, h₂⟩ := redirs_complete ha (n + 1) (.exec []) s₁ (b ++ rest) h₁ hbrest (by omega)
    rw [if_neg Bool.false_ne_true, bind_of_ok hrun]
    rw [List.length_append] at hn
    exact args_complete hb (n + 1) 0 [] rs s₂ rest h₂ hrest (by omega) (by omega)

theorem complete_at (n : ℕ) : CompleteAt mem es n := by
  induction n with
  | zero =>
    exact ⟨fun s a c rest _ _ _ hn => absurd hn (Nat.not_lt_zero _),
      fun s a c rest _ _ _ hn => absurd hn (Nat.not_lt_zero _),
      fun s a c rest _ _ _ hn => absurd hn (Nat.not_lt_zero _),
      fun s a b c rs rest _ _ _ _ hn => absurd hn (Nat.not_lt_zero _)⟩
  | succ n ih =>
    exact ⟨fun s a c rest hline h hrest hn => line_complete_step ih hline h hrest hn,
      fun s a c rest hpipe h hrest hn => pipe_complete_step ih hpipe h hrest hn,
      fun s a c rest hexec h hrest hn => exec_complete_step ih hexec h hrest hn,
      fun s a b c rs rest ha hb h hrest hn => block_complete_step ih ha hb h hrest hn⟩

theorem parse_of_line {c : Cmd} {s₁ : ℕ} {rest : List Token} (hrun : parseline mem es n s = .ok (c, s₁))
    (h : Reads mem es s₁ rest) :
    parse mem es n s = if rest = [] then .ok (c, skip mem es s₁) else .error .leftovers := by
  unfold parse
  rw [bind_of_ok hrun]
  show (if skip mem es s₁ ≠ es then panic .leftovers else pure c : Parser Cmd) (skip mem es s₁) = _
  by_cases hrest : rest = []
  · rw [if_pos hrest, if_neg (not_not.mpr ((skip_eq_end h).mpr hrest))]
    rfl
  · rw [if_neg hrest, if_pos fun e => hrest ((skip_eq_end h).mp e)]
    rfl

/-- The whole line is one derivation, or the parser panics. -/
theorem parse_sound (h : Reads mem es s ts) (hn : 4 * ts.length + 3 < n) :
    Wp (parse mem es n) s (fun c _ => Line ts c) (· ≠ .fuel) := by
  have hline := (sound_at n).line s ts h hn
  unfold Sound Wp at hline
  cases hrun : parseline mem es n s with
  | error e =>
    rw [hrun] at hline
    have hparse : parse mem es n s = .error e := by
      unfold parse
      exact bind_of_error hrun
    unfold Wp
    rw [hparse]
    exact hline
  | ok r =>
    rw [hrun] at hline
    obtain ⟨a, rest, rfl, ha, h₁⟩ := hline
    unfold Wp
    rw [parse_of_line hrun h₁]
    by_cases hrest : rest = []
    · rw [if_pos hrest, hrest, List.append_nil]
      exact ha
    · rw [if_neg hrest]
      exact fun e => by cases e

theorem parse_complete (h : Reads mem es s ts) (hn : 4 * ts.length + 3 < n) {c : Cmd} (hc : Line ts c) :
    ∃ s', parse mem es n s = .ok (c, s') := by
  obtain ⟨s₁, hrun, h₁⟩ := (complete_at n).line s ts c [] hc (by rwa [List.append_nil]) (.inl rfl)
    (by rwa [List.append_nil])
  exact ⟨skip mem es s₁, by rw [parse_of_line hrun h₁, if_pos rfl]⟩

/-! ### The words of a tree, and `nulterminate` -/

def Cmd.words : Cmd → List (ℕ × ℕ)
  | .exec argv => argv
  | .redir cmd file efile _ _ => cmd.words ++ [(file, efile)]
  | .pipe left right => left.words ++ right.words
  | .list left right => left.words ++ right.words
  | .back cmd => cmd.words

theorem nulterminate_eq (c : Cmd) (mem : Mem) : nulterminate c mem = terminate mem c.words := by
  induction c generalizing mem with
  | exec argv => rfl
  | redir cmd file efile mode fd ih =>
    rw [nulterminate, ih, Cmd.words, terminate, terminate, terminate, List.foldl_append]
  | pipe left right ihl ihr | list left right ihl ihr =>
    rw [nulterminate, ihl, ihr, Cmd.words, terminate, terminate, terminate, List.foldl_append]
  | back cmd ih =>
    rw [nulterminate, ih]
    rfl

theorem terminate_other {i : ℕ} (ws : List (ℕ × ℕ)) (h : ∀ w ∈ ws, i ≠ w.2) : terminate mem ws i = mem i := by
  induction ws generalizing mem with
  | nil => rfl
  | cons w ws ih =>
    show terminate (Function.update mem w.2 0) ws i = mem i
    rw [ih fun v hv => h v (List.mem_cons_of_mem w hv), Function.update_of_ne (h w List.mem_cons_self)]

theorem terminate_stop (ws : List (ℕ × ℕ)) {w : ℕ × ℕ} (h : w ∈ ws) : terminate mem ws w.2 = 0 := by
  induction ws using List.reverseRecOn with
  | nil => exact absurd h List.not_mem_nil
  | append_singleton ws v ih =>
    have hstep : terminate mem (ws ++ [v]) = Function.update (terminate mem ws) v.2 0 := by
      rw [terminate, List.foldl_append]
      rfl
    rw [hstep]
    by_cases heq : w.2 = v.2
    · rw [heq, Function.update_self]
    · rw [Function.update_of_ne heq]
      rcases List.mem_append.mp h with h | h
      · exact ih h
      · rw [List.mem_singleton.mp h] at heq
        exact absurd rfl heq

/-- Words of one text keep their bytes, and each ends with a NUL. -/
theorem terminate_words {ws : List (ℕ × ℕ)} (hnonzero : ∀ i, s ≤ i → i < es → mem i ≠ 0)
    (hws : ∀ w ∈ ws, IsWordAt mem s es w.1 w.2) {w : ℕ × ℕ} (hw : w ∈ ws) :
    CString (terminate mem ws) w.1 (text mem w.1 (w.2 - w.1)) := by
  have hat := hws w hw
  have hlt := hat.lt
  have hstop := hat.stop
  have hstart := hat.start
  have htext : text (terminate mem ws) w.1 (w.2 - w.1) = text mem w.1 (w.2 - w.1) := by
    refine text_congr _ _ fun i hi hi' => terminate_other ws ?_
    intro v hv hiv
    -- the byte behind a word is in no word
    rcases (hws v hv).behind with hend | hbehind
    · omega
    · rw [← hiv, hat.bytes i hi (by omega)] at hbehind
      cases hbehind
  refine ⟨by rw [text_length, htext], ?_, ?_⟩
  · intro hzero
    obtain ⟨i, hi, hi', hz⟩ := (mem_text _ _ _).mp hzero
    exact hnonzero i (by omega) (by omega) hz
  · rw [text_length, Nat.add_sub_cancel' (Nat.le_of_lt hlt)]
    exact terminate_stop ws hw

theorem words_wrap (c : Cmd) (rs : List Redir) :
    (wrap c rs).words = c.words ++ rs.map fun r => (r.file, r.efile) := by
  induction rs generalizing c with
  | nil => exact (List.append_nil _).symm
  | cons r rs ih =>
    rw [wrap_cons, ih, Cmd.words, List.map_cons, List.append_assoc]
    rfl

theorem words_back (k : ℕ) (c : Cmd) : (Cmd.back^[k] c).words = c.words := by
  induction k generalizing c with
  | zero => rfl
  | succ k ih => exact ih (.back c)

theorem redirs_words {a : List Token} {rs : List Redir} (h : Redirs a rs) :
    ∀ r ∈ rs, Token.word r.file r.efile ∈ a := by
  induction h with
  | nil => exact fun r hr => absurd hr List.not_mem_nil
  | cons _ _ ih =>
    intro r hr
    rcases List.mem_cons.mp hr with rfl | hr
    · exact List.mem_cons_of_mem _ List.mem_cons_self
    · exact List.mem_cons_of_mem _ (List.mem_cons_of_mem _ (ih r hr))

theorem words_words {b : List Token} {ws : List (ℕ × ℕ)} {rs : List Redir} (h : Words b ws rs) :
    (∀ w ∈ ws, Token.word w.1 w.2 ∈ b) ∧ ∀ r ∈ rs, Token.word r.file r.efile ∈ b := by
  induction h with
  | nil => exact ⟨fun w hw => absurd hw List.not_mem_nil, fun r hr => absurd hr List.not_mem_nil⟩
  | cons hrs _ ih =>
    constructor
    · intro w hw
      rcases List.mem_cons.mp hw with rfl | hw
      · exact List.mem_cons_self
      · exact List.mem_cons_of_mem _ (List.mem_append_right _ (ih.1 w hw))
    · intro r hr
      rcases List.mem_append.mp hr with hr | hr
      · exact List.mem_cons_of_mem _ (List.mem_append_left _ (redirs_words hrs r hr))
      · exact List.mem_cons_of_mem _ (List.mem_append_right _ (ih.2 r hr))

def Spelled (ts : List Token) (c : Cmd) : Prop := ∀ w ∈ c.words, Token.word w.1 w.2 ∈ ts

theorem Spelled.wrap {ts : List Token} {c : Cmd} {rs : List Redir} (h : Spelled ts c)
    (hrs : ∀ r ∈ rs, Token.word r.file r.efile ∈ ts) : Spelled ts (wrap c rs) := by
  intro w hw
  rw [words_wrap] at hw
  rcases List.mem_append.mp hw with hw | hw
  · exact h w hw
  · obtain ⟨r, hr, rfl⟩ := List.mem_map.mp hw
    exact hrs r hr

theorem Spelled.pair {a b : List Token} {c d : Cmd} (hc : Spelled a c) (hd : Spelled b d) (ts : List Token) :
    ∀ w ∈ c.words ++ d.words, Token.word w.1 w.2 ∈ a ++ (ts ++ b) := by
  intro w hw
  rcases List.mem_append.mp hw with hw | hw
  · exact List.mem_append_left _ (hc w hw)
  · exact List.mem_append_right _ (List.mem_append_right _ (hd w hw))

mutual

theorem line_spelled {a : List Token} {c : Cmd} : Line a c → Spelled a c
  | .one k ha => fun w hw => List.mem_append_left _ (pipe_spelled ha w (words_back k _ ▸ hw))
  | .list k ha hb => by
    have hpair := (pipe_spelled ha).pair (line_spelled hb) (List.replicate k .amp ++ [.semi])
    intro w hw
    rw [Cmd.words, words_back] at hw
    have hmem := hpair w hw
    rwa [List.append_assoc] at hmem

theorem pipe_spelled {a : List Token} {c : Cmd} : Pipe a c → Spelled a c
  | .one ha => exec_spelled ha
  | .pipe ha hb => (exec_spelled ha).pair (pipe_spelled hb) [.bar]

theorem exec_spelled {a : List Token} {c : Cmd} : Exec a c → Spelled a c
  | .block ha hb => by
    refine Spelled.wrap (fun w hw => ?_) fun r hr => ?_
    · exact List.mem_cons_of_mem _ (List.mem_append_left _ (line_spelled ha w hw))
    · exact List.mem_cons_of_mem _ (List.mem_append_right _ (List.mem_cons_of_mem _ (redirs_words hb r hr)))
  | .words ha hb _ => by
    refine Spelled.wrap (fun w hw => List.mem_append_right _ ((words_words hb).1 w hw)) fun r hr => ?_
    rcases List.mem_append.mp hr with hr | hr
    · exact List.mem_append_left _ (redirs_words ha r hr)
    · exact List.mem_append_right _ ((words_words hb).2 r hr)

end

theorem strlen_eq (n : ℕ) : ∀ (s : ℕ) (line : List UInt8), CString mem s line → line.length < n →
    strlen mem n s = line.length := by
  induction n with
  | zero => exact fun s line _ hn => absurd hn (Nat.not_lt_zero _)
  | succ n ih =>
    intro s line h hn
    rw [strlen]
    cases line with
    | nil => rw [if_pos (show mem s = 0 from h.nul), List.length_nil]
    | cons c cs =>
      obtain ⟨hc, hcs⟩ := List.cons.inj h.text
      have hzero : mem s ≠ 0 := by
        rw [hc]
        exact fun e => h.nonzero (e ▸ List.mem_cons_self)
      have hnul := h.nul
      rw [List.length_cons, ← Nat.add_assoc, Nat.add_right_comm] at hnul
      rw [if_neg hzero, ih (s + 1) cs ⟨hcs, fun e => h.nonzero (List.mem_cons_of_mem _ e), hnul⟩
        (Nat.lt_of_succ_lt_succ hn), List.length_cons]

/-- **The shell parser accepts exactly its grammar.**  With fuel enough for the length of the line, `parsecmd`
returns a tree if and only if the tokens of the line derive it, and panics if they derive none; after it every
argument and every file of a redirection, read as a C string, is the text of its token. -/
theorem parsecmd_accepts_grammar {line : List UInt8} (h : CString mem s line) (hn : 4 * line.length + 3 < n) :
    (∀ c, (∃ mem', parsecmd n s mem = .ok (c, mem')) ↔ Line (tokens s line) c) ∧
    ((∀ c, ¬ Line (tokens s line) c) → ∃ e, e ≠ .fuel ∧ parsecmd n s mem = .error e) ∧
    ∀ c mem', parsecmd n s mem = .ok (c, mem') → ∀ w ∈ c.words,
      Token.word w.1 w.2 ∈ tokens s line ∧ CString mem' w.1 (text mem w.1 (w.2 - w.1)) := by
  have hreads := h.reads
  have hlen := length_tokens_le s line
  have hstr : strlen mem n s = line.length := strlen_eq n s line h (by omega)
  have hsound := parse_sound hreads (n := n) (by omega)
  have hcomplete : ∀ c, Line (tokens s line) c → ∃ s', parse mem (s + line.length) n s = .ok (c, s') :=
    fun c hc => parse_complete hreads (by omega) hc
  unfold parsecmd
  rw [hstr]
  unfold Wp at hsound
  cases hparse : parse mem (s + line.length) n s with
  | error e =>
    rw [hparse] at hsound hcomplete
    have hnone : ∀ c, ¬ Line (tokens s line) c := by
      intro c hc
      obtain ⟨s', hs'⟩ := hcomplete c hc
      cases hs'
    refine ⟨fun c => ⟨?_, fun hc => absurd hc (hnone c)⟩, fun _ => ⟨e, hsound, rfl⟩, ?_⟩
    · rintro ⟨mem', he⟩
      cases he
    · intro c mem' he
      cases he
  | ok r =>
    rw [hparse] at hsound hcomplete
    refine ⟨fun c => ⟨?_, fun hc => ?_⟩, fun hnone => absurd hsound (hnone _), ?_⟩
    · rintro ⟨mem', he⟩
      cases he
      exact hsound
    · obtain ⟨s', hs'⟩ := hcomplete c hc
      cases hs'
      exact ⟨_, rfl⟩
    · intro c mem' he w hw
      cases he
      have hspelled := line_spelled hsound
      refine ⟨hspelled w hw, ?_⟩
      rw [nulterminate_eq]
      exact terminate_words hreads.nonzero (fun v hv => hreads.words v.1 v.2 (hspelled v hv)) hw

/-- `a>b&` at address 0. -/
def background : Mem := fun i => [97, 62, 98, 38].getD i 0

theorem parsecmd_accepts_grammar_background : ∃ mem',
    parsecmd 20 0 background = .ok (.back (.redir (.exec [(0, 1)]) 2 3 (O_WRONLY ||| O_CREATE ||| O_TRUNC) 1), mem') ∧
    CString mem' 0 [97] ∧ CString mem' 2 [98] := by
  have hline : CString background 0 [97, 62, 98, 38] := ⟨rfl, by decide, rfl⟩
  have hrun : outcome (parsecmd 20 0) background =
      .ok (.back (.redir (.exec [(0, 1)]) 2 3 (O_WRONLY ||| O_CREATE ||| O_TRUNC) 1)) := by decide
  have hok := ok_of_outcome hrun
  have hwords := (parsecmd_accepts_grammar hline (show 4 * 4 + 3 < 20 by decide)).2.2 _ _ hok
  exact ⟨_, hok, (hwords (0, 1) (by decide)).2, (hwords (2, 3) (by decide)).2⟩

end Xv6.ShellParser
