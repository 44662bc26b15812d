/-
  Shell/Grammar.lean --- the language of the shell.

  Words are maximal runs of characters that are neither whitespace nor symbols.  The
  grammar is over tokens, and a derivation says which tree it is of.  `gettoken` and
  `peek` are told in terms of the tokens that are left.
-/
import Mathlib.Data.List.TakeWhile
import Xv6.Shell.Parse

set_option autoImplicit false

namespace Xv6.Shell

open List Foundation

/-! ## Tokens -/

inductive Tok where
  | lt
  | gt
  | gtgt
  | bar
  | amp
  | semi
  | lpar
  | rpar
  | word (w : List UInt8)
  deriving DecidableEq

/-- What `gettoken` returns for a token. -/
def Tok.code : Tok → UInt8
  | .lt => chr '<'
  | .gt => chr '>'
  | .gtgt => chr '+'
  | .bar => chr '|'
  | .amp => chr '&'
  | .semi => chr ';'
  | .lpar => chr '('
  | .rpar => chr ')'
  | .word _ => chr 'a'

/-- What `peek` sees of a token.  A word begins with no symbol. -/
def Tok.first : Tok → Option UInt8
  | .lt => chr '<'
  | .gt => chr '>'
  | .gtgt => chr '>'
  | .bar => chr '|'
  | .amp => chr '&'
  | .semi => chr ';'
  | .lpar => chr '('
  | .rpar => chr ')'
  | .word _ => none

/-- The token of one character that is a symbol on its own. -/
def symbol? (c : UInt8) : Option Tok :=
  if c = chr '<' then some .lt
  else if c = chr '|' then some .bar
  else if c = chr '&' then some .amp
  else if c = chr ';' then some .semi
  else if c = chr '(' then some .lpar
  else if c = chr ')' then some .rpar
  else none

/-- The tokens of a line. -/
def lex : List CChar → List Tok
  | [] => []
  | c :: s =>
    if isSpace c then lex s
    else if c.val = chr '>' then
      if deref s = chr '>' then .gtgt :: lex s.tail else .gt :: lex s
    else match symbol? c.val with
      | some t => t :: lex s
      | none => .word ((c :: s.takeWhile inWord).map Subtype.val) :: lex (s.dropWhile inWord)
termination_by s => s.length
decreasing_by
  all_goals simp only [length_cons, length_tail]
  all_goals first | omega | exact Nat.lt_succ_of_le (dropWhile_sublist _).length_le

/-! ## The grammar -/

/-- A redirection: its operator and its file. -/
structure Redir where
  file : List UInt8
  mode : Nat
  fd : Nat

/-- The command with redirections around it, later ones outermost. -/
def Cmd.redirs (cmd : Cmd (List UInt8)) (rs : List Redir) : Cmd (List UInt8) :=
  rs.foldl (fun cmd r => .redir cmd r.file r.mode r.fd) cmd

/-- `&` after `&`. -/
def Cmd.backs (cmd : Cmd (List UInt8)) : Nat → Cmd (List UInt8)
  | 0 => cmd
  | n + 1 => (Cmd.back cmd).backs n

/-- The operators, with the mode the file is opened in and the descriptor it is for. -/
inductive RedirOp : Tok → Nat → Nat → Prop where
  | input : RedirOp .lt O_RDONLY 0
  | output : RedirOp .gt (O_WRONLY ||| O_CREATE ||| O_TRUNC) 1
  | append : RedirOp .gtgt (O_WRONLY ||| O_CREATE) 1

/-- `redir*` -/
inductive Redirs : List Tok → List Redir → Prop where
  | nil : Redirs [] []
  | cons {op : Tok} {mode fd : Nat} {file : List UInt8} {ts : List Tok} {rs : List Redir} :
      RedirOp op mode fd → Redirs ts rs →
      Redirs (op :: .word file :: ts) (⟨file, mode, fd⟩ :: rs)

/-- `(word redir*)*` -/
inductive Words : List Tok → List (List UInt8) → List Redir → Prop where
  | nil : Words [] [] []
  | cons {w : List UInt8} {us ts : List Tok} {ws : List (List UInt8)} {rs rs' : List Redir} :
      Redirs us rs → Words ts ws rs' → Words (.word w :: (us ++ ts)) (w :: ws) (rs ++ rs')

mutual

/-- `line -> pipe '&'* [';' line]` -/
inductive Line : List Tok → Cmd (List UInt8) → Prop where
  | last {ts : List Tok} {c : Cmd (List UInt8)} (n : Nat) :
      Pipe ts c → Line (ts ++ replicate n .amp) (c.backs n)
  | seq {ts us : List Tok} {c d : Cmd (List UInt8)} (n : Nat) :
      Pipe ts c → Line us d → Line (ts ++ replicate n .amp ++ .semi :: us) (.list (c.backs n) d)

/-- `pipe -> exec ['|' pipe]` -/
inductive Pipe : List Tok → Cmd (List UInt8) → Prop where
  | last {ts : List Tok} {c : Cmd (List UInt8)} : Exec ts c → Pipe ts c
  | seq {ts us : List Tok} {c d : Cmd (List UInt8)} :
      Exec ts c → Pipe us d → Pipe (ts ++ .bar :: us) (.pipe c d)

/-- `exec -> '(' line ')' redir* | redir* (word redir*)*`, with fewer than `MAXARGS`
words. -/
inductive Exec : List Tok → Cmd (List UInt8) → Prop where
  | block {ts us : List Tok} {c : Cmd (List UInt8)} {rs : List Redir} :
      Line ts c → Redirs us rs → Exec (.lpar :: (ts ++ .rpar :: us)) (c.redirs rs)
  | simple {us ts : List Tok} {ws : List (List UInt8)} {rs rs' : List Redir} :
      Redirs us rs → Words ts ws rs' → ws.length < MAXARGS →
      Exec (us ++ ts) ((Cmd.exec ws).redirs (rs ++ rs'))

end

/-! ## `gettoken` and `peek` -/

/-- The characters of a word. -/
def Slice.text (w : Slice) : List UInt8 :=
  (w.q.take (w.q.length - w.eq.length)).map Subtype.val

theorem lex_skip (s : List CChar) : lex (skip s) = lex s := by
  induction s with
  | nil => rfl
  | cons c s ih =>
    rw [skip, dropWhile_cons]
    split
    · rename_i hspace
      rw [lex, if_pos hspace]
      exact ih
    · rfl

variable {c : CChar}

/-- What a `dropWhile` leaves begins with an element that stopped it. -/
theorem dropWhile_head {p : CChar → Bool} {s t : List CChar} (h : s.dropWhile p = c :: t) :
    p c = false := by
  induction s with
  | nil => cases h
  | cons d s ih =>
    rw [dropWhile_cons] at h
    split at h
    · exact ih h
    · rename_i hstop
      cases h
      exact Bool.eq_false_iff.mpr hstop

variable {s : List CChar}

theorem lex_eq_nil (h : skip s = []) : lex s = [] := by
  rw [← lex_skip, h, lex]

/-- A word of the line: a run of characters that goes on as far as it can. -/
structure Slice.Of (line : List CChar) (w : Slice) : Prop where
  start : w.q <:+ line
  run : ∃ cs, w.q = cs ++ w.eq ∧ ∀ c ∈ cs, inWord c = true
  stop : ∀ c rest, w.eq = c :: rest → inWord c = false

/-- A token at the front of `q` that ends where `rest` begins. -/
structure Starts (q : List CChar) (t : Tok) (rest : List CChar) : Prop where
  lex : lex q = t :: lex rest
  scan : scan q = (t.code, rest)
  suffix : rest <:+ q
  word : ∀ w, t = .word w → (⟨q, rest⟩ : Slice).text = w ∧ Slice.Of q ⟨q, rest⟩
  peek : ∀ toks ⊆ symbols, toks.contains (deref q) = t.first.any (toks.contains ·)

section

variable (hspace : isSpace c = false)

include hspace

/-- A symbol of one character. -/
theorem starts_symbol {t : Tok} (hsym : symbol? c.val = some t) : Starts (c :: s) t s := by
  have hcode : c.val = t.code ∧ c.val ≠ chr '>' ∧ (∀ w, t ≠ .word w) ∧ t.first = some c.val ∧
      (c.val = chr '|' ∨ c.val = chr '(' ∨ c.val = chr ')' ∨ c.val = chr ';' ∨ c.val = chr '&' ∨
        c.val = chr '<') := by
    unfold symbol? at hsym
    repeat' split at hsym
    all_goals cases hsym
    all_goals simp_all [Tok.code, Tok.first]
    all_goals decide
  obtain ⟨hcode, hgt, hword, hfirst, hone⟩ := hcode
  refine ⟨?_, ?_, suffix_cons c s, fun w h => absurd h (hword w), ?_⟩
  · rw [Shell.lex, hspace, if_neg Bool.false_ne_true, if_neg hgt, hsym]
  · rw [Shell.scan, if_pos hone, hcode]
  · intro toks _
    rw [hfirst]
    rfl

/-- `>` or `>>`. -/
theorem starts_gt (hgt : c.val = chr '>') :
    Starts (c :: s) (if deref s = chr '>' then .gtgt else .gt)
      (if deref s = chr '>' then s.tail else s) := by
  have hone : ¬ (c.val = chr '|' ∨ c.val = chr '(' ∨ c.val = chr ')' ∨ c.val = chr ';' ∨
      c.val = chr '&' ∨ c.val = chr '<') := by
    rw [hgt]
    decide
  refine ⟨?_, ?_, ?_, ?_, ?_⟩
  · rw [Shell.lex, hspace, if_neg Bool.false_ne_true, if_pos hgt]
    split <;> rfl
  · rw [Shell.scan, if_neg hone, if_pos hgt]
    split
    · rfl
    · rw [hgt]
      rfl
  · split
    · exact (tail_suffix s).trans (suffix_cons c s)
    · exact suffix_cons c s
  · intro w h
    split at h <;> cases h
  · intro toks _
    rw [deref, hgt]
    split <;> rfl

/-- A word. -/
theorem starts_word (hgt : c.val ≠ chr '>') (hsym : symbol? c.val = none) :
    Starts (c :: s) (.word ((c :: s.takeWhile inWord).map Subtype.val)) (s.dropWhile inWord) := by
  have hnone : symbols.contains c.val = false ∧
      ¬ (c.val = chr '|' ∨ c.val = chr '(' ∨ c.val = chr ')' ∨ c.val = chr ';' ∨
        c.val = chr '&' ∨ c.val = chr '<') := by
    unfold symbol? at hsym
    repeat' split at hsym
    all_goals cases hsym
    simp_all [symbols]
  have hin : inWord c = true := by
    rw [inWord, hnone.1]
    rw [isSpace] at hspace
    rw [hspace]
    rfl
  have hsplit : c :: s = (c :: s.takeWhile inWord) ++ s.dropWhile inWord := by
    rw [cons_append, takeWhile_append_dropWhile]
  refine ⟨?_, ?_, ?_, ?_, ?_⟩
  · rw [Shell.lex, hspace, if_neg Bool.false_ne_true, if_neg hgt, hsym]
  · rw [Shell.scan, if_neg hnone.2, if_neg hgt, dropWhile_cons_of_pos hin]
    rfl
  · exact ⟨_, hsplit.symm⟩
  · intro w h
    cases h
    refine ⟨?_, suffix_rfl, ⟨_, hsplit, ?_⟩, ?_⟩
    · rw [Slice.text]
      congr 1
      conv_lhs => rw [hsplit]
      rw [length_append, Nat.add_sub_cancel, take_left]
    · intro d hd
      rcases mem_cons.mp hd with rfl | hd
      · exact hin
      · exact mem_takeWhile_imp hd
    · intro d rest hrest
      exact dropWhile_head hrest
  · intro toks htoks
    have hnot : toks.contains c.val = false := by
      rw [Bool.eq_false_iff]
      intro hmem
      have := htoks (contains_iff_mem.mp hmem)
      rw [← contains_iff_mem, hnone.1] at this
      cases this
    rw [deref, hnot]
    rfl

/-- Every line that is not blank starts with a token. -/
theorem exists_starts : ∃ t rest, Starts (c :: s) t rest := by
  by_cases hgt : c.val = chr '>'
  · exact ⟨_, _, starts_gt hspace hgt⟩
  · cases hsym : symbol? c.val with
    | some t => exact ⟨_, _, starts_symbol hspace hsym⟩
    | none => exact ⟨_, _, starts_word hspace hgt hsym⟩

end

/-- Whether the tokens begin with one `peek` looks for. -/
def next (toks : List UInt8) : List Tok → Bool
  | [] => false
  | t :: _ => t.first.any (toks.contains ·)

/-- `peek` looks at the next token. -/
theorem peek_run {toks : List UInt8} (htoks : toks ⊆ symbols) (s : List CChar) :
    (peek toks).run s = .ok (next toks (lex s), skip s) := by
  have hdef : (peek toks).run s =
      .ok (deref (skip s) != 0 && toks.contains (deref (skip s)), skip s) := rfl
  rw [hdef]
  cases hskip : skip s with
  | nil =>
    rw [lex_eq_nil hskip]
    rfl
  | cons c q =>
    obtain ⟨t, rest, hstarts⟩ := exists_starts (dropWhile_head hskip)
    have hlex : lex s = t :: lex rest := by rw [← lex_skip, hskip, hstarts.lex]
    have hne : (deref (c :: q) != 0) = true := bne_iff_ne.mpr c.property
    rw [hne, Bool.true_and, hstarts.peek toks htoks, hlex]
    rfl

/-- `gettoken` takes the next token. -/
theorem gettoken_run {t : Tok} {ts : List Tok} (h : lex s = t :: ts) :
    ∃ w s', gettoken.run s = .ok ((t.code, w), s') ∧ lex s' = ts ∧ s' <:+ s ∧
      ∀ text, t = .word text → w.text = text ∧ w.Of s := by
  cases hskip : skip s with
  | nil =>
    rw [lex_eq_nil hskip] at h
    cases h
  | cons c q =>
    obtain ⟨t', rest, hstarts⟩ := exists_starts (dropWhile_head hskip)
    have hlex : lex s = t' :: lex rest := by rw [← lex_skip, hskip, hstarts.lex]
    rw [hlex] at h
    cases h
    have hq : (c :: q) <:+ s := by
      rw [← hskip]
      exact dropWhile_suffix _
    refine ⟨⟨c :: q, rest⟩, skip rest, ?_, lex_skip rest, ?_, ?_⟩
    rotate_left
    · exact (dropWhile_suffix _).trans (hstarts.suffix.trans hq)
    · intro text htext
      obtain ⟨hword, hof⟩ := hstarts.word text htext
      exact ⟨hword, hq, hof.run, hof.stop⟩
    have hdef : gettoken.run s = .ok (((scan (skip s)).1, ⟨skip s, (scan (skip s)).2⟩),
        skip (scan (skip s)).2) := rfl
    rw [hdef, hskip, hstarts.scan]

/-- `gettoken` at the end of the line. -/
theorem gettoken_run_nil (h : lex s = []) : ∃ w, gettoken.run s = .ok ((0, w), []) := by
  cases hskip : skip s with
  | nil =>
    have hdef : gettoken.run s = .ok (((scan (skip s)).1, ⟨skip s, (scan (skip s)).2⟩),
        skip (scan (skip s)).2) := rfl
    rw [hdef, hskip]
    exact ⟨⟨[], []⟩, rfl⟩
  | cons c q =>
    obtain ⟨t', rest, hstarts⟩ := exists_starts (dropWhile_head hskip)
    rw [← lex_skip, hskip, hstarts.lex] at h
    cases h

end Xv6.Shell
