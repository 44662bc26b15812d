/-
  Shell/Sound.lean --- what the parser accepts, and how it stops.

  With fuel for the tokens that are left, each function of the parser returns a tree
  that the tokens it has consumed derive, or panics.  It never stores past the end of
  `argv`, and never runs out of fuel.
-/
import Xv6.Shell.Grammar

set_option autoImplicit false

namespace Xv6.Shell

open List Foundation

/-- The messages the parser panics with. -/
def panics : List String :=
  ["syntax", "missing file for redirection", "syntax - missing )", "too many args", "parseblock"]

/-- The stops that are calls of `panic`. -/
def IsPanic (e : Stop) : Prop := ∃ msg ∈ panics, e = .panic msg

/-! ## Trees -/

/-- The tree with the characters of its words. -/
def Cmd.text (cmd : Cmd Slice) : Cmd (List UInt8) := cmd.map Slice.text

/-- The words of a command, in the order `nulterminate` ends them in. -/
def Cmd.words : Cmd Slice → List Slice
  | .exec argv => argv
  | .redir cmd file _ _ => cmd.words ++ [file]
  | .pipe left right => left.words ++ right.words
  | .list left right => left.words ++ right.words
  | .back cmd => cmd.words

/-- All words of the command are words of the line. -/
def Cmd.Of (line : List CChar) (cmd : Cmd Slice) : Prop := ∀ w ∈ cmd.words, w.Of line

theorem Slice.Of.mono {line line' : List CChar} {w : Slice} (h : w.Of line)
    (hline : line <:+ line') :
    w.Of line' := ⟨h.start.trans hline, h.run, h.stop⟩

variable {line : List CChar} {cmd : Cmd Slice}

theorem Cmd.Of.redir {file : Slice} (h : cmd.Of line) (hfile : file.Of line) (mode fd : Nat) :
    (Cmd.redir cmd file mode fd).Of line := by
  intro w hw
  rcases mem_append.mp hw with hw | hw
  · exact h w hw
  · rw [mem_singleton.mp hw]
    exact hfile

theorem Cmd.Of.both {l r : Cmd Slice} (hl : l.Of line) (hr : r.Of line) :
    ∀ w ∈ l.words ++ r.words, w.Of line := by
  intro w hw
  rcases mem_append.mp hw with hw | hw
  · exact hl w hw
  · exact hr w hw

theorem Cmd.Of.push {v : Slice} (h : cmd.Of line) (hv : v.Of line) : (cmd.push v).Of line := by
  induction cmd with
  | exec argv =>
    intro w hw
    rcases mem_append.mp hw with hw | hw
    · exact h w hw
    · rw [mem_singleton.mp hw]
      exact hv
  | redir cmd file mode fd ih =>
    have hcmd : cmd.Of line := fun w hw => h w (mem_append_left _ hw)
    exact (ih hcmd).redir (h file (mem_append_right _ (mem_singleton_self _))) mode fd
  | pipe left right => exact h
  | list left right => exact h
  | back cmd => exact h

/-- A command of words and redirections, as `parseexec` builds it. -/
def simple (ws : List (List UInt8)) (rs : List Redir) : Cmd (List UInt8) := (Cmd.exec ws).redirs rs

theorem redirs_snoc (c : Cmd (List UInt8)) (rs : List Redir) (r : Redir) :
    c.redirs (rs ++ [r]) = .redir (c.redirs rs) r.file r.mode r.fd := by
  rw [Cmd.redirs, foldl_append]
  rfl

variable {ws : List (List UInt8)} {rs : List Redir}

/-- A word more, under the redirections. -/
theorem push_simple (w : List UInt8) :
    (simple ws rs).push w = simple (ws ++ [w]) rs := by
  induction rs using reverseRecOn with
  | nil => rfl
  | append_singleton rs r ih =>
    rw [simple, redirs_snoc, Cmd.push]
    rw [simple] at ih
    rw [ih]
    exact (redirs_snoc _ rs r).symm

theorem map_push {V W : Type} (f : V → W) (cmd : Cmd V) (v : V) :
    (cmd.push v).map f = (cmd.map f).push (f v) := by
  induction cmd with
  | exec argv =>
    rw [Cmd.push, Cmd.map, map_append]
    rfl
  | redir cmd file mode fd ih =>
    rw [Cmd.push, Cmd.map, ih]
    rfl
  | pipe left right => rfl
  | list left right => rfl
  | back cmd => rfl

/-! ## One token -/

theorem code_word (text : List UInt8) : (Tok.word text).code = chr 'a' := rfl

variable {ts : List Tok}

theorem next_cons {toks : List UInt8} (h : next toks ts = true) :
    ∃ t us, ts = t :: us ∧ t.first.any (toks.contains ·) = true := by
  cases ts with
  | nil => cases h
  | cons t us => exact ⟨t, us, rfl, h⟩

variable {s : List CChar} {F : Stop → Prop}

/-- `peek` and then the rest, of a line whose tokens are the same. -/
theorem settles_peek {β : Type} {toks : List UInt8} (htoks : toks ⊆ symbols) {f : Bool → Parser β}
    {Q : β → List CChar → Prop}
    (h : ∀ s', lex s' = lex s → s' <:+ s → Settles (f (next toks (lex s))) F Q s') :
    Settles (peek toks >>= f) F Q s :=
  .step (peek_run htoks s) (h (skip s) (lex_skip s) (dropWhile_suffix _))

/-- `gettoken` and then the rest, of a line with that token gone. -/
theorem settles_gettoken {β : Type} {t : Tok} (hs : lex s = t :: ts) {f : UInt8 × Slice → Parser β}
    {Q : β → List CChar → Prop}
    (h : ∀ w s', lex s' = ts → s' <:+ s → (∀ text, t = .word text → w.text = text ∧ w.Of s) →
      Settles (f (t.code, w)) F Q s') :
    Settles (gettoken >>= f) F Q s := by
  obtain ⟨w, s', hrun, hlex, hsuf, hword⟩ := gettoken_run hs
  exact .step hrun (h w s' hlex hsuf hword)

/-- `gettoken` at the end of the line. -/
theorem settles_gettoken_nil {β : Type} (hs : lex s = []) {f : UInt8 × Slice → Parser β}
    {Q : β → List CChar → Prop} (h : ∀ w, Settles (f (0, w)) F Q []) :
    Settles (gettoken >>= f) F Q s := by
  obtain ⟨w, hrun⟩ := gettoken_run_nil hs
  exact .step hrun (h w)

/-! ## The loops -/

/-- The tokens from `s` to `s'`, and what they are. -/
def Consumed (line s : List CChar) (G : List Tok → Cmd (List UInt8) → Prop) (cmd : Cmd Slice)
    (s' : List CChar) : Prop :=
  s' <:+ line ∧ cmd.Of line ∧ ∃ ts, lex s = ts ++ lex s' ∧ G ts cmd.text

/-- The `switch` of `parseredirs`. -/
theorem redir_switch {op : Tok} {mode fd : Nat} (h : RedirOp op mode fd) (fuel : Nat)
    (cmd : Cmd Slice) (file : Slice) :
    (if op.code = chr '<' then parseredirs fuel (.redir cmd file O_RDONLY 0)
      else if op.code = chr '>' then
        parseredirs fuel (.redir cmd file (O_WRONLY ||| O_CREATE ||| O_TRUNC) 1)
      else if op.code = chr '+' then parseredirs fuel (.redir cmd file (O_WRONLY ||| O_CREATE) 1)
      else parseredirs fuel cmd) = parseredirs fuel (.redir cmd file mode fd) := by
  cases h with
  | input => rfl
  | output => rfl
  | append => rfl

theorem next_redir (h : next [chr '<', chr '>'] ts = true) :
    ∃ op mode fd us, ts = op :: us ∧ RedirOp op mode fd := by
  obtain ⟨t, us, rfl, ht⟩ := next_cons h
  cases t with
  | lt => exact ⟨_, _, _, us, rfl, .input⟩
  | gt => exact ⟨_, _, _, us, rfl, .output⟩
  | gtgt => exact ⟨_, _, _, us, rfl, .append⟩
  | bar | amp | semi | lpar | rpar => exact absurd ht (by decide)
  | word w => cases ht

variable {fuel : Nat}

theorem parseredirs_sound (hfuel : (lex s).length < fuel) (hs : s <:+ line) (hcmd : cmd.Of line) :
    Settles (parseredirs fuel cmd) IsPanic
      (Consumed line s fun ts c => ∃ rs, Redirs ts rs ∧ c = cmd.text.redirs rs) s := by
  induction fuel generalizing cmd s with
  | zero => exact absurd hfuel (Nat.not_lt_zero _)
  | succ fuel ih =>
    rw [parseredirs]
    refine settles_peek (by decide) fun s₁ hlex₁ hs₁ => ?_
    cases hnext : next [chr '<', chr '>'] (lex s) with
    | false =>
      refine .pure ⟨hs₁.trans hs, hcmd, [], ?_, [], .nil, rfl⟩
      rw [hlex₁]
      rfl
    | true =>
      obtain ⟨op, mode, fd, us, hop, hredir⟩ := next_redir hnext
      rw [hop] at hfuel
      refine settles_gettoken (hlex₁.trans hop) fun w₂ s₂ hlex₂ hs₂ _ => ?_
      cases us with
      | nil => exact settles_gettoken_nil hlex₂ fun _ => .throw ⟨_, by decide, rfl⟩
      | cons t us =>
        refine settles_gettoken hlex₂ fun file s₃ hlex₃ hs₃ hfile => ?_
        cases t with
        | word text =>
          obtain ⟨htext, hof⟩ := hfile text rfl
          have hs₃ : s₃ <:+ line := hs₃.trans (hs₂.trans (hs₁.trans hs))
          have hof : file.Of line := hof.mono (hs₂.trans (hs₁.trans hs))
          have hfuel₃ : (lex s₃).length < fuel := by
            rw [hlex₃]
            simp only [length_cons] at hfuel
            omega
          dsimp only
          rw [if_neg (not_not.mpr (code_word text)), redir_switch hredir]
          refine (ih hfuel₃ hs₃ (hcmd.redir hof mode fd)).mono ?_
          rintro c s₄ ⟨hs₄, hc, ts, hts, rs, hrs, htree⟩
          refine ⟨hs₄, hc, op :: .word text :: ts, ?_, ⟨text, mode, fd⟩ :: rs, .cons hredir hrs, ?_⟩
          · rw [hop, cons_append, cons_append, ← hts, hlex₃]
          · rw [htree, ← htext]
            rfl
        | lt | gt | gtgt | bar | amp | semi | lpar | rpar => exact .throw ⟨_, by decide, rfl⟩

theorem next_one {c : UInt8} {t : Tok} (hc : ∀ u : Tok, u.first = some c → u = t)
    (h : next [c] ts = true) : ∃ us, ts = t :: us := by
  obtain ⟨u, us, rfl, hu⟩ := next_cons h
  refine ⟨us, ?_⟩
  rw [hc u ?_]
  cases hfirst : u.first with
  | none =>
    rw [hfirst] at hu
    cases hu
  | some d =>
    rw [hfirst] at hu
    have : d = c := by simpa using hu
    rw [this]

theorem next_amp (h : next [chr '&'] ts = true) : ∃ us, ts = .amp :: us :=
  next_one (by intro u hu; cases u <;> first | rfl | cases hu) h

theorem next_semi (h : next [chr ';'] ts = true) : ∃ us, ts = .semi :: us :=
  next_one (by intro u hu; cases u <;> first | rfl | cases hu) h

theorem next_bar (h : next [chr '|'] ts = true) : ∃ us, ts = .bar :: us :=
  next_one (by intro u hu; cases u <;> first | rfl | cases hu) h

theorem next_lpar (h : next [chr '('] ts = true) : ∃ us, ts = .lpar :: us :=
  next_one (by intro u hu; cases u <;> first | rfl | cases hu) h

theorem next_rpar (h : next [chr ')'] ts = true) : ∃ us, ts = .rpar :: us :=
  next_one (by intro u hu; cases u <;> first | rfl | cases hu) h

theorem parsebacks_sound (hfuel : (lex s).length < fuel) (hs : s <:+ line) (hcmd : cmd.Of line) :
    Settles (parsebacks fuel cmd) IsPanic
      (Consumed line s fun ts c => ∃ n, ts = replicate n .amp ∧ c = cmd.text.backs n) s := by
  induction fuel generalizing cmd s with
  | zero => exact absurd hfuel (Nat.not_lt_zero _)
  | succ fuel ih =>
    rw [parsebacks]
    refine settles_peek (by decide) fun s₁ hlex₁ hs₁ => ?_
    cases hnext : next [chr '&'] (lex s) with
    | false =>
      refine .pure ⟨hs₁.trans hs, hcmd, [], ?_, 0, rfl, rfl⟩
      rw [hlex₁]
      rfl
    | true =>
      obtain ⟨us, hamp⟩ := next_amp hnext
      refine settles_gettoken (hlex₁.trans hamp) fun w₂ s₂ hlex₂ hs₂ _ => ?_
      have hfuel₂ : (lex s₂).length < fuel := by
        rw [hamp, length_cons] at hfuel
        rw [hlex₂]
        omega
      have hback : (Cmd.back cmd).Of line := hcmd
      refine (ih hfuel₂ (hs₂.trans (hs₁.trans hs)) hback).mono ?_
      rintro c s₃ ⟨hs₃, hc, ts, hts, n, hn, htree⟩
      refine ⟨hs₃, hc, .amp :: ts, ?_, n + 1, ?_, htree⟩
      · rw [hamp, cons_append, ← hts, hlex₂]
      · rw [hn, replicate_succ]

/-- What is left of the words of a command that has `ws` and `rs` already. -/
def MoreWords (ws : List (List UInt8)) (rs : List Redir) (ts : List Tok) (c : Cmd (List UInt8)) :
    Prop :=
  ∃ ws' rs', Words ts ws' rs' ∧ (ws ++ ws').length < MAXARGS ∧ c = simple (ws ++ ws') (rs ++ rs')

theorem finish_sound {line s s' : List CChar} (hs' : s' <:+ line) (hlex : lex s' = lex s)
    (hcmd : cmd.Of line) (htext : cmd.text = simple ws rs) (hargc : ws.length < MAXARGS) :
    Settles (finish ws.length cmd) IsPanic (Consumed line s (MoreWords ws rs)) s' := by
  rw [finish, if_pos hargc]
  refine .pure ⟨hs', hcmd, [], ?_, [], [], .nil, ?_, ?_⟩
  · rw [hlex]
    rfl
  · rw [append_nil]
    exact hargc
  · rw [append_nil, append_nil]
    exact htext

theorem parseargs_sound (hfuel : (lex s).length < fuel) (hs : s <:+ line) (hcmd : cmd.Of line)
    (htext : cmd.text = simple ws rs) (hargc : ws.length < MAXARGS) :
    Settles (parseargs fuel ws.length cmd) IsPanic (Consumed line s (MoreWords ws rs)) s := by
  induction fuel generalizing cmd s ws rs with
  | zero => exact absurd hfuel (Nat.not_lt_zero _)
  | succ fuel ih =>
    rw [parseargs]
    refine settles_peek (by decide) fun s₁ hlex₁ hs₁ => ?_
    cases hnext : next [chr '|', chr ')', chr '&', chr ';'] (lex s) with
    | true => exact finish_sound (hs₁.trans hs) hlex₁ hcmd htext hargc
    | false =>
      cases hts : lex s with
      | nil =>
        refine settles_gettoken_nil (hlex₁.trans hts) fun _ => ?_
        have hnil : lex [] = lex s := by rw [hts, lex]
        exact finish_sound nil_suffix hnil hcmd htext hargc
      | cons t us =>
        refine settles_gettoken (hlex₁.trans hts) fun w s₂ hlex₂ hs₂ hw => ?_
        cases t with
        | word text =>
          obtain ⟨hwtext, hof⟩ := hw text rfl
          have hs₂ : s₂ <:+ line := hs₂.trans (hs₁.trans hs)
          have hof : w.Of line := hof.mono (hs₁.trans hs)
          have hfuel₂ : (lex s₂).length < fuel := by
            rw [hts, length_cons] at hfuel
            rw [hlex₂]
            omega
          dsimp only
          rw [if_neg (by intro h; cases h), if_neg (not_not.mpr (code_word text)),
            if_neg (not_le.mpr hargc)]
          split
          · exact .throw ⟨_, by decide, rfl⟩
          rename_i hroom
          have hlen : (ws ++ [text]).length < MAXARGS := by
            rw [length_append, length_singleton]
            omega
          have hpush : (cmd.push w).text = simple (ws ++ [text]) rs := by
            rw [Cmd.text, map_push, hwtext, ← push_simple, ← htext]
            rfl
          refine .seq (parseredirs_sound hfuel₂ hs₂ (hcmd.push hof)) ?_
          rintro c s₃ ⟨hs₃, hc, us₁, hus₁, rs₁, hrs₁, htree⟩
          have hctext : c.text = simple (ws ++ [text]) (rs ++ rs₁) := by
            rw [htree, hpush, simple, simple, Cmd.redirs, Cmd.redirs, Cmd.redirs, foldl_append]
          have hfuel₃ : (lex s₃).length < fuel := by
            rw [hus₁, length_append] at hfuel₂
            omega
          have hrest := ih hfuel₃ hs₃ hc hctext hlen
          rw [length_append, length_singleton] at hrest
          refine hrest.mono ?_
          rintro d s₄ ⟨hs₄, hd, us₂, hus₂, ws₂, rs₂, hwords, hmax, hdtext⟩
          refine ⟨hs₄, hd, .word text :: (us₁ ++ us₂), ?_, text :: ws₂, rs₁ ++ rs₂,
            .cons hrs₁ hwords, ?_, ?_⟩
          · rw [hts, cons_append, append_assoc, ← hus₂, ← hus₁, hlex₂]
          · rw [append_assoc] at hmax
            exact hmax
          · rw [hdtext, append_assoc, append_assoc]
            rfl
        | lt | gt | gtgt | lpar => exact .throw ⟨_, by decide, rfl⟩
        | bar | amp | semi | rpar =>
          rw [hts] at hnext
          cases hnext

/-! ## The parser -/

/-- With `extra` fuel over four times the tokens that are left, `p` consumes what `G`
derives, or panics. -/
def Sound (p : Nat → Parser (Cmd Slice)) (G : List Tok → Cmd (List UInt8) → Prop)
    (extra fuel : Nat) : Prop :=
  ∀ line s, 4 * (lex s).length + extra ≤ fuel → s <:+ line →
    Settles (p fuel) IsPanic (Consumed line s G) s

/-- A block: `'(' line ')' redir*`. -/
def Block (ts : List Tok) (c : Cmd (List UInt8)) : Prop :=
  ∃ us vs d rs, Line us d ∧ Redirs vs rs ∧ ts = .lpar :: (us ++ .rpar :: vs) ∧ c = d.redirs rs

theorem parseline_sound (hpipe : Sound parsepipe Pipe 3 fuel)
    (hline : Sound parseline Line 4 fuel) :
    Sound parseline Line 4 (fuel + 1) := by
  intro line s hfuel hs
  rw [parseline]
  refine .seq (hpipe line s (by omega) hs) ?_
  rintro c s₁ ⟨hs₁, hc, ts, hts, htree⟩
  have hlen := congrArg length hts
  rw [length_append] at hlen
  refine .seq (parsebacks_sound (by omega) hs₁ hc) ?_
  rintro d s₂ ⟨hs₂, hd, us, hus, n, rfl, hdtree⟩
  have hlen₂ := congrArg length hus
  rw [length_append] at hlen₂
  refine settles_peek (by decide) fun s₃ hlex₃ hs₃ => ?_
  cases hnext : next [chr ';'] (lex s₂) with
  | false =>
    refine .pure ⟨hs₃.trans hs₂, hd, ts ++ replicate n .amp, ?_, ?_⟩
    · rw [hts, hus, hlex₃, append_assoc]
    · rw [hdtree]
      exact .last n htree
  | true =>
    obtain ⟨vs, hsemi⟩ := next_semi hnext
    refine settles_gettoken (hlex₃.trans hsemi) fun w s₄ hlex₄ hs₄ _ => ?_
    have hfuel₄ : 4 * (lex s₄).length + 4 ≤ fuel := by
      rw [hsemi, length_cons] at hlen₂
      rw [hlex₄]
      omega
    refine .seq (hline line s₄ hfuel₄ (hs₄.trans (hs₃.trans hs₂))) ?_
    rintro e s₅ ⟨hs₅, he, xs, hxs, hetree⟩
    refine .pure ⟨hs₅, hd.both he, ts ++ replicate n .amp ++ .semi :: xs, ?_, ?_⟩
    · rw [hts, hus, hsemi, ← hlex₄, hxs]
      simp only [append_assoc, cons_append]
    · rw [Cmd.text, Cmd.map]
      have hleft : d.map Slice.text = c.text.backs n := hdtree
      rw [hleft]
      exact .seq n htree hetree

theorem parsepipe_sound (hexec : Sound parseexec Exec 2 fuel)
    (hpipe : Sound parsepipe Pipe 3 fuel) :
    Sound parsepipe Pipe 3 (fuel + 1) := by
  intro line s hfuel hs
  rw [parsepipe]
  refine .seq (hexec line s (by omega) hs) ?_
  rintro c s₁ ⟨hs₁, hc, ts, hts, htree⟩
  have hlen := congrArg length hts
  rw [length_append] at hlen
  refine settles_peek (by decide) fun s₂ hlex₂ hs₂ => ?_
  cases hnext : next [chr '|'] (lex s₁) with
  | false =>
    refine .pure ⟨hs₂.trans hs₁, hc, ts, ?_, .last htree⟩
    rw [hts, hlex₂]
  | true =>
    obtain ⟨us, hbar⟩ := next_bar hnext
    refine settles_gettoken (hlex₂.trans hbar) fun w s₃ hlex₃ hs₃ _ => ?_
    have hfuel₃ : 4 * (lex s₃).length + 3 ≤ fuel := by
      rw [hbar, length_cons] at hlen
      rw [hlex₃]
      omega
    refine .seq (hpipe line s₃ hfuel₃ (hs₃.trans (hs₂.trans hs₁))) ?_
    rintro d s₄ ⟨hs₄, hd, vs, hvs, hdtree⟩
    refine .pure ⟨hs₄, hc.both hd, ts ++ .bar :: vs, ?_, .seq htree hdtree⟩
    rw [hts, hbar, ← hlex₃, hvs, append_assoc, cons_append]

theorem parseexec_sound (hblock : Sound parseblock Block 1 fuel) :
    Sound parseexec Exec 2 (fuel + 1) := by
  intro line s hfuel hs
  rw [parseexec]
  refine settles_peek (by decide) fun s₁ hlex₁ hs₁ => ?_
  cases hnext : next [chr '('] (lex s) with
  | true =>
    refine (hblock line s₁ (by rw [hlex₁]; omega) (hs₁.trans hs)).mono ?_
    rintro c s₂ ⟨hs₂, hc, ts, hts, us, vs, d, rs, hline, hredirs, rfl, htree⟩
    refine ⟨hs₂, hc, _, hlex₁ ▸ hts, ?_⟩
    rw [htree]
    exact .block hline hredirs
  | false =>
    have hnone : (Cmd.exec [] : Cmd Slice).Of line := fun _ hw => absurd hw not_mem_nil
    refine .seq (parseredirs_sound (by rw [hlex₁]; omega) (hs₁.trans hs) hnone) ?_
    rintro c s₂ ⟨hs₂, hc, ts, hts, rs, hrs, htree⟩
    have hlen := congrArg length hts
    rw [hlex₁, length_append] at hlen
    have hsimple : c.text = simple [] rs := htree
    refine (parseargs_sound (by omega) hs₂ hc hsimple (by decide)).mono ?_
    rintro d s₃ ⟨hs₃, hd, us, hus, ws, rs', hwords, hmax, hdtree⟩
    refine ⟨hs₃, hd, ts ++ us, ?_, ?_⟩
    · rw [← hlex₁, hts, hus, append_assoc]
    · rw [hdtree]
      exact .simple hrs hwords hmax

theorem parseblock_sound (hline : Sound parseline Line 4 fuel) :
    Sound parseblock Block 1 (fuel + 1) := by
  intro line s hfuel hs
  rw [parseblock]
  refine settles_peek (by decide) fun s₁ hlex₁ hs₁ => ?_
  cases hnext : next [chr '('] (lex s) with
  | false => exact .throw ⟨_, by decide, rfl⟩
  | true =>
    obtain ⟨us, hlpar⟩ := next_lpar hnext
    rw [hlpar, length_cons] at hfuel
    refine settles_gettoken (hlex₁.trans hlpar) fun w s₂ hlex₂ hs₂ _ => ?_
    refine .seq (hline line s₂ (by rw [hlex₂]; omega) (hs₂.trans (hs₁.trans hs))) ?_
    rintro c s₃ ⟨hs₃, hc, ts, hts, htree⟩
    have hlen := congrArg length hts
    rw [hlex₂, length_append] at hlen
    refine settles_peek (by decide) fun s₄ hlex₄ hs₄ => ?_
    cases hnext' : next [chr ')'] (lex s₃) with
    | false => exact .throw ⟨_, by decide, rfl⟩
    | true =>
      obtain ⟨vs, hrpar⟩ := next_rpar hnext'
      rw [hrpar, length_cons] at hlen
      refine settles_gettoken (hlex₄.trans hrpar) fun w' s₅ hlex₅ hs₅ _ => ?_
      have hs₅ : s₅ <:+ line := hs₅.trans (hs₄.trans hs₃)
      refine (parseredirs_sound (by rw [hlex₅]; omega) hs₅ hc).mono ?_
      rintro d s₆ ⟨hs₆, hd, xs, hxs, rs, hrs, hdtree⟩
      refine ⟨hs₆, hd, .lpar :: (ts ++ .rpar :: xs), ?_, ts, xs, c.text, rs, htree,
        hrs, rfl, hdtree⟩
      rw [hlpar, ← hlex₂, hts, hrpar, ← hlex₅, hxs]
      simp only [append_assoc, cons_append]

/-- The functions call each other with less fuel, and with less to parse where the
recursion comes back to `parseline`. -/
theorem parser_sound (fuel : Nat) :
    Sound parseline Line 4 fuel ∧ Sound parsepipe Pipe 3 fuel ∧ Sound parseexec Exec 2 fuel ∧
      Sound parseblock Block 1 fuel := by
  induction fuel with
  | zero =>
    refine ⟨?_, ?_, ?_, ?_⟩ <;> exact fun _ _ h => absurd h (by omega)
  | succ fuel ih =>
    obtain ⟨hline, hpipe, hexec, hblock⟩ := ih
    exact ⟨parseline_sound hpipe hline, parsepipe_sound hexec hpipe, parseexec_sound hblock,
      parseblock_sound hline⟩

end Xv6.Shell
