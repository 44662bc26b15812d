/-
  Shell/Complete.lean --- the parser accepts the language.

  A derivation of the tokens at the front of the line is what the parser finds, if what
  comes after them cannot go on with it.  Together with soundness that makes `parsecmd`
  the function from lines to their trees; and `nulterminate` makes strings of the words
  without cutting any of them short.
-/
import Xv6.Shell.Sound

set_option autoImplicit false

namespace Xv6.Shell

open List Foundation

/-- The tokens `rest` are none, or begin with one of `firsts`. -/
def Follow (firsts : List Tok) (rest : List Tok) : Prop := ∀ t us, rest = t :: us → t ∈ firsts

/-- What may come after a line, a pipe and a command. -/
def afterLine : List Tok := [.rpar]
def afterPipe : List Tok := [.rpar, .amp, .semi]
def afterExec : List Tok := [.rpar, .amp, .semi, .bar]

theorem follow_cons {firsts : List Tok} {t : Tok} (h : t ∈ firsts) (us : List Tok) :
    Follow firsts (t :: us) := by
  intro u vs hu
  cases hu
  exact h

theorem Follow.mono {firsts firsts' rest : List Tok} (h : Follow firsts rest)
    (hsub : firsts ⊆ firsts') : Follow firsts' rest :=
  fun t us ht => hsub (h t us ht)

/-- `peek` finds none of `toks`. -/
theorem Follow.next {firsts rest : List Tok} {toks : List UInt8} (h : Follow firsts rest)
    (hnone : ∀ t ∈ firsts, t.first.any (toks.contains ·) = false) : next toks rest = false := by
  cases rest with
  | nil => rfl
  | cons t us => exact hnone t (h t us rfl)

/-- `p` returns `c`, and leaves `rest`. -/
def Finds (p : Parser (Cmd Slice)) (c : Cmd (List UInt8)) (rest : List Tok) (s : List CChar) :
    Prop :=
  Settles p (fun _ => False) (fun cmd s' => cmd.text = c ∧ lex s' = rest) s

/-! ## The loops -/

theorem redirOp_next {op : Tok} {mode fd : Nat} (h : RedirOp op mode fd) (ts : List Tok) :
    next [chr '<', chr '>'] (op :: ts) = true := by
  cases h with
  | input => rfl
  | output => rfl
  | append => rfl

variable {cmd : Cmd Slice} {fuel : Nat} {rs : List Redir}

theorem parseredirs_complete {ts rest : List Tok} (h : Redirs ts rs) {s : List CChar}
    (hs : lex s = ts ++ rest) (hrest : next [chr '<', chr '>'] rest = false)
    (hfuel : (lex s).length < fuel) :
    Finds (parseredirs fuel cmd) (cmd.text.redirs rs) rest s := by
  induction h generalizing fuel cmd s with
  | nil =>
    obtain ⟨fuel, rfl⟩ := Nat.exists_eq_succ_of_ne_zero (Nat.ne_of_gt (Nat.zero_lt_of_lt hfuel))
    rw [Finds, parseredirs]
    refine settles_peek (by decide) fun s₁ hlex₁ _ => ?_
    rw [hs, nil_append, hrest]
    exact .pure ⟨rfl, hlex₁.trans hs⟩
  | @cons op mode fd file ts rs hop hredirs ih =>
    obtain ⟨fuel, rfl⟩ := Nat.exists_eq_succ_of_ne_zero (Nat.ne_of_gt (Nat.zero_lt_of_lt hfuel))
    rw [Finds, parseredirs]
    refine settles_peek (by decide) fun s₁ hlex₁ _ => ?_
    rw [hs, cons_append, redirOp_next hop]
    refine settles_gettoken (hlex₁.trans hs) fun _ s₂ hlex₂ _ _ => ?_
    refine settles_gettoken hlex₂ fun w s₃ hlex₃ _ hw => ?_
    obtain ⟨htext, -⟩ := hw file rfl
    dsimp only
    rw [if_neg (not_not.mpr (code_word file)), redir_switch hop]
    have hlex₃ : lex s₃ = ts ++ rest := hlex₃
    have hfuel₃ : (lex s₃).length < fuel := by
      rw [hs] at hfuel
      rw [hlex₃]
      simp only [cons_append, length_cons] at hfuel
      omega
    have hfinds : Finds (parseredirs fuel (.redir cmd w mode fd)) _ rest s₃ := ih hlex₃ hfuel₃
    rw [← htext]
    exact hfinds

theorem parsebacks_complete {rest : List Tok} {n fuel : Nat} {s : List CChar}
    (hs : lex s = replicate n .amp ++ rest) (hrest : next [chr '&'] rest = false)
    (hfuel : (lex s).length < fuel) : Finds (parsebacks fuel cmd) (cmd.text.backs n) rest s := by
  induction n generalizing fuel cmd s with
  | zero =>
    obtain ⟨fuel, rfl⟩ := Nat.exists_eq_succ_of_ne_zero (Nat.ne_of_gt (Nat.zero_lt_of_lt hfuel))
    rw [Finds, parsebacks]
    refine settles_peek (by decide) fun s₁ hlex₁ _ => ?_
    rw [hs, replicate_zero, nil_append, hrest]
    exact .pure ⟨rfl, hlex₁.trans hs⟩
  | succ n ih =>
    obtain ⟨fuel, rfl⟩ := Nat.exists_eq_succ_of_ne_zero (Nat.ne_of_gt (Nat.zero_lt_of_lt hfuel))
    rw [replicate_succ, cons_append] at hs
    rw [Finds, parsebacks]
    refine settles_peek (by decide) fun s₁ hlex₁ _ => ?_
    rw [hs]
    refine settles_gettoken (hlex₁.trans hs) fun _ s₂ hlex₂ _ _ => ?_
    refine ih hlex₂ ?_
    rw [hs, length_cons] at hfuel
    rw [hlex₂]
    omega

theorem parseargs_complete {ts rest : List Tok} {ws' : List (List UInt8)} {rs' : List Redir}
    (h : Words ts ws' rs') {ws : List (List UInt8)} {s : List CChar} (hs : lex s = ts ++ rest)
    (hrest : Follow afterExec rest) (hfuel : (lex s).length < fuel)
    (htext : cmd.text = simple ws rs) (hmax : (ws ++ ws').length < MAXARGS) :
    Finds (parseargs fuel ws.length cmd) (simple (ws ++ ws') (rs ++ rs')) rest s := by
  induction h generalizing fuel cmd ws rs s with
  | nil =>
    obtain ⟨fuel, rfl⟩ := Nat.exists_eq_succ_of_ne_zero (Nat.ne_of_gt (Nat.zero_lt_of_lt hfuel))
    rw [append_nil] at hmax
    rw [append_nil, append_nil, Finds, parseargs]
    rw [nil_append] at hs
    refine settles_peek (by decide) fun s₁ hlex₁ _ => ?_
    cases rest with
    | nil =>
      rw [hs]
      refine settles_gettoken_nil (hlex₁.trans hs) fun _ => ?_
      dsimp only
      rw [if_pos rfl, finish, if_pos hmax]
      exact .pure ⟨htext, by rw [lex]⟩
    | cons t us =>
      have hstop : next [chr '|', chr ')', chr '&', chr ';'] (t :: us) = true := by
        have hmem := hrest t us rfl
        simp only [afterExec, mem_cons, not_mem_nil, or_false] at hmem
        rcases hmem with rfl | rfl | rfl | rfl <;> rfl
      rw [hs, hstop, if_pos rfl, finish, if_pos hmax]
      exact .pure ⟨htext, hlex₁.trans hs⟩
  | @cons w us ts ws' rs₁ rs₂ hredirs hwords ih =>
    obtain ⟨fuel, rfl⟩ := Nat.exists_eq_succ_of_ne_zero (Nat.ne_of_gt (Nat.zero_lt_of_lt hfuel))
    rw [cons_append, append_assoc] at hs
    rw [Finds, parseargs]
    refine settles_peek (by decide) fun s₁ hlex₁ _ => ?_
    rw [hs]
    refine settles_gettoken (hlex₁.trans hs) fun v s₂ hlex₂ _ hv => ?_
    obtain ⟨hvtext, -⟩ := hv w rfl
    have hlen : ws.length + 1 < MAXARGS := by
      rw [length_append, length_cons] at hmax
      omega
    dsimp only
    rw [if_neg (by intro h; cases h), if_neg (not_not.mpr (code_word w)),
      if_neg (by omega), if_neg (by omega)]
    have hpush : (cmd.push v).text = simple (ws ++ [w]) rs := by
      rw [Cmd.text, map_push, hvtext, ← push_simple, ← htext]
      rfl
    have hfuel₂ : (lex s₂).length < fuel := by
      rw [hs, length_cons] at hfuel
      rw [hlex₂]
      omega
    -- what follows the redirections is a word, or the end of the command
    have hnext : next [chr '<', chr '>'] (ts ++ rest) = false := by
      cases hwords with
      | nil => exact hrest.next (by decide)
      | cons => rfl
    refine .seq (parseredirs_complete hredirs hlex₂ hnext hfuel₂) ?_
    rintro c s₃ ⟨hc, hlex₃⟩
    have hctext : c.text = simple (ws ++ [w]) (rs ++ rs₁) := by
      rw [hc, hpush, simple, simple, Cmd.redirs, Cmd.redirs, Cmd.redirs, foldl_append]
    have hfuel₃ : (lex s₃).length < fuel := by
      rw [hlex₂, length_append] at hfuel₂
      rw [hlex₃]
      omega
    have hfinds : Finds (parseargs fuel (ws ++ [w]).length c) _ rest s₃ :=
      ih hlex₃ hfuel₃ hctext (by rw [append_assoc]; exact hmax)
    rw [append_assoc, append_assoc, length_append, length_singleton] at hfinds
    exact hfinds

/-! ## The parser -/

/-- Where the line begins with `ts` and goes on with something that may follow it, `p`
finds `c`. -/
def Complete (p : Nat → Parser (Cmd Slice)) (firsts : List Tok) (extra : Nat) (ts : List Tok)
    (c : Cmd (List UInt8)) : Prop :=
  ∀ s rest fuel, lex s = ts ++ rest → Follow firsts rest → 4 * (lex s).length + extra ≤ fuel →
    Finds (p fuel) c rest s

variable {c : Cmd (List UInt8)}

theorem line_last {ts : List Tok} (n : Nat) (hpipe : Complete parsepipe afterPipe 3 ts c) :
    Complete parseline afterLine 4 (ts ++ replicate n .amp) (c.backs n) := by
  intro s rest fuel hs hrest hfuel
  obtain ⟨fuel, rfl⟩ : ∃ k, fuel = k + 1 := ⟨fuel - 1, by omega⟩
  rw [append_assoc] at hs
  have hafter : Follow afterPipe (replicate n .amp ++ rest) := by
    cases n with
    | zero => exact hrest.mono (by decide)
    | succ n => exact follow_cons (by decide) _
  rw [Finds, parseline]
  refine .seq (hpipe s _ fuel hs hafter (by omega)) ?_
  rintro d s₁ ⟨hd, hlex₁⟩
  have hlen := congrArg length hs
  rw [length_append, ← hlex₁] at hlen
  refine .seq (parsebacks_complete hlex₁ (hrest.next (by decide)) (by omega)) ?_
  rintro e s₂ ⟨he, hlex₂⟩
  refine settles_peek (by decide) fun s₃ hlex₃ _ => ?_
  rw [hlex₂, hrest.next (by decide)]
  exact .pure ⟨he.trans (by rw [hd]), hlex₃.trans hlex₂⟩

variable {ts us : List Tok}

theorem line_seq {c d : Cmd (List UInt8)} (n : Nat) (hpipe : Complete parsepipe afterPipe 3 ts c)
    (hline : Complete parseline afterLine 4 us d) :
    Complete parseline afterLine 4 (ts ++ replicate n .amp ++ .semi :: us)
      (.list (c.backs n) d) := by
  intro s rest fuel hs hrest hfuel
  obtain ⟨fuel, rfl⟩ : ∃ k, fuel = k + 1 := ⟨fuel - 1, by omega⟩
  simp only [append_assoc, cons_append] at hs
  have hafter : Follow afterPipe (replicate n .amp ++ .semi :: (us ++ rest)) := by
    cases n with
    | zero => exact follow_cons (by decide) _
    | succ n => exact follow_cons (by decide) _
  rw [Finds, parseline]
  refine .seq (hpipe s _ fuel hs hafter (by omega)) ?_
  rintro e s₁ ⟨he, hlex₁⟩
  have hlen := congrArg length hs
  rw [length_append, ← hlex₁] at hlen
  refine .seq (parsebacks_complete hlex₁ rfl (by omega)) ?_
  rintro f s₂ ⟨hf, hlex₂⟩
  refine settles_peek (by decide) fun s₃ hlex₃ _ => ?_
  rw [hlex₂]
  refine settles_gettoken (hlex₃.trans hlex₂) fun _ s₄ hlex₄ _ _ => ?_
  have hfuel₄ : 4 * (lex s₄).length + 4 ≤ fuel := by
    rw [hlex₁, length_append, length_cons] at hlen
    rw [hlex₄]
    omega
  refine .seq (hline s₄ rest fuel hlex₄ hrest hfuel₄) ?_
  rintro g s₅ ⟨hg, hlex₅⟩
  refine .pure ⟨?_, hlex₅⟩
  rw [← he, ← hf, ← hg]
  rfl

theorem pipe_last {ts : List Tok} (hexec : Complete parseexec afterExec 2 ts c) :
    Complete parsepipe afterPipe 3 ts c := by
  intro s rest fuel hs hrest hfuel
  obtain ⟨fuel, rfl⟩ : ∃ k, fuel = k + 1 := ⟨fuel - 1, by omega⟩
  rw [Finds, parsepipe]
  refine .seq (hexec s rest fuel hs (hrest.mono (by decide)) (by omega)) ?_
  rintro d s₁ ⟨hd, hlex₁⟩
  refine settles_peek (by decide) fun s₂ hlex₂ _ => ?_
  rw [hlex₁, hrest.next (by decide)]
  exact .pure ⟨hd, hlex₂.trans hlex₁⟩

theorem pipe_seq {c d : Cmd (List UInt8)} (hexec : Complete parseexec afterExec 2 ts c)
    (hpipe : Complete parsepipe afterPipe 3 us d) :
    Complete parsepipe afterPipe 3 (ts ++ .bar :: us) (.pipe c d) := by
  intro s rest fuel hs hrest hfuel
  obtain ⟨fuel, rfl⟩ : ∃ k, fuel = k + 1 := ⟨fuel - 1, by omega⟩
  rw [append_assoc, cons_append] at hs
  rw [Finds, parsepipe]
  refine .seq (hexec s _ fuel hs (follow_cons (by decide) _) (by omega)) ?_
  rintro e s₁ ⟨he, hlex₁⟩
  have hlen := congrArg length hs
  rw [length_append, length_cons] at hlen
  refine settles_peek (by decide) fun s₂ hlex₂ _ => ?_
  rw [hlex₁]
  refine settles_gettoken (hlex₂.trans hlex₁) fun _ s₃ hlex₃ _ _ => ?_
  refine .seq (hpipe s₃ rest fuel hlex₃ hrest (by rw [hlex₃]; omega)) ?_
  rintro f s₄ ⟨hf, hlex₄⟩
  refine .pure ⟨?_, hlex₄⟩
  rw [← he, ← hf]
  rfl

theorem exec_block (hredirs : Redirs us rs) (hline : Complete parseline afterLine 4 ts c) :
    Complete parseexec afterExec 2 (.lpar :: (ts ++ .rpar :: us)) (c.redirs rs) := by
  intro s rest fuel hs hrest hfuel
  obtain ⟨fuel, rfl⟩ : ∃ k, fuel = k + 2 := ⟨fuel - 2, by omega⟩
  simp only [cons_append, append_assoc] at hs
  have hlen := congrArg length hs
  simp only [length_append, length_cons] at hlen
  rw [Finds, parseexec]
  refine settles_peek (by decide) fun s₁ hlex₁ _ => ?_
  rw [hs]
  change Settles (parseblock (fuel + 1)) _ _ _
  rw [parseblock]
  refine settles_peek (by decide) fun s₂ hlex₂ _ => ?_
  rw [hlex₁, hs]
  refine settles_gettoken (hlex₂.trans (hlex₁.trans hs)) fun _ s₃ hlex₃ _ _ => ?_
  have hfuel₃ : 4 * (lex s₃).length + 4 ≤ fuel := by
    rw [hlex₃, length_append, length_cons, length_append]
    omega
  refine .seq (hline s₃ _ fuel hlex₃ (follow_cons (by decide) _) hfuel₃) ?_
  rintro d s₄ ⟨hd, hlex₄⟩
  refine settles_peek (by decide) fun s₅ hlex₅ _ => ?_
  rw [hlex₄]
  refine settles_gettoken (hlex₅.trans hlex₄) fun _ s₆ hlex₆ _ _ => ?_
  have hfuel₆ : (lex s₆).length < fuel := by
    rw [hlex₆, length_append]
    omega
  rw [← hd]
  exact parseredirs_complete hredirs hlex₆ (hrest.next (by decide)) hfuel₆

theorem exec_simple {us ts : List Tok} {ws : List (List UInt8)} {rs rs' : List Redir}
    (hredirs : Redirs us rs) (hwords : Words ts ws rs') (hmax : ws.length < MAXARGS) :
    Complete parseexec afterExec 2 (us ++ ts) ((Cmd.exec ws).redirs (rs ++ rs')) := by
  intro s rest fuel hs hrest hfuel
  obtain ⟨fuel, rfl⟩ : ∃ k, fuel = k + 1 := ⟨fuel - 1, by omega⟩
  rw [append_assoc] at hs
  -- a command does not begin with a parenthesis
  have hafter : next [chr '<', chr '>'] (ts ++ rest) = false ∧
      next [chr '('] (ts ++ rest) = false := by
    cases hwords with
    | nil => exact ⟨hrest.next (by decide), hrest.next (by decide)⟩
    | cons => exact ⟨rfl, rfl⟩
  have hlpar : next [chr '('] (lex s) = false := by
    rw [hs]
    cases hredirs with
    | nil => exact hafter.2
    | cons hop =>
      cases hop with
      | input => rfl
      | output => rfl
      | append => rfl
  rw [Finds, parseexec]
  refine settles_peek (by decide) fun s₁ hlex₁ _ => ?_
  rw [hlpar]
  refine .seq (parseredirs_complete hredirs (hlex₁.trans hs) hafter.1 (by rw [hlex₁]; omega)) ?_
  rintro c s₂ ⟨hc, hlex₂⟩
  have hlen := congrArg length hs
  rw [length_append, ← hlex₂] at hlen
  have hsimple : c.text = simple [] rs := hc
  exact parseargs_complete hwords hlex₂ hrest (by omega) hsimple hmax

/-- `parseline` finds every derivation. -/
theorem parseline_complete {ts : List Tok} (h : Line ts c) : Complete parseline afterLine 4 ts c :=
  @Line.rec (fun ts c _ => Complete parseline afterLine 4 ts c)
    (fun ts c _ => Complete parsepipe afterPipe 3 ts c)
    (fun ts c _ => Complete parseexec afterExec 2 ts c)
    (fun n _ hpipe => line_last n hpipe) (fun n _ _ hpipe hline => line_seq n hpipe hline)
    (fun _ hexec => pipe_last hexec) (fun _ _ hexec hpipe => pipe_seq hexec hpipe)
    (fun _ hredirs hline => exec_block hredirs hline)
    (fun hredirs hwords hmax => exec_simple hredirs hwords hmax) ts c h

/-! ## Strings -/

theorem nulterminate_eq (len : Nat) (cmd : Cmd Slice) (buf : List UInt8) :
    nulterminate len cmd buf = cmd.words.foldl (terminate len) buf := by
  induction cmd generalizing buf with
  | exec argv => rfl
  | redir cmd file mode fd ih =>
    rw [nulterminate, ih, Cmd.words, foldl_append]
    rfl
  | pipe left right ihl ihr => rw [nulterminate, ihl, ihr, Cmd.words, foldl_append]
  | list left right ihl ihr => rw [nulterminate, ihl, ihr, Cmd.words, foldl_append]
  | back cmd ih => exact ih buf

/-- The buffer of a line in which only characters outside of words were overwritten. -/
structure Cut (s : List CChar) (buf : List UInt8) : Prop where
  length : buf.length = s.length + 1
  kept : ∀ i (h : i < s.length), inWord s[i] = true → buf[i]? = some s[i].val
  last : buf[s.length]? = some 0

theorem cut_buffer (s : List CChar) : Cut s (buffer s) where
  length := by rw [buffer, length_append, length_map, length_singleton]
  kept i h _ := by
    rw [buffer, getElem?_append_left (by rw [length_map]; exact h), getElem?_map,
      getElem?_eq_getElem h]
    rfl
  last := by
    rw [buffer, getElem?_append_right (by rw [length_map]), length_map, Nat.sub_self]
    rfl

variable {buf : List UInt8}

namespace Slice.Of

variable {s : List CChar} {w : Slice}

/-- Where the word is in the line. -/
theorem split (h : w.Of s) : ∃ front cs, s = front ++ (cs ++ w.eq) ∧ w.q = cs ++ w.eq ∧
    (∀ c ∈ cs, inWord c = true) ∧ w.text = cs.map Subtype.val := by
  obtain ⟨front, hfront⟩ := h.start
  obtain ⟨cs, hcs, hin⟩ := h.run
  refine ⟨front, cs, by rw [← hfront, hcs], hcs, hin, ?_⟩
  rw [Slice.text, hcs, length_append, Nat.add_sub_cancel, take_left]

/-- Past the end of a word there is no character of a word. -/
theorem terminate (h : w.Of s) (hcut : Cut s buf) : Cut s (terminate s.length buf w) := by
  obtain ⟨front, cs, hline, -, -, -⟩ := h.split
  have hlen := congrArg length hline
  rw [length_append, length_append] at hlen
  refine ⟨?_, ?_, ?_⟩
  · rw [Shell.terminate, length_set]
    exact hcut.length
  · intro i hi hin
    have hne : s.length - w.eq.length ≠ i := by
      rintro rfl
      cases heq : w.eq with
      | nil =>
        rw [heq, length_nil, Nat.sub_zero] at hi
        exact absurd hi (Nat.lt_irrefl _)
      | cons c rest =>
        have hget : s[s.length - w.eq.length]? = some c := by
          rw [show s.length - w.eq.length = front.length + cs.length by omega, hline,
            ← append_assoc, ← length_append, getElem?_append_right (Nat.le_refl _),
            Nat.sub_self, heq]
          rfl
        rw [getElem?_eq_getElem hi] at hget
        have hc := h.stop c rest heq
        rw [← Option.some.inj hget, hin] at hc
        cases hc
    rw [Shell.terminate, getElem?_set_ne hne]
    exact hcut.kept i hi hin
  · rw [Shell.terminate, getElem?_set]
    split
    · rw [if_pos (by rw [hcut.length]; omega)]
    · exact hcut.last

/-- A word with a NUL past its end is a string. -/
theorem stringAt (h : w.Of s) (hcut : Cut s buf) (hnul : buf[s.length - w.eq.length]? = some 0) :
    stringAt s.length buf w = w.text := by
  obtain ⟨front, cs, hline, hq, hin, htext⟩ := h.split
  have hlen := congrArg length hline
  have hqlen := congrArg length hq
  rw [length_append, length_append] at hlen
  rw [length_append] at hqlen
  have hstart : s.length - w.q.length = front.length := by omega
  have hchars : ∀ i (hi : i < cs.length), buf[front.length + i]? = some cs[i].val := by
    intro i hi
    have hi' : front.length + i < s.length := by omega
    have hget : s[front.length + i] = cs[i] := by
      have : s[front.length + i]? = some cs[i] := by
        rw [hline, getElem?_append_right (Nat.le_add_right _ _), Nat.add_sub_cancel_left,
          getElem?_append_left hi, getElem?_eq_getElem hi]
      rw [getElem?_eq_getElem hi'] at this
      exact Option.some.inj this
    have := hcut.kept (front.length + i) hi' (by rw [hget]; exact hin _ (getElem_mem hi))
    rw [this, hget]
  have hdrop : ∃ rest, buf.drop front.length = cs.map Subtype.val ++ 0 :: rest := by
    refine ⟨buf.drop (front.length + cs.length + 1), ?_⟩
    have hbuf := hcut.length
    apply ext_getElem?
    intro i
    rw [getElem?_drop]
    rcases Nat.lt_trichotomy i cs.length with hlt | heq | hgt
    · rw [hchars i hlt, getElem?_append_left (by rw [length_map]; exact hlt),
        getElem?_map, getElem?_eq_getElem hlt]
      rfl
    · rw [getElem?_append_right (by rw [length_map]; omega), length_map, heq,
        Nat.sub_self, getElem?_cons_zero, ← hnul]
      congr 1
      omega
    · rw [getElem?_append_right (by rw [length_map]; omega), length_map]
      obtain ⟨k, hk⟩ : ∃ k, i = cs.length + 1 + k := ⟨i - (cs.length + 1), by omega⟩
      rw [show i - cs.length = k + 1 by omega, getElem?_cons_succ, getElem?_drop, hk]
      congr 1
      omega
  obtain ⟨rest, hrest⟩ := hdrop
  have hnonzero : ∀ c ∈ cs.map Subtype.val, (decide (c ≠ 0)) = true := by
    intro c hc
    obtain ⟨d, -, rfl⟩ := mem_map.mp hc
    exact decide_eq_true d.property
  rw [Shell.stringAt, hstart, hrest, htext, takeWhile_append_of_pos hnonzero,
    takeWhile_cons_of_neg (by simp), append_nil]

end Slice.Of

/-- After the words are terminated each of them has its NUL. -/
theorem cut_words {line : List CChar} {ws : List Slice} (hws : ∀ w ∈ ws, w.Of line)
    (hcut : Cut line buf) :
    Cut line (ws.foldl (terminate line.length) buf) ∧
      (∀ i : Nat, buf[i]? = some 0 → (ws.foldl (terminate line.length) buf)[i]? = some 0) ∧
      ∀ w ∈ ws, (ws.foldl (terminate line.length) buf)[line.length - w.eq.length]? = some 0 := by
  induction ws generalizing buf with
  | nil => exact ⟨hcut, fun _ h => h, fun _ h => absurd h not_mem_nil⟩
  | cons v ws ih =>
    have hv := (hws v mem_cons_self).terminate hcut
    obtain ⟨hcut', hzero, hnul⟩ := ih (fun w hw => hws w (mem_cons_of_mem _ hw)) hv
    have hset : (terminate line.length buf v)[line.length - v.eq.length]? = some 0 := by
      rw [terminate, getElem?_set_self (by rw [hcut.length]; omega)]
    have hkeep : ∀ i : Nat, buf[i]? = some 0 → (terminate line.length buf v)[i]? = some 0 := by
      intro i hi
      have hlt := (List.getElem?_eq_some_iff.mp hi).1
      rw [terminate, getElem?_set]
      split
      · rw [if_pos (by omega)]
      · exact hi
    refine ⟨hcut', fun i hi => hzero i (hkeep i hi), ?_⟩
    intro w hw
    rcases mem_cons.mp hw with rfl | hw
    · exact hzero _ hset
    · exact hnul w hw

theorem map_congr_words {W : Type} {f g : Slice → W} (h : ∀ w ∈ cmd.words, f w = g w) :
    cmd.map f = cmd.map g := by
  induction cmd with
  | exec argv =>
    rw [Cmd.map, Cmd.map]
    exact congrArg Cmd.exec (map_congr_left h)
  | redir cmd file mode fd ih =>
    rw [Cmd.map, Cmd.map, ih fun w hw => h w (mem_append_left _ hw),
      h file (mem_append_right _ (mem_singleton_self _))]
  | pipe left right ihl ihr =>
    rw [Cmd.map, Cmd.map, ihl fun w hw => h w (mem_append_left _ hw),
      ihr fun w hw => h w (mem_append_right _ hw)]
  | list left right ihl ihr =>
    rw [Cmd.map, Cmd.map, ihl fun w hw => h w (mem_append_left _ hw),
      ihr fun w hw => h w (mem_append_right _ hw)]
  | back cmd ih => rw [Cmd.map, Cmd.map, ih h]

/-- `nulterminate` makes strings of the words of a command. -/
theorem strings_nulterminate {line : List CChar} (h : cmd.Of line) :
    cmd.strings line.length (nulterminate line.length cmd (buffer line)) = cmd.text := by
  obtain ⟨hcut, -, hnul⟩ := cut_words h (cut_buffer line)
  rw [nulterminate_eq]
  exact map_congr_words fun w hw => (h w hw).stringAt hcut (hnul w hw)

/-! ## `parsecmd` -/

theorem length_lex_le (s : List CChar) : (lex s).length ≤ s.length := by
  induction s using lex.induct with
  | case1 =>
    rw [lex]
    exact Nat.le_refl _
  | case2 c s hspace ih =>
    rw [lex, if_pos hspace, length_cons]
    omega
  | case3 c s hspace hgt hd ih =>
    rw [lex, if_neg hspace, if_pos hgt, if_pos hd, length_cons, length_cons]
    rw [length_tail] at ih
    omega
  | case4 c s hspace hgt hd ih =>
    rw [lex, if_neg hspace, if_pos hgt, if_neg hd, length_cons, length_cons]
    omega
  | case5 c s hspace hgt t hsym ih =>
    rw [lex, if_neg hspace, if_neg hgt, hsym, length_cons, length_cons]
    omega
  | case6 c s hspace hgt hsym ih =>
    rw [lex, if_neg hspace, if_neg hgt, hsym, length_cons, length_cons]
    have : (s.dropWhile inWord).length ≤ s.length := (dropWhile_sublist inWord).length_le
    omega

theorem lex_eq_nil_iff {s : List CChar} : lex s = [] ↔ skip s = [] := by
  refine ⟨?_, lex_eq_nil⟩
  intro h
  cases hskip : skip s with
  | nil => rfl
  | cons c q =>
    obtain ⟨t, rest, hstarts⟩ := exists_starts (s := q) (dropWhile_head hskip)
    rw [← lex_skip, hskip, hstarts.lex] at h
    cases h

/-- What `parsecmd` does after `parseline`. -/
theorem parsecmd_ok {s s' : List CChar} (h : (parseline fuel).run s = .ok (cmd, s')) :
    parsecmd fuel s = if lex s' = [] then .ok (cmd, nulterminate s.length cmd (buffer s))
      else .error (.panic "syntax") := by
  rw [parsecmd, h]
  change (if skip s' ≠ [] then _ else _) = _
  rw [ite_not]
  by_cases hnil : lex s' = []
  · rw [if_pos hnil, if_pos (lex_eq_nil_iff.mp hnil)]
    rfl
  · rw [if_neg hnil, if_neg (mt lex_eq_nil_iff.mpr hnil)]
    rfl

/-- What `parsecmd` accepts is the tree of a derivation, with the words of the line. -/
theorem parsecmd_outcome {s : List CChar} (hfuel : 4 * s.length + 4 ≤ fuel) :
    (∃ cmd, parsecmd fuel s = .ok (cmd, nulterminate s.length cmd (buffer s)) ∧ cmd.Of s ∧
      Line (lex s) cmd.text) ∨ ∃ e, parsecmd fuel s = .error e ∧ IsPanic e := by
  have hlen := length_lex_le s
  have hsound := (parser_sound fuel).1 s s (by omega) suffix_rfl
  unfold Settles at hsound
  cases hrun : (parseline fuel).run s with
  | error e =>
    rw [hrun] at hsound
    refine .inr ⟨e, ?_, hsound⟩
    rw [parsecmd, hrun]
    rfl
  | ok out =>
    obtain ⟨cmd, s'⟩ := out
    rw [hrun] at hsound
    obtain ⟨-, hof, ts, hts, htree⟩ := hsound
    rw [parsecmd_ok hrun]
    by_cases hnil : lex s' = []
    · rw [if_pos hnil]
      refine .inl ⟨cmd, rfl, hof, ?_⟩
      rw [hts, hnil, append_nil]
      exact htree
    · rw [if_neg hnil]
      exact .inr ⟨_, rfl, _, by decide, rfl⟩

theorem parsecmd_complete {s : List CChar} (hfuel : 4 * s.length + 4 ≤ fuel)
    {tree : Cmd (List UInt8)} (h : Line (lex s) tree) :
    ∃ cmd buf, parsecmd fuel s = .ok (cmd, buf) ∧ cmd.strings s.length buf = tree := by
  have hlen := length_lex_le s
  have hsound := (parser_sound fuel).1 s s (by omega) suffix_rfl
  have hfinds := parseline_complete h s [] fuel (append_nil _).symm
    (fun _ _ h => by cases h) (by omega)
  unfold Settles at hsound
  unfold Finds Settles at hfinds
  cases hrun : (parseline fuel).run s with
  | error e =>
    rw [hrun] at hfinds
    exact hfinds.elim
  | ok out =>
    obtain ⟨cmd, s'⟩ := out
    rw [hrun] at hsound hfinds
    obtain ⟨-, hof, -⟩ := hsound
    obtain ⟨htext, hnil⟩ := hfinds
    rw [parsecmd_ok hrun, if_pos hnil]
    exact ⟨cmd, _, rfl, (strings_nulterminate hof).trans htext⟩

/-- On every line `parsecmd` comes to an end.  It returns a tree, whose words are the
strings its pointers point at, exactly when the line derives it; and otherwise it stops
at one of its panics, and never beyond the end of `argv`. -/
theorem parsecmd_grammar (s : List CChar) {fuel : Nat} (hfuel : 4 * s.length + 4 ≤ fuel) :
    (∀ tree, Line (lex s) tree ↔
      ∃ cmd buf, parsecmd fuel s = .ok (cmd, buf) ∧ cmd.strings s.length buf = tree) ∧
    ((∃ cmd buf, parsecmd fuel s = .ok (cmd, buf)) ∨
      ∃ e, parsecmd fuel s = .error e ∧ IsPanic e) := by
  refine ⟨fun tree => ⟨parsecmd_complete hfuel, ?_⟩, ?_⟩
  · rintro ⟨cmd, buf, hrun, rfl⟩
    rcases parsecmd_outcome hfuel with ⟨cmd', hrun', hof, hline⟩ | ⟨e, hrun', -⟩
    · rw [hrun] at hrun'
      cases hrun'
      rw [strings_nulterminate hof]
      exact hline
    · rw [hrun] at hrun'
      cases hrun'
  · rcases parsecmd_outcome hfuel with ⟨cmd, hrun, -⟩ | hpanic
    · exact .inl ⟨cmd, _, hrun⟩
    · exact .inr hpanic

/-- `ls>f&` -/
def lsLine : List CChar :=
  [⟨108, by decide⟩, ⟨115, by decide⟩, ⟨62, by decide⟩, ⟨102, by decide⟩, ⟨38, by decide⟩]

theorem parsecmd_grammar_ls :
    Line (lex lsLine)
      (.back (.redir (.exec [[108, 115]]) [102] (O_WRONLY ||| O_CREATE ||| O_TRUNC) 1)) :=
  ((parsecmd_grammar lsLine (Nat.le_refl _)).1 _).mpr ⟨_, _, rfl, by decide⟩

/-- Of a line that `parsecmd` accepts, every pointer to a word is then a string, and it is the
word of the line it was parsed from. -/
theorem parsecmd_strings (s : List CChar) {fuel : Nat} (hfuel : 4 * s.length + 4 ≤ fuel)
    {cmd : Cmd Slice} {buf : List UInt8} (h : parsecmd fuel s = .ok (cmd, buf)) :
    Line (lex s) cmd.text ∧ ∀ w ∈ cmd.words, w.Of s ∧ stringAt s.length buf w = w.text := by
  rcases parsecmd_outcome hfuel with ⟨cmd', hrun, hof, hline⟩ | ⟨e, hrun, -⟩
  · rw [h] at hrun
    cases hrun
    obtain ⟨hcut, -, hnul⟩ := cut_words hof (cut_buffer s)
    rw [nulterminate_eq]
    exact ⟨hline, fun w hw => ⟨hof w hw, (hof w hw).stringAt hcut (hnul w hw)⟩⟩
  · rw [h] at hrun
    cases hrun

theorem parsecmd_strings_ls : ∃ cmd buf, parsecmd 24 lsLine = .ok (cmd, buf) ∧
    ∀ w ∈ cmd.words, stringAt lsLine.length buf w = w.text :=
  ⟨_, _, rfl, fun w hw => ((parsecmd_strings lsLine (Nat.le_refl 24) rfl).2 w hw).2⟩

end Xv6.Shell
