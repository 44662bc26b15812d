/-
  User/Xargs.lean --- `xargs.c`.

  The buffer is told by its bytes up to the zeros at its end.  `fork` and `exec` succeed,
  and a child is the arguments it runs with.  Once a read has failed all reads do; until
  then `occupy` is at most 512, and only a failed read makes it wrap.
-/
import Mathlib.Data.List.ReduceOption
import Mathlib.Data.UInt
import Xv6.Foundation.Lines

set_option autoImplicit false

namespace Xv6.Xargs

open List
open Foundation.Lines

def MAXARG : Nat := 32

structure State where
  buf : List UInt8
  occupy : Nat
  stdinEnd : Bool
  /-- what is left of the standard input -/
  stream : List UInt8
  /-- the arguments of the children, in the order they ran in -/
  ran : List (List (List UInt8))

/-- `stdin_end && occupy == 0` -/
def State.done (s : State) : Bool := s.stdinEnd && s.occupy == 0

/-- `xargv` with the line at `argc - 1`, as far as the null pointer. -/
def child (words : List (List UInt8)) (line : List UInt8) : List (List UInt8) :=
  let xargv := words.map some ++ List.replicate (MAXARG - words.length) none
  ((xargv.set words.length (some line)).takeWhile Option.isSome).reduceOption

/-- The read into `buf + occupy`; `none` if it fails. -/
def fill (size : Option Nat) (s : State) : State :=
  match size with
  | none => { s with occupy := (s.occupy + (2 ^ 32 - 1)) % 2 ^ 32 }
  | some size =>
    let (chunk, stream) := readSome size (512 - s.occupy) s.stream
    { s with
      buf := s.buf ++ chunk, occupy := s.occupy + chunk.length, stdinEnd := chunk = [], stream }

/-- The inner loop: a child for each line, which is then removed. -/
def drain (words : List (List UInt8)) (s : State) : State :=
  let (ls, left) := takeLines (· == 0) 10 [] s.buf
  { s with
    buf := left, occupy := s.occupy - (ls.map (·.length + 1)).sum
    ran := s.ran ++ ls.map (child words) }

/-- The body of the loop, while it runs. -/
def step (words : List (List UInt8)) (size : Option Nat) (s : State) : State :=
  if s.done then s else drain words (if s.stdinEnd then s else fill size s)

/-- `main` after some turns of the loop. -/
def run (words : List (List UInt8)) (sizes : Nat → Option Nat) (stdin : List UInt8) : Nat → State
  | 0 => ⟨[], 0, false, stdin, []⟩
  | n + 1 => step words (sizes n) (run words sizes stdin n)

/-- The bytes that the read in turn `n` returns, if there is one and it does not fail. -/
def readAt (words : List (List UInt8)) (sizes : Nat → Option Nat) (stdin : List UInt8) (n : Nat) :
    Option (List UInt8) :=
  let s := run words sizes stdin n
  if s.stdinEnd then none
  else (sizes n).map fun size => (readSome size (512 - s.occupy) s.stream).1

/-- Lines that end in a newline and fit into the buffer with it. -/
def Fits (stdin : List UInt8) : Prop :=
  ∃ ls, stdin = text 10 ls [] ∧ ∀ l ∈ ls, (∀ c ∈ l, c ≠ 0 ∧ c ≠ 10) ∧ l.length ≤ 511

theorem drain_stdinEnd (words : List (List UInt8)) (s : State) :
    (drain words s).stdinEnd = s.stdinEnd := rfl

theorem child_eq {words : List (List UInt8)} (h : words.length ≤ MAXARG - 2) (line : List UInt8) :
    child words line = words ++ [line] := by
  obtain ⟨k, hk⟩ : ∃ k, MAXARG - words.length = k + 1 + 1 :=
    ⟨MAXARG - words.length - 2, by rw [MAXARG] at *; omega⟩
  rw [child, hk, set_append_right _ _ (by rw [length_map]), length_map, Nat.sub_self,
    replicate_succ, set_cons_zero, replicate_succ]
  rw [takeWhile_append_of_pos (by simp)]
  simp [List.reduceOption]

variable {words : List (List UInt8)} {sizes : Nat → Option Nat} {stdin : List UInt8}
  {ls : List (List UInt8)} {r : List UInt8}

/-- The end of the input has been seen once a read has returned 0. -/
theorem stdinEnd_iff (n : Nat) : (run words sizes stdin n).stdinEnd = true ↔
    ∃ m < n, readAt words sizes stdin m = some [] := by
  induction n with
  | zero => simp [run]
  | succ n ih =>
    rw [run, step]
    have hrest : (∃ m < n + 1, readAt words sizes stdin m = some []) ↔
        (run words sizes stdin n).stdinEnd = true ∨ readAt words sizes stdin n = some [] := by
      rw [ih, Nat.exists_lt_succ_right]
    rw [hrest, readAt]
    generalize run words sizes stdin n = s
    cases hend : s.stdinEnd with
    | true =>
      have hstays : (if s.done then s else drain words s).stdinEnd = true := by
        split
        · exact hend
        · exact hend
      exact iff_of_true hstays (.inl rfl)
    | false =>
      rw [State.done, hend, Bool.false_and, if_neg Bool.false_ne_true, if_neg Bool.false_ne_true,
        if_neg Bool.false_ne_true, drain_stdinEnd]
      cases sizes n with
      | none =>
        have hstays : (fill none s).stdinEnd = false := by rw [fill, hend]
        rw [hstays]
        exact (or_iff_left nofun).symm
      | some size =>
        have hchunk : (fill (some size) s).stdinEnd =
            decide ((readSome size (512 - s.occupy) s.stream).1 = []) := rfl
        rw [hchunk, Option.map_some, Option.some.injEq, decide_eq_true_iff]
        exact (or_iff_right nofun).symm

/-- Reading goes on.  `ls` are the lines of the input and `r` is what follows them. -/
structure Reading (words ls : List (List UInt8)) (r : List UInt8) (s : State) : Prop where
  going : s.stdinEnd = false
  drained : Drained (· == 0) 10 s.buf
  occupy : s.occupy = s.buf.length
  room : s.buf.length ≤ 512
  lines : ∃ past todo, ls = past ++ todo ∧ s.ran = past.map (child words) ∧
    (∀ l ∈ past, l.length ≤ 511) ∧ takeLines (· == 0) 10 [] (s.buf ++ s.stream) = (todo, r)

theorem reading_init (hlines : takeLines (· == 0) 10 [] stdin = (ls, r)) :
    Reading words ls r (run words sizes stdin 0) :=
  ⟨rfl, rfl, rfl, Nat.zero_le _, [], ls, rfl, rfl, fun _ hl => absurd hl not_mem_nil, hlines⟩

/-- The end of the input was seen. -/
structure Ended (words ls : List (List UInt8)) (r : List UInt8) (s : State) : Prop where
  ended : s.stdinEnd = true
  drained : Drained (· == 0) 10 s.buf
  empty : s.occupy = 0 ↔ r = [] ∧ ∀ l ∈ ls, l.length ≤ 511
  ran : s.occupy = 0 → s.ran = ls.map (child words)

theorem Ended.step {s : State} (h : Ended words ls r s) (size : Option Nat) :
    step words size s = s := by
  rw [Xargs.step]
  split
  · rfl
  · rw [if_pos h.ended, drain, h.drained]
    simp

/-- Another read.  Without a byte there is no room or nothing left, and then the loop is done
with the input exactly if it has come to the end of a line, which also fits. -/
theorem Reading.step {s : State} (h : Reading words ls r s) (size : Nat) :
    Ended words ls r (step words (some size) s) ∨ Reading words ls r (step words (some size) s) ∧
        (step words (some size) s).stream.length < s.stream.length := by
  obtain ⟨past, todo, rfl, hran, hshort, hlines⟩ := h.lines
  obtain ⟨chunk, rest, hread, hstream, hlen, hnil⟩ := readSome_spec size (512 - s.occupy) s.stream
  have hoccupy := h.occupy
  have hroom := h.room
  rw [← hstream, ← append_assoc] at hlines
  obtain ⟨done, todo, left, htake, rfl, hgo, hleft, hbuf⟩ := takeLines_piece hlines
  have hbuflen := congrArg List.length hbuf
  rw [length_text, length_append] at hbuflen
  have hshort' : ∀ l ∈ past ++ done, l.length ≤ 511 := forall_mem_append.mpr ⟨hshort, fun l hl => by
      have : l.length < (text 10 done left).length := length_lt_text hl
      rw [length_text] at this
      omega⟩
  have hstep : Xargs.step words (some size) s =
      ⟨left, s.occupy + chunk.length - (done.map (·.length + 1)).sum, chunk = [], rest,
        s.ran ++ done.map (child words)⟩ := by
    rw [Xargs.step, State.done, h.going, Bool.false_and, if_neg Bool.false_ne_true,
      if_neg Bool.false_ne_true, fill, hread, drain, htake]
  rw [hstep, hran, ← map_append]
  cases chunk with
  | cons c chunk =>
    refine .inr ⟨⟨rfl, hleft, ?_, ?_, past ++ done, todo, (append_assoc _ _ _).symm, rfl,
      hshort', hgo⟩, ?_⟩
    · dsimp only
      omega
    · dsimp only
      omega
    · rw [← hstream, length_append, length_cons]
      dsimp only
      omega
  | nil =>
    rw [append_nil, h.drained] at htake
    cases htake
    have hzero : s.occupy + 0 - 0 = 0 ↔ s.buf = [] := by
      rw [h.occupy]
      exact length_eq_zero_iff
    rcases hnil rfl with hfull | hend
    · -- the buffer is full of a line that goes on, or of a rest
      have hne : ¬ s.buf = [] := fun hbuf => by
        rw [hbuf] at hoccupy
        rw [hoccupy] at hfull
        cases hfull
      refine .inl ⟨rfl, hleft, ⟨fun h0 => absurd (hzero.mp h0) hne, ?_⟩,
        fun h0 => absurd (hzero.mp h0) hne⟩
      rintro ⟨rfl, hall⟩
      cases todo with
      | nil =>
        obtain ⟨htext, -, -⟩ := takeLines_spec clean_nil hgo
        exact absurd (append_eq_nil_iff.mp ((nil_append _).symm.trans htext)).1 hne
      | cons l todo =>
        have := h.drained.length_le (by decide) hgo
        have := hall l (by simp)
        omega
    · rw [← hstream, nil_append] at hend
      rw [hend, append_nil, h.drained] at hgo
      cases hgo
      refine .inl ⟨rfl, hleft, ?_, fun _ => rfl⟩
      exact ⟨fun h0 => ⟨hzero.mp h0, hshort'⟩, fun h0 => hzero.mpr h0.1⟩

/-- Unless a read has failed, the loop reads, or it has seen the end of the input. -/
theorem run_cases (hfail : ∀ n, sizes n = none → sizes (n + 1) = none)
    (hlines : takeLines (· == 0) 10 [] stdin = (ls, r)) (n : Nat) :
    ((run words sizes stdin n).stdinEnd = false ∧ sizes n = none) ∨
      Reading words ls r (run words sizes stdin n) ∨
        Ended words ls r (run words sizes stdin n) := by
  -- a failed read leaves `stdin_end` as it is
  have hfailed : ∀ s : State, s.stdinEnd = false → (step words none s).stdinEnd = false := by
    intro s hs
    rw [step, State.done, hs, Bool.false_and, if_neg Bool.false_ne_true,
      if_neg Bool.false_ne_true, drain_stdinEnd, fill]
    exact hs
  induction n with
  | zero => exact .inr (.inl (reading_init hlines))
  | succ n ih =>
    rw [run]
    rcases ih with ⟨hend, hnone⟩ | hreading | hended
    · rw [hnone]
      exact .inl ⟨hfailed _ hend, hfail n hnone⟩
    · cases hsize : sizes n with
      | none => exact .inl ⟨hfailed _ hreading.going, hfail n hsize⟩
      | some size => exact .inr ((hreading.step size).symm.imp_left And.left)
    · rw [hended.step]
      exact .inr (.inr hended)

/-- Without failing reads the end of the input is seen. -/
theorem run_ended (hsome : ∀ n, sizes n ≠ none)
    (hlines : takeLines (· == 0) 10 [] stdin = (ls, r)) :
    ∃ n, Ended words ls r (run words sizes stdin n) := by
  -- by induction on what is left to read
  suffices h : ∀ k n, (run words sizes stdin n).stream.length = k →
      Reading words ls r (run words sizes stdin n) →
      ∃ m, Ended words ls r (run words sizes stdin m) from
    h _ 0 rfl (reading_init hlines)
  intro k
  induction k using Nat.strong_induction_on with
  | _ k ih =>
    intro n hk hreading
    obtain ⟨size, hsize⟩ := Option.ne_none_iff_exists'.mp (hsome n)
    have hstep := hreading.step size
    rw [← hsize] at hstep
    rcases hstep with hended | ⟨hreading, hlt⟩
    · exact ⟨n + 1, hended⟩
    · exact ih _ (hk ▸ hlt) (n + 1) rfl hreading

theorem takeLines_fits {ms : List (List UInt8)}
    (hms : ∀ l ∈ ms, (∀ c ∈ l, c ≠ 0 ∧ c ≠ 10) ∧ l.length ≤ 511) :
    takeLines (· == 0) 10 [] (text 10 ms []) = (ms, []) :=
  takeLines_text (by decide) (fun l hl c hc => by simpa using (hms l hl).1 c hc) clean_nil

theorem fits_iff (hlines : takeLines (· == 0) 10 [] stdin = (ls, r)) :
    Fits stdin ↔ r = [] ∧ ∀ l ∈ ls, l.length ≤ 511 := by
  constructor
  · rintro ⟨ms, rfl, hms⟩
    rw [takeLines_fits hms] at hlines
    cases hlines
    exact ⟨rfl, fun l hl => (hms l hl).2⟩
  · rintro ⟨rfl, hshort⟩
    obtain ⟨htext, hclean, -⟩ := takeLines_spec clean_nil hlines
    exact ⟨ls, htext, fun l hl => ⟨fun c hc => by simpa using hclean l hl c hc, hshort l hl⟩⟩

theorem Ended.done {s : State} (h : Ended words ls r s) :
    s.done = true ↔ r = [] ∧ ∀ l ∈ ls, l.length ≤ 511 := by
  rw [State.done, h.ended, Bool.true_and, beq_iff_eq, h.empty]

/-- Lines that fit are passed to one child each, in order, and then the loop ends. -/
theorem xargs_lines (hwords : words.length ≤ MAXARG - 2)
    (hls : ∀ l ∈ ls, (∀ c ∈ l, c ≠ 0 ∧ c ≠ 10) ∧ l.length ≤ 511) (hsome : ∀ n, sizes n ≠ none) :
    ∃ n, (run words sizes (text 10 ls []) n).done = true ∧
      (run words sizes (text 10 ls []) n).ran = ls.map (words ++ [·]) := by
  obtain ⟨n, h⟩ := run_ended hsome (takeLines_fits hls)
  have hshort : ([] : List UInt8) = [] ∧ ∀ l ∈ ls, l.length ≤ 511 := ⟨rfl, fun l hl => (hls l hl).2⟩
  refine ⟨n, h.done.mpr hshort, ?_⟩
  rw [h.ran (h.empty.mpr hshort)]
  exact map_congr_left fun l _ => child_eq hwords l

theorem xargs_lines_two :
    ∃ n, (run [[108, 115]] (fun _ => some 0) (text 10 [[97], [98]] []) n).done = true ∧
      (run [[108, 115]] (fun _ => some 0) (text 10 [[97], [98]] []) n).ran =
        [[[108, 115], [97]], [[108, 115], [98]]] :=
  xargs_lines (by decide) (by simp) (by nofun)

/-- The loop ends exactly if a read returns 0, and what was read are lines that fit.  A read
returns 0 unless one fails before. -/
theorem xargs_ends (words : List (List UInt8)) (stdin : List UInt8)
    (hfail : ∀ n, sizes n = none → sizes (n + 1) = none) :
    ((∃ n, (run words sizes stdin n).done = true) ↔
      Fits stdin ∧ ∃ n, readAt words sizes stdin n = some []) ∧
    ((∀ n, sizes n ≠ none) → ∃ n, readAt words sizes stdin n = some []) := by
  cases hlines : takeLines (· == 0) 10 [] stdin with
  | mk ls r =>
    have hended : ∀ n, (run words sizes stdin n).stdinEnd = true →
        Ended words ls r (run words sizes stdin n) := by
      intro n hend
      rcases run_cases hfail hlines n with ⟨hgoing, -⟩ | hreading | hended
      · cases hend.symm.trans hgoing
      · cases hend.symm.trans hreading.going
      · exact hended
    have hseen : (∃ n, readAt words sizes stdin n = some []) ↔
        ∃ n, (run words sizes stdin n).stdinEnd = true := by
      constructor
      · rintro ⟨n, hn⟩
        exact ⟨n + 1, (stdinEnd_iff _).mpr ⟨n, Nat.lt_succ_self n, hn⟩⟩
      · rintro ⟨n, hn⟩
        obtain ⟨m, -, hm⟩ := (stdinEnd_iff n).mp hn
        exact ⟨m, hm⟩
    rw [fits_iff hlines, hseen]
    refine ⟨⟨?_, ?_⟩, fun hsome => ?_⟩
    · rintro ⟨n, hdone⟩
      have hend := (Bool.and_eq_true_iff.mp hdone).1
      exact ⟨(hended n hend).done.mp hdone, n, hend⟩
    · rintro ⟨hfits, n, hend⟩
      exact ⟨n, (hended n hend).done.mpr hfits⟩
    · obtain ⟨n, h⟩ := run_ended hsome hlines
      exact ⟨n, h.ended⟩

/-- Reads of two bytes, which fail from turn `k` on. -/
def failFrom (k n : Nat) : Option Nat := if n < k then some 1 else none

theorem failFrom_fails (k n : Nat) (h : failFrom k n = none) : failFrom k (n + 1) = none := by
  rw [failFrom, ite_eq_right_iff] at h
  exact if_neg fun hlt => by cases h (by omega)

/-- Two lines that are read in two turns: the loop ends if the third read does not fail. -/
theorem xargs_ends_twoLines :
    (∃ n, (run [[108, 115]] (failFrom 3) [97, 10, 98, 10] n).done = true) ∧
      ¬ ∃ n, (run [[108, 115]] (failFrom 2) [97, 10, 98, 10] n).done = true := by
  refine ⟨(xargs_ends _ _ (failFrom_fails 3)).1.mpr ⟨⟨[[97], [98]], rfl, by simp⟩, 2, rfl⟩, ?_⟩
  rw [(xargs_ends _ _ (failFrom_fails 2)).1]
  rintro ⟨-, n, hn⟩
  match n, hn with
  | 0, hn | 1, hn => cases hn
  | n + 2, hn =>
    have hnone : failFrom 2 (n + 2) = none := if_neg (by omega)
    rw [readAt, hnone, Option.map_none, ite_self] at hn
    cases hn

/-- A last line without its newline keeps the loop going. -/
theorem xargs_no_newline : ¬ ∃ n, (run [] (fun _ => some 0) [97] n).done = true := by
  rintro ⟨n, h⟩
  have hstuck : ∀ n, run [] (fun _ => some 0) [97] (n + 2) = ⟨[97], 1, true, [], []⟩ := by
    intro n
    induction n with
    | zero => rfl
    | succ n ih =>
      rw [run, ih]
      rfl
  match n, h with
  | 0, h | 1, h => cases h
  | n + 2, h =>
    rw [hstuck] at h
    cases h

end Xv6.Xargs
