/-
  Foundation/Lines.lean --- lines that arrive in pieces.

  A text is lines, each with its terminator `nl`, and then a rest.  `takeLines` takes the
  lines off as far as they are there, and up to a `stop`; it may be called on one piece of
  the text after the other, each time with what it left of those before.

  Nothing here mentions a program.
-/
import Mathlib.Algebra.GroupWithZero.Nat
import Mathlib.Algebra.Order.BigOperators.Group.List
import Mathlib.Algebra.Order.Group.Nat

set_option autoImplicit false

namespace Xv6.Foundation.Lines

open List

variable {α : Type}

/-! ## Reading -/

/-- Read at most `room` elements, and one at least if there is room for it and one is left. -/
def readSome (size room : Nat) (stream : List α) : List α × List α :=
  stream.splitAt (min room (size + 1))

theorem readSome_spec (size room : Nat) (stream : List α) :
    ∃ chunk rest, readSome size room stream = (chunk, rest) ∧ chunk ++ rest = stream ∧
      chunk.length ≤ room ∧ (chunk = [] → room = 0 ∨ stream = []) := by
  refine ⟨_, _, splitAt_eq, take_append_drop _ _, ?_, fun h => ?_⟩
  · rw [length_take]
    omega
  · rcases take_eq_nil_iff.mp h with h | h
    · exact .inl (by omega)
    · exact .inr h

/-! ## Texts -/

/-- Lines, each with its terminator, and then `r`. -/
def text (nl : α) (ls : List (List α)) (r : List α) : List α := ls.flatMap (· ++ [nl]) ++ r

/-- Neither the terminator nor a stop is in `l`. -/
def Clean (stop : α → Bool) (nl : α) (l : List α) : Prop := ∀ c ∈ l, stop c = false ∧ c ≠ nl

variable {stop : α → Bool} {nl : α} {ls : List (List α)} {l r : List α}

theorem clean_nil : Clean stop nl [] := fun _ hc => absurd hc not_mem_nil

theorem text_cons : text nl (l :: ls) r = l ++ nl :: text nl ls r := by
  simp [text]

theorem length_text : (text nl ls r).length = (ls.map (·.length + 1)).sum + r.length := by
  rw [text, length_append, length_flatMap]
  simp only [length_append, length_singleton]

theorem length_lt_text (h : l ∈ ls) : l.length < (text nl ls r).length := by
  have := le_sum_of_mem (mem_map_of_mem (f := (·.length + 1)) h)
  rw [length_text]
  omega

/-! ## Taking the lines off -/

variable [DecidableEq α]

/-- The lines that are there, and the rest; `line` is what was passed of the first of them. -/
def takeLines (stop : α → Bool) (nl : α) (line : List α) : List α → List (List α) × List α
  | [] => ([], line)
  | c :: s =>
    if stop c then ([], line ++ c :: s)
    else if c = nl then
      let (ls, r) := takeLines stop nl [] s
      (line :: ls, r)
    else takeLines stop nl (line ++ [c]) s

theorem takeLines_append {w : List α} (h : Clean stop nl w) (line s : List α) :
    takeLines stop nl line (w ++ s) = takeLines stop nl (line ++ w) s := by
  induction w generalizing line with
  | nil => rw [append_nil, nil_append]
  | cons c w ih =>
    obtain ⟨hstop, hnl⟩ := h c mem_cons_self
    rw [cons_append, takeLines, if_neg (Bool.eq_false_iff.mp hstop), if_neg hnl,
      ih (fun d hd => h d (mem_cons_of_mem _ hd)), append_assoc, singleton_append]

theorem takeLines_text (hnl : stop nl = false) (hls : ∀ l ∈ ls, Clean stop nl l)
    (hr : Clean stop nl r) : takeLines stop nl [] (text nl ls r) = (ls, r) := by
  induction ls with
  | nil =>
    have := takeLines_append hr [] []
    rw [append_nil, nil_append] at this
    exact this
  | cons l ls ih =>
    rw [text_cons, takeLines_append (hls l mem_cons_self), nil_append, takeLines,
      if_neg (Bool.eq_false_iff.mp hnl), if_pos rfl, ih fun k hk => hls k (mem_cons_of_mem _ hk)]

/-- Nothing is lost, what is taken is lines, and with more of the text `takeLines` goes on
from what it left. -/
theorem takeLines_spec {line s : List α} (hline : Clean stop nl line)
    (h : takeLines stop nl line s = (ls, r)) :
    line ++ s = text nl ls r ∧ (∀ l ∈ ls, Clean stop nl l) ∧ ∀ t, takeLines stop nl line (s ++ t) =
        (ls ++ (takeLines stop nl [] (r ++ t)).1, (takeLines stop nl [] (r ++ t)).2) := by
  induction s generalizing line ls with
  | nil =>
    cases h
    refine ⟨append_nil _, fun _ hl => absurd hl not_mem_nil, fun t => ?_⟩
    rw [takeLines_append hline]
    rfl
  | cons c s ih =>
    rw [takeLines] at h
    simp only [cons_append, takeLines]
    split at h
    · rename_i hstop
      cases h
      refine ⟨rfl, fun _ hl => absurd hl not_mem_nil, fun t => ?_⟩
      rw [append_assoc, takeLines_append hline, cons_append, takeLines, if_pos hstop, if_pos hstop]
      rfl
    · rename_i hstop
      simp only [if_neg hstop]
      split at h
      · rename_i hc
        subst hc
        cases h
        obtain ⟨hs, hclean, hmore⟩ := ih clean_nil rfl
        refine ⟨by rw [text_cons, ← hs, nil_append], forall_mem_cons.mpr ⟨hline, hclean⟩,
          fun t => ?_⟩
        rw [if_pos rfl, hmore t]
        rfl
      · rename_i hc
        have hnext : Clean stop nl (line ++ [c]) :=
          forall_mem_append.mpr ⟨hline, forall_mem_singleton.mpr ⟨Bool.eq_false_iff.mpr hstop, hc⟩⟩
        obtain ⟨hs, hclean, hmore⟩ := ih hnext h
        refine ⟨by rw [← hs, append_assoc, singleton_append], hclean, fun t => ?_⟩
        rw [if_neg hc, hmore t]

/-- The lines of `b` have been taken off. -/
def Drained (stop : α → Bool) (nl : α) (b : List α) : Prop := takeLines stop nl [] b = ([], b)

/-- One piece more: the lines it finishes are the next ones of the text. -/
theorem takeLines_piece {b t : List α} (h : takeLines stop nl [] (b ++ t) = (ls, r)) :
    ∃ done todo left, takeLines stop nl [] b = (done, left) ∧ ls = done ++ todo ∧
      takeLines stop nl [] (left ++ t) = (todo, r) ∧ Drained stop nl left ∧
      b = text nl done left := by
  cases hout : takeLines stop nl [] b with
  | mk done left =>
    obtain ⟨hb, -, hmore⟩ := takeLines_spec clean_nil hout
    rw [hmore t] at h
    have hnil := hmore []
    rw [append_nil, append_nil, hout, Prod.mk.injEq, self_eq_append_right] at hnil
    cases h
    exact ⟨done, _, left, rfl, rfl, rfl, Prod.ext hnil.1 hnil.2.symm, hb⟩

/-- What is read of a line without its terminator is not longer than the line. -/
theorem Drained.length_le {b t : List α} (h : Drained stop nl b) (hnl : stop nl = false)
    (hnext : takeLines stop nl [] (b ++ t) = (l :: ls, r)) : b.length ≤ l.length := by
  obtain ⟨htext, hclean, -⟩ := takeLines_spec clean_nil hnext
  rw [nil_append, text_cons] at htext
  rcases append_eq_append_iff.mp htext with ⟨w, rfl, -⟩ | ⟨w, rfl, hw⟩
  · rw [length_append]
    omega
  · cases w with
    | nil => exact Nat.le_of_eq (congrArg List.length (append_nil l))
    | cons c w =>
      -- the terminator has been read, and the line would have been taken off
      obtain rfl := (List.cons.inj hw).1
      rw [Drained, takeLines_append (hclean l mem_cons_self), takeLines,
        if_neg (Bool.eq_false_iff.mp hnl), if_pos rfl] at h
      cases h

end Xv6.Foundation.Lines
