/-
  User/Grep.lean --- `grep.c`: the matcher, and the loop over the lines of a file.

  A string is its characters before the NUL, and no byte of the file is NUL.  `read`
  returns a byte at least, unless there is no room or no input, and how many more is
  not known.
-/
import Xv6.Foundation.Lines
import Xv6.Shell.Parse

set_option autoImplicit false

namespace Xv6.Grep

open List
open Foundation.Lines Shell

/-! ## The matcher -/

/-- `matchstar`; `here` is `matchhere` with the rest of the pattern. -/
def matchstar (here : List CChar → Bool) (c : CChar) : List CChar → Bool
  | [] => here []
  | t :: text => here (t :: text) || ((t = c || c.val = chr '.') && matchstar here c text)

/-- The last `if` of `matchhere`. -/
def matchone (here : List CChar → Bool) (c : CChar) : List CChar → Bool
  | [] => false
  | t :: text => (c.val = chr '.' || c = t) && here text

def matchhere : List CChar → List CChar → Bool
  | [], _ => true
  | c :: re, text =>
    if deref re = chr '*' then matchstar (matchhere re.tail) c text
    else if c.val = chr '$' ∧ re = [] then text = []
    else matchone (matchhere re) c text
termination_by re => re.length
decreasing_by
  · rw [length_tail, length_cons]
    omega
  · exact Nat.lt_succ_self _

/-- `match`; it looks at the empty string too. -/
def matchLine (re text : List CChar) : Bool :=
  if deref re = chr '^' then matchhere re.tail text else text.tails.any (matchhere re)

/-! ## What a pattern stands for -/

inductive Item where
  | lit (c : CChar)
  | any
  | star (c : CChar)
  | eol
  deriving DecidableEq

def single (c : CChar) : Item := if c.val = chr '.' then .any else .lit c

/-- The items of a pattern. -/
def items : List CChar → List Item
  | [] => []
  | c :: re =>
    if deref re = chr '*' then .star c :: items re.tail
    else if c.val = chr '$' ∧ re = [] then [.eol]
    else single c :: items re
termination_by re => re.length
decreasing_by
  · rw [length_tail, length_cons]
    omega
  · exact Nat.lt_succ_self _

/-- The strings of an item. -/
def Item.Lang : Item → List CChar → Prop
  | .lit c, w => w = [c]
  | .any, w => ∃ c, w = [c]
  | .star c, w => ∀ d ∈ w, d = c ∨ c.val = chr '.'
  | .eol, w => w = []

/-- The text begins with a string of each item in turn, and ends there if `$` is one. -/
def Begins (is : List Item) (text : List CChar) : Prop :=
  ∃ ws rest, text = ws.flatten ++ rest ∧ List.Forall₂ Item.Lang is ws ∧ (.eol ∈ is → rest = [])

theorem begins_cons {i : Item} {is : List Item} {text : List CChar} (hi : i ≠ .eol) :
    Begins (i :: is) text ↔ ∃ w rest, text = w ++ rest ∧ i.Lang w ∧ Begins is rest := by
  constructor
  · rintro ⟨ws, rest, rfl, hws, heol⟩
    cases hws with
    | cons hw hws =>
      exact ⟨_, _, append_assoc _ _ _, hw, _, rest, rfl, hws, fun h => heol (mem_cons_of_mem _ h)⟩
  · rintro ⟨w, _, rfl, hw, ws, rest, rfl, hws, heol⟩
    refine ⟨w :: ws, rest, (append_assoc _ _ _).symm, .cons hw hws, fun h => heol ?_⟩
    exact (mem_cons.mp h).resolve_left hi.symm

theorem begins_eol {text : List CChar} : Begins [.eol] text ↔ text = [] := by
  constructor
  · rintro ⟨ws, rest, rfl, hws, heol⟩
    cases hws with
    | cons hw hws =>
      cases hws
      cases hw
      exact heol (mem_singleton_self _)
  · rintro rfl
    exact ⟨[[]], [], rfl, .cons rfl .nil, fun _ => rfl⟩

theorem matchstar_iff {here : List CChar → Bool} {c : CChar} {text : List CChar} :
    matchstar here c text = true ↔
      ∃ w rest, text = w ++ rest ∧ (Item.star c).Lang w ∧ here rest = true := by
  induction text with
  | nil =>
    refine ⟨fun h => ⟨[], [], rfl, fun _ hd => absurd hd not_mem_nil, h⟩, ?_⟩
    rintro ⟨w, rest, h, -, hrest⟩
    rw [(append_eq_nil_iff.mp h.symm).2] at hrest
    exact hrest
  | cons t text ih =>
    rw [matchstar, Bool.or_eq_true, Bool.and_eq_true, ih, Bool.or_eq_true, decide_eq_true_iff,
      decide_eq_true_iff]
    constructor
    · rintro (h | ⟨ht, w, rest, rfl, hw, hrest⟩)
      · exact ⟨[], _, rfl, fun _ hd => absurd hd not_mem_nil, h⟩
      · exact ⟨t :: w, rest, rfl, forall_mem_cons.mpr ⟨ht, hw⟩, hrest⟩
    · rintro ⟨w, rest, h, hw, hrest⟩
      cases w with
      | nil =>
        rw [h]
        exact .inl hrest
      | cons d w =>
        cases h
        obtain ⟨ht, hw⟩ := forall_mem_cons.mp hw
        exact .inr ⟨ht, w, rest, rfl, hw, hrest⟩

theorem matchone_iff {here : List CChar → Bool} {c : CChar} {text : List CChar} :
    matchone here c text = true ↔
      ∃ w rest, text = w ++ rest ∧ (single c).Lang w ∧ here rest = true := by
  have hsingle : ∀ w, (single c).Lang w ↔ ∃ t, w = [t] ∧ (c.val = chr '.' ∨ c = t) := by
    intro w
    unfold single
    split
    · rename_i hdot
      exact ⟨fun ⟨t, ht⟩ => ⟨t, ht, .inl hdot⟩, fun ⟨t, ht, _⟩ => ⟨t, ht⟩⟩
    · rename_i hdot
      exact ⟨fun h => ⟨c, h, .inr rfl⟩, fun ⟨t, ht, hc⟩ => (hc.resolve_left hdot) ▸ ht⟩
  simp only [hsingle]
  cases text with
  | nil =>
    refine ⟨fun h => (nomatch h), ?_⟩
    rintro ⟨_, _, h, ⟨t, rfl, -⟩, -⟩
    cases h
  | cons t text =>
    rw [matchone, Bool.and_eq_true, Bool.or_eq_true, decide_eq_true_iff, decide_eq_true_iff]
    refine ⟨fun ⟨hc, h⟩ => ⟨[t], text, rfl, ⟨t, rfl, hc⟩, h⟩, ?_⟩
    rintro ⟨_, rest, h, ⟨d, rfl, hc⟩, hrest⟩
    cases h
    exact ⟨hc, hrest⟩

theorem matchhere_iff (re text : List CChar) :
    matchhere re text = true ↔ Begins (items re) text := by
  induction re, text using matchhere.induct with
  | case1 text =>
    rw [matchhere, items]
    exact ⟨fun _ => ⟨[], text, rfl, .nil, fun h => (nomatch h)⟩, fun _ => rfl⟩
  | case2 c re text hstar ih =>
    rw [matchhere, if_pos hstar, items, if_pos hstar, begins_cons (by nofun), matchstar_iff]
    simp only [ih]
  | case3 c re text hstar heol =>
    rw [matchhere, if_neg hstar, if_pos heol, items, if_neg hstar, if_pos heol, begins_eol,
      decide_eq_true_iff]
  | case4 c re text hstar heol ih =>
    have hsingle : single c ≠ .eol := by
      unfold single
      split <;> nofun
    rw [matchhere, if_neg hstar, if_neg heol, items, if_neg hstar, if_neg heol,
      begins_cons hsingle, matchone_iff]
    simp only [ih]

/-- `match` finds a part of the text that the pattern stands for, and it begins where the
text does if the pattern begins with `^`. -/
theorem matchLine_iff (re text : List CChar) :
    matchLine re text = true ↔
      if deref re = chr '^' then Begins (items re.tail) text
      else ∃ s, s <:+ text ∧ Begins (items re) s := by
  rw [matchLine]
  split
  · exact matchhere_iff re.tail text
  · rw [any_eq_true]
    simp only [mem_tails, matchhere_iff]

/-! ## The loop -/

def nl : CChar := ⟨chr '\n', by decide⟩

/-- What is written for these lines. -/
def emit (pattern : List CChar) (ls : List (List CChar)) : List CChar :=
  ls.flatMap fun l => if matchLine pattern l then l ++ [nl] else []

/-- `grep`, with `buf` left from before.  There are 1024 bytes, and one of them is for the
NUL.  The reads are told by how many bytes the kernel has ready for each. -/
def grep (pattern : List CChar) (sizes : Nat → Nat) :
    Nat → List CChar → List CChar → Option (List CChar)
  | 0, _, _ => none
  | fuel + 1, buf, stream =>
    let (chunk, stream) := readSome (sizes fuel) (1024 - buf.length - 1) stream
    if chunk = [] then some []
    else
      let (ls, left) := takeLines (fun _ => false) nl [] (buf ++ chunk)
      (emit pattern ls ++ ·) <$> grep pattern sizes fuel left stream

theorem emit_append (pattern : List CChar) (ls ms : List (List CChar)) :
    emit pattern (ls ++ ms) = emit pattern ls ++ emit pattern ms := flatMap_append

theorem emit_eq_nil {pattern : List CChar} {ls : List (List CChar)} :
    emit pattern ls = [] ↔ ∀ l ∈ ls, matchLine pattern l = false := by
  rw [emit, flatMap_eq_nil_iff]
  refine forall₂_congr fun l _ => ?_
  cases matchLine pattern l <;> simp

/-- The buffer holds the beginning of the first line that is not written yet.  A line that
fills it ends the loop, and whatever comes after it is not looked at. -/
theorem grep_run (pattern : List CChar) (sizes : Nat → Nat) {fuel : Nat} {ls : List (List CChar)}
    {r buf stream : List CChar} (hdrained : Drained (fun _ => false) nl buf)
    (hroom : buf.length ≤ 1023)
    (hlines : takeLines (fun _ => false) nl [] (buf ++ stream) = (ls, r))
    (hfuel : stream.length < fuel) :
    grep pattern sizes fuel buf stream = some (emit pattern (ls.takeWhile (·.length < 1023))) := by
  induction fuel generalizing ls buf stream with
  | zero => omega
  | succ fuel ih =>
    obtain ⟨chunk, rest, hread, rfl, hlen, hnil⟩ :=
      readSome_spec (sizes fuel) (1024 - buf.length - 1) stream
    rw [grep, hread]
    dsimp only
    split
    · rename_i hchunk
      -- no room, or nothing left: no line that fits is left either
      suffices h : ls.takeWhile (·.length < 1023) = [] by rw [h]; rfl
      cases ls with
      | nil => rfl
      | cons l ls =>
        refine takeWhile_cons_of_neg fun hlt => ?_
        have hlt : l.length < 1023 := of_decide_eq_true hlt
        have := hdrained.length_le rfl hlines
        rcases hnil hchunk with h | h
        · omega
        · rw [h, append_nil, hdrained] at hlines
          cases hlines
    · rename_i hchunk
      have hpos := length_pos_iff.mpr hchunk
      rw [← append_assoc] at hlines
      obtain ⟨done, todo, left, htake, rfl, hgo, hleft, hbuf⟩ := takeLines_piece hlines
      have hbuflen := congrArg length hbuf
      rw [length_append] at hbuflen hfuel
      have hleftlen : left.length ≤ (text nl done left).length := by
        rw [length_text]
        omega
      have hshort : ∀ l ∈ done, decide (l.length < 1023) = true := fun l hl =>
        have : l.length < (text nl done left).length := length_lt_text hl
        decide_eq_true (by omega)
      rw [htake]
      dsimp only
      rw [ih hleft (by omega) hgo (by omega), takeWhile_append_of_pos hshort, emit_append]
      rfl

theorem grep_text (pattern : List CChar) (sizes : Nat → Nat) {fuel : Nat}
    {ls : List (List CChar)} {r : List CChar} (hls : ∀ l ∈ ls, nl ∉ l) (hr : nl ∉ r)
    (hfuel : (text nl ls r).length < fuel) :
    grep pattern sizes fuel [] (text nl ls r) =
      some (emit pattern (ls.takeWhile (·.length < 1023))) := by
  have hclean : ∀ {l : List CChar}, nl ∉ l → Clean (fun _ => false) nl l :=
    fun h _ hc => ⟨rfl, fun heq => h (heq ▸ hc)⟩
  exact grep_run pattern sizes rfl (by decide)
    (takeLines_text rfl (fun l hl => hclean (hls l hl)) (hclean hr)) hfuel

/-- On a stream of lines, `grep` writes those that match, however it is read, unless one of
them is, or comes after, a line that does not fit into the buffer. -/
theorem grep_lines (pattern : List CChar) {ls : List (List CChar)} {r : List CChar}
    (hls : ∀ l ∈ ls, nl ∉ l) (hr : nl ∉ r) :
    (∀ sizes fuel, (text nl ls r).length < fuel →
        grep pattern sizes fuel [] (text nl ls r) = some (emit pattern ls)) ↔
      ∀ l ∈ ls.dropWhile (·.length < 1023), matchLine pattern l = false := by
  have hsplit : emit pattern ls = emit pattern (ls.takeWhile (·.length < 1023)) ++
      emit pattern (ls.dropWhile (·.length < 1023)) := by
    rw [← emit_append, takeWhile_append_dropWhile]
  rw [← emit_eq_nil]
  constructor
  · intro h
    have hout := h (fun _ => 0) _ (Nat.lt_succ_self _)
    rw [grep_text pattern _ hls hr (Nat.lt_succ_self _), hsplit] at hout
    exact self_eq_append_right.mp (Option.some.inj hout)
  · intro h sizes fuel hfuel
    rw [grep_text pattern sizes hls hr hfuel, hsplit, h, append_nil]

def letterA : CChar := ⟨chr 'a', by decide⟩

def letterB : CChar := ⟨chr 'b', by decide⟩

/-- The lines `ab`, `a` and `b`, and a rest; each read returns two bytes. -/
theorem grep_lines_two :
    grep [letterB] (fun _ => 1) 9 []
      (text nl [[letterA, letterB], [letterA], [letterB]] [letterA]) =
      some [letterA, letterB, nl, letterB, nl] := by
  have hhere : matchhere [letterB] = matchone (fun _ => true) letterB := by
    have hnil : matchhere [] = fun _ => true := funext fun text => by rw [matchhere]
    funext text
    rw [matchhere, if_neg (by decide), if_neg (by decide), hnil]
  have hout : emit [letterB] [[letterA, letterB], [letterA], [letterB]] =
      [letterA, letterB, nl, letterB, nl] := by
    simp only [emit, matchLine, hhere]
    decide
  rw [← hout]
  exact (grep_lines [letterB] (by decide) (by decide)).mpr (by decide) (fun _ => 1) 9 (by decide)

def longLine : List CChar := .replicate 1023 letterA

/-- A line of 1023 bytes is not written, though the empty pattern matches it. -/
theorem grep_longLine :
    grep [] (fun _ => 0) 1025 [] (text nl [longLine] []) ≠ some (emit [] [longLine]) := by
  have hlen : longLine.length = 1023 := length_replicate
  have hls : ∀ l ∈ [longLine], nl ∉ l := by
    intro l hl hmem
    rw [mem_singleton.mp hl] at hmem
    exact absurd (eq_of_mem_replicate hmem) (by decide)
  have hfuel : (text nl [longLine] []).length < 1025 := by
    rw [text_cons, length_append, hlen]
    decide
  rw [grep_text [] _ hls not_mem_nil hfuel, takeWhile_cons_of_neg (by rw [hlen]; decide)]
  intro h
  have hmatch := emit_eq_nil.mp (Option.some.inj h).symm _ (mem_singleton_self _)
  have hwhole : matchhere [] longLine = true := by rw [matchhere]
  have : matchLine [] longLine = true := any_eq_true.mpr ⟨_, (mem_tails _ _).mpr suffix_rfl, hwhole⟩
  rw [this] at hmatch
  cases hmatch

end Xv6.Grep
