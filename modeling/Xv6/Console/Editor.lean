/-
  Console/Editor.lean --- what the console input buffer is for: a line editor.

  The editor has no ring and no indices: a line that is being typed and the bytes it
  has committed.  `Sync` relates the `cons` of the machine to it, and holds along every
  run.
-/
import Xv6.Console.Machine

set_option autoImplicit false

namespace Xv6.Console

open Function List Foundation

/-! ## The reference editor -/

structure Editor where
  /-- the bytes readers may have -/
  committed : List UInt8
  /-- the line being typed -/
  line : List UInt8
  /-- how many of the committed bytes readers have taken -/
  taken : Nat
  deriving DecidableEq

namespace Editor

/-- The bytes that wait to be read. -/
def pending (ed : Editor) : Nat := ed.committed.length + ed.line.length - ed.taken

/-- An ordinary character, which ends the line or not. -/
def insert (ed : Editor) (c : UInt8) : Editor :=
  if c = NL ∨ c = EOF ∨ ed.pending + 1 = INPUT_BUF then
    { ed with committed := ed.committed ++ (ed.line ++ [c]), line := [] }
  else { ed with line := ed.line ++ [c] }

/-- A character is typed, other than ^P. -/
def type (ed : Editor) (c : UInt8) : Editor :=
  if c = ctrl 'U' then { ed with line := [] }
  else if c = ctrl 'H' ∨ c = DEL then { ed with line := ed.line.dropLast }
  else if c = 0 ∨ ed.pending = INPUT_BUF then ed
  else ed.insert (if c = CR then NL else c)

/-- A character comes in: ^P prints the process list and is no input. -/
def input (ed : Editor) (c : UInt8) : Editor := if c = ctrl 'P' then ed else ed.type c

def apply (ed : Editor) : Event → Editor
  | .input c => ed.input c
  | .take => { ed with taken := ed.taken + 1 }

end Editor

/-- The editor after all this. -/
def edit (events : List Event) : Editor := events.foldl Editor.apply ⟨[], [], 0⟩

theorem edit_snoc (events : List Event) (event : Event) :
    edit (events ++ [event]) = (edit events).apply event := by
  rw [edit, foldl_append]
  rfl

/-! ## Wrapping indices -/

theorem ofNat_eq_iff {a b : Nat} (hab : a ≤ b) (hlt : b < a + 2 ^ 32) :
    UInt32.ofNat b = UInt32.ofNat a ↔ b = a := by
  constructor
  · intro h
    have hmod : a % 2 ^ 32 = b % 2 ^ 32 := by
      simpa only [UInt32.toNat_ofNat'] using (congrArg UInt32.toNat h).symm
    exact (Ring.eq_of_mod_eq hab hlt hmod).symm
  · intro h
    rw [h]

theorem toNat_ofNat_sub {a b : Nat} (hab : a ≤ b) (hlt : b < a + 2 ^ 32) :
    (UInt32.ofNat b - UInt32.ofNat a).toNat = b - a := by
  rw [← UInt32.ofNat_sub hab, UInt32.toNat_ofNat']
  exact Nat.mod_eq_of_lt (by omega)

theorem cell_ofNat (i : Nat) : cell (UInt32.ofNat i) = Fin.ofNat INPUT_BUF i := by
  rw [cell, UInt32.toNat_ofNat']
  exact Ring.ofNat_mod (by decide) i

theorem Cons.bytes_window {k : Cons} {i : Nat} {q : List UInt8}
    (h : Ring.Window k.buf i q) : k.bytes (UInt32.ofNat i) q.length = q := by
  apply ext_getElem
  · rw [Cons.bytes, length_map, length_range]
  · intro j h₁ h₂
    simp only [Cons.bytes]
    rw [getElem_map, getElem_range, ← UInt32.ofNat_add, cell_ofNat]
    exact h j h₂

/-! ## The buffer is the editor's -/

/-- The indices and cells of `k` when `taken` of the bytes `committed` were taken and
`line` is being typed. -/
structure Cons.Shows (k : Cons) (committed : List UInt8) (taken : Nat) (line : List UInt8) :
    Prop where
  r : k.r = UInt32.ofNat taken
  w : k.w = UInt32.ofNat committed.length
  e : k.e = UInt32.ofNat (committed.length + line.length)
  within : taken ≤ committed.length
  room : committed.length + line.length ≤ taken + INPUT_BUF
  cells : Ring.Window k.buf taken (committed.drop taken ++ line)
  unfinished : NL ∉ line

/-- `k` has become `k'` as the editor `ed` became `ed'`, with what `w` has passed. -/
structure Cons.Became (k k' : Cons) (ed ed' : Editor) : Prop where
  shows : k'.Shows ed'.committed ed'.taken ed'.line
  passed : ed.committed ++ k'.bytes k.w (k'.w - k.w).toNat = ed'.committed

namespace Cons.Shows

variable {k : Cons} {committed : List UInt8} {taken : Nat} {line : List UInt8}

section

variable (h : k.Shows committed taken line)

include h

theorem length_cells :
    taken + (committed.drop taken ++ line).length = committed.length + line.length := by
  have := h.within
  rw [length_append, length_drop]
  omega

theorem e_eq_w : k.e = k.w ↔ line = [] := by
  have hroom := h.room
  have hsome := h.within
  rw [h.e, h.w, ofNat_eq_iff (by omega) (by simp only [INPUT_BUF] at hroom; omega),
    ← length_eq_zero_iff]
  omega

theorem w_eq_r : k.r = k.w ↔ taken = committed.length := by
  have hroom := h.room
  have hsome := h.within
  rw [h.r, h.w, eq_comm, ofNat_eq_iff hsome (by simp only [INPUT_BUF] at hroom; omega)]
  exact eq_comm

theorem e_sub_r :
    (k.e - k.r).toNat = committed.length + line.length - taken := by
  have hroom := h.room
  have hsome := h.within
  rw [h.e, h.r, toNat_ofNat_sub (by omega) (by simp only [INPUT_BUF] at hroom; omega)]

theorem w_sub_r :
    (k.w - k.r).toNat = committed.length - taken := by
  have hroom := h.room
  rw [h.w, h.r, toNat_ofNat_sub h.within (by simp only [INPUT_BUF] at hroom; omega)]

theorem e_sub_w : (k.e - k.w).toNat = line.length := by
  have hroom := h.room
  have hsome := h.within
  rw [h.e, h.w, toNat_ofNat_sub (by omega) (by simp only [INPUT_BUF] at hroom; omega)]
  omega

end

/-- The cell before `e` has the last byte of the line. -/
theorem last_cell {last : UInt8} (h : k.Shows committed taken (line ++ [last])) :
    k.buf (cell (k.e - 1)) = last := by
  have he : k.e - 1 = UInt32.ofNat (committed.length + line.length) := by
    rw [h.e, length_append, length_singleton, ← Nat.add_assoc, UInt32.ofNat_add]
    exact UInt32.add_sub_cancel _ _
  have hplace : committed.length + line.length =
      taken + (committed.drop taken ++ line).length := by
    have := h.within
    rw [length_append, length_drop]
    omega
  have hcells := h.cells
  rw [← append_assoc] at hcells
  rw [he, cell_ofNat, hplace]
  exact hcells.right.head

/-- `cons.e--` erases the last byte of the line. -/
theorem erase {last : UInt8} (h : k.Shows committed taken (line ++ [last])) :
    Cons.Shows { k with e := k.e - 1 } committed taken line := by
  refine ⟨h.r, h.w, ?_, h.within, ?_, ?_, ?_⟩
  · change k.e - 1 = _
    rw [h.e, length_append, length_singleton, ← Nat.add_assoc, UInt32.ofNat_add]
    exact UInt32.add_sub_cancel _ _
  · have := h.room
    rw [length_append, length_singleton] at this
    omega
  · have hcells := h.cells
    rw [← append_assoc] at hcells
    exact hcells.left
  · exact fun hmem => h.unfinished (mem_append_left _ hmem)

/-- ^U erases the line. -/
theorem killLine (h : k.Shows committed taken line) :
    (k.killLine line.length).Shows committed taken [] := by
  induction line using List.reverseRecOn generalizing k with
  | nil => exact h
  | append_singleton line last ih =>
    have hne : k.e ≠ k.w := mt h.e_eq_w.mp (by simp)
    have hlast : k.buf (cell (k.e - 1)) ≠ NL := by
      rw [h.last_cell]
      intro heq
      exact h.unfinished (by simp [heq])
    rw [length_append, length_singleton, Cons.killLine, if_pos ⟨hne, hlast⟩]
    exact ih h.erase

/-- A byte is stored behind the line. -/
theorem store (h : k.Shows committed taken line)
    (hroom : committed.length + line.length < taken + INPUT_BUF) (c : UInt8) :
    (k.store c).r = k.r ∧ (k.store c).w = k.w ∧
      (k.store c).e = UInt32.ofNat (committed.length + line.length + 1) ∧
      Ring.Window (k.store c).buf taken (committed.drop taken ++ (line ++ [c])) := by
  have hlen := h.length_cells
  refine ⟨rfl, rfl, ?_, ?_⟩
  · change k.e + 1 = _
    rw [h.e, UInt32.ofNat_add _ 1]
    rfl
  · have hcell : cell k.e = Fin.ofNat INPUT_BUF
        (taken + (committed.drop taken ++ line).length) := by
      rw [h.e, cell_ofNat, hlen]
    rw [← append_assoc]
    apply Ring.Window.snoc
    · change Ring.Window (update k.buf (cell k.e) c) _ _
      rw [hcell]
      exact h.cells.update_end (by omega)
    · change update k.buf (cell k.e) c _ = c
      rw [hcell, update_self]

/-- The line with what was stored last is committed: `cons.w = cons.e`. -/
theorem commit {k' : Cons} {c : UInt8} (h : k.Shows committed taken line) (hr : k'.r = k.r)
    (hw : k'.w = UInt32.ofNat (committed.length + line.length + 1)) (he : k'.e = k'.w)
    (hroom : committed.length + line.length < taken + INPUT_BUF)
    (hcells : Ring.Window k'.buf taken (committed.drop taken ++ (line ++ [c]))) :
    k'.Shows (committed ++ (line ++ [c])) taken [] ∧
      k'.bytes k.w (k'.w - k.w).toNat = line ++ [c] := by
  have hsome := h.within
  have hlen : (committed ++ (line ++ [c])).length = committed.length + line.length + 1 := by
    simp only [length_append, length_singleton]
    omega
  refine ⟨⟨hr.trans h.r, ?_, ?_, ?_, ?_, ?_, not_mem_nil⟩, ?_⟩
  · rw [hw, hlen]
  · rw [he, hw, hlen, length_nil, Nat.add_zero]
  · rw [hlen]
    omega
  · rw [hlen, length_nil]
    omega
  · rw [drop_append_of_le_length hsome, append_nil]
    exact hcells
  · have hcount : (k'.w - k.w).toNat = (line ++ [c]).length := by
      rw [hw, h.w, toNat_ofNat_sub (by omega) (by simp only [INPUT_BUF] at hroom; omega),
        length_append, length_singleton]
      omega
    have hline := hcells.right
    rw [length_drop, Nat.add_sub_cancel' hsome] at hline
    rw [hcount, h.w]
    exact Cons.bytes_window hline

/-- Where only the line changes, nothing is committed. -/
theorem uncommitted {k' : Cons} {line' : List UInt8} (h' : k'.Shows committed taken line')
    (h : k.Shows committed taken line) :
    k.Became k' ⟨committed, line, taken⟩ ⟨committed, line', taken⟩ := by
  refine ⟨h', ?_⟩
  rw [h'.w, h.w, UInt32.sub_self]
  exact append_nil _

section

variable (h : k.Shows committed taken line)

include h

/-- What is pending, for the editor. -/
theorem pending :
    (⟨committed, line, taken⟩ : Editor).pending = (k.e - k.r).toNat := h.e_sub_r.symm

/-- An ordinary character. -/
theorem insert {c : UInt8}
    (hroom : (k.e - k.r).toNat < INPUT_BUF) :
    let k' := if c = NL ∨ c = EOF ∨ (k.store c).e = (k.store c).r + UInt32.ofNat INPUT_BUF then
      { k.store c with w := (k.store c).e } else k.store c
    k.Became k' ⟨committed, line, taken⟩ (Editor.insert ⟨committed, line, taken⟩ c) := by
  have hsome := h.within
  have hpending := h.pending
  rw [h.e_sub_r] at hroom hpending
  obtain ⟨hr, hw, he, hcells⟩ := h.store (by omega) c
  -- the test for a full buffer is the editor's
  have hfull : (k.store c).e = (k.store c).r + UInt32.ofNat INPUT_BUF ↔
      (⟨committed, line, taken⟩ : Editor).pending + 1 = INPUT_BUF := by
    rw [he, hr, h.r, ← UInt32.ofNat_add, hpending, eq_comm,
      ofNat_eq_iff (by omega) (by simp only [INPUT_BUF] at hroom ⊢; omega)]
    omega
  simp only [Editor.insert, ← hfull]
  by_cases hend : c = NL ∨ c = EOF ∨ (k.store c).e = (k.store c).r + UInt32.ofNat INPUT_BUF
  · simp only [if_pos hend]
    obtain ⟨hshows, hbytes⟩ :
        Cons.Shows { k.store c with w := (k.store c).e } (committed ++ (line ++ [c])) taken []
          ∧ _ :=
      h.commit hr he rfl (by omega) hcells
    exact ⟨hshows, congrArg (committed ++ ·) hbytes⟩
  · simp only [if_neg hend]
    have hshows : (k.store c).Shows committed taken (line ++ [c]) := by
      refine ⟨hr.trans h.r, hw.trans h.w, ?_, hsome, ?_, hcells, ?_⟩
      · rw [he, length_append, length_singleton, Nat.add_assoc]
      · rw [length_append, length_singleton]
        omega
      · intro hmem
        rcases mem_append.mp hmem with hmem | hmem
        · exact h.unfinished hmem
        · exact hend (.inl (mem_singleton.mp hmem).symm)
    exact hshows.uncommitted h

/-- `consoleintr` does what the editor does. -/
theorem consoleintr (c : UInt8) :
    k.Became (k.consoleintr c) ⟨committed, line, taken⟩
      (Editor.input ⟨committed, line, taken⟩ c) := by
  simp only [Cons.consoleintr, Editor.input, Editor.type]
  by_cases hP : c = ctrl 'P'
  · simp only [if_pos hP]
    exact h.uncommitted h
  by_cases hU : c = ctrl 'U'
  · simp only [if_neg hP, if_pos hU, h.e_sub_w]
    exact h.killLine.uncommitted h
  by_cases hH : c = ctrl 'H' ∨ c = DEL
  · simp only [if_neg hP, if_neg hU, if_pos hH]
    -- there may be nothing to erase
    rcases eq_nil_or_concat line with hnil | ⟨line', last, hline⟩
    · rw [if_neg (not_not.mpr (h.e_eq_w.mpr hnil))]
      subst hnil
      exact h.uncommitted h
    · rw [if_pos (mt h.e_eq_w.mp (by simp [hline]))]
      rw [concat_eq_append] at hline
      subst hline
      rw [dropLast_concat]
      exact h.erase.uncommitted h
  by_cases hroom : c ≠ 0 ∧ k.e - k.r < UInt32.ofNat INPUT_BUF
  · have hlt : (k.e - k.r).toNat < INPUT_BUF := UInt32.lt_iff_toNat_lt.mp hroom.2
    have hed : ¬ (c = 0 ∨ (⟨committed, line, taken⟩ : Editor).pending = INPUT_BUF) := by
      rw [h.pending]
      rintro (h0 | hfull)
      · exact hroom.1 h0
      · omega
    simp only [if_neg hP, if_neg hU, if_neg hH, if_pos hroom, if_neg hed]
    exact h.insert hlt
  · have hed : c = 0 ∨ (⟨committed, line, taken⟩ : Editor).pending = INPUT_BUF := by
      by_cases h0 : c = 0
      · exact .inl h0
      · have hge : INPUT_BUF ≤ (k.e - k.r).toNat := by
          by_contra hlt
          exact hroom ⟨h0, UInt32.lt_iff_toNat_lt.mpr (not_le.mp hlt)⟩
        have hle := h.room
        have hsome := h.within
        right
        rw [h.pending]
        rw [h.e_sub_r] at hge ⊢
        omega
    simp only [if_neg hP, if_neg hU, if_neg hH, if_neg hroom, if_pos hed]
    exact h.uncommitted h

/-- A byte is taken: `cons.r++`. -/
theorem take (hmore : taken < committed.length) :
    Cons.Shows { k with r := k.r + 1 } committed (taken + 1) line := by
  have hroom := h.room
  refine ⟨?_, h.w, h.e, hmore, by omega, ?_, h.unfinished⟩
  · change k.r + 1 = _
    rw [h.r, UInt32.ofNat_add]
    rfl
  · have hcells := h.cells
    rw [drop_eq_getElem_cons hmore] at hcells
    exact hcells.tail

/-- The byte `r` is at. -/
theorem front (hmore : taken < committed.length) :
    k.buf (cell k.r) = committed[taken] := by
  have hcells := h.cells
  rw [drop_eq_getElem_cons hmore] at hcells
  rw [h.r, cell_ofNat]
  exact hcells.head

/-- The bytes from `r` to `w`, in their cells. -/
theorem unread {i : Nat} (hi : i < (k.w - k.r).toNat) :
    committed[taken + i]? = Option.some (k.buf (cell (k.r + UInt32.ofNat i))) := by
  rw [h.w_sub_r] at hi
  have hcell := h.cells.left i (by rw [length_drop]; exact hi)
  rw [h.r, ← UInt32.ofNat_add, cell_ofNat, hcell, getElem_drop, List.getElem?_eq_getElem]

end

end Cons.Shows

theorem Editor.taken_input (ed : Editor) (c : UInt8) : (ed.input c).taken = ed.taken := by
  simp only [Editor.input, Editor.type, Editor.insert]
  repeat' split
  all_goals rfl

/-! ## The machine keeps to the editor -/

/-- The machine and the editor have seen the same events and agree. -/
structure Sync (s : State) (line : List UInt8) : Prop where
  editor : edit s.events = ⟨s.committed, line, s.taken.length⟩
  shows : s.cons.Shows s.committed s.taken.length line
  order : s.taken.map Taken.byte <+: s.committed

theorem sync_boot : Sync State.boot [] where
  editor := rfl
  shows :=
    { r := rfl, w := rfl, e := rfl, within := le_rfl, room := Nat.zero_le _,
      cells := Ring.window_nil _ _, unfinished := not_mem_nil }
  order := prefix_rfl

namespace Sync

variable {s : State} {line : List UInt8}

theorem intr (h : Sync s line) (c : UInt8) :
    ∃ line', Sync (s.intr c) line' ∧ s.committed <+: (s.intr c).committed := by
  obtain ⟨hshows, hpassed⟩ := h.shows.consoleintr c
  have htaken := Editor.taken_input ⟨s.committed, line, s.taken.length⟩ c
  have hcommitted : (s.intr c).committed =
      (Editor.input ⟨s.committed, line, s.taken.length⟩ c).committed := hpassed
  refine ⟨(Editor.input ⟨s.committed, line, s.taken.length⟩ c).line, ⟨?_, ?_, ?_⟩,
    prefix_append _ _⟩
  · change edit (s.events ++ [.input c]) = ⟨(s.intr c).committed, _, s.taken.length⟩
    rw [edit_snoc, h.editor, hcommitted]
    exact congrArg (Editor.mk _ _) htaken
  · rw [hcommitted]
    rw [htaken] at hshows
    exact hshows
  · exact h.order.trans (prefix_append _ _)

/-- The front byte is the next of the stream. -/
theorem front (h : Sync s line) (hmore : s.cons.r ≠ s.cons.w) :
    s.committed[s.taken.length]? = some s.front := by
  have hlt : s.taken.length < s.committed.length :=
    lt_of_le_of_ne h.shows.within (mt h.shows.w_eq_r.mpr hmore)
  rw [List.getElem?_eq_getElem hlt]
  exact congrArg some (h.shows.front hlt).symm

theorem take (h : Sync s line) (hmore : s.cons.r ≠ s.cons.w) (id : Nat) (copied : Bool) :
    Sync (s.take id copied) line := by
  have hlt : s.taken.length < s.committed.length :=
    lt_of_le_of_ne h.shows.within (mt h.shows.w_eq_r.mpr hmore)
  have hlen : (s.take id copied).taken.length = s.taken.length + 1 := length_append
  refine ⟨?_, ?_, ?_⟩
  · change edit (s.events ++ [.take]) = ⟨s.committed, line, _⟩
    rw [edit_snoc, h.editor, hlen]
    rfl
  · rw [hlen]
    exact h.shows.take hlt
  · change (s.taken ++ [_]).map Taken.byte <+: s.committed
    obtain ⟨rest, hrest⟩ := h.order
    have hfront := h.front hmore
    rw [← hrest, List.getElem?_append_right (by rw [length_map]), length_map,
      Nat.sub_self] at hfront
    cases rest with
    | nil => cases hfront
    | cons y rest =>
      refine ⟨rest, ?_⟩
      have hy : y = s.front := Option.some.inj hfront
      rw [map_append, append_assoc, ← hrest, hy]
      rfl

end Sync

end Xv6.Console
