/-
  Console/Lines.lean --- what readers of the console get.

  The bytes that leave the buffer are the editor's, in order, and each call of
  `consoleread` gets a stretch of one line of them.  A call stops in front of a ^D if it
  has got something, and takes it if it has not.
-/
import Xv6.Console.Editor

set_option autoImplicit false

namespace Xv6.Console

open List Foundation

/-! ## One call -/

/-- What call `id` has put into the buffer of its caller. -/
def delivered (id : Nat) (taken : List Taken) : List UInt8 :=
  (taken.filter fun x => decide (x.id = id) && x.copied).map Taken.byte

theorem delivered_append (id : Nat) (taken more : List Taken) :
    delivered id (taken ++ more) = delivered id taken ++ delivered id more := by
  rw [delivered, filter_append, map_append]
  rfl

theorem delivered_nil {id : Nat} {taken : List Taken} (h : ∀ x ∈ taken, x.id ≠ id) :
    delivered id taken = [] := by
  rw [delivered, filter_eq_nil_iff.mpr ?_, map_nil]
  intro x hx
  simp [h x hx]

theorem delivered_true (id : Nat) (c : UInt8) : delivered id [⟨id, c, true⟩] = [c] := by
  simp [delivered]

theorem delivered_false (id : Nat) (c : UInt8) : delivered id [⟨id, c, false⟩] = [] := by
  simp [delivered]

/-- A call for `target` bytes that has `left` bytes to go. -/
structure Reading (taken : List Taken) (id target left : Nat) : Prop where
  count : (delivered id taken).length + left = target
  noLine : NL ∉ delivered id taken
  noEof : EOF ∉ delivered id taken
  allCopied : ∀ x ∈ taken, x.id = id → x.copied = true

/-- Why a call that was not killed returned: it got all it asked for, or a whole line,
or it had got something and a ^D was next, or it had got nothing and took a ^D. -/
def Complete (committed : List UInt8) (taken : List Taken) (id target stop : Nat) : Prop :=
  (delivered id taken).length = target ∨
  (delivered id taken).getLast? = some NL ∨
  (delivered id taken ≠ [] ∧ committed[stop]? = some EOF) ∨
  (delivered id taken = [] ∧ ⟨id, EOF, false⟩ ∈ taken)

/-- A call for `target` bytes that has returned `res`, when `stop` bytes had been taken and
`seen` bytes committed. -/
structure Ended (committed : List UInt8) (taken : List Taken) (id target stop seen : Nat)
    (killed : Bool) (res : Int) : Prop where
  most : (delivered id taken).length ≤ target
  oneLine : NL ∉ (delivered id taken).dropLast
  noEof : EOF ∉ delivered id taken
  /-- what it took without copying it was a ^D, and it returned 0 -/
  atEof : ∀ x ∈ taken, x.id = id → x.copied = false →
    x.byte = EOF ∧ delivered id taken = [] ∧ res = 0
  /-- -1 is for a process that was killed and found nothing to take -/
  result : (res = -1 ∧ killed = true ∧ stop = seen) ∨
    (res = (delivered id taken).length ∧ Complete committed taken id target stop)

/-- What holds of a call, before and after it returns.  One that has not returned sleeps: its
process was not killed, and there was nothing to take. -/
def Call.Good (committed : List UInt8) (taken : List Taken) (id : Nat) (call : Call) : Prop :=
  match call.result with
  | none => Reading taken id call.n.toNat call.left ∧ call.killed = false ∧ call.stop = call.seen
  | some res => Ended committed taken id call.n.toNat call.stop call.seen call.killed res

namespace Reading

variable {committed : List UInt8} {taken : List Taken} {id target left stop seen : Nat}
  {killed : Bool}

theorem start (h : ∀ x ∈ taken, x.id ≠ id) (target : Nat) : Reading taken id target target where
  count := by rw [delivered_nil h, length_nil, Nat.zero_add]
  noLine := by rw [delivered_nil h]; exact not_mem_nil
  noEof := by rw [delivered_nil h]; exact not_mem_nil
  allCopied x hx hid := absurd hid (h x hx)

/-- A call that returns and takes nothing more. -/
theorem ended (h : Reading taken id target left) {res : Int}
    (hres : (res = -1 ∧ killed = true ∧ stop = seen) ∨
      (res = (delivered id taken).length ∧ Complete committed taken id target stop)) :
    Ended committed taken id target stop seen killed res where
  most := by have := h.count; omega
  oneLine hmem := h.noLine (mem_of_mem_dropLast hmem)
  noEof := h.noEof
  atEof x hx hid hcopied := by rw [h.allCopied x hx hid] at hcopied; cases hcopied
  result := hres

/-- A byte within a line is copied. -/
theorem next (h : Reading taken id target (left + 1)) {c : UInt8} (hnl : c ≠ NL) (heof : c ≠ EOF) :
    Reading (taken ++ [⟨id, c, true⟩]) id target left := by
  have hd : delivered id (taken ++ [⟨id, c, true⟩]) = delivered id taken ++ [c] := by
    rw [delivered_append, delivered_true]
  have hcount := h.count
  refine ⟨?_, ?_, ?_, ?_⟩
  · rw [hd, length_append, length_singleton]
    omega
  · rw [hd]
    simpa using ⟨h.noLine, hnl.symm⟩
  · rw [hd]
    simpa using ⟨h.noEof, heof.symm⟩
  · intro x hx hid
    rcases mem_append.mp hx with hx | hx
    · exact h.allCopied x hx hid
    · rw [mem_singleton.mp hx]

/-- The newline is copied, and the call returns. -/
theorem line (h : Reading taken id target (left + 1)) :
    Ended committed (taken ++ [⟨id, NL, true⟩]) id target stop seen killed
      ((target - (left + 1) : Nat) + 1) := by
  have hd : delivered id (taken ++ [⟨id, NL, true⟩]) = delivered id taken ++ [NL] := by
    rw [delivered_append, delivered_true]
  have hcount := h.count
  refine ⟨?_, ?_, ?_, ?_, .inr ⟨?_, .inr (.inl ?_)⟩⟩
  · rw [hd, length_append, length_singleton]
    omega
  · rw [hd, dropLast_concat]
    exact h.noLine
  · rw [hd]
    simpa using ⟨h.noEof, by decide⟩
  · intro x hx hid hcopied
    rcases mem_append.mp hx with hx | hx
    · rw [h.allCopied x hx hid] at hcopied
      cases hcopied
    · rw [mem_singleton.mp hx] at hcopied
      cases hcopied
  · rw [hd, length_append, length_singleton]
    omega
  · rw [hd, getLast?_concat]

/-- The ^D is taken by a call that has got nothing. -/
theorem eof (h : Reading taken id target target) :
    Ended committed (taken ++ [⟨id, EOF, false⟩]) id target stop seen killed 0 := by
  have hnone : delivered id taken = [] := by
    have := h.count
    exact length_eq_zero_iff.mp (by omega)
  have hd : delivered id (taken ++ [⟨id, EOF, false⟩]) = [] := by
    rw [delivered_append, delivered_false, hnone]
    rfl
  refine ⟨by rw [hd]; exact Nat.zero_le _, by rw [hd]; exact not_mem_nil,
    by rw [hd]; exact not_mem_nil, ?_, .inr ⟨by rw [hd]; rfl, .inr (.inr (.inr ⟨hd, ?_⟩))⟩⟩
  · intro x hx hid hcopied
    rcases mem_append.mp hx with hx | hx
    · rw [h.allCopied x hx hid] at hcopied
      cases hcopied
    · rw [mem_singleton.mp hx]
      exact ⟨rfl, hd, rfl⟩
  · exact mem_append_right _ (mem_singleton_self _)

end Reading

/-- A call does not notice what others take, nor what is committed. -/
theorem Call.Good.frame {committed committed' : List UInt8} {taken more : List Taken} {id : Nat}
    {call : Call} (h : call.Good committed taken id) (hcom : committed <+: committed')
    (hmore : ∀ x ∈ more, x.id ≠ id) : call.Good committed' (taken ++ more) id := by
  have hd : delivered id (taken ++ more) = delivered id taken := by
    rw [delivered_append, delivered_nil hmore, append_nil]
  have hold : ∀ x ∈ taken ++ more, x.id = id → x ∈ taken := by
    intro x hx hid
    rcases mem_append.mp hx with hx | hx
    · exact hx
    · exact absurd hid (hmore x hx)
  unfold Call.Good at h ⊢
  cases hres : call.result with
  | none =>
    simp only [hres] at h ⊢
    obtain ⟨h, hasleep⟩ := h
    refine ⟨⟨by rw [hd]; exact h.count, by rw [hd]; exact h.noLine, by rw [hd]; exact h.noEof, ?_⟩,
      hasleep⟩
    exact fun x hx hid => h.allCopied x (hold x hx hid) hid
  | some res =>
    simp only [hres] at h ⊢
    refine ⟨by rw [hd]; exact h.most, by rw [hd]; exact h.oneLine, by rw [hd]; exact h.noEof,
      ?_, ?_⟩
    · intro x hx hid hcopied
      rw [hd]
      exact h.atEof x (hold x hx hid) hid hcopied
    · rcases h.result with hkilled | ⟨hres, hwhy⟩
      · exact .inl hkilled
      · refine .inr ⟨by rw [hd]; exact hres, ?_⟩
        unfold Complete at hwhy ⊢
        rw [hd]
        rcases hwhy with hall | hline | ⟨hsome, hnext⟩ | ⟨hnone, hmem⟩
        · exact .inl hall
        · exact .inr (.inl hline)
        · obtain ⟨rest, rfl⟩ := hcom
          refine .inr (.inr (.inl ⟨hsome, ?_⟩))
          rw [List.getElem?_append_left (List.getElem?_eq_some_iff.mp hnext).1]
          exact hnext
        · exact .inr (.inr (.inr ⟨hnone, mem_append_left _ hmem⟩))

/-! ## One stretch -/

/-- The character that came in, if it was one. -/
def Event.char : Event → Option UInt8
  | .input c => some c
  | .take => none

/-- A stretch of call `id` from `s` to `s'`: it takes bytes and changes nothing else. -/
structure Took (s s' : State) (id : Nat) (line : List UInt8) : Prop where
  sync : Sync s' line
  committed : s'.committed = s.committed
  calls : s'.calls = s.calls
  chars : s'.events.filterMap Event.char = s.events.filterMap Event.char
  taken : ∃ more, s'.taken = s.taken ++ more ∧ ∀ x ∈ more, x.id = id

namespace Took

variable {s s' s'' : State} {id : Nat} {line : List UInt8}

theorem rfl' (h : Sync s line) : Took s s id line :=
  ⟨h, rfl, rfl, rfl, [], (append_nil _).symm, fun _ hx => absurd hx not_mem_nil⟩

theorem trans (h : Took s s' id line) (h' : Took s' s'' id line) : Took s s'' id line := by
  obtain ⟨more, hmore, hid⟩ := h.taken
  obtain ⟨more', hmore', hid'⟩ := h'.taken
  refine ⟨h'.sync, h'.committed.trans h.committed, h'.calls.trans h.calls,
    h'.chars.trans h.chars, more ++ more', ?_, ?_⟩
  · rw [hmore', hmore, append_assoc]
  · intro x hx
    rcases mem_append.mp hx with hx | hx
    · exact hid x hx
    · exact hid' x hx

theorem take (h : Sync s line) (hmore : s.cons.r ≠ s.cons.w) (id : Nat) (copied : Bool) :
    Took s (s.take id copied) id line := by
  refine ⟨h.take hmore id copied, rfl, rfl, ?_, [⟨id, s.front, copied⟩], rfl, ?_⟩
  · change (s.events ++ [Event.take]).filterMap Event.char = _
    rw [filterMap_append]
    exact append_nil _
  · intro x hx
    rw [mem_singleton.mp hx]

end Took

/-- What a call has when a stretch of it is over. -/
def Stop.Good (stop : Stop) (s : State) (id target : Nat) (killed : Bool) : Prop :=
  match stop with
  | .ret res => Ended s.committed s.taken id target s.taken.length s.committed.length killed res
  | .sleep left => Reading s.taken id target left ∧ killed = false ∧
      s.taken.length = s.committed.length

/-- One stretch of a call whose copies succeed. -/
theorem readLoop_good {id target : Nat} {copies : Nat → Bool} (hcopies : ∀ i, copies i = true)
    (killed : Bool) {line : List UInt8} {left : Nat} {s : State} (hsync : Sync s line)
    (h : Reading s.taken id target left) :
    let (s', stop) := readLoop id copies killed target left s
    Took s s' id line ∧ stop.Good s' id target killed := by
  induction left generalizing s with
  | zero =>
    refine ⟨.rfl' hsync, h.ended (.inr ⟨?_, .inl h.count⟩)⟩
    have := h.count
    omega
  | succ left ih =>
    have hcount := h.count
    rw [readLoop]
    by_cases hempty : s.cons.r = s.cons.w
    · simp only [if_pos hempty]
      have hall := hsync.shows.w_eq_r.mp hempty
      cases killed with
      | true => exact ⟨.rfl' hsync, h.ended (.inl ⟨rfl, rfl, hall⟩)⟩
      | false => exact ⟨.rfl' hsync, h, rfl, hall⟩
    simp only [if_neg hempty, hcopies, if_true]
    by_cases heof : s.front = EOF
    · simp only [if_pos heof]
      by_cases hsaved : left + 1 < target
      · rw [if_pos hsaved]
        have hnext : s.committed[s.taken.length]? = some EOF := by
          rw [hsync.front hempty, heof]
        have hsome : delivered id s.taken ≠ [] := by
          intro hnil
          rw [hnil, length_nil] at hcount
          omega
        refine ⟨.rfl' hsync, h.ended (.inr ⟨?_, .inr (.inr (.inl ⟨hsome, hnext⟩))⟩)⟩
        omega
      · rw [if_neg hsaved]
        refine ⟨.take hsync hempty id false, ?_⟩
        have hall : left + 1 = target := by omega
        rw [hall] at h ⊢
        have hend : Ended s.committed (s.taken ++ [⟨id, EOF, false⟩]) id target
            (s.take id false).taken.length s.committed.length killed 0 := h.eof
        rw [← heof] at hend
        rw [Nat.sub_self]
        exact hend
    · simp only [if_neg heof]
      by_cases hnl : s.front = NL
      · rw [if_pos hnl]
        refine ⟨.take hsync hempty id true, ?_⟩
        have hend : Ended s.committed (s.taken ++ [⟨id, NL, true⟩]) id target
            (s.take id true).taken.length s.committed.length killed _ := h.line
        rw [← hnl] at hend
        exact hend
      · rw [if_neg hnl]
        have htook := Took.take hsync hempty id true
        obtain ⟨hrest, hgood⟩ := ih htook.sync (h.next hnl heof)
        exact ⟨htook.trans hrest, hgood⟩

/-! ## Runs -/

/-- What holds of every state. -/
structure Orderly (s : State) : Prop where
  sync : ∃ line, Sync s line
  calls : ∀ (id : Nat) (call : Call), s.calls[id]? = some call → call.Good s.committed s.taken id
  copies : ∀ call ∈ s.calls, ∀ i, call.copies i = true
  owner : ∀ x ∈ s.taken, x.id < s.calls.length

theorem orderly_boot : Orderly State.boot where
  sync := ⟨[], sync_boot⟩
  calls _ _ h := by cases h
  copies _ h := absurd h not_mem_nil
  owner _ h := absurd h not_mem_nil

namespace Orderly

variable {s : State}

theorem intr (h : Orderly s) (c : UInt8) : Orderly (s.intr c) := by
  obtain ⟨line, hsync⟩ := h.sync
  obtain ⟨line', hsync', hcom⟩ := hsync.intr c
  refine ⟨⟨line', hsync'⟩, ?_, h.copies, h.owner⟩
  intro id call hcall
  have hgood : call.Good (s.intr c).committed (s.taken ++ []) id :=
    (h.calls id call hcall).frame hcom (fun _ hx => absurd hx not_mem_nil)
  rw [append_nil] at hgood
  exact hgood

/-- A call that starts. -/
theorem call (h : Orderly s) (n : Int) {copies : Nat → Bool} (hcopies : ∀ i, copies i = true) :
    Orderly { s with calls := s.calls ++ [⟨n, copies, n.toNat, none, 0, 0, false⟩] } := by
  obtain ⟨line, hsync⟩ := h.sync
  refine ⟨⟨line, hsync.editor, hsync.shows, hsync.order⟩, ?_, ?_, ?_⟩
  · intro id call hcall
    rcases Nat.lt_trichotomy id s.calls.length with hlt | heq | hgt
    · rw [getElem?_append_left hlt] at hcall
      exact h.calls id call hcall
    · subst heq
      rw [getElem?_concat_length] at hcall
      cases hcall
      exact ⟨Reading.start (fun x hx => (h.owner x hx).ne) _, rfl, rfl⟩
    · rw [getElem?_eq_none (by rw [length_append, length_singleton]; omega)]
        at hcall
      cases hcall
  · intro call hcall i
    rcases mem_append.mp hcall with hcall | hcall
    · exact h.copies call hcall i
    · rw [mem_singleton.mp hcall]
      exact hcopies i
  · intro x hx
    have := h.owner x hx
    rw [length_append]
    exact Nat.lt_add_right _ this

theorem stretch (h : Orderly s) {id : Nat} {call : Call} (hcall : s.calls[id]? = some call)
    (hres : call.result = none) (killed : Bool) :
    Orderly (s.stretch id call killed) ∧ (s.stretch id call killed).events.filterMap Event.char =
        s.events.filterMap Event.char := by
  obtain ⟨line, hsync⟩ := h.sync
  have hreading : Reading s.taken id call.n.toNat call.left := by
    have := h.calls id call hcall
    rw [Call.Good, hres] at this
    exact this.1
  have hcopies := h.copies call (mem_of_getElem? hcall)
  have hgood := readLoop_good hcopies killed hsync hreading
  rw [State.stretch]
  generalize readLoop id call.copies killed call.n.toNat call.left s = out at hgood ⊢
  obtain ⟨s', stop⟩ := out
  obtain ⟨htook, hstop⟩ := hgood
  have hlt : id < s'.calls.length := by
    rw [htook.calls]
    exact (List.getElem?_eq_some_iff.mp hcall).1
  obtain ⟨more, hmore, hid⟩ := htook.taken
  refine ⟨⟨⟨line, htook.sync.editor, htook.sync.shows, htook.sync.order⟩, ?_, ?_, ?_⟩, htook.chars⟩
  · intro id' call' hcall'
    by_cases hsame : id' = id
    · subst hsame
      rw [getElem?_set_self hlt] at hcall'
      cases hcall'
      cases stop with
      | ret res => exact hstop
      | sleep left =>
        rw [Call.Good, Call.after, hres]
        exact hstop
    · rw [getElem?_set_ne (Ne.symm hsame), htook.calls] at hcall'
      have := (h.calls id' call' hcall').frame (prefix_refl _)
        (fun x hx hx' => hsame (hx'.symm.trans (hid x hx)))
      change call'.Good s'.committed s'.taken id'
      rw [htook.committed, hmore]
      exact this
  · intro call' hcall' i
    rcases mem_or_eq_of_mem_set hcall' with hcall' | rfl
    · exact h.copies call' (htook.calls ▸ hcall') i
    · cases stop with
      | ret res => exact hcopies i
      | sleep left => exact hcopies i
  · intro x hx
    rw [length_set, htook.calls]
    change x ∈ s'.taken at hx
    rw [hmore] at hx
    rcases mem_append.mp hx with hx | hx
    · exact h.owner x hx
    · rw [hid x hx]
      exact (List.getElem?_eq_some_iff.mp hcall).1

end Orderly

/-- The character an action brings in, if it brings one. -/
def Action.char : Action → Option UInt8
  | .intr c => some c
  | .read _ _ _ => none
  | .resume _ _ => none

/-- Copies of a call that starts succeed. -/
def Action.Copies : Action → Prop
  | .intr _ => True
  | .read _ copies _ => ∀ i, copies i = true
  | .resume _ _ => True

theorem step_orderly {s s' : State} {a : Action} (h : Orderly s) (ha : a.Copies)
    (hstep : step s a = some s') :
    Orderly s' ∧
      s'.events.filterMap Event.char = s.events.filterMap Event.char ++ a.char.toList := by
  cases a with
  | intr c =>
    cases hstep
    refine ⟨h.intr c, ?_⟩
    change (s.events ++ [Event.input c]).filterMap Event.char = _
    rw [filterMap_append]
    rfl
  | read n copies killed =>
    cases hstep
    rw [Action.char, Option.toList_none, append_nil]
    exact (h.call n ha).stretch getElem?_concat_length rfl killed
  | resume id killed =>
    rw [step] at hstep
    split at hstep
    · cases hstep
    · rename_i call hcall
      split at hstep
      · rename_i hres
        cases hstep
        rw [Action.char, Option.toList_none, append_nil]
        exact h.stretch hcall hres killed
      · cases hstep

theorem run_orderly {as : List Action} {s s' : State} (h : Orderly s) (has : ∀ a ∈ as, a.Copies)
    (hrun : run as s = some s') :
    Orderly s' ∧ s'.events.filterMap Event.char =
        s.events.filterMap Event.char ++ as.filterMap Action.char := by
  induction as generalizing s with
  | nil =>
    cases hrun
    exact ⟨h, (append_nil _).symm⟩
  | cons a as ih =>
    obtain ⟨s₁, hstep, hrun⟩ := Option.bind_eq_some_iff.mp hrun
    obtain ⟨h₁, hchars₁⟩ := step_orderly h (has a mem_cons_self) hstep
    obtain ⟨h', hchars⟩ := ih h₁ (fun a ha => has a (mem_cons_of_mem _ ha)) hrun
    refine ⟨h', ?_⟩
    rw [hchars, hchars₁, append_assoc]
    congr 1
    cases hchar : a.char with
    | none => rw [filterMap_cons_none hchar]; rfl
    | some c => rw [filterMap_cons_some hchar]; rfl

/-! ## The line discipline -/

/-- The console in state `s`, after the characters `chars`. -/
structure Discipline (s : State) (chars : List UInt8) : Prop where
  indices : (s.cons.w - s.cons.r).toNat ≤ (s.cons.e - s.cons.r).toNat ∧
    (s.cons.e - s.cons.r).toNat ≤ INPUT_BUF
  /-- whatever is typed next, the bytes from `r` to `w` stay -/
  untouched : ∀ c, (s.cons.consoleintr c).r = s.cons.r ∧
    ∀ i < (s.cons.w - s.cons.r).toNat,
      (s.cons.consoleintr c).buf (cell (s.cons.r + UInt32.ofNat i)) =
        s.cons.buf (cell (s.cons.r + UInt32.ofNat i))
  inputs : s.events.filterMap Event.char = chars
  edited : s.committed = (edit s.events).committed
  /-- bytes leave in the order they were committed in, and none is left out -/
  order : s.taken.map Taken.byte <+: s.committed
  waiting : (s.cons.w - s.cons.r).toNat = s.committed.length - s.taken.length
  owner : ∀ x ∈ s.taken, x.id < s.calls.length
  calls : ∀ (id : Nat) (call : Call), s.calls[id]? = some call → call.Good s.committed s.taken id

/-- Typing does not change what is committed and not yet read. -/
theorem Cons.Shows.untouched {k : Cons} {committed : List UInt8} {taken : Nat} {line : List UInt8}
    (h : k.Shows committed taken line) (c : UInt8) :
    (k.consoleintr c).r = k.r ∧ ∀ i < (k.w - k.r).toNat,
      (k.consoleintr c).buf (cell (k.r + UInt32.ofNat i)) =
        k.buf (cell (k.r + UInt32.ofNat i)) := by
  obtain ⟨hshows, hpassed⟩ := h.consoleintr c
  have htaken := Editor.taken_input ⟨committed, line, taken⟩ c
  have hshows : (k.consoleintr c).Shows _ taken _ := htaken ▸ hshows
  have hr : (k.consoleintr c).r = k.r := hshows.r.trans h.r.symm
  refine ⟨hr, ?_⟩
  intro i hi
  have hold := h.unread hi
  have hlt := (List.getElem?_eq_some_iff.mp hold).1
  have hlen : committed.length ≤ (Editor.input ⟨committed, line, taken⟩ c).committed.length := by
    rw [← hpassed, length_append]
    exact Nat.le_add_right _ _
  have hnew := hshows.unread (i := i) (by rw [hshows.w_sub_r]; omega)
  rw [← hpassed, getElem?_append_left hlt, hold, hr] at hnew
  exact (Option.some.inj hnew).symm

/-- Along every run in which copies succeed: the indices stay in order and within the
buffer; what is committed and not yet read is never edited; the bytes committed are
those of the reference editor for the characters that came in; and calls get them in
order, each at most as many as it asked for, up to a newline or in front of a ^D, which
is taken only by a call that has got nothing and returns 0.  A call sleeps only while there
is nothing to take, and then returns -1 instead if its process is killed. -/
theorem console_lines {as : List Action} (has : ∀ a ∈ as, a.Copies) {s : State}
    (hrun : run as .boot = some s) : Discipline s (as.filterMap Action.char) := by
  obtain ⟨h, hchars⟩ := run_orderly orderly_boot has hrun
  obtain ⟨line, hsync⟩ := h.sync
  have hwithin := hsync.shows.within
  have hroom := hsync.shows.room
  refine ⟨⟨?_, ?_⟩, hsync.shows.untouched, hchars, ?_, hsync.order, hsync.shows.w_sub_r,
    h.owner, h.calls⟩
  · rw [hsync.shows.w_sub_r, hsync.shows.e_sub_r]
    omega
  · rw [hsync.shows.e_sub_r]
    omega
  · rw [hsync.editor]

/-- A reader waits for `ls`, a DEL and a return; a second one gets the ^D that follows, and a
third one is killed. -/
def lsAndEof : List Action :=
  [.read 10 (fun _ => true) false, .intr 108, .intr 115, .intr DEL, .intr CR, .resume 0 false,
    .read 4 (fun _ => true) false, .intr EOF, .resume 1 false, .read 4 (fun _ => true) true]

theorem console_lines_ls : ∃ s, run lsAndEof .boot = some s ∧
    Discipline s [108, 115, DEL, CR, EOF] ∧ delivered 0 s.taken = [108, NL] ∧
    s.taken.map Taken.byte = [108, NL, EOF] ∧
    s.calls.map Call.result = [some 2, some 0, some (-1)] := by
  have hrun : run lsAndEof .boot = some ((run lsAndEof .boot).getD .boot) := by
    rfl
  refine ⟨_, hrun, console_lines (fun a ha => ?_) hrun, by decide, by decide, by decide⟩
  simp only [lsAndEof, mem_cons, not_mem_nil, or_false] at ha
  rcases ha with rfl | rfl | rfl | rfl | rfl | rfl | rfl | rfl | rfl | rfl <;>
    simp [Action.Copies]

/-- ^P is not committed, although it is none of the characters the editor treats in a
special way. -/
theorem console_procdump :
    (run [.intr (ctrl 'P'), .intr NL] .boot).map State.committed = some [NL] ∧
      (([ctrl 'P', NL] : List UInt8).foldl Editor.type ⟨[], [], 0⟩).committed =
        [ctrl 'P', NL] := by
  constructor
  · rfl
  · rfl

end Xv6.Console
