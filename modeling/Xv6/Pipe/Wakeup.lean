/-
  Pipe/Wakeup.lean --- who sleeps on a pipe, and whether they have a reason to.

  A reader sleeps on an empty pipe and a writer on a full one, and whoever changes that
  calls `wakeup`, with one exception: `pipewrite` fills the pipe without telling
  anyone, and when it then finds that it was killed or that there is no reader it
  returns at once.  `failsFull` says when it takes that exit.  Runs in which nobody sleeps
  on `&pi->nread` then are exactly those that lose no wakeup.
-/
import Xv6.Pipe.Fifo

set_option autoImplicit false

namespace Xv6.Pipes

open Function

variable {P : Type}

/-- Who sleeps on `&pi->nread` waits for the first byte, and who sleeps on
`&pi->nwrite` for room. -/
def Attentive (s : State P) : Prop :=
  ∀ q, ((s.proc q).sleeping = some .nread → s.pipe.empty = true ∧ s.pipe.writeopen = true) ∧
    ((s.proc q).sleeping = some .nwrite → s.pipe.full = true ∧ s.pipe.readopen = true)

/-- How many bytes fit into the pipe. -/
def Pipe.room (pi : Pipe) : Nat := PIPESIZE - pi.count

/-- The process has more bytes to write than fit, can copy those that fit, and there is no
reader or it was killed. -/
def failsFull (p : P) (s : State P) : Prop :=
  ∃ id buf n i, (s.proc p).task = .writing id buf n i ∧
    (s.pipe.readopen = false ∨ (s.proc p).killed = true) ∧
    (i + s.pipe.room : Int) < n ∧ ∀ j < s.pipe.room, buf (i + j) ≠ none

/-- When such a process runs, nobody sleeps on `&pi->nread`. -/
def Considerate : Action P → State P → Prop
  | .run p, s => failsFull p s → ∀ q, (s.proc q).sleeping ≠ some .nread
  | .write _ _ _, _ | .read _ _ _, _ | .close _, _ | .kill _ _, _ => True

theorem not_full_of_empty {pi : Pipe} (h : pi.empty = true) : ¬ pi.full = true := by
  rw [full_iff, ← (empty_iff pi).mp h]
  have hsize : PIPESIZE = 512 := rfl
  have hlt := pi.nread.toNat_lt
  omega

theorem wakeup_sleeping (s : State P) (chan chan' : Chan) (q : P) :
    ((s.wakeup chan).proc q).sleeping = some chan' ↔
      (s.proc q).sleeping = some chan' ∧ chan' ≠ chan := by
  simp only [State.wakeup]
  by_cases hq : (s.proc q).sleeping = some chan
  · rw [if_pos hq]
    simp only [hq, Option.some.injEq]
    constructor
    · intro h; cases h
    · rintro ⟨rfl, hne⟩
      exact absurd rfl hne
  · rw [if_neg hq]
    constructor
    · intro h
      refine ⟨h, ?_⟩
      rintro rfl
      exact hq h
    · exact fun h => h.1

/-! ## What a stretch does -/

/-- Writing from `s`: the ends stay as they are, a full pipe stays as it is, and the
stretch ends with a `wakeup` or, on a full pipe, without one. -/
structure Wrote (s : State P) (r : State P × Stop) : Prop where
  ends : r.1.pipe.readopen = s.pipe.readopen ∧ r.1.pipe.writeopen = s.pipe.writeopen
  full : s.pipe.full = true → r.1.pipe = s.pipe
  quiet : r.2 = .ret (-1) → r.1.proc = s.proc ∧ r.1.pipe.full = true
  woke : r.2 ≠ .ret (-1) → ∃ u : State P, u.proc = s.proc ∧ r.1 = u.wakeup .nread
  sleep : ∀ chan task, r.2 = .sleep chan task →
    chan = .nwrite ∧ r.1.pipe.full = true ∧ r.1.pipe.readopen = true

theorem wrote_pipewriteLoop (p : P) (id : Nat) (buf : Nat → Option UInt8) (n : Int) :
    ∀ (m i : Nat) (s : State P), Wrote s (pipewriteLoop p id buf n m i s) := by
  have hstop : ∀ (s : State P) (i : Nat), Wrote s (s.wakeup .nread, .ret i) := by
    intro s i
    refine ⟨⟨rfl, rfl⟩, fun _ => rfl, fun h => ?_, fun _ => ⟨s, rfl, rfl⟩, fun _ _ h => by cases h⟩
    cases h
  intro m
  induction m with
  | zero => intro i s; exact hstop s i
  | succ m ih =>
    intro i s
    simp only [pipewriteLoop]
    split
    · rename_i hfull
      split
      · exact ⟨⟨rfl, rfl⟩, fun _ => rfl, fun _ => ⟨rfl, hfull⟩, fun h => absurd rfl h,
          fun _ _ h => by cases h⟩
      · rename_i hexit
        refine ⟨⟨rfl, rfl⟩, fun _ => rfl, fun h => (by cases h), fun _ => ⟨s, rfl, rfl⟩, ?_⟩
        intro chan task h
        cases h
        refine ⟨rfl, hfull, ?_⟩
        simp only [State.wakeup]
        cases hro : s.pipe.readopen with
        | true => rfl
        | false => exact absurd (Or.inl hro) hexit
    · rename_i hfull
      cases buf i with
      | none => exact hstop s i
      | some ch =>
        have h := ih (i + 1) (s.put id ch)
        exact ⟨h.ends, fun hf => absurd hf hfull, h.quiet, h.woke, h.sleep⟩

/-- When `pipewrite` returns -1. -/
theorem pipewriteLoop_fails_iff (p : P) (id : Nat) (buf : Nat → Option UInt8) (n : Int) :
    ∀ (m i : Nat) (s : State P), s.pipe.count ≤ PIPESIZE →
      ((pipewriteLoop p id buf n m i s).2 = .ret (-1) ↔
        (s.pipe.readopen = false ∨ (s.proc p).killed = true) ∧ s.pipe.room < m ∧
          ∀ j < s.pipe.room, buf (i + j) ≠ none) := by
  intro m
  induction m with
  | zero =>
    intro i s _
    exact iff_of_false (fun h => by cases h) fun h => Nat.not_lt_zero _ h.2.1
  | succ m ih =>
    intro i s hcount
    rw [pipewriteLoop]
    by_cases hfull : s.pipe.full = true
    · have hroom : s.pipe.room = 0 := by
        rw [Pipe.room, s.pipe.full_iff_count.mp hfull, Nat.sub_self]
      rw [if_pos hfull, hroom]
      split
      · rename_i hexit
        exact iff_of_true rfl ⟨hexit, Nat.succ_pos m, fun j hj => absurd hj (Nat.not_lt_zero j)⟩
      · rename_i hexit
        exact iff_of_false (fun h => by cases h) fun h => hexit h.1
    · rw [if_neg hfull]
      have hlt : s.pipe.count < PIPESIZE :=
        lt_of_le_of_ne hcount (mt s.pipe.full_iff_count.mpr hfull)
      have hroom : s.pipe.room = PIPESIZE - (s.pipe.count + 1) + 1 := by
        rw [Pipe.room]
        omega
      cases hbuf : buf i with
      | none =>
        refine iff_of_false (fun h => by cases h) fun h => h.2.2 0 (by omega) ?_
        rw [Nat.add_zero, hbuf]
      | some ch =>
        have hput := s.count_put id ch hlt
        have hroom' : (s.put id ch).pipe.room = PIPESIZE - (s.pipe.count + 1) := by
          rw [Pipe.room, hput]
        refine (ih (i + 1) (s.put id ch) (by omega)).trans (and_congr Iff.rfl ?_)
        rw [hroom, hroom', Nat.succ_lt_succ_iff]
        refine and_congr_right fun _ => ⟨fun h j hj => ?_, fun h j hj => ?_⟩
        · cases j with
          | zero =>
            rw [Nat.add_zero, hbuf]
            exact Option.some_ne_none ch
          | succ j =>
            rw [show i + (j + 1) = i + 1 + j by omega]
            exact h j (by omega)
        · rw [show i + 1 + j = i + (j + 1) by omega]
          exact h (j + 1) (by omega)

theorem failsFull_iff {p : P} {s : State P} {id : Nat} {buf : Nat → Option UInt8}
    {n : Int} {i : Nat}
    (hcount : s.pipe.count ≤ PIPESIZE) (htask : (s.proc p).task = .writing id buf n i) :
    failsFull p s ↔ (pipewrite p id buf n i s).2 = .ret (-1) := by
  rw [pipewrite, pipewriteLoop_fails_iff p id buf n _ i s hcount]
  constructor
  · rintro ⟨id', buf', n', i', htask', hexit, hroom, hbuf⟩
    cases htask.symm.trans htask'
    exact ⟨hexit, by omega, hbuf⟩
  · rintro ⟨hexit, hroom, hbuf⟩
    exact ⟨id, buf, n, i, htask, hexit, by omega, hbuf⟩

/-- Reading from `s`: as for writing, and an empty pipe stays as it is. -/
structure Read (s : State P) (r : State P × Stop) : Prop where
  ends : r.1.pipe.readopen = s.pipe.readopen ∧ r.1.pipe.writeopen = s.pipe.writeopen
  empty : s.pipe.empty = true → r.1.pipe = s.pipe
  woke : (∃ u : State P, u.proc = s.proc ∧ r.1 = u.wakeup .nwrite) ∨ r.1 = s ∧ s.pipe.empty = true
  sleep : ∀ chan task, r.2 = .sleep chan task →
    chan = .nread ∧ r.1.pipe.empty = true ∧ r.1.pipe.writeopen = true

theorem read_pipereadLoop (buf : Nat → Bool) :
    ∀ (m i : Nat) (s : State P), Read s (pipereadLoop buf m i s) := by
  have hstop : ∀ (s : State P) (i : Nat), Read s (s.wakeup .nwrite, .ret i) := by
    intro s i
    exact ⟨⟨rfl, rfl⟩, fun _ => rfl, Or.inl ⟨s, rfl, rfl⟩, fun _ _ h => by cases h⟩
  intro m
  induction m with
  | zero => intro i s; exact hstop s i
  | succ m ih =>
    intro i s
    simp only [pipereadLoop]
    split
    · exact hstop s i
    · rename_i hempty
      split
      · have h := ih (i + 1) s.take
        refine ⟨h.ends, fun he => absurd he hempty, ?_, h.sleep⟩
        rcases h.woke with hw | ⟨heq, he⟩
        · exact Or.inl hw
        · -- the last byte was taken and the loop went round once more
          cases m with
          | zero => exact Or.inl ⟨s.take, rfl, rfl⟩
          | succ m =>
            simp only [pipereadLoop, if_pos he] at heq ⊢
            exact Or.inl ⟨s.take, rfl, rfl⟩
      · exact ⟨⟨rfl, rfl⟩, fun he => absurd he hempty, Or.inl ⟨s.take, rfl, rfl⟩,
          fun _ _ h => by cases h⟩

theorem read_piperead (p : P) (buf : Nat → Bool) (n : Int) (s : State P) :
    Read s (piperead p buf n s) := by
  simp only [piperead]
  split
  · rename_i hempty
    split
    · exact ⟨⟨rfl, rfl⟩, fun _ => rfl, Or.inr ⟨rfl, hempty.1⟩, fun _ _ h => by cases h⟩
    · refine ⟨⟨rfl, rfl⟩, fun _ => rfl, Or.inr ⟨rfl, hempty.1⟩, ?_⟩
      intro chan task h
      cases h
      exact ⟨rfl, hempty⟩
  · exact read_pipereadLoop buf _ _ s

/-! ## Steps -/

variable {r : State P × Stop} {s : State P}

/-- A process that sleeps after a writer's stretch slept before. -/
theorem attentive_wrote (h : Attentive s) (hw : Wrote s r)
    (hquiet : r.2 = .ret (-1) → ∀ q, (s.proc q).sleeping ≠ some .nread) : Attentive r.1 := by
  intro q
  by_cases hret : r.2 = .ret (-1)
  · obtain ⟨hproc, -⟩ := hw.quiet hret
    rw [hproc]
    refine ⟨fun hq => absurd hq (hquiet hret q), fun hq => ?_⟩
    obtain ⟨hfull, hopen⟩ := (h q).2 hq
    rw [hw.full hfull]
    exact ⟨hfull, hopen⟩
  · obtain ⟨u, hproc, heq⟩ := hw.woke hret
    rw [heq, wakeup_sleeping, wakeup_sleeping, hproc, ← heq]
    refine ⟨fun hq => absurd rfl hq.2, fun hq => ?_⟩
    obtain ⟨hfull, hopen⟩ := (h q).2 hq.1
    rw [hw.full hfull]
    exact ⟨hfull, hopen⟩

theorem attentive_read (h : Attentive s) (hr : Read s r) : Attentive r.1 := by
  rcases hr.woke with ⟨u, hproc, heq⟩ | ⟨heq, -⟩
  · intro q
    rw [heq, wakeup_sleeping, wakeup_sleeping, hproc, ← heq]
    refine ⟨fun hq => ?_, fun hq => absurd rfl hq.2⟩
    obtain ⟨hempty, hopen⟩ := (h q).1 hq.1
    rw [hr.empty hempty]
    exact ⟨hempty, hopen⟩
  · rw [heq]
    exact h

theorem attentive_pipeclose (h : Attentive s) (writable : Bool) :
    Attentive (pipeclose writable s) := by
  have hend : Attentive (closeEnd writable s) := by
    intro q
    cases writable with
    | true =>
      simp only [closeEnd, if_true, wakeup_sleeping]
      exact ⟨fun hq => absurd rfl hq.2, fun hq => (h q).2 hq.1⟩
    | false =>
      simp only [closeEnd, Bool.false_eq_true, if_false, wakeup_sleeping]
      exact ⟨fun hq => (h q).1 hq.1, fun hq => absurd rfl hq.2⟩
  simp only [pipeclose]
  split
  · exact hend
  · exact hend

variable [DecidableEq P]

/-- A process changes its own entry: it does not sleep then, or has a reason to. -/
theorem attentive_setProc (h : Attentive s) {p : P} {x : Proc}
    (hr : x.sleeping = some .nread → s.pipe.empty = true ∧ s.pipe.writeopen = true)
    (hw : x.sleeping = some .nwrite → s.pipe.full = true ∧ s.pipe.readopen = true) :
    Attentive (s.setProc p x) := by
  intro q
  by_cases hq : q = p
  · subst hq
    simp only [State.setProc, update_self]
    exact ⟨hr, hw⟩
  · simp only [State.setProc, update_of_ne hq]
    exact h q

theorem attentive_finish {p : P} (h : Attentive r.1) (hsleep : ∀ chan task, r.2 = .sleep chan task →
      (chan = .nread → r.1.pipe.empty = true ∧ r.1.pipe.writeopen = true) ∧
      (chan = .nwrite → r.1.pipe.full = true ∧ r.1.pipe.readopen = true)) :
    Attentive (finish p r) := by
  obtain ⟨t, stop⟩ := r
  cases stop with
  | sleep chan task =>
    obtain ⟨hr, hw⟩ := hsleep chan task rfl
    exact attentive_setProc h (fun hx => hr (Option.some.inj hx)) fun hx => hw (Option.some.inj hx)
  | ret n => exact attentive_setProc h (fun hx => (h p).1 hx) fun hx => (h p).2 hx

theorem attentive_step {a : Action P} {s t : State P} (h : Attentive s)
    (hcount : s.pipe.count ≤ PIPESIZE) (hok : Considerate a s) (hx : step a s = some t) :
    Attentive t := by
  cases a with
  | write p buf n =>
    simp only [step] at hx
    split at hx
    · cases hx
      exact attentive_setProc (p := p) h (fun hx => (h p).1 hx) fun hx => (h p).2 hx
    · cases hx
  | read p buf n =>
    simp only [step] at hx
    split at hx
    · cases hx
      exact attentive_setProc h (fun hx => (h p).1 hx) fun hx => (h p).2 hx
    · cases hx
  | run p =>
    simp only [step] at hx
    split at hx
    · cases hx
    · simp only [stretch] at hx
      cases htask : (s.proc p).task with
      | none => rw [htask] at hx; cases hx
      | writing id buf n i =>
        rw [htask] at hx
        cases hx
        have hw : Wrote s (pipewrite p id buf n i s) := wrote_pipewriteLoop p id buf n _ i s
        refine attentive_finish (attentive_wrote h hw fun hret =>
          hok ((failsFull_iff hcount htask).mpr hret)) ?_
        intro chan task hs
        obtain ⟨rfl, hfull⟩ := hw.sleep chan task hs
        exact ⟨fun hc => (by cases hc), fun _ => hfull⟩
      | reading buf n =>
        rw [htask] at hx
        cases hx
        have hr := read_piperead p buf n s
        refine attentive_finish (attentive_read h hr) ?_
        intro chan task hs
        obtain ⟨rfl, hempty⟩ := hr.sleep chan task hs
        exact ⟨fun _ => hempty, fun hc => by cases hc⟩
  | close writable =>
    simp only [step] at hx
    split at hx
    · cases hx
    · cases hx
      exact attentive_pipeclose h writable
  | kill p late =>
    cases hx
    cases late with
    | false => exact attentive_setProc h (fun hx => (by cases hx)) fun hx => (by cases hx)
    | true => exact attentive_setProc h (fun hx => (h p).1 hx) fun hx => (h p).2 hx

theorem finish_ret {p : P} {n : Int} (h : r.2 = .ret n) :
    finish p r = r.1.setProc p { r.1.proc p with task := .none } := by
  obtain ⟨t, stop⟩ := r
  subst h
  rfl

/-- Leaving a full pipe behind while somebody sleeps on `&pi->nread` loses the
wakeup. -/
theorem not_attentive_step {a : Action P} {s t : State P} (hcount : s.pipe.count ≤ PIPESIZE)
    (hok : ¬ Considerate a s) (hx : step a s = some t) : ¬ Attentive t := by
  cases a with
  | write p buf n => exact absurd trivial hok
  | read p buf n => exact absurd trivial hok
  | close writable => exact absurd trivial hok
  | kill p late => exact absurd trivial hok
  | run p =>
    simp only [Considerate, not_forall, not_not] at hok
    obtain ⟨hfails, q, hq⟩ := hok
    have ⟨id, buf, n, i, htask, _⟩ := hfails
    have hret := (failsFull_iff hcount htask).mp hfails
    simp only [step] at hx
    split at hx
    · cases hx
    · rename_i hrun
      simp only [stretch, htask, Option.map_some, Option.some.injEq] at hx
      have hquiet := (wrote_pipewriteLoop p id buf n (n - i).toNat i s).quiet hret
      obtain ⟨hproc, hfull⟩ : (pipewrite p id buf n i s).1.proc = s.proc ∧
        (pipewrite p id buf n i s).1.pipe.full = true := hquiet
      have hqp : q ≠ p := by
        rintro rfl
        exact hrun (Or.inr (by rw [hq]; simp))
      rw [finish_ret hret] at hx
      subst hx
      intro hatt
      refine not_full_of_empty ((hatt q).1 ?_).1 hfull
      simp only [State.setProc, update_of_ne hqp, hproc]
      exact hq

/-! ## Runs -/

/-- No wakeup is lost in the course of a run, of any number of processes, exactly when no
process runs that has more to write than fits, and no reader or was killed, while another
one sleeps on `&pi->nread`. -/
theorem run_attentive_iff (data : Fin PIPESIZE → UInt8) (as : List (Action P)) (s : State P)
    (hrun : run as (State.init data) = some s) :
    (∀ pre post u, as = pre ++ post → run pre (State.init data) = some u → Attentive u) ↔
    ∀ pre a post u, as = pre ++ a :: post → run pre (State.init data) = some u →
      Considerate a u := by
  constructor
  · intro hall pre a post u heq hu
    by_contra hok
    have hsplit : run (pre ++ [a]) (State.init data) = step a u := by
      rw [run_isRun.append, hu]
      simp [run]
    cases hx : step a u with
    | none =>
      rw [heq, run_isRun.append, hu] at hrun
      simp [run, hx] at hrun
    | some v =>
      rw [hx] at hsplit
      exact not_attentive_step (fifo_run hu).count.2 hok hx
        (hall (pre ++ [a]) post v (by rw [heq, List.append_assoc]; rfl) hsplit)
  · intro hok pre post u heq hu
    refine run_isRun.induct (I := Attentive)
      (fun a s => s.pipe.count ≤ PIPESIZE ∧ Considerate a s)
      (fun a s t h hc hx => attentive_step h hc.1 hc.2 hx) ?_ ?_ hu
    · intro q
      exact ⟨fun h => (by cases h), fun h => (by cases h)⟩
    · intro pre' a post' v hpre hv
      exact ⟨(fifo_run hv).count.2,
        hok pre' a (post' ++ post) v (by rw [heq, hpre, List.append_assoc]; rfl) hv⟩

/-- A reader that waits, and a writer whose byte wakes it. -/
def wokenReader : List (Action Bool) :=
  [.read false (fun _ => true) 1, .run false, .write true (fun _ => some 7) 1, .run true]

theorem run_attentive_iff_wokenReader :
    ∃ s, run wokenReader (State.init fun _ => 0) = some s ∧
      (∀ q, (s.proc q).sleeping = none) ∧
      ((∀ pre post u, wokenReader = pre ++ post →
          run pre (State.init fun _ => 0) = some u → Attentive u) ↔
        ∀ pre a post u, wokenReader = pre ++ a :: post →
          run pre (State.init fun _ => 0) = some u → Considerate a u) := by
  cases hrun : run wokenReader (State.init fun _ => 0) with
  | none => exact absurd hrun (by decide)
  | some s =>
    refine ⟨s, rfl, ?_, run_attentive_iff _ _ s hrun⟩
    cases hrun
    decide

/-- A reader sleeps, a writer with more than fits is killed, fills the pipe and
returns. -/
def killedWriter : List (Action Bool) :=
  [.read false (fun _ => true) 1, .run false, .write true (fun _ => some 7) 513, .kill true false,
    .run true]

/-- The reader sleeps on, and the pipe is full. -/
theorem reader_sleeps_on :
    ∃ s, run killedWriter (State.init fun _ => 0) = some s ∧ s.freed = false ∧
      (s.proc false).sleeping = some .nread ∧ s.pipe.full = true ∧ ¬ Attentive s := by
  have hcheck : (run killedWriter (State.init fun _ => 0)).all (fun s =>
      !s.freed && decide ((s.proc false).sleeping = some .nread) && s.pipe.full &&
        !s.pipe.empty) = true := by
    decide +kernel
  have hsome : (run killedWriter (State.init fun _ => 0)).isSome = true := by
    decide +kernel
  obtain ⟨s, hs⟩ := Option.isSome_iff_exists.mp hsome
  rw [hs] at hcheck
  simp only [Option.all_some, Bool.and_eq_true, Bool.not_eq_true', decide_eq_true_eq] at hcheck
  obtain ⟨⟨⟨hfreed, hsleep⟩, hfull⟩, hempty⟩ := hcheck
  refine ⟨s, hs, hfreed, hsleep, hfull, fun hatt => ?_⟩
  have := ((hatt false).1 hsleep).1
  rw [hempty] at this
  cases this

end Xv6.Pipes
