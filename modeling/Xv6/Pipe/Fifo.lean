/-
  Pipe/Fifo.lean --- a pipe is a FIFO.

  The cells between the two counters are those of a ring (`Foundation/Ring.lean`), so
  that part needs the history only as a whole.  That the bytes of one `pipewrite` are
  in order needs to know how far every call has got.  Within a stretch the process's
  entry in the process table is behind, so `Fifo` takes the tasks as an argument.
-/
import Xv6.Pipe.Machine

set_option autoImplicit false

namespace Xv6.Pipes

open Function List Foundation

variable {P : Type}

/-- The bytes of one call of `pipewrite`, in the order in which they went in. -/
def bytesOf (id : Nat) (sent : List Sent) : List (Option UInt8) :=
  (sent.filter fun x => decide (x.id = id)).map fun x => some x.byte

theorem bytesOf_append (id : Nat) (sent : List Sent) (x : Sent) :
    bytesOf id (sent ++ [x]) = bytesOf id sent ++ if x.id = id then [some x.byte] else [] := by
  unfold bytesOf
  by_cases hx : x.id = id <;> simp [filter_append, hx]

structure Fifo (s : State P) (task : P → Task) : Prop where
  ring : Ring.Holds PIPESIZE (2 ^ 32) s.pipe.data s.pipe.nread.toNat s.pipe.nwrite.toNat
    (s.sent.map Sent.byte) s.taken
  /-- a byte belongs to a call -/
  called : ∀ x ∈ s.sent, x.id < s.calls.length
  /-- the bytes of a call are the first ones of its buffer -/
  order : ∀ id buf, s.calls[id]? = some buf → ∃ m, bytesOf id s.sent = (range m).map buf
  /-- and if it has not returned, those it has written -/
  writing : ∀ p id buf n i, task p = .writing id buf n i →
    s.calls[id]? = some buf ∧ bytesOf id s.sent = (range i).map buf
  /-- a call is that of one process -/
  sole : ∀ p q id buf n i buf' n' i', task p = .writing id buf n i →
    task q = .writing id buf' n' i' → p = q

/-! ## The tests -/

theorem full_iff (pi : Pipe) :
    pi.full = true ↔ pi.nwrite.toNat = (pi.nread.toNat + PIPESIZE) % 2 ^ 32 := by
  have h512 : (UInt32.ofNat PIPESIZE).toNat = PIPESIZE := by decide
  rw [Pipe.full, beq_iff_eq, ← UInt32.toNat_inj, UInt32.toNat_add, h512]

theorem empty_iff (pi : Pipe) : pi.empty = true ↔ pi.nread.toNat = pi.nwrite.toNat := by
  rw [Pipe.empty, beq_iff_eq, ← UInt32.toNat_inj]

theorem pipesize_dvd : PIPESIZE ∣ 2 ^ 32 := by decide

theorem pipesize_lt : PIPESIZE < 2 ^ 32 := by decide

/-! ## What one access does -/

namespace Fifo

variable {s : State P} {task : P → Task} {p : P}

/-- The process table is not part of it. -/
theorem wakeup (h : Fifo s task) (chan : Chan) : Fifo (s.wakeup chan) task :=
  ⟨h.ring, h.called, h.order, h.writing, h.sole⟩

theorem setProc [DecidableEq P] (h : Fifo s task) (x : Proc) : Fifo (s.setProc p x) task :=
  ⟨h.ring, h.called, h.order, h.writing, h.sole⟩

/-- A byte comes out. -/
theorem take (h : Fifo s task) (hempty : ¬ s.pipe.empty = true) : Fifo s.take task := by
  have hring := h.ring.pop pipesize_dvd pipesize_lt (mt (empty_iff s.pipe).mpr hempty)
  have hnext : (s.pipe.nread + 1).toNat = (s.pipe.nread.toNat + 1) % 2 ^ 32 := by
    rw [UInt32.toNat_add]
    rfl
  refine ⟨?_, h.called, h.order, h.writing, h.sole⟩
  simp only [State.take, hnext]
  exact hring

theorem pipeclose (h : Fifo s task) (writable : Bool) : Fifo (pipeclose writable s) task := by
  have hend : Fifo (closeEnd writable s) task := by
    cases writable
    · exact ⟨h.ring, h.called, h.order, h.writing, h.sole⟩
    · exact ⟨h.ring, h.called, h.order, h.writing, h.sole⟩
  simp only [Pipes.pipeclose]
  split
  · exact ⟨hend.ring, hend.called, hend.order, hend.writing, hend.sole⟩
  · exact hend

variable [DecidableEq P]

/-- A process does something else than writing. -/
theorem setTask (h : Fifo s task) {t : Task} (ht : ∀ id buf n i, t ≠ .writing id buf n i) :
    Fifo s (update task p t) := by
  have hkeep : ∀ q id buf n i, update task p t q = .writing id buf n i →
      task q = .writing id buf n i := by
    intro q id buf n i hq
    by_cases hqp : q = p
    · subst hqp
      rw [update_self] at hq
      exact absurd hq (ht id buf n i)
    · rwa [update_of_ne hqp] at hq
  exact ⟨h.ring, h.called, h.order,
    fun q id buf n i hq => h.writing q id buf n i (hkeep q id buf n i hq),
    fun q r id buf n i buf' n' i' hq hr =>
      h.sole q r id buf n i buf' n' i' (hkeep _ _ _ _ _ hq) (hkeep _ _ _ _ _ hr)⟩

/-- A byte goes in. -/
theorem put (h : Fifo s task) {id : Nat} {buf : Nat → Option UInt8} {n : Int} {i : Nat}
    {ch : UInt8} (hp : task p = .writing id buf n i) (hch : buf i = some ch)
    (hfull : ¬ s.pipe.full = true) :
    Fifo (s.put id ch) (update task p (.writing id buf n (i + 1))) := by
  obtain ⟨hcall, hbytes⟩ := h.writing p id buf n i hp
  have hmine : bytesOf id (s.sent ++ [⟨id, ch⟩]) = (range (i + 1)).map buf := by
    rw [bytesOf_append, hbytes, range_succ, map_append, map_singleton, hch]
    simp
  have hother : ∀ id', id' ≠ id → bytesOf id' (s.sent ++ [⟨id, ch⟩]) = bytesOf id' s.sent := by
    intro id' hne
    rw [bytesOf_append, if_neg hne.symm, append_nil]
  -- every writer but `p` is in another call
  have hcases : ∀ q id' buf' n' i',
      update task p (.writing id buf n (i + 1)) q = .writing id' buf' n' i' →
      (q = p ∧ id' = id ∧ buf' = buf ∧ i' = i + 1) ∨
        (id' ≠ id ∧ task q = .writing id' buf' n' i') := by
    intro q id' buf' n' i' hq
    by_cases hqp : q = p
    · subst hqp
      rw [update_self] at hq
      cases hq
      exact Or.inl ⟨rfl, rfl, rfl, rfl⟩
    · rw [update_of_ne hqp] at hq
      refine Or.inr ⟨?_, hq⟩
      rintro rfl
      exact hqp (h.sole q p _ _ _ _ _ _ _ hq hp)
  refine ⟨?_, ?_, ?_, ?_, ?_⟩
  · have hring := h.ring.push pipesize_dvd pipesize_lt (mt (full_iff s.pipe).mpr hfull) ch
    have hnext : (s.pipe.nwrite + 1).toNat = (s.pipe.nwrite.toNat + 1) % 2 ^ 32 := by
      rw [UInt32.toNat_add]
      rfl
    simp only [State.put, map_append, map_singleton, hnext]
    exact hring
  · intro x hx
    rcases mem_append.mp hx with hx | hx
    · exact h.called x hx
    · rw [mem_singleton.mp hx]
      exact (List.getElem?_eq_some_iff.mp hcall).1
  · intro id' buf' hid'
    by_cases hid : id' = id
    · subst hid
      have hbuf : buf' = buf := Option.some.inj (hid'.symm.trans hcall)
      subst hbuf
      exact ⟨i + 1, hmine⟩
    · obtain ⟨m, hm⟩ := h.order id' buf' hid'
      exact ⟨m, (hother id' hid).trans hm⟩
  · intro q id' buf' n' i' hq
    rcases hcases q id' buf' n' i' hq with ⟨-, rfl, rfl, rfl⟩ | ⟨hne, hq'⟩
    · exact ⟨hcall, hmine⟩
    · obtain ⟨hc, hb⟩ := h.writing q id' buf' n' i' hq'
      exact ⟨hc, (hother id' hne).trans hb⟩
  · intro q r id' buf₁ n₁ i₁ buf₂ n₂ i₂ hq hr
    rcases hcases q id' buf₁ n₁ i₁ hq with ⟨hqp, hid, -, -⟩ | ⟨hne, hq'⟩
    · rcases hcases r id' buf₂ n₂ i₂ hr with ⟨hrp, -⟩ | ⟨hne, -⟩
      · rw [hqp, hrp]
      · exact absurd hid hne
    · rcases hcases r id' buf₂ n₂ i₂ hr with ⟨-, hid, -⟩ | ⟨-, hr'⟩
      · exact absurd hid hne
      · exact h.sole q r _ _ _ _ _ _ _ hq' hr'

/-! ## What a stretch does -/

/-- Where a stretch leaves the process that ran it. -/
def after (task : P → Task) (p : P) : Stop → P → Task
  | .sleep _ t => update task p t
  | .ret _ => update task p .none

/-- The stretch is run by a process in this call. -/
theorem pipewriteLoop (id : Nat) (buf : Nat → Option UInt8) (n : Int) :
    ∀ (m i : Nat) (s : State P) (task : P → Task), Fifo s task → task p = .writing id buf n i →
      Fifo (pipewriteLoop p id buf n m i s).1
        (after task p (pipewriteLoop p id buf n m i s).2) := by
  intro m
  induction m with
  | zero =>
    intro i s task h hp
    exact (h.wakeup .nread).setTask (by simp)
  | succ m ih =>
    intro i s task h hp
    simp only [Pipes.pipewriteLoop]
    split
    · split
      · exact h.setTask (by simp)
      · simp only [after]
        rw [← hp, update_eq_self]
        exact h.wakeup .nread
    · rename_i hfull
      cases hch : buf i with
      | none => exact (h.wakeup .nread).setTask (by simp)
      | some ch =>
        have hnext := ih (i + 1) _ _ (h.put hp hch hfull) (update_self ..)
        have hsame : ∀ stop, after (update task p (.writing id buf n (i + 1))) p stop =
            after task p stop := by
          intro stop
          cases stop <;> simp [after]
        rwa [hsame] at hnext

theorem pipereadLoop (buf : Nat → Bool) : ∀ (m i : Nat) (s : State P), Fifo s task →
      Fifo (pipereadLoop buf m i s).1 (after task p (pipereadLoop buf m i s).2) := by
  intro m
  induction m with
  | zero =>
    intro i s h
    exact (h.wakeup .nwrite).setTask (by simp)
  | succ m ih =>
    intro i s h
    simp only [Pipes.pipereadLoop]
    split
    · exact (h.wakeup .nwrite).setTask (by simp)
    · rename_i hempty
      split
      · exact ih (i + 1) s.take (h.take hempty)
      · exact ((h.take hempty).wakeup .nwrite).setTask (by simp)

theorem piperead (h : Fifo s task) (buf : Nat → Bool) (n : Int) :
    Fifo (piperead p buf n s).1 (after task p (piperead p buf n s).2) := by
  simp only [Pipes.piperead]
  split
  · split
    · exact h.setTask (by simp)
    · exact h.setTask (by simp)
  · exact pipereadLoop buf _ _ s h

end Fifo

/-! ## Steps and runs -/

/-- The tasks as the process table has them. -/
def State.tasks (s : State P) : P → Task := fun p => (s.proc p).task

theorem tasks_setProc [DecidableEq P] (s : State P) (p : P) (x : Proc) :
    (s.setProc p x).tasks = update s.tasks p x.task := by
  funext q
  by_cases hq : q = p
  · subst hq; simp [State.tasks, State.setProc]
  · simp [State.tasks, State.setProc, hq]

/-- A stretch changes nobody's task before it ends. -/
theorem tasks_wakeup (s : State P) (chan : Chan) : (s.wakeup chan).tasks = s.tasks := by
  funext q
  simp only [State.tasks, State.wakeup]
  split <;> rfl

theorem tasks_pipewriteLoop (p : P) (id : Nat) (buf : Nat → Option UInt8) (n : Int) :
    ∀ (m i : Nat) (s : State P), (pipewriteLoop p id buf n m i s).1.tasks = s.tasks := by
  intro m
  induction m with
  | zero => intro i s; exact tasks_wakeup s .nread
  | succ m ih =>
    intro i s
    simp only [pipewriteLoop]
    split
    · split
      · rfl
      · exact tasks_wakeup s .nread
    · cases buf i with
      | none => exact tasks_wakeup s .nread
      | some ch => exact ih (i + 1) (s.put id ch)

theorem tasks_pipereadLoop (buf : Nat → Bool) :
    ∀ (m i : Nat) (s : State P), (pipereadLoop buf m i s).1.tasks = s.tasks := by
  intro m
  induction m with
  | zero => intro i s; exact tasks_wakeup s .nwrite
  | succ m ih =>
    intro i s
    simp only [pipereadLoop]
    split
    · exact tasks_wakeup s .nwrite
    · split
      · exact ih (i + 1) s.take
      · exact tasks_wakeup s.take .nwrite

theorem tasks_piperead (p : P) (buf : Nat → Bool) (n : Int) (s : State P) :
    (piperead p buf n s).1.tasks = s.tasks := by
  simp only [piperead]
  split
  · split <;> rfl
  · exact tasks_pipereadLoop buf _ _ s

theorem tasks_pipeclose (writable : Bool) (s : State P) :
    (pipeclose writable s).tasks = s.tasks := by
  have hend : (closeEnd writable s).tasks = s.tasks := by
    cases writable
    · exact tasks_wakeup _ .nwrite
    · exact tasks_wakeup _ .nread
  simp only [pipeclose]
  split <;> exact hend

variable [DecidableEq P]

theorem fifo_finish {p : P} {s : State P} {r : State P × Stop} (htasks : r.1.tasks = s.tasks)
    (h : Fifo r.1 (Fifo.after s.tasks p r.2)) : Fifo (finish p r) (finish p r).tasks := by
  obtain ⟨t, stop⟩ := r
  cases stop with
  | sleep chan task =>
    simp only [finish, tasks_setProc]
    rw [htasks]
    exact h.setProc _
  | ret n =>
    simp only [finish, tasks_setProc]
    rw [htasks]
    exact h.setProc _

/-- A new call of `pipewrite`: it has no bytes yet. -/
theorem fifo_call {s : State P} {p : P} (h : Fifo s s.tasks) (buf : Nat → Option UInt8) (n : Int) :
    Fifo { s with calls := s.calls ++ [buf] }
      (update s.tasks p (.writing s.calls.length buf n 0)) := by
  have hnone : bytesOf s.calls.length s.sent = [] := by
    rw [bytesOf, map_eq_nil_iff, filter_eq_nil_iff]
    intro x hx
    have := h.called x hx
    simp only [decide_eq_true_eq]
    omega
  have hold : ∀ (id : Nat) buf', s.calls[id]? = some buf' →
      (s.calls ++ [buf])[id]? = some buf' := by
    intro id buf' hid
    rw [List.getElem?_append_left (List.getElem?_eq_some_iff.mp hid).1]
    exact hid
  have hlt : ∀ q id buf' n' i', s.tasks q = .writing id buf' n' i' → id < s.calls.length :=
    fun q id buf' n' i' hq => (List.getElem?_eq_some_iff.mp (h.writing q id buf' n' i' hq).1).1
  have hcases : ∀ q id buf' n' i',
      update s.tasks p (.writing s.calls.length buf n 0) q = .writing id buf' n' i' →
      (q = p ∧ id = s.calls.length ∧ buf' = buf ∧ i' = 0) ∨ s.tasks q = .writing id buf' n' i' := by
    intro q id buf' n' i' hq
    by_cases hqp : q = p
    · subst hqp
      rw [update_self] at hq
      cases hq
      exact Or.inl ⟨rfl, rfl, rfl, rfl⟩
    · rw [update_of_ne hqp] at hq
      exact Or.inr hq
  refine ⟨h.ring, ?_, ?_, ?_, ?_⟩
  · intro x hx
    have := h.called x hx
    simp only [length_append, length_singleton]
    omega
  · intro id buf' hid
    by_cases hnew : id < s.calls.length
    · rw [getElem?_append_left hnew] at hid
      exact h.order id buf' hid
    · have heq : id = s.calls.length := by
        have := (List.getElem?_eq_some_iff.mp hid).1
        simp only [length_append, length_singleton] at this
        omega
      subst heq
      exact ⟨0, hnone⟩
  · intro q id buf' n' i' hq
    rcases hcases q id buf' n' i' hq with ⟨-, rfl, rfl, rfl⟩ | hq'
    · exact ⟨by simp, hnone⟩
    · obtain ⟨hc, hb⟩ := h.writing q id buf' n' i' hq'
      exact ⟨hold id buf' hc, hb⟩
  · intro q r id buf₁ n₁ i₁ buf₂ n₂ i₂ hq hr
    rcases hcases q id buf₁ n₁ i₁ hq with ⟨hqp, hid, -, -⟩ | hq'
    · rcases hcases r id buf₂ n₂ i₂ hr with ⟨hrp, -⟩ | hr'
      · rw [hqp, hrp]
      · exact absurd hid (Nat.ne_of_lt (hlt r id buf₂ n₂ i₂ hr'))
    · rcases hcases r id buf₂ n₂ i₂ hr with ⟨-, hid, -⟩ | hr'
      · exact absurd hid (Nat.ne_of_lt (hlt q id buf₁ n₁ i₁ hq'))
      · exact h.sole q r _ _ _ _ _ _ _ hq' hr'

theorem fifo_step {a : Action P} {s t : State P} (h : Fifo s s.tasks) (hx : step a s = some t) :
    Fifo t t.tasks := by
  cases a with
  | write p buf n =>
    simp only [step] at hx
    split at hx
    · cases hx
      exact (tasks_setProc s p _) ▸ (fifo_call h buf n).setProc _
    · cases hx
  | read p buf n =>
    simp only [step] at hx
    split at hx
    · cases hx
      rw [tasks_setProc]
      exact (h.setTask (by simp)).setProc _
    · cases hx
  | run p =>
    simp only [step] at hx
    split at hx
    · cases hx
    · simp only [stretch] at hx
      cases htask : (s.proc p).task with
      | none => rw [htask] at hx; cases hx
      | writing id buf n i =>
        rw [htask] at hx
        cases hx
        exact fifo_finish (tasks_pipewriteLoop p id buf n _ i s)
          (Fifo.pipewriteLoop id buf n _ i s s.tasks h htask)
      | reading buf n =>
        rw [htask] at hx
        cases hx
        exact fifo_finish (tasks_piperead p buf n s) (h.piperead buf n)
  | close writable =>
    simp only [step] at hx
    split at hx
    · cases hx
    · cases hx
      rw [tasks_pipeclose]
      exact h.pipeclose writable
  | kill p late =>
    cases hx
    rw [tasks_setProc]
    have hsame : update s.tasks p (s.proc p).task = s.tasks := update_eq_self p s.tasks
    rw [hsame]
    exact h.setProc _

omit [DecidableEq P] in
theorem fifo_init (data : Fin PIPESIZE → UInt8) :
    Fifo (State.init data : State P) (State.init data : State P).tasks where
  ring := Ring.holds_nil data
  called x hx := by cases hx
  order id buf hid := by cases hid
  writing p id buf n i hp := by cases hp
  sole p q id buf n i buf' n' i' hp := by cases hp

theorem fifo_run {data : Fin PIPESIZE → UInt8} {as : List (Action P)} {s : State P}
    (hrun : run as (State.init data) = some s) : Fifo s s.tasks :=
  run_isRun.keeps (I := fun s => Fifo s s.tasks) (fun _ _ _ hs hx => fifo_step hs hx)
    (fifo_init data) hrun

omit [DecidableEq P] in
/-- The counters tell how many bytes there are. -/
theorem Fifo.count {s : State P} {task : P → Task} (h : Fifo s task) :
    s.pipe.count = s.sent.length - s.taken.length ∧ s.pipe.count ≤ PIPESIZE := by
  have hcount := h.ring.count pipesize_lt
  have hroom := h.ring.room
  rw [length_map] at hcount hroom
  rw [Pipe.count, UInt32.toNat_sub, Nat.add_comm, hcount]
  exact ⟨rfl, by omega⟩

/-- A pipe is a FIFO.  In every state that any number of calls by any number of
processes can lead to, after any number of bytes: what was taken out is the beginning
of what was put in; the counters are at most `PIPESIZE` apart and tell how many bytes
are in between; and the bytes of each `pipewrite` are the first ones of its buffer, in
order. -/
theorem run_fifo (data : Fin PIPESIZE → UInt8) (as : List (Action P)) (s : State P)
    (hrun : run as (State.init data) = some s) :
    s.taken <+: s.sent.map Sent.byte ∧
    (s.pipe.nwrite - s.pipe.nread).toNat = s.sent.length - s.taken.length ∧
    (s.pipe.nwrite - s.pipe.nread).toNat ≤ PIPESIZE ∧
    ∀ id buf, s.calls[id]? = some buf →
      ∃ m, (s.sent.filter fun x => decide (x.id = id)).map (fun x => some x.byte) =
        (range m).map buf := by
  have h := fifo_run hrun
  obtain ⟨hcount, hroom⟩ := h.count
  exact ⟨h.ring.front, hcount, hroom, h.order⟩

/-- One process writes three bytes, and another reads two of them. -/
def writeThenRead : List (Action Bool) :=
  [.write true (fun i => some (UInt8.ofNat i)) 3, .run true, .read false (fun _ => true) 2,
    .run false]

theorem run_fifo_writeThenRead :
    ∃ s, run writeThenRead (State.init fun _ => 0) = some s ∧ s.taken = [0, 1] ∧
      s.taken <+: s.sent.map Sent.byte := by
  cases hrun : run writeThenRead (State.init fun _ => 0) with
  | none => exact absurd hrun (by decide)
  | some s => exact ⟨s, rfl, by cases hrun; decide, (run_fifo (fun _ => 0) writeThenRead s hrun).1⟩

end Xv6.Pipes
