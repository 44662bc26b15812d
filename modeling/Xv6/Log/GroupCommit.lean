/-
  Log/GroupCommit.lean --- group commit: the protocol between the processes that
  call `begin_op`, `log_write` and `end_op`.

  Every section under `log.lock` is one atomic step, and so is the pair of checks
  `log_write` makes before it takes the lock; `commit()` runs without the lock, so
  between its steps everybody else may run.  A process that finds no room sleeps
  on `&log` until a `wakeup(&log)`, or until it is killed, and then tries again.

  The history records what the processes did, newest first.  It is not read by
  any step; it is what the statements talk about.
-/
import Xv6.Foundation.Interleave
import Xv6.Kernel.Log

set_option autoImplicit false

namespace Xv6.GroupCommit

open Function Foundation

/-- Where a process is. -/
inductive Pc where
  /-- outside of any operation -/
  | idle
  /-- in `begin_op`, about to take `log.lock` -/
  | retry
  /-- in `begin_op`, in `sleep(&log, &log.lock)` -/
  | asleep
  /-- between `begin_op` and `end_op` -/
  | inOp
  /-- in `log_write(b)`, past its two checks and about to take `log.lock` -/
  | checked (b : Nat)
  /-- in `end_op` with `do_commit` set, about to call `commit()` -/
  | commit
  /-- in `commit()`: the blocks are installed, `log.lh.n = 0` is next -/
  | installed (bs : List Nat)
  /-- in `end_op`, `commit()` has returned -/
  | committed
  deriving DecidableEq, Repr

/-- What happened. -/
inductive Event (P : Type) where
  | begun (p : P)
  | wrote (p : P) (b : Nat)
  | ended (p : P)
  | committed (bs : List Nat)
  deriving DecidableEq, Repr

/-- The log, where every process is, the history, and the panic if there was one. -/
structure State (P : Type) where
  log : Log
  pc : P → Pc
  hist : List (Event P)
  panic : Option String

/-- The atomic steps. -/
inductive Action (P : Type) where
  /-- call `begin_op` -/
  | begin (p : P)
  /-- one turn of `begin_op`'s loop -/
  | attempt (p : P)
  /-- a killed process stops sleeping -/
  | kill (p : P)
  /-- the checks of `log_write(b)` -/
  | check (p : P) (b : Nat)
  /-- the section of `log_write` -/
  | write (p : P)
  /-- the first section of `end_op` -/
  | endOp (p : P)
  /-- `write_log`, `write_head` and `install_trans` of `commit()` -/
  | install (p : P)
  /-- `log.lh.n = 0` and the last `write_head` of `commit()` -/
  | clear (p : P)
  /-- the second section of `end_op` -/
  | finish (p : P)
  deriving DecidableEq, Repr

/-- `wakeup(&log)`. -/
def Pc.wake : Pc → Pc
  | .asleep => .retry
  | pc => pc

variable {P : Type} [DecidableEq P]

/-- The state after `initlog`. -/
def boot (P : Type) (start size : Nat) : State P where
  log := { start, size, dev := ROOTDEV, outstanding := 0, committing := false, lh := [] }
  pc := fun _ => .idle
  hist := []
  panic := none

/-- One atomic step; `none` when the process is not at that point, or after a
panic. -/
def step (a : Action P) (s : State P) : Option (State P) :=
  if s.panic.isSome then none
  else match a with
  | .begin p =>
      if s.pc p = .idle then some { s with pc := update s.pc p .retry } else none
  | .attempt p =>
      if s.pc p = .retry then
        match s.log.beginOp with
        | some l =>
            some { s with
              log := l, pc := update s.pc p .inOp, hist := .begun p :: s.hist }
        | none => some { s with pc := update s.pc p .asleep }
      else none
  | .kill p =>
      if s.pc p = .asleep then some { s with pc := update s.pc p .retry } else none
  | .check p b =>
      if s.pc p = .inOp then
        match s.log.logWriteCheck with
        | .error e => some { s with panic := some e }
        | .ok _ => some { s with pc := update s.pc p (.checked b) }
      else none
  | .write p =>
      match s.pc p with
      | .checked b =>
          some { s with
            log := (s.log.absorb b).1
            pc := update s.pc p .inOp
            hist := .wrote p b :: s.hist }
      | _ => none
  | .endOp p =>
      if s.pc p = .inOp then
        match s.log.endOp with
        | .error e => some { s with panic := some e }
        | .ok (l, true) =>
            some { s with
              log := l, pc := update s.pc p .commit, hist := .ended p :: s.hist }
        | .ok (l, false) =>
            some { s with
              log := l
              pc := fun q => (update s.pc p .idle q).wake
              hist := .ended p :: s.hist }
      else none
  | .install p =>
      if s.pc p = .commit then
        -- `commit()` does nothing when `log.lh.n` is 0
        if s.log.lh = [] then some { s with pc := update s.pc p .committed }
        else some { s with pc := update s.pc p (.installed s.log.lh) }
      else none
  | .clear p =>
      match s.pc p with
      | .installed bs =>
          some { s with
            log := { s.log with lh := [] }
            pc := update s.pc p .committed
            hist := .committed bs :: s.hist }
      | _ => none
  | .finish p =>
      if s.pc p = .committed then
        some { s with
          log := s.log.endCommit
          pc := fun q => (update s.pc p .idle q).wake }
      else none

/-- The states reached by steps that satisfy `ok`. -/
inductive Reachable (ok : Action P → State P → Prop) (s₀ : State P) : State P → Prop where
  | init : Reachable ok s₀ s₀
  | step {s s' : State P} {a : Action P} (h : Reachable ok s₀ s) (hok : ok a s)
      (hs : GroupCommit.step a s = some s') : Reachable ok s₀ s'

/-- Run a list of steps, each of which has to satisfy `ok`. -/
def execute (ok : Action P → State P → Bool) : List (Action P) → State P → Option (State P)
  | [], s => some s
  | a :: as, s => if ok a s then (step a s).bind (execute ok as) else none

theorem reachable_execute {ok : Action P → State P → Bool}
    {Ok : Action P → State P → Prop} {s₀ s t : State P} {as : List (Action P)}
    (hok : ∀ a s, ok a s = true → Ok a s) (h : Reachable Ok s₀ s)
    (he : execute ok as s = some t) : Reachable Ok s₀ t := by
  induction as generalizing s with
  | nil => cases he; exact h
  | cons a as ih =>
    unfold execute at he
    split at he
    · rename_i ha
      cases hs : GroupCommit.step a s with
      | none => rw [hs] at he; cases he
      | some s' => rw [hs] at he; exact ih (.step h (hok a s ha) hs) he
    · cases he

/-- Everything a step can do. -/
inductive Step : State P → Action P → State P → Prop where
  | begin {s : State P} {p : P} (hpc : s.pc p = .idle) :
      Step s (.begin p) { s with pc := update s.pc p .retry }
  | enter {s : State P} {p : P} {l : Log} (hpc : s.pc p = .retry)
      (hl : s.log.beginOp = some l) :
      Step s (.attempt p) { s with
        log := l, pc := update s.pc p .inOp, hist := .begun p :: s.hist }
  | sleep {s : State P} {p : P} (hpc : s.pc p = .retry) (hl : s.log.beginOp = none) :
      Step s (.attempt p) { s with pc := update s.pc p .asleep }
  | kill {s : State P} {p : P} (hpc : s.pc p = .asleep) :
      Step s (.kill p) { s with pc := update s.pc p .retry }
  | checkPanic {s : State P} {p : P} {b : Nat} {e : String} (hpc : s.pc p = .inOp)
      (hl : s.log.logWriteCheck = .error e) :
      Step s (.check p b) { s with panic := some e }
  | check {s : State P} {p : P} {b : Nat} (hpc : s.pc p = .inOp)
      (hl : s.log.logWriteCheck = .ok ()) :
      Step s (.check p b) { s with pc := update s.pc p (.checked b) }
  | write {s : State P} {p : P} {b : Nat} (hpc : s.pc p = .checked b) :
      Step s (.write p) { s with
        log := (s.log.absorb b).1
        pc := update s.pc p .inOp
        hist := .wrote p b :: s.hist }
  | endPanic {s : State P} {p : P} {e : String} (hpc : s.pc p = .inOp)
      (hl : s.log.endOp = .error e) :
      Step s (.endOp p) { s with panic := some e }
  | endLast {s : State P} {p : P} {l : Log} (hpc : s.pc p = .inOp)
      (hl : s.log.endOp = .ok (l, true)) :
      Step s (.endOp p) { s with
        log := l, pc := update s.pc p .commit, hist := .ended p :: s.hist }
  | endOther {s : State P} {p : P} {l : Log} (hpc : s.pc p = .inOp)
      (hl : s.log.endOp = .ok (l, false)) :
      Step s (.endOp p) { s with
        log := l
        pc := fun q => (update s.pc p .idle q).wake
        hist := .ended p :: s.hist }
  | nothing {s : State P} {p : P} (hpc : s.pc p = .commit) (hl : s.log.lh = []) :
      Step s (.install p) { s with pc := update s.pc p .committed }
  | install {s : State P} {p : P} (hpc : s.pc p = .commit) (hl : s.log.lh ≠ []) :
      Step s (.install p) { s with pc := update s.pc p (.installed s.log.lh) }
  | clear {s : State P} {p : P} {bs : List Nat} (hpc : s.pc p = .installed bs) :
      Step s (.clear p) { s with
        log := { s.log with lh := [] }
        pc := update s.pc p .committed
        hist := .committed bs :: s.hist }
  | finish {s : State P} {p : P} (hpc : s.pc p = .committed) :
      Step s (.finish p) { s with
        log := s.log.endCommit
        pc := fun q => (update s.pc p .idle q).wake }

theorem step_cases {a : Action P} {s s' : State P} (h : step a s = some s') : Step s a s' := by
  unfold step at h
  split at h
  · cases h
  cases a with
  | begin p =>
    simp only [Option.ite_none_right_eq_some, Option.some.injEq] at h
    obtain ⟨hpc, rfl⟩ := h
    exact .begin hpc
  | attempt p =>
    simp only [Option.ite_none_right_eq_some] at h
    obtain ⟨hpc, h⟩ := h
    cases hl : s.log.beginOp with
    | some l => rw [hl] at h; cases h; exact .enter hpc hl
    | none => rw [hl] at h; cases h; exact .sleep hpc hl
  | kill p =>
    simp only [Option.ite_none_right_eq_some, Option.some.injEq] at h
    obtain ⟨hpc, rfl⟩ := h
    exact .kill hpc
  | check p b =>
    simp only [Option.ite_none_right_eq_some] at h
    obtain ⟨hpc, h⟩ := h
    cases hl : s.log.logWriteCheck with
    | error e => rw [hl] at h; cases h; exact .checkPanic hpc hl
    | ok _ => rw [hl] at h; cases h; exact .check hpc hl
  | write p =>
    simp only at h
    split at h
    · rename_i b hpc
      cases h
      exact .write hpc
    · cases h
  | endOp p =>
    simp only [Option.ite_none_right_eq_some] at h
    obtain ⟨hpc, h⟩ := h
    cases hl : s.log.endOp with
    | error e => rw [hl] at h; cases h; exact .endPanic hpc hl
    | ok r =>
      obtain ⟨l, b⟩ := r
      rw [hl] at h
      cases b with
      | true => cases h; exact .endLast hpc hl
      | false => cases h; exact .endOther hpc hl
  | install p =>
    simp only [Option.ite_none_right_eq_some] at h
    obtain ⟨hpc, h⟩ := h
    split at h
    · rename_i hl; cases h; exact .nothing hpc hl
    · rename_i hl; cases h; exact .install hpc hl
  | clear p =>
    simp only at h
    split at h
    · rename_i bs hpc
      cases h
      exact .clear hpc
    · cases h
  | finish p =>
    simp only [Option.ite_none_right_eq_some, Option.some.injEq] at h
    obtain ⟨hpc, rfl⟩ := h
    exact .finish hpc

end Xv6.GroupCommit
