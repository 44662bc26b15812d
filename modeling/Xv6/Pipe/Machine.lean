/-
  Pipe/Machine.lean --- `pipe.c`, with `sleep` and `wakeup` and `kill` of `proc.c`.

  One step is one stretch that holds `pi->lock`: from where a call takes the lock, at
  its start or on its way out of `sleep`, to where it lets go of it, on return or on
  its way into `sleep`.  So `pi->lock` is free in every state.  `wakeup` is part of the
  stretch that calls it, and `kill` is a step of its own.  A stretch looks at `killed` at
  most once.  A kill that comes before that is as good as one before the stretch; one
  that comes after it finds the process not asleep yet, and does not keep it from going
  to sleep (`late`).

  Any process may close either end at any time.  Once both are closed the pipe is
  freed, and there are no more stretches.

  What went into `data[]` and what came out of it is recorded, and for every byte that
  went in, which call of `pipewrite` it belongs to.
-/
import Mathlib.Data.UInt
import Xv6.Foundation.Ring
import Xv6.Foundation.Runs

set_option autoImplicit false

namespace Xv6.Pipes

open Function Foundation

def PIPESIZE : Nat := 512

instance : NeZero PIPESIZE := ⟨by decide⟩

/-! ## State -/

/-- The channels processes sleep on: `&pi->nread` and `&pi->nwrite`. -/
inductive Chan where
  | nread
  | nwrite
  deriving DecidableEq

/-- `struct pipe`. -/
structure Pipe where
  data : Fin PIPESIZE → UInt8
  /-- number of bytes read -/
  nread : UInt32
  /-- number of bytes written -/
  nwrite : UInt32
  /-- read fd is still open -/
  readopen : Bool
  /-- write fd is still open -/
  writeopen : Bool

/-- `pi->nwrite == pi->nread + PIPESIZE`. -/
def Pipe.full (pi : Pipe) : Bool := pi.nwrite == pi.nread + UInt32.ofNat PIPESIZE

/-- `pi->nread == pi->nwrite`. -/
def Pipe.empty (pi : Pipe) : Bool := pi.nread == pi.nwrite

/-- The number of bytes in the pipe. -/
def Pipe.count (pi : Pipe) : Nat := (pi.nwrite - pi.nread).toNat

/-- What a process is doing with the pipe.  The buffer of a writer is what `copyin`
returns for each of its bytes; that of a reader, whether `copyout` succeeds. -/
inductive Task where
  | none
  /-- in the `id`th call of `pipewrite`, with `i` of `n` bytes written -/
  | writing (id : Nat) (buf : Nat → Option UInt8) (n : Int) (i : Nat)
  | reading (buf : Nat → Bool) (n : Int)

/-- The part of `struct proc` that matters. -/
structure Proc where
  killed : Bool
  /-- the channel, if the state is `SLEEPING` -/
  sleeping : Option Chan
  task : Task

/-- A byte that went into the pipe, and the call that put it there. -/
structure Sent where
  id : Nat
  byte : UInt8

structure State (P : Type) where
  pipe : Pipe
  freed : Bool
  proc : P → Proc
  /-- the buffers of all calls of `pipewrite` so far -/
  calls : List (Nat → Option UInt8)
  sent : List Sent
  taken : List UInt8

variable {P : Type}

namespace State

/-- After `pipealloc`. -/
def init (data : Fin PIPESIZE → UInt8) : State P where
  pipe := ⟨data, 0, 0, true, true⟩
  freed := false
  proc _ := ⟨false, none, .none⟩
  calls := []
  sent := []
  taken := []

def setProc [DecidableEq P] (s : State P) (p : P) (x : Proc) : State P :=
  { s with proc := update s.proc p x }

/-- `wakeup(chan)`. -/
def wakeup (s : State P) (chan : Chan) : State P :=
  { s with proc := fun q =>
      if (s.proc q).sleeping = some chan then { s.proc q with sleeping := none } else s.proc q }

/-- `pi->data[pi->nwrite++ % PIPESIZE] = ch`. -/
def put (s : State P) (id : Nat) (ch : UInt8) : State P :=
  { s with
    pipe := { s.pipe with
      data := update s.pipe.data (Fin.ofNat PIPESIZE s.pipe.nwrite.toNat) ch
      nwrite := s.pipe.nwrite + 1 }
    sent := s.sent ++ [⟨id, ch⟩] }

/-- `ch = pi->data[pi->nread++ % PIPESIZE]`. -/
def take (s : State P) : State P :=
  { s with
    pipe := { s.pipe with nread := s.pipe.nread + 1 }
    taken := s.taken ++ [s.pipe.data (Fin.ofNat PIPESIZE s.pipe.nread.toNat)] }

end State

/-! ## Counting -/

theorem Pipe.full_iff_count (pi : Pipe) : pi.full = true ↔ pi.count = PIPESIZE := by
  have h512 : (UInt32.ofNat PIPESIZE).toNat = PIPESIZE := by decide
  have hsize : PIPESIZE = 512 := rfl
  have hread := pi.nread.toNat_lt
  have hwrite := pi.nwrite.toNat_lt
  rw [full, count, beq_iff_eq, ← UInt32.toNat_inj, UInt32.toNat_add, UInt32.toNat_sub, h512]
  omega

theorem Pipe.empty_iff_count (pi : Pipe) : pi.empty = true ↔ pi.count = 0 := by
  have hread := pi.nread.toNat_lt
  have hwrite := pi.nwrite.toNat_lt
  rw [empty, count, beq_iff_eq, ← UInt32.toNat_inj, UInt32.toNat_sub]
  omega

theorem State.count_put {s : State P} (id : Nat) (ch : UInt8) (h : s.pipe.count < PIPESIZE) :
    (s.put id ch).pipe.count = s.pipe.count + 1 := by
  have hsize : PIPESIZE = 512 := rfl
  have hput : (s.put id ch).pipe.count = (s.pipe.nwrite + 1 - s.pipe.nread).toNat := rfl
  rw [Pipe.count, UInt32.toNat_sub] at h
  rw [hput, Pipe.count, UInt32.toNat_sub, UInt32.toNat_sub, UInt32.toNat_add, UInt32.toNat_one]
  omega

theorem State.count_take {s : State P} (h : s.pipe.count ≠ 0) :
    s.take.pipe.count + 1 = s.pipe.count := by
  have hread := s.pipe.nread.toNat_lt
  have hwrite := s.pipe.nwrite.toNat_lt
  have htake : s.take.pipe.count = (s.pipe.nwrite - (s.pipe.nread + 1)).toNat := rfl
  rw [Pipe.count, UInt32.toNat_sub] at h
  rw [htake, Pipe.count, UInt32.toNat_sub, UInt32.toNat_sub, UInt32.toNat_add, UInt32.toNat_one]
  omega

/-! ## Stretches -/

/-- How a stretch ends: in `sleep`, with the rest of the task, or on return. -/
inductive Stop where
  | sleep (chan : Chan) (task : Task)
  | ret (r : Int)

/-- The loop of `pipewrite` from byte `i` on, with `m` bytes to go. -/
def pipewriteLoop (p : P) (id : Nat) (buf : Nat → Option UInt8) (n : Int) :
    Nat → Nat → State P → State P × Stop
  | 0, i, s => (s.wakeup .nread, .ret i)
  | m + 1, i, s =>
      if s.pipe.full = true then
        if s.pipe.readopen = false ∨ (s.proc p).killed = true then (s, .ret (-1))
        else (s.wakeup .nread, .sleep .nwrite (.writing id buf n i))
      else
        match buf i with
        | none => (s.wakeup .nread, .ret i)
        | some ch => pipewriteLoop p id buf n m (i + 1) (s.put id ch)

/-- `pipewrite`, from where it has taken the lock. -/
def pipewrite (p : P) (id : Nat) (buf : Nat → Option UInt8) (n : Int) (i : Nat) (s : State P) :
    State P × Stop :=
  pipewriteLoop p id buf n (n - i).toNat i s

/-- The second loop of `piperead`, with `m` bytes to go. -/
def pipereadLoop (buf : Nat → Bool) : Nat → Nat → State P → State P × Stop
  | 0, i, s => (s.wakeup .nwrite, .ret i)
  | m + 1, i, s =>
      if s.pipe.empty = true then (s.wakeup .nwrite, .ret i)
      else if buf i = true then pipereadLoop buf m (i + 1) s.take
      else (s.take.wakeup .nwrite, .ret i)

/-- `piperead`, from where it has taken the lock. -/
def piperead (p : P) (buf : Nat → Bool) (n : Int) (s : State P) : State P × Stop :=
  if s.pipe.empty = true ∧ s.pipe.writeopen = true then
    if (s.proc p).killed = true then (s, .ret (-1))
    else (s, .sleep .nread (.reading buf n))
  else pipereadLoop buf n.toNat 0 s

/-- The first half of `pipeclose`. -/
def closeEnd (writable : Bool) (s : State P) : State P :=
  if writable = true then
    { s with pipe := { s.pipe with writeopen := false } }.wakeup .nread
  else
    { s with pipe := { s.pipe with readopen := false } }.wakeup .nwrite

def pipeclose (writable : Bool) (s : State P) : State P :=
  let s := closeEnd writable s
  if s.pipe.readopen = false ∧ s.pipe.writeopen = false then { s with freed := true } else s

/-! ## Steps -/

inductive Action (P : Type) where
  /-- a process calls `pipewrite` -/
  | write (p : P) (buf : Nat → Option UInt8) (n : Int)
  /-- a process calls `piperead` -/
  | read (p : P) (buf : Nat → Bool) (n : Int)
  /-- the next stretch of the process's call -/
  | run (p : P)
  | close (writable : Bool)
  /-- `kill`, by anyone; is it too late to keep the process awake? -/
  | kill (p : P) (late : Bool)

/-- The stretch the process is about to run. -/
def stretch (p : P) (s : State P) : Option (State P × Stop) :=
  match (s.proc p).task with
  | .none => none
  | .writing id buf n i => some (pipewrite p id buf n i s)
  | .reading buf n => some (piperead p buf n s)

variable [DecidableEq P]

/-- The process goes to sleep, or is done. -/
def finish (p : P) : State P × Stop → State P
  | (s, .sleep chan task) => s.setProc p { s.proc p with sleeping := some chan, task }
  | (s, .ret _) => s.setProc p { s.proc p with task := .none }

def step : Action P → State P → Option (State P)
  | .write p buf n, s =>
      match (s.proc p).task with
      | .none =>
          some { s.setProc p { s.proc p with task := .writing s.calls.length buf n 0 } with
            calls := s.calls ++ [buf] }
      | _ => none
  | .read p buf n, s =>
      match (s.proc p).task with
      | .none => some (s.setProc p { s.proc p with task := .reading buf n })
      | _ => none
  | .run p, s =>
      if s.freed = true ∨ (s.proc p).sleeping ≠ none then none
      else (stretch p s).map (finish p)
  | .close writable, s => if s.freed = true then none else some (pipeclose writable s)
  | .kill p late, s =>
      let sleeping := if late = true then (s.proc p).sleeping else none
      some (s.setProc p { s.proc p with killed := true, sleeping })

/-- Any number of steps; `none` if one of them cannot be taken. -/
def run : List (Action P) → State P → Option (State P)
  | [], s => some s
  | a :: as, s => (step a s).bind (run as)

theorem run_isRun : IsRun (step (P := P)) run := ⟨fun _ => rfl, fun _ _ _ => rfl⟩

end Xv6.Pipes
