/-
  Proc/Machine.lean --- `fork`, `exit`, `wait` and `kill` of `proc.c`.

  Every section that holds a lock of the process table is one step, and so is every
  look at a field that the code reads without the lock it belongs to: `pp->parent` in
  `reparent` and `np->parent` in `wait`.  Locks that are held from one section to the
  next (`exit` holds two of them while it goes through the table) are part of the
  state, and a section that needs a lock cannot run before it is free.

  What a process is doing is its `Pc`.  Besides the four calls a process can be
  preempted where it holds no lock, and go to sleep on a channel of some other part of
  the kernel and be woken up there.  Any number of processors run processes.

  The parts of `fork`, `exit` and `wait` that are about memory and files are not here;
  what is left of them is that an allocation may fail, and `copyout`.  Three other models have
  these calls, each for what this one leaves out: `Proc/Slots.lean` for all fields of an entry
  that `allocproc` and `freeproc` set, `Vm/System.lean` for memory and files, and
  `Sched/Machine.lean` for processors and interrupts.

  For every process there is a number that is never used again (`gen`; a pid is an
  `int` and wraps), and a record of all processes, of what was passed to `exit` and of
  what `wait` returned.
-/
import Xv6.Foundation.Runs
import Xv6.Kernel.Layout

set_option autoImplicit false

namespace Xv6.Procs

open Function

/-! ## State -/

/-- `enum procstate`. -/
inductive ProcState where
  | unused
  | sleeping
  | runnable
  | running
  | zombie
  deriving DecidableEq

/-- What a process sleeps on: an entry of the process table, in `wait`, or something
else. -/
inductive Chan where
  | proc (p : Pid)
  | other (c : Nat)
  deriving DecidableEq

/-- `struct proc`, without the fields that are private to the process. -/
structure Proc where
  /-- the process that holds `p->lock` -/
  lock : Option Pid
  state : ProcState
  parent : Option Pid
  /-- If non-zero, sleeping on chan -/
  chan : Option Chan
  killed : Bool
  /-- Exit status to be returned to parent's wait -/
  xstate : Int
  /-- Process ID -/
  pid : Int
  gen : Nat

/-- Where a process is. -/
inductive Pc where
  | user
  /-- in `sleep`, called from some other part of the kernel -/
  | blocked
  /-- `allocproc`, about to lock entry `i` -/
  | forkScan (i : Nat)
  /-- `exit`, about to lock `initproc` -/
  | wakeInit (status : Int)
  /-- about to lock itself and read `p->parent` -/
  | readParent (status : Int)
  /-- about to lock `original_parent` -/
  | lockParent (status : Int) (op : Pid)
  /-- about to lock itself -/
  | lockSelf (status : Int) (op : Pid)
  /-- `reparent`, about to look at `pp->parent` of entry `i` -/
  | reparent (status : Int) (op : Pid) (i : Nat)
  /-- about to lock the child `pp` -/
  | giveAway (status : Int) (op pp : Pid)
  /-- in `sched` for the last time -/
  | dying
  | dead
  /-- `wait`, about to lock itself; was `addr` zero? -/
  | waitLock (noaddr : Bool)
  /-- about to look at `np->parent` of entry `i` -/
  | waitScan (noaddr : Bool) (i : Nat) (havekids : Bool)
  /-- about to lock the child `np` -/
  | waitChild (noaddr : Bool) (np : Pid) (havekids : Bool)
  /-- in `sleep`, called from `wait` -/
  | waitSleep (noaddr : Bool)
  /-- `kill`, about to lock entry `i` -/
  | killScan (pid : Int) (i : Nat)
  deriving DecidableEq

/-- A call of `exit`. -/
structure Exit where
  gen : Nat
  pid : Int
  status : Int
  deriving DecidableEq

/-- A `wait` that returned a child. -/
structure Report where
  exit : Exit
  /-- who called `wait` -/
  caller : Pid
  /-- the parent of the child at that time -/
  parent : Option Pid

structure State where
  proc : Pid → Proc
  pc : Pid → Pc
  nextpid : Int
  /-- the next process number -/
  nextgen : Nat
  /-- number and pid of every process there was -/
  forks : List (Nat × Int)
  exits : List Exit
  reports : List Report

/-- The first process; `userinit` finds the first entry of the table free. -/
def initproc : Pid := 0

/-- `nextpid + 1` for an `int`. -/
def incrInt (x : Int) : Int := if x = 2 ^ 31 - 1 then -2 ^ 31 else x + 1

/-- What the process table has in an entry that was never used. -/
def Proc.zero : Proc := ⟨none, .unused, none, none, false, 0, 0, 0⟩

/-- After `userinit`. -/
def boot : State where
  proc := update (fun _ => Proc.zero) initproc { Proc.zero with state := .runnable, pid := 1 }
  pc _ := .user
  nextpid := 2
  nextgen := 1
  forks := [(0, 1)]
  exits := []
  reports := []

namespace State

def setProc (s : State) (p : Pid) (x : Proc) : State :=
  { s with proc := update s.proc p x }

def setPc (s : State) (p : Pid) (pc : Pc) : State :=
  { s with pc := update s.pc p pc }

/-- `acquire(&q->lock)`, by `p`. -/
def acquire (s : State) (p q : Pid) : State :=
  s.setProc q { s.proc q with lock := some p }

/-- `release(&q->lock)`. -/
def release (s : State) (q : Pid) : State :=
  s.setProc q { s.proc q with lock := none }

/-- Can the lock be taken? -/
def free (s : State) (q : Pid) : Bool := (s.proc q).lock.isNone

/-- `wakeup1(q)`. -/
def wakeup1 (s : State) (q : Pid) : State :=
  if (s.proc q).chan = some (.proc q) ∧ (s.proc q).state = .sleeping then
    s.setProc q { s.proc q with state := .runnable }
  else s

end State

/-! ## Sections -/

/-- What happens to the allocations of a `fork`. -/
inductive Alloc where
  | ok
  /-- there is no page for the trapframe -/
  | noTrapframe
  /-- there is no memory for the page table, or for the copy of the parent's memory -/
  | noMemory

/-- `freeproc`. -/
def freeproc (x : Proc) : Proc :=
  { x with
    pid := 0
    parent := none
    chan := none
    killed := false
    xstate := 0
    state := .unused }

/-- `fork` on a free entry of the table, which is locked all the time. -/
def forkInto (p np : Pid) (alloc : Alloc) (s : State) : State :=
  let x := { s.proc np with pid := s.nextpid }
  let s := { s with nextpid := incrInt s.nextpid }
  match alloc with
  | .noTrapframe => (s.setProc np x).setPc p .user
  | .noMemory => (s.setProc np (freeproc x)).setPc p .user
  | .ok =>
      let x := { x with parent := some p, state := .runnable, gen := s.nextgen }
      let s := { s with nextgen := s.nextgen + 1, forks := s.forks ++ [(x.gen, x.pid)] }
      ((s.setProc np x).setPc np .user).setPc p .user

/-- One round of the loop of `allocproc`. -/
def forkScan (p : Pid) (i : Nat) (alloc : Alloc) (s : State) : Option State :=
  if h : i < NPROC then
    if s.free ⟨i, h⟩ = true then
      if (s.proc ⟨i, h⟩).state = .unused then some (forkInto p ⟨i, h⟩ alloc s)
      else some (s.setPc p (.forkScan (i + 1)))
    else none
  else some (s.setPc p .user)

def wakeInit (p : Pid) (status : Int) (s : State) : Option State :=
  if s.free initproc = true then some ((s.wakeup1 initproc).setPc p (.readParent status)) else none

/-- A process without a parent cannot go on. -/
def readParent (p : Pid) (status : Int) (s : State) : Option State :=
  if s.free p = true then
    (s.proc p).parent.map fun op => s.setPc p (.lockParent status op)
  else none

def lockParent (p : Pid) (status : Int) (op : Pid) (s : State) : Option State :=
  if s.free op = true then some ((s.acquire p op).setPc p (.lockSelf status op)) else none

def lockSelf (p : Pid) (status : Int) (op : Pid) (s : State) : Option State :=
  if s.free p = true then some ((s.acquire p p).setPc p (.reparent status op 0)) else none

/-- The end of `exit`: both locks are held, and the children are given away. -/
def becomeZombie (p : Pid) (status : Int) (op : Pid) (s : State) : State :=
  let s := s.wakeup1 op
  let s := s.setProc p { s.proc p with xstate := status, state := .zombie }
  let s := { s with exits := s.exits ++ [Exit.mk (s.proc p).gen (s.proc p).pid status] }
  (s.release op).setPc p .dying

/-- One round of the loop of `reparent`, up to the lock. -/
def reparent (p : Pid) (status : Int) (op : Pid) (i : Nat) (s : State) : State :=
  if h : i < NPROC then
    if (s.proc ⟨i, h⟩).parent = some p then s.setPc p (.giveAway status op ⟨i, h⟩)
    else s.setPc p (.reparent status op (i + 1))
  else becomeZombie p status op s

def giveAway (p : Pid) (status : Int) (op pp : Pid) (s : State) : Option State :=
  if s.free pp = true then
    some ((s.setProc pp { s.proc pp with parent := some initproc }).setPc p
      (.reparent status op (pp.val + 1)))
  else none

def waitLock (p : Pid) (noaddr : Bool) (s : State) : Option State :=
  if s.free p = true then some ((s.acquire p p).setPc p (.waitScan noaddr 0 false)) else none

/-- One round of the scan of `wait`, up to the child's lock, or what comes after the
scan. -/
def waitScan (p : Pid) (noaddr : Bool) (i : Nat) (havekids : Bool) (s : State) : State :=
  if h : i < NPROC then
    if (s.proc ⟨i, h⟩).parent = some p then s.setPc p (.waitChild noaddr ⟨i, h⟩ havekids)
    else s.setPc p (.waitScan noaddr (i + 1) havekids)
  else if havekids = false ∨ (s.proc p).killed = true then (s.release p).setPc p .user
  else
    -- the scheduler releases the lock
    (s.setProc p { s.proc p with chan := some (.proc p), state := .sleeping, lock := none }).setPc
      p (.waitSleep noaddr)

/-- The child is locked; `copied` is whether `copyout` succeeds. -/
def waitChild (p : Pid) (noaddr : Bool) (np : Pid) (copied : Bool) (s : State) : Option State :=
  if s.free np = true then
    if (s.proc np).state = .zombie then
      if noaddr = false ∧ copied = false then some ((s.release p).setPc p .user)
      else
        let x := s.proc np
        let s := { s with reports := s.reports ++ [Report.mk ⟨x.gen, x.pid, x.xstate⟩ p x.parent] }
        some (((s.setProc np (freeproc x)).release p).setPc p .user)
    else some (s.setPc p (.waitScan noaddr (np.val + 1) true))
  else none

/-- One round of the loop of `kill`. -/
def killScan (p : Pid) (pid : Int) (i : Nat) (s : State) : Option State :=
  if h : i < NPROC then
    if s.free ⟨i, h⟩ = true then
      let x := s.proc ⟨i, h⟩
      if x.pid = pid then
        let state := if x.state = .sleeping then .runnable else x.state
        some ((s.setProc ⟨i, h⟩ { x with killed := true, state }).setPc p .user)
      else some (s.setPc p (.killScan pid (i + 1)))
    else none
  else some (s.setPc p .user)

/-! ## Steps -/

inductive Call where
  | fork
  | exit (status : Int)
  | wait (noaddr : Bool)
  | kill (pid : Int)

/-- The first section of a call.  `exit` panics in `initproc`. -/
def Call.start (p : Pid) : Call → Option Pc
  | .fork => some (.forkScan 0)
  | .exit status => if p = initproc then none else some (.wakeInit status)
  | .wait noaddr => some (.waitLock noaddr)
  | .kill pid => some (.killScan pid 0)

inductive Action where
  /-- a process makes a call -/
  | call (p : Pid) (c : Call)
  /-- the next section of its call; how allocations and `copyout` in it end -/
  | run (p : Pid) (alloc : Alloc) (copied : Bool)
  /-- `scheduler` picks a process -/
  | schedule (p : Pid)
  /-- a timer interrupt -/
  | yield (p : Pid)
  /-- `sleep`, in some other part of the kernel -/
  | block (p : Pid) (c : Nat)
  /-- a `wakeup` there reaches this process -/
  | unblock (p : Pid)

/-- Interrupts are on, so the process can be preempted. -/
def Pc.preemptible : Pc → Bool
  | .user | .forkScan _ | .wakeInit _ | .readParent _ | .lockParent _ _ | .waitLock _
  | .killScan _ _ => true
  | .blocked | .lockSelf _ _ | .reparent _ _ _ | .giveAway _ _ _ | .dying | .dead
  | .waitScan _ _ _ | .waitChild _ _ _ | .waitSleep _ => false

/-- The next section of a process's call. -/
def runSection (p : Pid) (alloc : Alloc) (copied : Bool) (s : State) : Option State :=
  match s.pc p with
  | .forkScan i => forkScan p i alloc s
  | .wakeInit status => wakeInit p status s
  | .readParent status => readParent p status s
  | .lockParent status op => lockParent p status op s
  | .lockSelf status op => lockSelf p status op s
  | .reparent status op i => some (reparent p status op i s)
  | .giveAway status op pp => giveAway p status op pp s
  | .waitLock noaddr => waitLock p noaddr s
  | .waitScan noaddr i havekids => some (waitScan p noaddr i havekids s)
  | .waitChild noaddr np _ => waitChild p noaddr np copied s
  | .killScan pid i => killScan p pid i s
  | .user | .blocked | .dying | .dead | .waitSleep _ => none

/-- Where a process goes on that was picked by the scheduler. -/
def resume (p : Pid) (s : State) : State :=
  match s.pc p with
  | .waitSleep noaddr =>
      (s.setProc p { s.proc p with state := .running, chan := none, lock := some p }).setPc p
        (.waitScan noaddr 0 false)
  | .blocked => (s.setProc p { s.proc p with state := .running, chan := none }).setPc p .user
  | _ => s.setProc p { s.proc p with state := .running }

def step : Action → State → Option State
  | .call p c, s =>
      if (s.proc p).state = .running ∧ s.pc p = .user then (c.start p).map (s.setPc p) else none
  | .run p alloc copied, s =>
      if (s.proc p).state = .running then runSection p alloc copied s
      -- the scheduler releases the lock of a process that has exited
      else if s.pc p = .dying then some ((s.release p).setPc p .dead)
      else none
  | .schedule p, s =>
      if (s.proc p).state = .runnable ∧ s.free p = true then some (resume p s) else none
  | .yield p, s =>
      if (s.proc p).state = .running ∧ (s.pc p).preemptible = true ∧ s.free p = true then
        some (s.setProc p { s.proc p with state := .runnable })
      else none
  | .block p c, s =>
      if (s.proc p).state = .running ∧ s.pc p = .user ∧ s.free p = true then
        some ((s.setProc p { s.proc p with state := .sleeping, chan := some (.other c) }).setPc p
          .blocked)
      else none
  | .unblock p, s =>
      match (s.proc p).chan with
      | some (.other _) =>
          if (s.proc p).state = .sleeping ∧ s.free p = true then
            some (s.setProc p { s.proc p with state := .runnable })
          else none
      | _ => none

/-- Any number of steps; `none` if one of them cannot be taken. -/
def run : List Action → State → Option State
  | [], s => some s
  | a :: as, s => (step a s).bind (run as)

theorem run_isRun : Foundation.IsRun step run := ⟨fun _ => rfl, fun _ _ _ => rfl⟩

end Xv6.Procs
