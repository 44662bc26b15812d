/-
  Sched/Machine.lean --- processors, their schedulers, and the processes they run.

  A processor executes its scheduler or, on the kernel stack of a process, that process; `swtch`
  goes from one to the other.  `p->lock` is held by a processor, and stays with it over a
  `swtch`: the scheduler takes the lock of a process that then releases it, and a process takes
  its own lock that then the scheduler releases.

  One step takes a lock, releases one, or changes something under one.  A look at an entry of the
  table that takes its lock, and releases it again without taking another, is one step, and needs
  the lock to be free.

  Besides the calls of `proc.c` and `sleeplock.c` a process may hold a spin lock of some other part
  of the kernel, and call `sleep` and `wakeup` there.  Interrupts come while no lock is held, to
  processes and to schedulers; a handler may take a spin lock and call `wakeup`, and when it
  interrupts a process it may call `yield`.

  Calls of `sleep` are counted, and who takes a spin lock notes who is in a `sleep` with that lock
  at that time.  Neither is in the source.

  Who is whose child, and what `wait` returns, is in `Proc/Machine.lean`: there a process holds a
  lock, and giving up the processor is one step.
-/
import Xv6.Proc.Machine

set_option autoImplicit false

namespace Xv6.Sched

open Function

open Procs (ProcState initproc incrInt)

/-! ## State -/

/-- A spin lock other than those of processes: that of some other part of the kernel, or the one
inside of a sleep lock. -/
inductive Lk (L S : Type) where
  | other (l : L)
  | inner (k : S)
  deriving DecidableEq

/-- What processes sleep on with a spin lock: a sleep lock, or something else. -/
inductive Key (S : Type) where
  | sleeplock (k : S)
  | other (n : Nat)
  deriving DecidableEq

/-- What processes sleep on: an entry of the process table, in `wait`, or one of those. -/
inductive Chan (S : Type) where
  | proc (p : Pid)
  | key (k : Key S)
  deriving DecidableEq

/-- What `sched` was called for, and returns to. -/
inductive Ret (L S : Type) where
  | yield
  | sleep (chan : Key S) (lk : Lk L S)
  /-- `sleep(p, &p->lock)` -/
  | wait
  | exit
  /-- where a new process starts -/
  | forkret

/-- Where a process or an interrupt handler is. -/
inductive Pc (L S : Type) where
  /-- in no call; in a handler, on its way out -/
  | user
  /-- `acquire(l)` -/
  | want (l : L)
  /-- holds `l` -/
  | crit (l : L)
  /-- `acquiresleep`, at `acquire(&lk->lk)` -/
  | acquiresleep (k : S)
  /-- at `while (lk->locked)` -/
  | testing (k : S)
  /-- `releasesleep`, at `acquire(&lk->lk)` -/
  | releasesleep (k : S)
  /-- at `lk->locked = 0` -/
  | unlocking (k : S)
  /-- at `release(&lk->lk)` -/
  | releasing (k : S)
  /-- `wakeup`, at entry `i`, called with a spin lock -/
  | wakeup (chan : Key S) (lk : Lk L S) (i : Nat)
  /-- `sleep`, at `acquire(&p->lock)` -/
  | sleepLock (chan : Key S) (lk : Lk L S)
  /-- at `release(lk)` -/
  | sleepRelease (chan : Key S) (lk : Lk L S)
  /-- at `p->chan = chan` -/
  | sleepState (chan : Key S) (lk : Lk L S)
  /-- at `acquire(lk)` -/
  | sleepAgain (lk : Lk L S)
  /-- at `swtch` in `sched` -/
  | sched (r : Ret L S)
  /-- behind it -/
  | switched (r : Ret L S)
  | yield
  | kill (pid : Int) (i : Nat)
  /-- `allocproc`, at entry `i` -/
  | forkScan (i : Nat)
  /-- `exit`, at `acquire(&initproc->lock)` -/
  | exitInit
  /-- at the first `acquire(&p->lock)` -/
  | exitRead
  | exitLockParent (op : Pid)
  | exitLockSelf (op : Pid)
  /-- `reparent`, at `if(pp->parent == p)` -/
  | reparent (op : Pid) (i : Nat)
  /-- at `acquire(&pp->lock)` -/
  | giveAway (op pp : Pid)
  /-- at `wakeup1(original_parent)` -/
  | exitDie (op : Pid)
  /-- at `release(&original_parent->lock)` -/
  | exitRelease (op : Pid)
  /-- `wait`, at `acquire(&p->lock)` -/
  | waitLock
  /-- at `if(np->parent == p)` -/
  | waitScan (i : Nat) (havekids : Bool)
  /-- at `acquire(&np->lock)` -/
  | waitChild (np : Pid)
  /-- at `if(np->state == ZOMBIE)` -/
  | waitFound (np : Pid)
  | dead

/-- No lock is held, and interrupts are on. -/
def Pc.interruptible {L S : Type} : Pc L S → Bool
  | .user | .want _ | .acquiresleep _ | .releasesleep _ | .sleepAgain _ | .yield | .kill _ _
  | .forkScan _ | .exitInit | .exitRead | .exitLockParent _ | .waitLock => true
  | _ => false

/-- `struct proc`, without the fields that are private to the process. -/
structure Proc (S : Type) where
  state : ProcState
  parent : Option Pid
  /-- If non-zero, sleeping on chan -/
  chan : Option (Chan S)
  killed : Bool
  /-- Process ID -/
  pid : Int

/-- Where `scheduler` is on a processor. -/
inductive Loop where
  /-- at `acquire(&p->lock)` of entry `i` -/
  | scan (i : Nat)
  /-- in `swtch`: the processor is on the kernel stack of this process -/
  | gone (p : Pid)
  /-- behind it -/
  | back (p : Pid)

structure Cpu where
  /-- The process running on this cpu, or null. -/
  proc : Option Pid
  loop : Loop

/-- Whose stack code runs on. -/
inductive Ctx (C : Type) where
  | proc (p : Pid)
  | sched (c : C)
  deriving DecidableEq

theorem proc_ne {C : Type} {p p' : Pid} (h : p' ≠ p) : Ctx.proc p' ≠ (Ctx.proc p : Ctx C) :=
  fun heq => h (Ctx.proc.inj heq)

structure State (C L S : Type) where
  proc : Pid → Proc S
  /-- the processor that holds `p->lock` -/
  plock : Pid → Option C
  slock : Lk L S → Option C
  /-- `locked` of a sleep lock: Is the lock held? -/
  locked : S → Bool
  cpu : C → Cpu
  pc : Ctx C → Pc L S
  /-- where a process was interrupted -/
  below : Pid → Option { pc : Pc L S // pc.interruptible = true }
  nextpid : Int
  /-- how often a process has called `sleep` with a spin lock -/
  sleeps : Pid → Nat
  /-- the calls of `sleep` that were going on when this code last took a spin lock -/
  seen : Ctx C → Pid → Option Nat

/-- What the process table has in an entry that was never used. -/
def Proc.zero {S : Type} : Proc S := ⟨.unused, none, none, false, 0⟩

/-- After `userinit`. -/
def boot {C L S : Type} : State C L S where
  proc := update (fun _ => Proc.zero) initproc { Proc.zero with state := .runnable, pid := 1 }
  plock _ := none
  slock _ := none
  locked _ := false
  cpu _ := ⟨none, .scan 0⟩
  pc
    | .proc p => if p = initproc then .switched .forkret else .dead
    | .sched _ => .user
  below _ := none
  nextpid := 2
  sleeps _ := 0
  seen _ _ := none

variable {C L S : Type}

/-- In a call of `sleep` with this spin lock. -/
def Pc.inSleep [DecidableEq L] [DecidableEq S] (lk : Lk L S) : Pc L S → Bool
  | .sleepLock _ lk' | .sleepRelease _ lk' | .sleepState _ lk' | .sleepAgain lk'
  | .sched (.sleep _ lk') | .switched (.sleep _ lk') => lk' = lk
  | _ => false

variable [DecidableEq C] [DecidableEq L] [DecidableEq S]

namespace State

def setProc (s : State C L S) (q : Pid) (x : Proc S) : State C L S :=
  { s with proc := update s.proc q x }

def goto (s : State C L S) (x : Ctx C) (pc : Pc L S) : State C L S :=
  { s with pc := update s.pc x pc }

/-- `q->lock` is taken, or released. -/
def setLock (s : State C L S) (q : Pid) (holder : Option C) : State C L S :=
  { s with plock := update s.plock q holder }

/-- `acquire(&q->lock)` -/
def acquire (s : State C L S) (c : C) (q : Pid) : Option (State C L S) :=
  if s.plock q = none then some (s.setLock q (some c)) else none

/-- `acquire(&q->lock)`, a change, and `release(&q->lock)` -/
def visit (s : State C L S) (q : Pid) (f : Proc S → Proc S) : Option (State C L S) :=
  if s.plock q = none then some (s.setProc q (f (s.proc q))) else none

/-- Who is in a call of `sleep` with this lock, and in which. -/
def sleepers (s : State C L S) (lk : Lk L S) (p : Pid) : Option Nat :=
  if (s.pc (.proc p)).inSleep lk || (s.below p).any fun pc => pc.val.inSleep lk then
    some (s.sleeps p)
  else none

/-- `acquire(lk)` -/
def take (s : State C L S) (c : C) (x : Ctx C) (lk : Lk L S) : Option (State C L S) :=
  if s.slock lk = none then
    some { s with
      slock := update s.slock lk (some c)
      seen := update s.seen x (s.sleepers lk) }
  else none

/-- `release(lk)` -/
def drop (s : State C L S) (lk : Lk L S) : State C L S :=
  { s with slock := update s.slock lk none }

/-- `sleep(chan, lk)` is called. -/
def enter (s : State C L S) (p : Pid) (chan : Key S) (lk : Lk L S) : State C L S :=
  { s.goto (.proc p) (.sleepLock chan lk) with
    sleeps := update s.sleeps p (s.sleeps p + 1) }

/-- To the scheduler of the processor. -/
def swtch (s : State C L S) (c : C) (p : Pid) : State C L S :=
  { s with cpu := update s.cpu c { s.cpu c with loop := .back p } }

end State

/-! ## `sleep` and `wakeup` -/

/-- `wakeup`, at one entry -/
def wake (chan : Chan S) (x : Proc S) : Proc S :=
  if x.state = .sleeping ∧ x.chan = some chan then { x with state := .runnable } else x

/-- `wakeup1(p)` -/
def wakeup1 (p : Pid) (x : Proc S) : Proc S := wake (.proc p) x

/-- Where a call of `wakeup` returns to. -/
def Lk.woke : Lk L S → Pc L S
  | .other l => .crit l
  | .inner k => .releasing k

/-- Where a call of `sleep` returns to. -/
def Lk.slept : Lk L S → Pc L S
  | .other l => .crit l
  | .inner k => .testing k

/-- A system call, or a part of one. -/
inductive Call (S : Type) where
  | acquiresleep (k : S)
  | releasesleep (k : S)
  | kill (pid : Int)
  | fork
  | exit
  | wait

/-- What code does next, where it has a choice. -/
inductive Act (L S : Type) where
  /-- there is none -/
  | go
  /-- to a critical section -/
  | lock (l : L)
  | yield
  | call (k : Call S)
  | release
  | wakeup (n : Nat)
  | sleep (n : Nat)
  /-- an interrupt comes -/
  | trap
  /-- back from it -/
  | iret
  /-- there is no page for the trapframe of a new process -/
  | nopage
  /-- some other allocation or a copy fails -/
  | fail

/-- `acquire(l)` -/
def want (s : State C L S) (c : C) (x : Ctx C) (l : L) : Option (State C L S) :=
  (s.take c x (.other l)).map (·.goto x (.crit l))

/-- In a critical section; a handler cannot sleep. -/
def crit (s : State C L S) (x : Ctx C) (l : L) : Act L S → Option (State C L S)
  | .release => some ((s.drop (.other l)).goto x .user)
  | .wakeup n => some (s.goto x (.wakeup (.other n) (.other l) 0))
  | .sleep n =>
      match x with
      | .proc p => if (s.below p).isNone then some (s.enter p (.other n) (.other l)) else none
      | .sched _ => none
  | _ => none

/-- One round of the loop of `wakeup`. -/
def wakeup (s : State C L S) (x : Ctx C) (chan : Key S) (lk : Lk L S) (i : Nat) :
    Option (State C L S) :=
  if h : i < NPROC then
    (s.visit ⟨i, h⟩ (wake (.key chan))).map (·.goto x (.wakeup chan lk (i + 1)))
  else some (s.goto x lk.woke)

def sleepLock (s : State C L S) (c : C) (p : Pid) (chan : Key S) (lk : Lk L S) :
    Option (State C L S) :=
  (s.acquire c p).map (·.goto (.proc p) (.sleepRelease chan lk))

def sleepRelease (s : State C L S) (p : Pid) (chan : Key S) (lk : Lk L S) : State C L S :=
  (s.drop lk).goto (.proc p) (.sleepState chan lk)

def sleepState (s : State C L S) (p : Pid) (chan : Key S) (lk : Lk L S) : State C L S :=
  (s.setProc p { s.proc p with chan := some (.key chan), state := .sleeping }).goto (.proc p)
    (.sched (.sleep chan lk))

def sleepAgain (s : State C L S) (c : C) (p : Pid) (lk : Lk L S) : Option (State C L S) :=
  (s.take c (.proc p) lk).map (·.goto (.proc p) lk.slept)

/-- `swtch` in `sched`, which has checked that the lock is held and the state has changed. -/
def sched (s : State C L S) (c : C) (p : Pid) (r : Ret L S) : Option (State C L S) :=
  if s.plock p = some c ∧ (s.proc p).state ≠ .running then
    some ((s.swtch c p).goto (.proc p) (.switched r))
  else none

/-- A process is back from `sched`.  One that has exited panics. -/
def switched (s : State C L S) (p : Pid) : Ret L S → Option (State C L S)
  | .yield | .forkret => some ((s.setLock p none).goto (.proc p) .user)
  | .sleep _ lk =>
      some (((s.setProc p { s.proc p with chan := none }).setLock p none).goto (.proc p)
        (.sleepAgain lk))
  | .wait => some ((s.setProc p { s.proc p with chan := none }).goto (.proc p) (.waitScan 0 false))
  | .exit => none

/-! ## `sleeplock.c` -/

def acquiresleep (s : State C L S) (c : C) (p : Pid) (k : S) : Option (State C L S) :=
  (s.take c (.proc p) (.inner k)).map (·.goto (.proc p) (.testing k))

def testing (s : State C L S) (p : Pid) (k : S) : State C L S :=
  if s.locked k then s.enter p (.sleeplock k) (.inner k)
  else
    { (s.drop (.inner k)).goto (.proc p) .user with locked := update s.locked k true }

def releasesleep (s : State C L S) (c : C) (p : Pid) (k : S) : Option (State C L S) :=
  (s.take c (.proc p) (.inner k)).map (·.goto (.proc p) (.unlocking k))

def unlocking (s : State C L S) (p : Pid) (k : S) : State C L S :=
  { s.goto (.proc p) (.wakeup (.sleeplock k) (.inner k) 0) with
    locked := update s.locked k false }

def releasing (s : State C L S) (p : Pid) (k : S) : State C L S :=
  (s.drop (.inner k)).goto (.proc p) .user

/-! ## `yield` and `kill` -/

def yield (s : State C L S) (c : C) (p : Pid) : Option (State C L S) :=
  (s.acquire c p).map fun s =>
    (s.setProc p { s.proc p with state := .runnable }).goto (.proc p) (.sched .yield)

/-- One round of the loop of `kill`. -/
def kill (s : State C L S) (p : Pid) (pid : Int) (i : Nat) : Option (State C L S) :=
  if h : i < NPROC then
    if (s.proc ⟨i, h⟩).pid = pid then
      (s.visit ⟨i, h⟩ fun x => { x with
        killed := true
        state := if x.state = .sleeping then .runnable else x.state }).map (·.goto (.proc p) .user)
    else (s.visit ⟨i, h⟩ id).map (·.goto (.proc p) (.kill pid (i + 1)))
  else some (s.goto (.proc p) .user)

/-! ## `fork` -/

/-- `freeproc` -/
def freeproc (x : Proc S) : Proc S :=
  { x with state := .unused, parent := none, chan := none, killed := false, pid := 0 }

/-- `fork` on a free entry of the table, which is locked all the time. -/
def forkInto (s : State C L S) (p np : Pid) : Act L S → Option (State C L S)
  | .nopage => some ((s.setProc np { s.proc np with pid := s.nextpid }).goto (.proc p) .user)
  | .fail => some ((s.setProc np (freeproc (s.proc np))).goto (.proc p) .user)
  | .go =>
      let x := { s.proc np with pid := s.nextpid, parent := some p, state := .runnable }
      some (((s.setProc np x).goto (.proc np) (.switched .forkret)).goto (.proc p) .user)
  | _ => none

/-- One round of the loop of `allocproc`. -/
def forkScan (s : State C L S) (p : Pid) (i : Nat) (a : Act L S) : Option (State C L S) :=
  if h : i < NPROC then
    if s.plock ⟨i, h⟩ = none then
      if (s.proc ⟨i, h⟩).state = .unused then
        forkInto { s with nextpid := incrInt s.nextpid } p ⟨i, h⟩ a
      else some (s.goto (.proc p) (.forkScan (i + 1)))
    else none
  else some (s.goto (.proc p) .user)

/-! ## `exit` -/

def exitInit (s : State C L S) (p : Pid) : Option (State C L S) :=
  (s.visit initproc (wakeup1 initproc)).map (·.goto (.proc p) .exitRead)

/-- A process without a parent cannot go on. -/
def exitRead (s : State C L S) (p : Pid) : Option (State C L S) :=
  (s.visit p id).bind fun s =>
    (s.proc p).parent.map fun op => s.goto (.proc p) (.exitLockParent op)

def exitLockParent (s : State C L S) (c : C) (p op : Pid) : Option (State C L S) :=
  (s.acquire c op).map (·.goto (.proc p) (.exitLockSelf op))

def exitLockSelf (s : State C L S) (c : C) (p op : Pid) : Option (State C L S) :=
  (s.acquire c p).map (·.goto (.proc p) (.reparent op 0))

def reparent (s : State C L S) (p op : Pid) (i : Nat) : State C L S :=
  if h : i < NPROC then
    if (s.proc ⟨i, h⟩).parent = some p then s.goto (.proc p) (.giveAway op ⟨i, h⟩)
    else s.goto (.proc p) (.reparent op (i + 1))
  else s.goto (.proc p) (.exitDie op)

def giveAway (s : State C L S) (p op pp : Pid) : Option (State C L S) :=
  (s.visit pp fun x => { x with parent := some initproc }).map
    (·.goto (.proc p) (.reparent op (pp.val + 1)))

def exitDie (s : State C L S) (p op : Pid) : State C L S :=
  let s := s.setProc op (wakeup1 op (s.proc op))
  (s.setProc p { s.proc p with state := .zombie }).goto (.proc p) (.exitRelease op)

def exitRelease (s : State C L S) (p op : Pid) : State C L S :=
  (s.setLock op none).goto (.proc p) (.sched .exit)

/-! ## `wait` -/

def waitLock (s : State C L S) (c : C) (p : Pid) : Option (State C L S) :=
  (s.acquire c p).map (·.goto (.proc p) (.waitScan 0 false))

def waitScan (s : State C L S) (p : Pid) (i : Nat) (havekids : Bool) : State C L S :=
  if h : i < NPROC then
    if (s.proc ⟨i, h⟩).parent = some p then s.goto (.proc p) (.waitChild ⟨i, h⟩)
    else s.goto (.proc p) (.waitScan (i + 1) havekids)
  else if havekids = false ∨ (s.proc p).killed = true then
    (s.setLock p none).goto (.proc p) .user
  else
    (s.setProc p { s.proc p with chan := some (.proc p), state := .sleeping }).goto (.proc p)
      (.sched .wait)

def waitChild (s : State C L S) (c : C) (p np : Pid) : Option (State C L S) :=
  (s.acquire c np).map (·.goto (.proc p) (.waitFound np))

/-- With the lock of the child; `copyout` may fail. -/
def waitFound (s : State C L S) (p np : Pid) (a : Act L S) : Option (State C L S) :=
  if (s.proc np).state = .zombie then
    match a with
    | .fail => some (((s.setLock np none).setLock p none).goto (.proc p) .user)
    | .go =>
        let s := (s.setProc np (freeproc (s.proc np))).goto (.proc np) .dead
        some (((s.setLock np none).setLock p none).goto (.proc p) .user)
    | _ => none
  else
    match a with
    | .go => some ((s.setLock np none).goto (.proc p) (.waitScan (np.val + 1) true))
    | _ => none

/-! ## Steps -/

/-- Where a call starts.  `exit` panics in `initproc`. -/
def Call.start (p : Pid) : Call S → Option (Pc L S)
  | .acquiresleep k => some (.acquiresleep k)
  | .releasesleep k => some (.releasesleep k)
  | .kill pid => some (.kill pid 0)
  | .fork => some (.forkScan 0)
  | .exit => if p = initproc then none else some .exitInit
  | .wait => some .waitLock

/-- In no call, or in a handler that holds nothing. -/
def user (s : State C L S) (p : Pid) : Act L S → Option (State C L S)
  | .lock l => some (s.goto (.proc p) (.want l))
  | .yield => some (s.goto (.proc p) .yield)
  | .call k => if (s.below p).isNone then (k.start p).map (s.goto (.proc p)) else none
  | .iret =>
      (s.below p).map fun pc =>
        { s.goto (.proc p) pc.val with below := update s.below p none }
  | _ => none

/-- An interrupt comes to a process. -/
def trap (s : State C L S) (p : Pid) : Option (State C L S) :=
  if h : (s.below p).isNone ∧ (s.pc (.proc p)).interruptible = true then
    some { s.goto (.proc p) .user with
      below := update s.below p (some ⟨s.pc (.proc p), h.2⟩) }
  else none

/-- What a process does next where it has no choice. -/
def proceed (s : State C L S) (c : C) (p : Pid) : Pc L S → Option (State C L S)
  | .want l => want s c (.proc p) l
  | .wakeup chan lk i => wakeup s (.proc p) chan lk i
  | .acquiresleep k => acquiresleep s c p k
  | .testing k => some (testing s p k)
  | .releasesleep k => releasesleep s c p k
  | .unlocking k => some (unlocking s p k)
  | .releasing k => some (releasing s p k)
  | .sleepLock chan lk => sleepLock s c p chan lk
  | .sleepRelease chan lk => some (sleepRelease s p chan lk)
  | .sleepState chan lk => some (sleepState s p chan lk)
  | .sleepAgain lk => sleepAgain s c p lk
  | .sched r => sched s c p r
  | .switched r => switched s p r
  | .yield => yield s c p
  | .kill pid i => kill s p pid i
  | .exitInit => exitInit s p
  | .exitRead => exitRead s p
  | .exitLockParent op => exitLockParent s c p op
  | .exitLockSelf op => exitLockSelf s c p op
  | .reparent op i => some (reparent s p op i)
  | .giveAway op pp => giveAway s p op pp
  | .exitDie op => some (exitDie s p op)
  | .exitRelease op => some (exitRelease s p op)
  | .waitLock => waitLock s c p
  | .waitScan i havekids => some (waitScan s p i havekids)
  | .waitChild np => waitChild s c p np
  | .user | .crit _ | .forkScan _ | .waitFound _ | .dead => none

/-- The process that a processor executes does something. -/
def process (s : State C L S) (c : C) (p : Pid) (a : Act L S) : Option (State C L S) :=
  if let .trap := a then trap s p
  else
    match s.pc (.proc p) with
    | .user => user s p a
    | .crit l => crit s (.proc p) l a
    | .forkScan i => forkScan s p i a
    | .waitFound np => waitFound s p np a
    | pc => if let .go := a then proceed s c p pc else none

/-- One round of the loop of `scheduler`, up to `swtch`. -/
def scheduler (s : State C L S) (c : C) (i : Nat) : Option (State C L S) :=
  if h : i < NPROC then
    let p : Pid := ⟨i, h⟩
    if (s.proc p).state = .runnable then
      (s.acquire c p).map fun s =>
        { s.setProc p { s.proc p with state := .running } with
          cpu := update s.cpu c ⟨some p, .gone p⟩ }
    else
      (s.visit p id).map fun s =>
        { s with cpu := update s.cpu c { s.cpu c with loop := .scan (i + 1) } }
  else some { s with cpu := update s.cpu c { s.cpu c with loop := .scan 0 } }

/-- The rest of the round. -/
def schedulerBack (s : State C L S) (c : C) (p : Pid) : State C L S :=
  { s.setLock p none with cpu := update s.cpu c ⟨none, .scan (p.val + 1)⟩ }

/-- The scheduler of a processor, and interrupts that come to it. -/
def schedule (s : State C L S) (c : C) (i : Nat) (a : Act L S) : Option (State C L S) :=
  match s.pc (.sched c) with
  | .user =>
      match a with
      | .go => scheduler s c i
      | .lock l => some (s.goto (.sched c) (.want l))
      | _ => none
  | .want l => if let .go := a then want s c (.sched c) l else none
  | .crit l => crit s (.sched c) l a
  | .wakeup chan lk i => if let .go := a then wakeup s (.sched c) chan lk i else none
  | _ => none

/-- A processor executes something. -/
def step (s : State C L S) (c : C) (a : Act L S) : Option (State C L S) :=
  match (s.cpu c).loop with
  | .scan i => schedule s c i a
  | .gone p => process s c p a
  | .back p => if let .go := a then some (schedulerBack s c p) else none

/-- Any number of steps of any processors; `none` if one of them cannot be taken. -/
def run : List (C × Act L S) → State C L S → Option (State C L S)
  | [], s => some s
  | (c, a) :: as, s => (step s c a).bind (run as)

theorem run_isRun : Foundation.IsRun (fun (x : C × Act L S) s => step s x.1 x.2) run :=
  ⟨fun _ => rfl, fun _ _ _ => rfl⟩

end Xv6.Sched
