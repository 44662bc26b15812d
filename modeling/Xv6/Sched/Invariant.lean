/-
  Sched/Invariant.lean --- which processor has which process, and which locks.

  A process that no processor has is in `sched`, or is not there at all.  One that a processor has
  is `RUNNING`, or is on its way to `swtch` or just behind it; all that time the processor holds
  `p->lock`, so nobody else sees the process in between.
-/
import Xv6.Sched.Machine

set_option autoImplicit false

namespace Xv6.Sched

open Procs (ProcState initproc incrInt)

variable {C L S : Type}

/-- The state a process has while it is in `sched`. -/
def Ret.state : Ret L S → ProcState
  | .yield | .forkret => .runnable
  | .sleep _ _ | .wait => .sleeping
  | .exit => .zombie

/-- The state of a process that a processor executes. -/
def Pc.state : Pc L S → ProcState
  | .sched r => r.state
  | .exitRelease _ => .zombie
  | _ => .running

/-- The processes whose locks a process holds. -/
def Pc.plocks (p : Pid) : Pc L S → List Pid
  | .sleepRelease _ _ | .sleepState _ _ | .sched _ | .switched _ | .waitScan _ _
  | .waitChild _ => [p]
  | .exitLockSelf op => [op]
  | .reparent op _ | .giveAway op _ | .exitDie op | .exitRelease op => [op, p]
  | .waitFound np => [p, np]
  | _ => []

def Loop.proc : Loop → Option Pid
  | .scan _ => none
  | .gone p | .back p => some p

/-- A place where a process that is executed can be. -/
def Pc.alive : Pc L S → Prop
  | .dead | .switched .exit => False
  | _ => True

/-- A processor executes a process. -/
structure Executing (proc : Pid → Proc S) (plock : Pid → Option C) (pc : Ctx C → Pc L S) (c : C)
    (p : Pid) : Prop where
  locks : ∀ q ∈ (pc (.proc p)).plocks p, plock q = some c
  nodup : ((pc (.proc p)).plocks p).Nodup
  state : (proc p).state = (pc (.proc p)).state
  alive : (pc (.proc p)).alive

/-- A process that no processor has. -/
def Off (state : ProcState) (pc : Pc L S) : Prop :=
  state = .unused ∧ pc = .dead ∨
    ∃ r, pc = .switched r ∧ (state = r.state ∨ state = .runnable ∧ r ≠ .exit)

structure Inv (proc : Pid → Proc S) (plock : Pid → Option C) (cpu : C → Cpu) (pc : Ctx C → Pc L S) :
    Prop where
  loop : ∀ c, (cpu c).proc = (cpu c).loop.proc
  uniq : ∀ c c' p, (cpu c).proc = some p → (cpu c').proc = some p → c = c'
  gone : ∀ c p, (cpu c).loop = .gone p → Executing proc plock pc c p
  back : ∀ c p, (cpu c).loop = .back p → plock p = some c ∧
    ∃ r, pc (.proc p) = .switched r ∧ (proc p).state = r.state
  off : ∀ p, (∀ c, (cpu c).proc ≠ some p) → Off (proc p).state (pc (.proc p))

def State.Inv (s : State C L S) : Prop := Sched.Inv s.proc s.plock s.cpu s.pc

/-! ## Consequences -/

variable {proc : Pid → Proc S} {plock : Pid → Option C} {cpu : C → Cpu} {pc : Ctx C → Pc L S}
variable {c : C} {p q : Pid} {k : Pc L S}

/-- Only the code of the process, its state and its locks matter. -/
theorem Executing.congr {proc' : Pid → Proc S} {plock' : Pid → Option C} {pc' : Ctx C → Pc L S}
    (h : Executing proc plock pc c p) (hpc : pc' (.proc p) = pc (.proc p))
    (hstate : (proc' p).state = (proc p).state)
    (hlocks : ∀ q, plock q = some c → plock' q = some c) : Executing proc' plock' pc' c p where
  locks q hq := hlocks q (h.locks q (hpc ▸ hq))
  nodup := by
    rw [hpc]
    exact h.nodup
  state := by
    rw [hstate, hpc]
    exact h.state
  alive := by
    rw [hpc]
    exact h.alive

/-- A process that does not hold its lock is running. -/
theorem Pc.state_of_notMem (h : p ∉ k.plocks p) : k.state = .running := by
  cases k with
  | sched r => exact absurd List.mem_cons_self h
  | exitRelease op => exact absurd (List.mem_cons_of_mem _ List.mem_cons_self) h
  | _ => rfl

namespace Inv

theorem proc_of_gone (h : Inv proc plock cpu pc) (hc : (cpu c).loop = .gone p) :
    (cpu c).proc = some p := by
  rw [h.loop, hc]
  rfl

theorem proc_of_back (h : Inv proc plock cpu pc) (hc : (cpu c).loop = .back p) :
    (cpu c).proc = some p := by
  rw [h.loop, hc]
  rfl

/-- A processor that has a process is executing it, or has just been. -/
theorem loop_of_proc (h : Inv proc plock cpu pc) (hc : (cpu c).proc = some p) :
    (cpu c).loop = .gone p ∨ (cpu c).loop = .back p := by
  rw [h.loop] at hc
  cases hloop : (cpu c).loop with
  | scan i =>
    rw [hloop] at hc
    cases hc
  | gone q =>
    rw [hloop] at hc
    cases hc
    exact Or.inl rfl
  | back q =>
    rw [hloop] at hc
    cases hc
    exact Or.inr rfl

end Inv

/-- The entry of a process may be changed: the lock is free, or held by a processor that executes
something else. -/
def Open (plock : Pid → Option C) (cpu : C → Cpu) (q : Pid) : Prop :=
  ∀ c, (cpu c).proc = some q → plock q ≠ some c

theorem open_of_free (h : plock q = none) : Open plock cpu q := by
  intro c _ hc
  cases h.symm.trans hc

theorem Inv.open_of_held (h : Inv proc plock cpu pc) (hc : (cpu c).loop = .gone p)
    (hq : plock q = some c) (hqp : q ≠ p) : Open plock cpu q := by
  intro c' hc' hlock
  cases hq.symm.trans hlock
  exact hqp (Option.some.inj (hc'.symm.trans (h.proc_of_gone hc)))

/-- A process whose entry is open and that a processor has is running. -/
theorem Inv.running_of_open (h : Inv proc plock cpu pc) (hopen : Open plock cpu q)
    (hc : (cpu c).proc = some q) : (cpu c).loop = .gone q ∧ q ∉ (pc (.proc q)).plocks q := by
  rcases h.loop_of_proc hc with hloop | hloop
  · exact ⟨hloop, fun hmem => hopen c hc ((h.gone c q hloop).locks q hmem)⟩
  · exact absurd (h.back c q hloop).1 (hopen c hc)

/-- A process whose entry is open and that is not running is on no processor. -/
theorem Inv.off_of_open (h : Inv proc plock cpu pc) (hopen : Open plock cpu q)
    (hstate : (proc q).state ≠ .running) (c : C) : (cpu c).proc ≠ some q := by
  intro hc
  obtain ⟨hloop, hmem⟩ := h.running_of_open hopen hc
  exact hstate ((h.gone c q hloop).state.trans (Pc.state_of_notMem hmem))

end Xv6.Sched
