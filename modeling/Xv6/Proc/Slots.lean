/-
  Proc/Slots.lean --- the fields of an entry of the process table, from `allocproc` to
  `freeproc` and on to the next `allocproc`.

  `freeproc` clears an entry, and `allocproc` relies on that: it sets the pid, the trapframe
  and the page table, and nothing else.  Calls run one after the other here; how their
  sections interleave is in `Proc/Machine.lean`.  What memory allocations return, and what
  `exec` makes of a file, are arguments of the calls, for which `Vm/System.lean` has the code;
  an address is zero if there is none.
-/
import Xv6.Proc.Machine

set_option autoImplicit false

namespace Xv6.Slots

open Function List
open Procs (ProcState Chan initproc incrInt)

/-! ## The table -/

/-- `struct proc`, without what is not about the life of an entry. -/
structure Slot where
  state : ProcState
  /-- Parent process -/
  parent : Option Pid
  /-- If non-zero, sleeping on chan -/
  chan : Option Chan
  /-- If non-zero, have been killed -/
  killed : Bool
  /-- Exit status to be returned to parent's wait -/
  xstate : Int
  /-- Process ID -/
  pid : Int
  /-- Size of process memory (bytes) -/
  sz : Nat
  /-- User page table -/
  pagetable : Nat
  /-- data page for trampoline.S -/
  trapframe : Nat

structure Table where
  slot : Pid → Slot
  nextpid : Int

def Table.set (t : Table) (p : Pid) (x : Slot) : Table :=
  { t with slot := update t.slot p x }

/-- What the table has in an entry that was never used. -/
def Slot.zero : Slot := ⟨.unused, none, none, false, 0, 0, 0, 0, 0⟩

/-- After `userinit`. -/
def boot : Table where
  slot := update (fun _ => Slot.zero) initproc
    { Slot.zero with
      state := .runnable, pid := 1, sz := 4096, pagetable := 8192, trapframe := 4096 }
  nextpid := 2

/-! ## Calls -/

/-- What the allocations of a `fork` return. -/
structure Alloc where
  /-- `kalloc`, in `allocproc` -/
  trapframe : Nat
  /-- `proc_pagetable` -/
  pagetable : Nat
  /-- does `uvmcopy` succeed? -/
  copied : Bool

/-- `freeproc`; where the memory goes is in `Vm/System.lean`. -/
def freeproc (x : Slot) : Slot :=
  { x with
    trapframe := 0
    pagetable := 0
    sz := 0
    pid := 0
    parent := none
    chan := none
    killed := false
    xstate := 0
    state := .unused }

/-- `allocproc` -/
def allocproc (a : Alloc) (t : Table) : Option Pid × Table :=
  match (finRange NPROC).find? fun p => (t.slot p).state = .unused with
  | none => (none, t)
  | some p =>
      let x := { t.slot p with pid := t.nextpid, trapframe := a.trapframe }
      let t := { t with nextpid := incrInt t.nextpid }
      if a.trapframe = 0 then (none, t.set p x)
      else
        let x := { x with pagetable := a.pagetable }
        if a.pagetable = 0 then (none, t.set p (freeproc x))
        else (some p, t.set p x)

/-- `fork` -/
def fork (p : Pid) (a : Alloc) (t : Table) : Int × Table :=
  match allocproc a t with
  | (none, t) => (-1, t)
  | (some np, t) =>
      if a.copied then
        ((t.slot np).pid, t.set np { t.slot np with
          sz := (t.slot p).sz, parent := some p, state := .runnable })
      else (-1, t.set np (freeproc (t.slot np)))

/-- `exec`: the new page table and size, if it succeeds. -/
def exec (p : Pid) (image : Option (Nat × Nat)) (t : Table) : Table :=
  match image with
  | none => t
  | some (pagetable, sz) => t.set p { t.slot p with pagetable, sz }

/-- `wakeup1(q)` -/
def wakeup1 (q : Pid) (t : Table) : Table :=
  if (t.slot q).chan = some (.proc q) ∧ (t.slot q).state = .sleeping then
    t.set q { t.slot q with state := .runnable }
  else t

/-- `reparent` -/
def reparent (p : Pid) (t : Table) : Table :=
  { t with slot := fun q =>
      if (t.slot q).parent = some p then { t.slot q with parent := some initproc } else t.slot q }

/-- `exit`; `none` if it panics, or has no parent to wake up. -/
def exit (p : Pid) (status : Int) (t : Table) : Option Table :=
  if p = initproc then none
  else
    let t := wakeup1 initproc t
    (t.slot p).parent.map fun parent =>
      let t := wakeup1 parent (reparent p t)
      t.set p { t.slot p with xstate := status, state := .zombie }

/-- `wait`, up to where it returns or goes to sleep. -/
def wait (p : Pid) (noaddr copied : Bool) (t : Table) : Table :=
  match (finRange NPROC).find? fun np =>
      (t.slot np).parent = some p ∧ (t.slot np).state = .zombie with
  | some np => if noaddr = false ∧ copied = false then t else t.set np (freeproc (t.slot np))
  | none =>
      if (∃ np, (t.slot np).parent = some p) ∧ (t.slot p).killed = false then
        t.set p { t.slot p with chan := some (.proc p), state := .sleeping }
      else t

/-- `kill` -/
def kill (pid : Int) (t : Table) : Int × Table :=
  match (finRange NPROC).find? fun q => (t.slot q).pid = pid with
  | some q =>
      let x := t.slot q
      (0, t.set q { x with
        killed := true, state := if x.state = .sleeping then .runnable else x.state })
  | none => (-1, t)

/-- `wakeup` in some other part of the kernel -/
def wakeup (chan : Nat) (t : Table) : Table :=
  { t with slot := fun q =>
      if (t.slot q).state = .sleeping ∧ (t.slot q).chan = some (.other chan) then
        { t.slot q with state := .runnable }
      else t.slot q }

/-! ## Runs -/

inductive Action where
  | fork (p : Pid) (a : Alloc)
  | exec (p : Pid) (image : Option (Nat × Nat))
  | exit (p : Pid) (status : Int)
  | wait (p : Pid) (noaddr copied : Bool)
  | kill (p : Pid) (pid : Int)
  /-- `sleep`, in some other part of the kernel -/
  | sleep (p : Pid) (chan : Nat)
  | wakeup (chan : Nat)
  /-- `scheduler` picks a process, which returns from `sleep` if it was there -/
  | schedule (p : Pid)
  | yield (p : Pid)

/-- Something a process does when it is in this state. -/
def Table.by (t : Table) (p : Pid) (state : ProcState) (t' : Option Table) : Option Table :=
  if (t.slot p).state = state then t' else none

def step (t : Table) : Action → Option Table
  | .fork p a => t.by p .running (some (Slots.fork p a t).2)
  | .exec p image => t.by p .running (some (Slots.exec p image t))
  | .exit p status => t.by p .running (Slots.exit p status t)
  | .wait p noaddr copied => t.by p .running (some (Slots.wait p noaddr copied t))
  | .kill p pid => t.by p .running (some (Slots.kill pid t).2)
  | .sleep p chan =>
      t.by p .running
        (some (t.set p { t.slot p with chan := some (.other chan), state := .sleeping }))
  | .wakeup chan => some (Slots.wakeup chan t)
  | .schedule p =>
      t.by p .runnable (some (t.set p { t.slot p with chan := none, state := .running }))
  | .yield p => t.by p .running (some (t.set p { t.slot p with state := .runnable }))

/-- Any number of actions; `none` if one of them cannot be taken. -/
def run : List Action → Table → Option Table
  | [], t => some t
  | a :: as, t => (step t a).bind (run as)

/-! ## Clean entries -/

/-- An entry as `freeproc` leaves it. -/
structure Slot.Clean (x : Slot) : Prop where
  pid : x.pid = 0
  killed : x.killed = false
  parent : x.parent = none
  chan : x.chan = none
  trapframe : x.trapframe = 0
  pagetable : x.pagetable = 0
  sz : x.sz = 0

/-- All free entries are clean. -/
def Table.Clean (t : Table) : Prop := ∀ p, (t.slot p).state = .unused → (t.slot p).Clean

/-- What a `kill` does that finds a process with this pid, or none. -/
def Table.KillExact (t : Table) (pid : Int) : Prop :=
  ((kill pid t).1 = 0 ↔ ∃ q, (t.slot q).state ≠ .unused ∧ (t.slot q).pid = pid) ∧
    ((∃ q, (t.slot q).state ≠ .unused ∧ (t.slot q).pid = pid) ∨ kill pid t = (-1, t))

/-- A process that `allocproc` returns has not been killed. -/
def Table.FreshAlive (t : Table) : Prop :=
  ∀ a p t', allocproc a t = (some p, t') → (t'.slot p).killed = false

/-- A `fork` gets a page for the trapframe, and nobody kills the pid that free entries have. -/
def Action.Proper : Action → Prop
  | .fork _ a => a.trapframe ≠ 0
  | .kill _ pid => pid ≠ 0
  | _ => True

variable {t t' : Table} {p : Pid} {x : Slot}

theorem freeproc_clean (x : Slot) : (freeproc x).Clean := ⟨rfl, rfl, rfl, rfl, rfl, rfl, rfl⟩

@[simp] theorem set_slot_self (t : Table) (p : Pid) (x : Slot) : (t.set p x).slot p = x :=
  update_self ..

variable {q : Pid}

theorem set_slot_of_ne (hq : q ≠ p) : (t.set p x).slot q = t.slot q :=
  update_of_ne hq _ _

theorem set_set (t : Table) (p : Pid) (x y : Slot) : (t.set p x).set p y = t.set p y := by
  rw [Table.set, Table.set, Table.set, update_idem]

/-- One entry changes. -/
theorem Table.Clean.set (h : t.Clean) (hx : x.state = .unused → x.Clean) : (t.set p x).Clean := by
  intro q hq
  by_cases hqp : q = p
  · rw [hqp, set_slot_self] at hq ⊢
    exact hx hq
  · rw [set_slot_of_ne hqp] at hq ⊢
    exact h q hq

/-- An entry that is in use changes, and stays in use. -/
theorem Table.Clean.setUsed (h : t.Clean) (hx : x.state ≠ .unused) : (t.set p x).Clean :=
  h.set fun hunused => absurd hunused hx

theorem Table.Clean.nextpid (h : t.Clean) (pid : Int) :
    ({ t with nextpid := pid } : Table).Clean := h

theorem find_slot {P : Pid → Prop} [DecidablePred P]
    (h : (finRange NPROC).find? (fun q => P q) = some q) : P q :=
  of_decide_eq_true (find?_some (p := fun q => decide (P q)) h)

/-- `allocproc` takes a free entry and changes three fields of it. -/
theorem allocproc_some {a : Alloc} (h : allocproc a t = (some p, t')) :
    (t.slot p).state = .unused ∧ t' = { t with nextpid := incrInt t.nextpid }.set p
      { t.slot p with pid := t.nextpid, trapframe := a.trapframe, pagetable := a.pagetable } := by
  rw [allocproc] at h
  split at h
  · cases h
  · rename_i q hq
    dsimp only at h
    split at h
    · cases h
    · split at h
      · cases h
      · cases h
        exact ⟨find_slot hq, rfl⟩

/-- When it fails it leaves free entries clean, if there was a page for the trapframe. -/
theorem allocproc_none {a : Alloc} (ha : a.trapframe ≠ 0) (hclean : t.Clean)
    (h : allocproc a t = (none, t')) : t'.Clean := by
  rw [allocproc] at h
  split at h
  · cases h
    exact hclean
  · dsimp only at h
    rw [if_neg ha] at h
    split at h
    · cases h
      exact (hclean.nextpid _).set fun _ => freeproc_clean _
    · cases h

theorem fork_clean {a : Alloc} (ha : a.trapframe ≠ 0) (h : t.Clean) : (fork p a t).2.Clean := by
  rw [fork]
  cases halloc : allocproc a t with
  | mk res t₁ =>
    cases res with
    | none => exact allocproc_none ha h halloc
    | some np =>
      -- until the new process is runnable its entry is free and not clean
      obtain ⟨-, rfl⟩ := allocproc_some halloc
      dsimp only
      have hagain : ∀ {y z : Slot}, (z.state = .unused → z.Clean) →
          (({ t with nextpid := incrInt t.nextpid }.set np y).set np z).Clean := by
        intro y z hz
        rw [set_set]
        exact (h.nextpid _).set hz
      split
      · exact hagain fun hunused => by cases hunused
      · exact hagain fun _ => freeproc_clean _

theorem wakeup1_clean (h : t.Clean) : (wakeup1 q t).Clean := by
  rw [wakeup1]
  split
  · exact h.setUsed (by simp)
  · exact h

theorem reparent_clean (h : t.Clean) : (reparent p t).Clean := by
  intro q hq
  rw [reparent] at hq ⊢
  dsimp only at hq ⊢
  split at hq
  · -- a free entry has no parent
    rename_i hparent
    cases hparent.symm.trans (h q hq).parent
  · rename_i hparent
    rw [if_neg hparent]
    exact h q hq

theorem exit_clean {status : Int} (h : t.Clean) (hexit : exit p status t = some t') : t'.Clean := by
  rw [exit] at hexit
  split at hexit
  · cases hexit
  · obtain ⟨parent, -, rfl⟩ := Option.map_eq_some_iff.mp hexit
    exact (wakeup1_clean (reparent_clean (wakeup1_clean h))).setUsed (by simp)

theorem wait_clean {noaddr copied : Bool} (h : t.Clean) : (wait p noaddr copied t).Clean := by
  rw [wait]
  split
  · split
    · exact h
    · exact h.set fun _ => freeproc_clean _
  · split
    · exact h.setUsed (by simp)
    · exact h

theorem wakeup_clean {chan : Nat} (h : t.Clean) : (wakeup chan t).Clean := by
  intro q hq
  rw [wakeup] at hq ⊢
  dsimp only at hq ⊢
  split at hq
  · cases hq
  · rename_i hsleep
    rw [if_neg hsleep]
    exact h q hq

/-- An entry with a pid that is not zero is in use. -/
theorem Table.Clean.used (h : t.Clean) (hpid : (t.slot p).pid ≠ 0) : (t.slot p).state ≠ .unused :=
  fun hunused => hpid (h p hunused).pid

theorem kill_cases (t : Table) (pid : Int) :
    (∃ q, (t.slot q).pid = pid ∧ kill pid t = (0, t.set q { t.slot q with
        killed := true,
        state := if (t.slot q).state = .sleeping then .runnable else (t.slot q).state })) ∨
      (∀ q, (t.slot q).pid ≠ pid) ∧ kill pid t = (-1, t) := by
  rw [kill]
  cases hfind : (finRange NPROC).find? fun q => (t.slot q).pid = pid with
  | some q => exact Or.inl ⟨q, find_slot hfind, rfl⟩
  | none =>
    refine Or.inr ⟨fun q hq => ?_, rfl⟩
    have hno := find?_eq_none.mp hfind q (mem_finRange q)
    exact hno (decide_eq_true hq)

theorem kill_clean {pid : Int} (hpid : pid ≠ 0) (h : t.Clean) : (kill pid t).2.Clean := by
  rcases kill_cases t pid with ⟨q, hq, hkill⟩ | ⟨-, hkill⟩
  · rw [hkill]
    refine h.setUsed ?_
    have hused := h.used (p := q) (by rw [hq]; exact hpid)
    dsimp only
    split
    · simp
    · exact hused
  · rw [hkill]
    exact h

theorem Table.Clean.killExact (h : t.Clean) {pid : Int} (hpid : pid ≠ 0) : t.KillExact pid := by
  rcases kill_cases t pid with ⟨q, hq, hkill⟩ | ⟨hno, hkill⟩
  · have hused : (t.slot q).state ≠ .unused := h.used (by rw [hq]; exact hpid)
    exact ⟨iff_of_true (by rw [hkill]) ⟨q, hused, hq⟩, Or.inl ⟨q, hused, hq⟩⟩
  · refine ⟨iff_of_false (by rw [hkill]; simp) ?_, Or.inr hkill⟩
    rintro ⟨q, -, hq⟩
    exact hno q hq

theorem Table.Clean.freshAlive (h : t.Clean) : t.FreshAlive := by
  intro a p t' halloc
  obtain ⟨hunused, rfl⟩ := allocproc_some halloc
  rw [set_slot_self]
  exact (h p hunused).killed

theorem by_eq_some {state : ProcState} {u : Option Table} (h : t.by p state u = some t') :
    (t.slot p).state = state ∧ u = some t' := by
  rw [Table.by] at h
  split at h
  · rename_i hstate
    exact ⟨hstate, h⟩
  · cases h

/-- One action keeps free entries clean. -/
theorem step_clean {a : Action} (ha : a.Proper) (h : t.Clean) (hstep : step t a = some t') :
    t'.Clean := by
  cases a with
  | fork p a =>
    obtain ⟨-, heffect⟩ := by_eq_some hstep
    cases heffect
    exact fork_clean ha h
  | exec p image =>
    obtain ⟨hstate, heffect⟩ := by_eq_some hstep
    cases heffect
    cases image with
    | none => exact h
    | some image => exact h.setUsed (by rw [hstate]; simp)
  | exit p status => exact exit_clean h (by_eq_some hstep).2
  | wait p noaddr copied =>
    obtain ⟨-, heffect⟩ := by_eq_some hstep
    cases heffect
    exact wait_clean h
  | kill p pid =>
    obtain ⟨-, heffect⟩ := by_eq_some hstep
    cases heffect
    exact kill_clean ha h
  | sleep p chan =>
    obtain ⟨-, heffect⟩ := by_eq_some hstep
    cases heffect
    exact h.setUsed (by simp)
  | wakeup chan =>
    cases hstep
    exact wakeup_clean h
  | schedule p =>
    obtain ⟨-, heffect⟩ := by_eq_some hstep
    cases heffect
    exact h.setUsed (by simp)
  | yield p =>
    obtain ⟨-, heffect⟩ := by_eq_some hstep
    cases heffect
    exact h.setUsed (by simp)

theorem run_isRun : Foundation.IsRun (fun a t => step t a) run := ⟨fun _ => rfl, fun _ _ _ => rfl⟩

theorem boot_slot (hq : q ≠ initproc) : boot.slot q = Slot.zero := by
  simp [boot, update_of_ne hq]

theorem boot_clean : boot.Clean := by
  intro q hq
  by_cases hqi : q = initproc
  · rw [hqi] at hq
    cases hq
  · rw [boot_slot hqi]
    exact ⟨rfl, rfl, rfl, rfl, rfl, rfl, rfl⟩

/-- If every `fork` gets a page for its trapframe and pid 0 is not killed, then in every state
that is reached free entries are clean, a new process has not been killed, and `kill` finds
exactly the processes there are. -/
theorem run_slots_clean {as : List Action} (hproper : ∀ a ∈ as, a.Proper)
    (hrun : run as boot = some t) :
    t.Clean ∧ t.FreshAlive ∧ ∀ pid, pid ≠ 0 → t.KillExact pid := by
  have hok : ∀ pre a post u, as = pre ++ a :: post → run pre boot = some u → a.Proper := by
    rintro pre a post _ rfl -
    exact hproper a (mem_append_right _ mem_cons_self)
  have hclean := run_isRun.induct (I := Table.Clean) (fun a _ => a.Proper)
    (fun _ _ _ h ha hstep => step_clean ha h hstep) boot_clean hok hrun
  exact ⟨hclean, hclean.freshAlive, fun pid hpid => hclean.killExact hpid⟩

theorem run_slots_clean_fork :
    ∃ t, run [.schedule 0, .fork 0 ⟨4096, 8192, true⟩, .kill 0 2] boot = some t ∧ t.Clean ∧
      t.FreshAlive ∧ t.KillExact 2 := by
  have hsome : (run [.schedule 0, .fork 0 ⟨4096, 8192, true⟩, .kill 0 2] boot).isSome = true := by
    decide +kernel
  obtain ⟨t, ht⟩ := Option.isSome_iff_exists.mp hsome
  have hproper : ∀ a ∈ [Action.schedule 0, .fork 0 ⟨4096, 8192, true⟩, .kill 0 2], a.Proper := by
    simp [Action.Proper]
  obtain ⟨hclean, hfresh, hkill⟩ := run_slots_clean hproper ht
  exact ⟨t, ht, hclean, hfresh, hkill 2 (by decide)⟩

/-- `kill(0)` hits a free entry, and the process that gets the entry next is killed; a `fork`
without a page for the trapframe leaves a pid in a free entry, which `kill` finds. -/
theorem free_slots_not_clean :
    (boot.slot 1).state = .unused ∧ (kill 0 boot).1 = 0 ∧ ¬ boot.KillExact 0 ∧
    (run [.schedule 0, .kill 0 0, .fork 0 ⟨4096, 8192, true⟩] boot).map
      (fun t => ((t.slot 1).state, (t.slot 1).killed)) = some (.runnable, true) ∧
    (run [.schedule 0, .fork 0 ⟨0, 0, false⟩] boot).map
      (fun t => ((t.slot 1).state, (t.slot 1).pid, (kill 2 t).1)) = some (.unused, 2, 0) := by
  refine ⟨by decide, by decide +kernel, ?_, by decide +kernel, by decide +kernel⟩
  rintro ⟨hiff, -⟩
  obtain ⟨q, hused, hpid⟩ := hiff.mp (by decide +kernel)
  by_cases hq : q = initproc
  · rw [hq] at hpid
    cases hpid
  · rw [boot_slot hq] at hused
    exact hused rfl

end Xv6.Slots
