/-
  Vm/System.lean --- the system calls that allocate and free memory.

  A system call is one step of the system: what is shown of memory is shown of the states
  between calls.  What a call needs from the rest of the kernel is given with it: the file that
  `exec` finds under a path, and at which of its `kalloc` the free list is empty
  (`budget`; no call goes on to allocate after that).  The argument registers are the
  arguments of the call.

  The flags of a pipe are kept by its page; what is in a pipe, the inodes of files and
  current directories are not here.  Of an entry of the process table there is what memory
  depends on; pids, channels and `killed` are in `Proc/Slots.lean`, and how the sections of
  calls interleave is in `Proc/Machine.lean`.
-/
import Xv6.Proc.Machine
import Xv6.Vm.Exec

set_option autoImplicit false

namespace Xv6.Vm

open Function List Foundation
open Procs (ProcState initproc)

/-! ## State -/

/-- `struct proc`, as far as memory and files go. -/
structure Proc where
  state : ProcState
  parent : Option Pid
  /-- Exit status to be returned to parent's wait -/
  xstate : Int
  /-- Size of process memory (bytes) -/
  sz : Nat
  /-- User page table, or zero -/
  pagetable : Nat
  /-- data page for trampoline.S, or zero -/
  trapframe : Nat
  /-- Open files -/
  ofile : Fd → Option FileId

/-- `struct file`, without what belongs to inodes. -/
structure File where
  type : FileType
  ref : Int
  writable : Bool
  /-- the page of the pipe -/
  pipe : Nat

/-- The flags of `struct pipe`. -/
structure Pipe where
  /-- read fd is still open -/
  readopen : Bool
  /-- write fd is still open -/
  writeopen : Bool

structure Sys where
  phys : Phys
  proc : Pid → Proc
  file : FileId → File
  /-- the flags in a page that is a pipe -/
  pipe : Nat → Pipe

/-- Kernel code. -/
abbrev Call : Type → Type := StateT Sys (Except String)

/-- Code that works on physical memory only. -/
def onPhys {α : Type} (c : Code α) : Call α := fun s => do
  let (a, phys) ← c.run s.phys
  return (a, { s with phys })

def modifyProc (p : Pid) (f : Proc → Proc) : Call Unit :=
  modify fun s => { s with proc := update s.proc p (f (s.proc p)) }

def modifyFile (i : FileId) (f : File → File) : Call Unit :=
  modify fun s => { s with file := update s.file i (f (s.file i)) }

def setPipe (page : Nat) (pi : Pipe) : Call Unit :=
  modify fun s => { s with pipe := update s.pipe page pi }

variable (ld : Linker)

/-! ## `file.c` and `pipe.c` -/

def filealloc : Call (Option FileId) := do
  let s ← get
  match (finRange NFILE).find? fun f => (s.file f).ref = 0 with
  | none => return none
  | some f => do
      modifyFile f fun x => { x with ref := 1 }
      return some f

def filedup (f : FileId) : Call Unit := do
  if ((← get).file f).ref < 1 then throw "filedup"
  else modifyFile f fun x => { x with ref := x.ref + 1 }

/-- `pipeclose`; the page is freed with its last end. -/
def pipeclose (page : Nat) (writable : Bool) : Call Unit := do
  let pi := (← get).pipe page
  let pi := if writable then { pi with writeopen := false } else { pi with readopen := false }
  setPipe page pi
  if pi.readopen = false ∧ pi.writeopen = false then onPhys (kfree ld (page * PGSIZE))
  else return ()

def fileclose (f : FileId) : Call Unit := do
  let ff := (← get).file f
  if ff.ref < 1 then throw "fileclose"
  else if 0 < ff.ref - 1 then modifyFile f fun x => { x with ref := x.ref - 1 }
  else do
    modifyFile f fun x => { x with ref := 0, type := .none }
    if ff.type = .pipe then pipeclose ld ff.pipe ff.writable
    else return ()

/-- `pipealloc`.  Where it fails there is no page to free yet. -/
def pipealloc : Call (Option (FileId × FileId)) := do
  match ← filealloc with
  | none => return none
  | some f0 =>
      match ← filealloc with
      | none => do
          fileclose ld f0
          return none
      | some f1 =>
          match ← onPhys kalloc with
          | none => do
              fileclose ld f0
              fileclose ld f1
              return none
          | some pi => do
              setPipe (pi / PGSIZE) ⟨true, true⟩
              modifyFile f0 fun x =>
                { x with type := .pipe, writable := false, pipe := pi / PGSIZE }
              modifyFile f1 fun x => { x with type := .pipe, writable := true, pipe := pi / PGSIZE }
              return some (f0, f1)

/-! ## `proc.c` -/

/-- `freeproc` -/
def freeproc (p : Pid) : Call Unit := do
  let x := (← get).proc p
  (if x.trapframe ≠ 0 then onPhys (kfree ld x.trapframe) else pure ())
  (if x.pagetable ≠ 0 then onPhys (procFreepagetable ld x.pagetable x.sz) else pure ())
  modifyProc p fun x => { x with
    trapframe := 0, pagetable := 0, sz := 0, parent := none, xstate := 0, state := .unused }

/-- `allocproc`; it does not change the state. -/
def allocproc : Call (Option Pid) := do
  let s ← get
  match (finRange NPROC).find? fun p => (s.proc p).state = .unused with
  | none => return none
  | some p =>
      match ← onPhys kalloc with
      | none => do
          modifyProc p fun x => { x with trapframe := 0 }
          return none
      | some trapframe => do
          modifyProc p fun x => { x with trapframe }
          match ← onPhys (procPagetable ld trapframe) with
          | none => do
              modifyProc p fun x => { x with pagetable := 0 }
              freeproc ld p
              return none
          | some pagetable => do
              modifyProc p fun x => { x with pagetable }
              return some p

/-- A user program that calls exec("/init"). -/
def initcode : List UInt8 :=
  [0x17, 0x05, 0x00, 0x00, 0x13, 0x05, 0x45, 0x02,
   0x97, 0x05, 0x00, 0x00, 0x93, 0x85, 0x35, 0x02,
   0x93, 0x08, 0x70, 0x00, 0x73, 0x00, 0x00, 0x00,
   0x93, 0x08, 0x20, 0x00, 0x73, 0x00, 0x00, 0x00,
   0xef, 0xf0, 0x9f, 0xff, 0x2f, 0x69, 0x6e, 0x69,
   0x74, 0x00, 0x00, 0x24, 0x00, 0x00, 0x00, 0x00,
   0x00, 0x00, 0x00, 0x00]

namespace Trapframe

/-! Where the fields of `struct trapframe` are. -/

def epc : Nat := 24
def sp : Nat := 48
def a0 : Nat := 112
def a1 : Nat := 120

/-- `sizeof(struct trapframe)` -/
def size : Nat := 288

end Trapframe

/-- `userinit`; without a process the kernel traps. -/
def userinit : Call Unit := do
  match ← allocproc ld with
  | none => throw "kerneltrap"
  | some p => do
      let x := (← get).proc p
      onPhys (uvminit x.pagetable initcode)
      modifyProc p fun x => { x with sz := PGSIZE }
      onPhys (store (x.trapframe + Trapframe.epc) 0)
      onPhys (store (x.trapframe + Trapframe.sp) PGSIZE)
      modifyProc p fun x => { x with state := .runnable }

/-- `uint` arithmetic: `sz + n` for an `int`. -/
def addInt (sz : Nat) (n : Int32) : Nat := ((sz + n.toInt) % 2 ^ 32).toNat

/-- `growproc`; `sz` is a `uint`. -/
def growproc (p : Pid) (n : Int32) : Call Bool := do
  let x := (← get).proc p
  let sz := x.sz % 2 ^ 32
  if 0 < n.toInt then do
    let sz := (← onPhys (uvmalloc ld x.pagetable sz (addInt sz n))) % 2 ^ 32
    if sz = 0 then return false
    else do
      modifyProc p fun x => { x with sz }
      return true
  else if n.toInt < 0 then do
    let sz := (← onPhys (uvmdealloc ld x.pagetable sz (addInt sz n))) % 2 ^ 32
    modifyProc p fun x => { x with sz }
    return true
  else do
    modifyProc p fun x => { x with sz }
    return true

/-- The loop of `fork` over the descriptors. -/
def dupFiles (p np : Pid) : List Fd → Call Unit
  | [] => return ()
  | fd :: fds => do
      match ((← get).proc p).ofile fd with
      | none => dupFiles p np fds
      | some f => do
          filedup f
          modifyProc np fun x => { x with ofile := update x.ofile fd (some f) }
          dupFiles p np fds

/-- `*(np->trapframe) = *(p->trapframe)` -/
def copyTrapframe (from_ to_ : Nat) : Code Unit := do
  let s ← get
  memmove to_ (bytesAt (s.mem (from_ / PGSIZE)) (from_ % PGSIZE) Trapframe.size)

/-- `fork` -/
def fork (p : Pid) : Call (Option Pid) := do
  match ← allocproc ld with
  | none => return none
  | some np => do
      let x := (← get).proc p
      let nx := (← get).proc np
      if ← onPhys (uvmcopy ld x.pagetable nx.pagetable x.sz) then do
        modifyProc np fun nx => { nx with sz := x.sz, parent := some p }
        onPhys (copyTrapframe x.trapframe nx.trapframe)
        onPhys (store (nx.trapframe + Trapframe.a0) 0)
        dupFiles p np (finRange NOFILE)
        modifyProc np fun nx => { nx with state := .runnable }
        return some np
      else do
        freeproc ld np
        return none

/-- The loop of `exit` over the descriptors. -/
def closeFiles (p : Pid) : List Fd → Call Unit
  | [] => return ()
  | fd :: fds => do
      match ((← get).proc p).ofile fd with
      | none => closeFiles p fds
      | some f => do
          fileclose ld f
          modifyProc p fun x => { x with ofile := update x.ofile fd none }
          closeFiles p fds

/-- `reparent` -/
def reparent (p : Pid) : Call Unit :=
  modify fun s => { s with proc := fun q =>
    if (s.proc q).parent = some p then { s.proc q with parent := some initproc } else s.proc q }

/-- `exit` -/
def exit (p : Pid) (status : Int) : Call Unit :=
  if p = initproc then throw "init exiting"
  else do
    closeFiles ld p (finRange NOFILE)
    reparent p
    modifyProc p fun x => { x with xstate := status, state := .zombie }

/-- The bytes of an `int`. -/
def bytes32 (x : Int) : List UInt8 :=
  (range 4).map fun i => UInt8.ofNat ((x % 2 ^ 32).toNat / 256 ^ i)

/-- What a system call returned, and what it copied to the memory of its caller. -/
inductive Reply where
  /-- -1 -/
  | failed
  | done
  /-- it has not returned -/
  | sleeping
  /-- `wait` found a child with this status; did `copyout` work? -/
  | child (status : Int) (ok : Bool)
  /-- `pipe` made these descriptors; did `copyout` work? -/
  | fds (fd0 fd1 : Fd) (ok : Bool)
  deriving DecidableEq

/-- `wait` -/
def wait (p : Pid) (addr : Nat) : Call Reply := do
  let s ← get
  match (finRange NPROC).find? fun np =>
      (s.proc np).parent = some p ∧ (s.proc np).state = .zombie with
  | some np => do
      let status := (s.proc np).xstate
      if ← (if addr ≠ 0 then onPhys (copyout (s.proc p).pagetable addr (bytes32 status))
          else pure true) then do
        freeproc ld np
        return .child status true
      else return .child status false
  | none =>
      if ∃ np, (s.proc np).parent = some p then return .sleeping else return .failed

/-! ## `exec.c` and `sysfile.c` -/

/-- Maximum file path name. -/
def MAXPATH : Nat := 128

/-- Where the program starts. -/
def Elfhdr.entry (elf : List UInt8) : Nat := leAt elf 24 8

/-- `exec` of the file that `namei` finds, if it does. -/
def exec (p : Pid) (file : Option (List UInt8)) (argv : List Nat) : Call Bool := do
  match file with
  | none => return false
  | some file => do
      let x := (← get).proc p
      match ← onPhys (execImage ld x.trapframe file argv) with
      | none => return false
      | some (pagetable, sz, sp) => do
          onPhys (store (x.trapframe + Trapframe.a1) sp)
          modifyProc p fun x => { x with pagetable, sz }
          onPhys (store (x.trapframe + Trapframe.epc) (Elfhdr.entry (readi file 0 ELFHDRSIZE)))
          onPhys (store (x.trapframe + Trapframe.sp) sp)
          onPhys (procFreepagetable ld x.pagetable x.sz)
          return true

/-- `sys_exec` -/
def sysExec (p : Pid) (upath uargv : Nat) (file : Option (List UInt8)) : Call Bool := do
  let x := (← get).proc p
  match ← onPhys (copyinstr x.pagetable upath MAXPATH) with
  | none => return false
  | some _ => do
      let (ok, argv) ← onPhys (fetchArgs x.pagetable x.sz uargv MAXARG [])
      let ok ← (if ok then exec ld p file argv else pure false)
      onPhys (freeArgs ld argv)
      return ok

/-- `fdalloc` -/
def fdalloc (p : Pid) (f : FileId) : Call (Option Fd) := do
  let x := (← get).proc p
  match (finRange NOFILE).find? fun fd => x.ofile fd = none with
  | none => return none
  | some fd => do
      modifyProc p fun x => { x with ofile := update x.ofile fd (some f) }
      return some fd

def clearFd (p : Pid) (fd : Fd) : Call Unit :=
  modifyProc p fun x => { x with ofile := update x.ofile fd none }

/-- `sys_pipe` -/
def sysPipe (p : Pid) (fdarray : Nat) : Call Reply := do
  match ← pipealloc ld with
  | none => return .failed
  | some (rf, wf) =>
      match ← fdalloc p rf with
      | none => do
          fileclose ld rf
          fileclose ld wf
          return .failed
      | some fd0 =>
          match ← fdalloc p wf with
          | none => do
              clearFd p fd0
              fileclose ld rf
              fileclose ld wf
              return .failed
          | some fd1 => do
              let pagetable := ((← get).proc p).pagetable
              let ok ← onPhys (copyout pagetable fdarray (bytes32 fd0.val))
              let ok ← (if ok then
                  onPhys (copyout pagetable ((fdarray + 4) % 2 ^ 64) (bytes32 fd1.val))
                else pure false)
              if ok then return .fds fd0 fd1 true
              else do
                clearFd p fd0
                clearFd p fd1
                fileclose ld rf
                fileclose ld wf
                return .fds fd0 fd1 false

/-- `sys_close` -/
def sysClose (p : Pid) (fd : Fd) : Call Bool := do
  match ((← get).proc p).ofile fd with
  | none => return false
  | some f => do
      clearFd p fd
      fileclose ld f
      return true

/-- `sys_dup` -/
def sysDup (p : Pid) (fd : Fd) : Call Bool := do
  match ((← get).proc p).ofile fd with
  | none => return false
  | some f =>
      match ← fdalloc p f with
      | none => return false
      | some _ => do
          filedup f
          return true

/-- `sys_open` once it has the inode of a file of this type. -/
def sysOpen (p : Pid) (type : FileType) : Call Bool := do
  match ← filealloc with
  | none => return false
  | some f =>
      match ← fdalloc p f with
      | none => do
          fileclose ld f
          return false
      | some _ => do
          modifyFile f fun x => { x with type := if type = .device then .device else .inode }
          return true

/-! ## The system -/

inductive Syscall where
  | fork
  /-- the file is the one under the path at this time, if there is one -/
  | exec (upath uargv : Nat) (file : Option (List UInt8))
  | sbrk (n : Int32)
  | exit (status : Int)
  | wait (addr : Nat)
  | pipe (fdarray : Nat)
  | close (fd : Fd)
  | dup (fd : Fd)
  | open (type : FileType)
  /-- data of the kernel, or of the process itself, is written to its memory -/
  | copyout (va : Nat) (data : List UInt8)

def Reply.ofBool (ok : Bool) : Reply := if ok then .done else .failed

def Syscall.run (p : Pid) : Syscall → Call Reply
  | .fork => do return .ofBool (← Vm.fork ld p).isSome
  | .exec upath uargv file => do return .ofBool (← sysExec ld p upath uargv file)
  | .sbrk n => do return .ofBool (← growproc ld p n)
  | .exit status => do
      Vm.exit ld p status
      return .done
  | .wait addr => Vm.wait ld p addr
  | .pipe fdarray => sysPipe ld p fdarray
  | .close fd => do return .ofBool (← sysClose ld p fd)
  | .dup fd => do return .ofBool (← sysDup p fd)
  | .open type => do return .ofBool (← sysOpen ld p type)
  | .copyout va data => do
      let pagetable := ((← get).proc p).pagetable
      return .ofBool (← onPhys (Vm.copyout pagetable va data))

/-- A system call of a process, for which `kalloc` finds a page `budget` times. -/
structure Action where
  proc : Pid
  call : Syscall
  budget : Nat

/-- One system call.  A process that is not runnable does nothing. -/
def step (a : Action) (s : Sys) : Except String (Reply × Sys) :=
  if (s.proc a.proc).state = .runnable then
    (a.call.run ld a.proc).run { s with phys := { s.phys with budget := a.budget } }
  else .ok (.sleeping, s)

/-- A run, with all replies. -/
def run : List Action → Sys → Except String (List Reply × Sys)
  | [], s => .ok ([], s)
  | a :: as, s => do
      let (reply, s) ← step ld a s
      let (replies, s) ← run as s
      return (reply :: replies, s)

end Xv6.Vm
