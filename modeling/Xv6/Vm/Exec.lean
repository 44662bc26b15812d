/-
  Vm/Exec.lean --- page tables of processes (`proc.c`) and `exec.c`.

  The file that is executed is given by its bytes.  `readi` of a file is a pure
  function: it reads what there is, which may be less than was asked for.  Locks, the log
  and the inode are left out: none of them decides what happens to memory.
-/
import Xv6.Vm.PageTable

set_option autoImplicit false

namespace Xv6.Vm

open Foundation

variable (ld : Linker)

/-! ## `proc.c` -/

/-- `proc_pagetable`: a page table with the trampoline and the trapframe, and no user
memory. -/
def procPagetable (trapframe : Nat) : Code (Option Nat) := do
  match ← uvmcreate with
  | none => return none
  | some pagetable => do
      if ← mappages pagetable TRAMPOLINE PGSIZE ld.trampoline (PTE_R ||| PTE_X) then
        if ← mappages pagetable TRAPFRAME PGSIZE trapframe (PTE_R ||| PTE_W) then
          return some pagetable
        else do
          uvmunmap ld pagetable TRAMPOLINE 1 false
          uvmfree ld pagetable 0
          return none
      else do
        uvmfree ld pagetable 0
        return none

/-- `proc_freepagetable` -/
def procFreepagetable (pagetable sz : Nat) : Code Unit := do
  uvmunmap ld pagetable TRAMPOLINE 1 false
  uvmunmap ld pagetable TRAPFRAME 1 false
  uvmfree ld pagetable sz

/-! ## Files -/

/-- `readi` of at most `n` bytes at `off`, both `uint`. -/
def readi (file : List UInt8) (off n : Nat) : List UInt8 :=
  if file.length < off ∨ (off + n) % 2 ^ 32 < off then [] else (file.drop off).take n

/-- The little-endian number in the `w` bytes at `off`. -/
def leAt (bytes : List UInt8) (off w : Nat) : Nat :=
  ((bytes.drop off).take w).foldr (fun b n => b.toNat + 256 * n) 0

/-! ## `elf.h` -/

def ELF_MAGIC : Nat := 0x464C457F
def ELF_PROG_LOAD : Nat := 1

/-- `sizeof(struct elfhdr)` -/
def ELFHDRSIZE : Nat := 64
/-- `sizeof(struct proghdr)` -/
def PROGHDRSIZE : Nat := 56

namespace Elfhdr

def magic (elf : List UInt8) : Nat := leAt elf 0 4
def phoff (elf : List UInt8) : Nat := leAt elf 32 8
def phnum (elf : List UInt8) : Nat := leAt elf 56 2

end Elfhdr

namespace Proghdr

def type (ph : List UInt8) : Nat := leAt ph 0 4
def off (ph : List UInt8) : Nat := leAt ph 8 8
def vaddr (ph : List UInt8) : Nat := leAt ph 16 8
def filesz (ph : List UInt8) : Nat := leAt ph 32 8
def memsz (ph : List UInt8) : Nat := leAt ph 40 8

end Proghdr

/-! ## `exec.c` -/

/-- The loop of `loadseg`, with `npages` pages to go from byte `i` on. -/
def loadsegLoop (pagetable va : Nat) (file : List UInt8) (offset sz : Nat) :
    Nat → Nat → Code Bool
  | 0, _ => return true
  | npages + 1, i => do
      let pa ← walkaddr pagetable ((va + i) % 2 ^ 64)
      if pa = 0 then throw "loadseg: address should exist"
      else do
        let n := if sz - i < PGSIZE then sz - i else PGSIZE
        let bytes := readi file ((offset + i) % 2 ^ 32) n
        memmove pa bytes
        if bytes.length ≠ n then return false
        else loadsegLoop pagetable va file offset sz npages (i + PGSIZE)

/-- `loadseg`; `offset` and `sz` are `uint`. -/
def loadseg (pagetable va : Nat) (file : List UInt8) (offset sz : Nat) : Code Bool :=
  if va % PGSIZE ≠ 0 then throw "loadseg: va must be page aligned"
  else loadsegLoop pagetable va file offset sz ((sz + (PGSIZE - 1)) / PGSIZE) 0

/-- One program header of the loop of `exec`: was it loaded, and the size after it. -/
def loadHeader (pagetable : Nat) (file ph : List UInt8) (sz : Nat) : Code (Bool × Nat) :=
  if Proghdr.type ph ≠ ELF_PROG_LOAD then return (true, sz)
  else if Proghdr.memsz ph < Proghdr.filesz ph then return (false, sz)
  else if (Proghdr.vaddr ph + Proghdr.memsz ph) % 2 ^ 64 < Proghdr.vaddr ph then return (false, sz)
  else do
    let sz1 ← uvmalloc ld pagetable sz ((Proghdr.vaddr ph + Proghdr.memsz ph) % 2 ^ 64)
    if sz1 = 0 then return (false, sz)
    else if Proghdr.vaddr ph % PGSIZE ≠ 0 then return (false, sz1)
    else do
      let ok ← loadseg pagetable (Proghdr.vaddr ph) file (Proghdr.off ph % 2 ^ 32)
        (Proghdr.filesz ph % 2 ^ 32)
      return (ok, sz1)

/-- The loop of `exec` over the program headers: were all of them loaded, and the size
of what was. -/
def loadProgram (pagetable : Nat) (file : List UInt8) : Nat → Nat → Nat → Code (Bool × Nat)
  | 0, _, sz => return (true, sz)
  | phnum + 1, off, sz => do
      let ph := readi file off PROGHDRSIZE
      if ph.length ≠ PROGHDRSIZE then return (false, sz)
      else do
        let (ok, sz) ← loadHeader ld pagetable file ph sz
        if ok then loadProgram pagetable file phnum ((off + PROGHDRSIZE) % 2 ^ 32) sz
        else return (false, sz)

/-- Maximum number of arguments of `exec`. -/
def MAXARG : Nat := 32

/-- The string in a page: its bytes up to the first zero. -/
def strOf (page : Page) : List UInt8 := (bytesAt page 0 PGSIZE).takeWhile (· ≠ 0)

/-- `sp -= n; sp -= sp % 16` -/
def push (sp n : Nat) : Nat :=
  let sp := (sp + (2 ^ 64 - n)) % 2 ^ 64
  sp - sp % 16

/-- The loop of `exec` over the arguments; `argv` are the pages of the strings.  Returns the
stack pointer and `ustack`. -/
def pushArgs (pagetable stackbase : Nat) :
    List Nat → Nat → List Nat → Code (Option (Nat × List Nat))
  | [], sp, ustack => return some (sp, ustack)
  | arg :: argv, sp, ustack => do
      if MAXARG ≤ ustack.length then return none
      else do
        let str := strOf ((← get).mem (arg / PGSIZE))
        let sp := push sp (str.length + 1)
        if sp < stackbase then return none
        else if ← copyout pagetable sp (str ++ [0]) then
          pushArgs pagetable stackbase argv sp (ustack ++ [sp])
        else return none

/-- The bytes of an array of `uint64`. -/
def bytes64 (xs : List Nat) : List UInt8 :=
  xs.flatMap fun x => (List.range 8).map fun i => UInt8.ofNat (x / 256 ^ i)

/-- `bad:` in `exec`, once there is a page table. -/
def execBad {α : Type} (pagetable sz : Nat) : Code (Option α) := do
  procFreepagetable ld pagetable sz
  return none

/-- `exec` up to where its stack is allocated: the page table and its size. -/
def loadImage (trapframe : Nat) (file : List UInt8) : Code (Option (Nat × Nat)) := do
  let elf := readi file 0 ELFHDRSIZE
  if elf.length ≠ ELFHDRSIZE ∨ Elfhdr.magic elf ≠ ELF_MAGIC then return none
  else
    match ← procPagetable ld trapframe with
    | none => return none
    | some pagetable => do
        let (ok, sz) ← loadProgram ld pagetable file (Elfhdr.phnum elf)
          (Elfhdr.phoff elf % 2 ^ 32) 0
        if ok then do
          let sz := PGROUNDUP sz
          let sz1 ← uvmalloc ld pagetable sz ((sz + 2 * PGSIZE) % 2 ^ 64)
          if sz1 = 0 then execBad ld pagetable sz else return some (pagetable, sz1)
        else execBad ld pagetable sz

/-- The guard page, and the arguments on the stack: the stack pointer, if they fit. -/
def pushStack (pagetable sz : Nat) (argv : List Nat) : Code (Option Nat) := do
  uvmclear pagetable (sz - 2 * PGSIZE)
  match ← pushArgs pagetable (sz - PGSIZE) argv sz [] with
  | none => return none
  | some (sp, ustack) => do
      let sp := push sp ((ustack.length + 1) * 8)
      if sp < sz - PGSIZE then return none
      else if ← copyout pagetable sp (bytes64 (ustack ++ [0])) then return some sp
      else return none

/-- `exec` up to where it commits: the new page table, its size and the stack pointer. -/
def execImage (trapframe : Nat) (file : List UInt8) (argv : List Nat) :
    Code (Option (Nat × Nat × Nat)) := do
  match ← loadImage ld trapframe file with
  | none => return none
  | some (pagetable, sz) => do
      match ← pushStack pagetable sz argv with
      | none => execBad ld pagetable sz
      | some sp => return some (pagetable, sz, sp)

/-! ## `sys_exec` -/

/-- The loop of `sys_exec` that fetches the arguments: were they fetched, and the pages
that have been allocated for them. -/
def fetchArgs (pagetable psz uargv : Nat) : Nat → List Nat → Code (Bool × List Nat)
  | 0, argv => return (false, argv)
  | fuel + 1, argv => do
      let addr := (uargv + 8 * argv.length) % 2 ^ 64
      -- fetchaddr
      if psz ≤ addr ∨ psz < (addr + 8) % 2 ^ 64 then return (false, argv)
      else
        match ← copyin pagetable addr 8 with
        | none => return (false, argv)
        | some bytes =>
            let uarg := leAt bytes 0 8
            if uarg = 0 then return (true, argv)
            else
              match ← kalloc with
              | none => return (false, argv)
              | some page => do
                  -- fetchstr
                  match ← copyinstr pagetable uarg PGSIZE with
                  | none => return (false, argv ++ [page])
                  | some str => do
                      memmove page (str ++ [0])
                      fetchArgs pagetable psz uargv fuel (argv ++ [page])

def freeArgs : List Nat → Code Unit
  | [] => return ()
  | page :: argv => do
      kfree ld page
      freeArgs argv

end Xv6.Vm
