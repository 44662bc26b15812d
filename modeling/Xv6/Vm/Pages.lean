/-
  Vm/Pages.lean --- what the kernel does to user memory, as operations on lists of pages.

  This is the abstract model of the memory of one process: no page tables, no physical
  pages, no other process, and no lack of memory.  `Vm/Image.lean` shows that the routines
  of `vm.c` and `exec.c` do this when they succeed.
-/
import Xv6.Vm.Exec
import Xv6.Vm.Grow

set_option autoImplicit false

namespace Xv6.Vm

open Foundation

/-- The memory of a user process. -/
abbrev Pages : Type := List UPage

namespace Pages

/-- The page at an address, if user code may access it. -/
def lookup (pages : Pages) (va : Nat) : Option UPage := (pages[va / PGSIZE]?).filter (·.user)

/-- Bytes written to the page of an address. -/
def write (pages : Pages) (va : Nat) (u : UPage) (bytes : List UInt8) : Pages :=
  pages.set (va / PGSIZE) { u with data := storeBytes u.data (va % PGSIZE) bytes }

/-- The next page boundary. -/
def nextPage (va : Nat) : Nat := ((va / PGSIZE + 1) * PGSIZE) % 2 ^ 64

/-- The bytes of `len` that are in the page of an address. -/
def chunk (va len : Nat) : Nat := min (PGSIZE - va % PGSIZE) len

def copyoutFrom : Nat → Nat → List UInt8 → Pages → Pages × Bool
  | _, _, [], pages => (pages, true)
  | 0, _, _ :: _, pages => (pages, false)
  | fuel + 1, va, x :: xs, pages =>
      match pages.lookup va with
      | none => (pages, false)
      | some u =>
          let n := chunk va (x :: xs).length
          copyoutFrom fuel (nextPage va) ((x :: xs).drop n) (pages.write va u ((x :: xs).take n))

/-- `copyout`: as many bytes as are in pages before one that cannot be accessed. -/
def copyout (pages : Pages) (va : Nat) (bytes : List UInt8) : Pages × Bool :=
  copyoutFrom bytes.length va bytes pages

def copyinFrom (pages : Pages) : Nat → Nat → Nat → Option (List UInt8)
  | _, _, 0 => some []
  | 0, _, _ + 1 => none
  | fuel + 1, va, len + 1 =>
      match pages.lookup va with
      | none => none
      | some u =>
          let n := chunk va (len + 1)
          (copyinFrom pages fuel (nextPage va) (len + 1 - n)).map
            (bytesAt u.data (va % PGSIZE) n ++ ·)

def copyin (pages : Pages) (va len : Nat) : Option (List UInt8) := pages.copyinFrom len va len

def copyinstrFrom (pages : Pages) : Nat → Nat → Nat → Option (List UInt8)
  | _, _, 0 => none
  | 0, _, _ + 1 => none
  | fuel + 1, va, max + 1 =>
      match pages.lookup va with
      | none => none
      | some u =>
          let n := chunk va (max + 1)
          let bytes := bytesAt u.data (va % PGSIZE) n
          if 0 ∈ bytes then some (bytes.takeWhile (· ≠ 0))
          else (copyinstrFrom pages fuel (nextPage va) (max + 1 - n)).map (bytes ++ ·)

def copyinstr (pages : Pages) (va max : Nat) : Option (List UInt8) :=
  pages.copyinstrFrom max va max

/-- Zero pages up to a size. -/
def grow (pages : Pages) (sz : Nat) : Pages :=
  pages ++ List.replicate (np sz - pages.length) zeroPage

/-- The loop of `loadseg`. -/
def loadseg (va : Nat) (file : List UInt8) (offset sz : Nat) : Nat → Nat → Pages → Option Pages
  | 0, _, pages => some pages
  | npages + 1, i, pages =>
      match pages.lookup (va + i) with
      | none => none
      | some u =>
          let n := if sz - i < PGSIZE then sz - i else PGSIZE
          let bytes := readi file ((offset + i) % 2 ^ 32) n
          if bytes.length ≠ n then none
          else loadseg va file offset sz npages (i + PGSIZE) (pages.write (va + i) u bytes)

/-- One program header. -/
def loadHeader (file ph : List UInt8) (sz : Nat) (pages : Pages) : Option (Pages × Nat) :=
  if Proghdr.type ph ≠ ELF_PROG_LOAD then some (pages, sz)
  else if Proghdr.memsz ph < Proghdr.filesz ph then none
  else if (Proghdr.vaddr ph + Proghdr.memsz ph) % 2 ^ 64 < Proghdr.vaddr ph then none
  else
    let sz1 := max sz ((Proghdr.vaddr ph + Proghdr.memsz ph) % 2 ^ 64)
    if sz1 = 0 ∨ Proghdr.vaddr ph % PGSIZE ≠ 0 then none
    else
      (loadseg (Proghdr.vaddr ph) file (Proghdr.off ph % 2 ^ 32) (Proghdr.filesz ph % 2 ^ 32)
        (np (Proghdr.filesz ph % 2 ^ 32)) 0 (pages.grow sz1)).map fun pages => (pages, sz1)

/-- The loop of `exec` over the program headers. -/
def loadProgram (file : List UInt8) : Nat → Nat → Nat → Pages → Option (Pages × Nat)
  | 0, _, sz, pages => some (pages, sz)
  | phnum + 1, off, sz, pages =>
      let ph := readi file off PROGHDRSIZE
      if ph.length ≠ PROGHDRSIZE then none
      else
        (loadHeader file ph sz pages).bind fun (pages, sz) =>
          loadProgram file phnum ((off + PROGHDRSIZE) % 2 ^ 32) sz pages

/-- The loop of `exec` over the argument strings. -/
def pushArgs (stackbase : Nat) :
    List (List UInt8) → Nat → List Nat → Pages → Option (Nat × List Nat × Pages)
  | [], sp, ustack, pages => some (sp, ustack, pages)
  | str :: strs, sp, ustack, pages =>
      let sp := push sp (str.length + 1)
      if MAXARG ≤ ustack.length ∨ sp < stackbase then none
      else
        let (pages, ok) := pages.copyout sp (str ++ [0])
        if ok then pushArgs stackbase strs sp (ustack ++ [sp]) pages else none

/-- The arguments on the stack that ends at `sz`, and the stack pointer. -/
def arguments (pages : Pages) (sz : Nat) (strs : List (List UInt8)) : Option (Pages × Nat) :=
  (pushArgs (sz - PGSIZE) strs sz [] pages).bind fun (sp, ustack, pages) =>
    let sp := push sp ((ustack.length + 1) * 8)
    if sp < sz - PGSIZE then none
    else
      let (pages, ok) := pages.copyout sp (bytes64 (ustack ++ [0]))
      if ok then some (pages, sp) else none

/-- The pages of a program with the guard page and the stack that `exec` adds. -/
def guarded (pages : Pages) : Pages := pages ++ [⟨fun _ => 0, false⟩, zeroPage]

/-- The size of the new image. -/
def stackTop (pages : Pages) : Nat := (pages.length + 2) * PGSIZE

/-- The pages that the program headers of a file say, and their size. -/
def program (file : List UInt8) : Option (Pages × Nat) :=
  let elf := readi file 0 ELFHDRSIZE
  if elf.length ≠ ELFHDRSIZE ∨ Elfhdr.magic elf ≠ ELF_MAGIC then none
  else loadProgram file (Elfhdr.phnum elf) (Elfhdr.phoff elf % 2 ^ 32) 0 []

/-- The memory of a process after `exec` of a file with these arguments, and its size. -/
def image (file : List UInt8) (strs : List (List UInt8)) : Option (Pages × Nat) :=
  (program file).bind fun (pages, _) =>
    (pages.guarded.arguments pages.stackTop strs).map fun (pages', _) => (pages', pages.stackTop)

/-- The arguments of `sys_exec`, fetched from user memory. -/
def fetchArgs (pages : Pages) (psz uargv : Nat) :
    Nat → List (List UInt8) → Option (List (List UInt8))
  | 0, _ => none
  | fuel + 1, strs =>
      let addr := (uargv + 8 * strs.length) % 2 ^ 64
      if psz ≤ addr ∨ psz < (addr + 8) % 2 ^ 64 then none
      else
        (pages.copyin addr 8).bind fun bytes =>
          if leAt bytes 0 8 = 0 then some strs
          else
            (pages.copyinstr (leAt bytes 0 8) PGSIZE).bind fun str =>
              fetchArgs pages psz uargv fuel (strs ++ [str])

end Pages

end Xv6.Vm
