/-
  Vm/Memory.lean --- physical memory, the page allocator of `kalloc.c`, and the page
  table entries of `riscv.h`.

  Physical memory is bytes, a page at a time.  A page-table page has no type of its own:
  an entry is the eight bytes at its address, so that writing through a stale pointer
  would change a page table as it would on the machine.

  `kmem.freelist` is the list of the pages on it; that the list is linked through the
  free pages themselves is left out, and so is their spinlock.  A routine that panics
  throws the panic's message.
-/
import Mathlib.Data.Nat.Bitwise
import Xv6.Foundation.Total
import Xv6.Kernel.Layout

set_option autoImplicit false

namespace Xv6.Vm

open Function Foundation

/-! ## `memlayout.h` -/

def KERNBASE : Nat := 0x80000000
def PHYSTOP : Nat := KERNBASE + 128 * 1024 * 1024

/-! ## `riscv.h` -/

/-- One beyond the highest virtual address. -/
def MAXVA : Nat := 1 <<< (9 + 9 + 9 + 12 - 1)
/-- The trampoline page, at the highest address. -/
def TRAMPOLINE : Nat := MAXVA - PGSIZE
/-- The trapframe, below it. -/
def TRAPFRAME : Nat := TRAMPOLINE - PGSIZE

def PGROUNDUP (sz : Nat) : Nat := (sz + PGSIZE - 1) % 2 ^ 64 / PGSIZE * PGSIZE
def PGROUNDDOWN (a : Nat) : Nat := a / PGSIZE * PGSIZE

/-- valid -/
def PTE_V : Nat := 1 <<< 0
def PTE_R : Nat := 1 <<< 1
def PTE_W : Nat := 1 <<< 2
def PTE_X : Nat := 1 <<< 3
/-- user can access -/
def PTE_U : Nat := 1 <<< 4

def PA2PTE (pa : Nat) : Nat := (pa >>> 12) <<< 10
def PTE2PA (pte : Nat) : Nat := ((pte >>> 10) <<< 12) % 2 ^ 64
def PTE_FLAGS (pte : Nat) : Nat := pte &&& 0x3FF

/-- The index of a virtual address in the page table of a level. -/
def PX (level va : Nat) : Nat := (va >>> (12 + 9 * level)) &&& 0x1FF

/-! ## Physical memory -/

/-- The contents of a page. -/
abbrev Page : Type := Bytes PGSIZE

/-- The symbols of `kernel.ld`: where the kernel ends, and its trampoline page. -/
structure Linker where
  /-- `end` -/
  kend : Nat
  trampoline : Nat
  aligned : trampoline % PGSIZE = 0
  text : KERNBASE ≤ trampoline ∧ trampoline + PGSIZE ≤ kend
  fits : kend ≤ PHYSTOP

theorem KERNBASE_aligned : KERNBASE % PGSIZE = 0 := by decide

structure Phys where
  /-- the pages, by page number -/
  mem : Nat → Page
  /-- `kmem.freelist`, by page number -/
  free : List Nat
  /-- how many more calls of `kalloc` find a page: the others find the free list
  emptied by another processor -/
  budget : Nat

/-- Kernel code that works on physical memory. -/
abbrev Code : Type → Type := StateT Phys (Except String)

/-- The eight bytes at an address. -/
def load (pa : Nat) : Code Nat := do
  return getLE ((← get).mem (pa / PGSIZE)) 8 (pa % PGSIZE)

def Phys.setPage (s : Phys) (n : Nat) (page : Page) : Phys :=
  { s with mem := update s.mem n page }

theorem Phys.setPage_self (s : Phys) (n : Nat) (page : Page) : (s.setPage n page).mem n = page :=
  update_self ..

theorem Phys.setPage_setPage (s : Phys) (n : Nat) (page page' : Page) :
    (s.setPage n page).setPage n page' = s.setPage n page' := by
  simp only [Phys.setPage, update_idem]

theorem Phys.setPage_of_ne {s : Phys} {n m : Nat} (hm : m ≠ n) {page : Page} :
    (s.setPage n page).mem m = s.mem m :=
  update_of_ne hm _ _

def store (pa v : Nat) : Code Unit :=
  modify fun s => s.setPage (pa / PGSIZE) (putLE (s.mem (pa / PGSIZE)) 8 (pa % PGSIZE) v)

/-- `memset(pa, c, PGSIZE)` on the page at `pa`. -/
def memset (pa : Nat) (c : UInt8) : Code Unit :=
  modify fun s => s.setPage (pa / PGSIZE) fun _ => c

/-! ## `kalloc.c` -/

def kfree (ld : Linker) (pa : Nat) : Code Unit :=
  if pa % PGSIZE ≠ 0 ∨ pa < ld.kend ∨ PHYSTOP ≤ pa then throw "kfree"
  else do
    memset pa 1
    modify fun s => { s with free := pa / PGSIZE :: s.free }

def kalloc : Code (Option Nat) := do
  let s ← get
  match s.budget, s.free with
  | budget + 1, r :: free => do
      set { s with free, budget }
      memset (r * PGSIZE) 5
      return some (r * PGSIZE)
  | _, _ => return none

end Xv6.Vm
