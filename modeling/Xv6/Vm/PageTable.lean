/-
  Vm/PageTable.lean --- `vm.c`: page tables, and the memory of a user process.

  A `pagetable_t` is the physical address of a page-table page.  Pointers that may be
  null are optional; an address that the source compares with 0 is a number.  Routines
  that return 0 or -1 return a Boolean, true for 0.

  The loops over a range of pages recurse on the number of pages that are left.  The
  loop of `mappages` stops at one address only: its fuel is the number of pages below
  `MAXVA`, above which `walk` panics.
-/
import Xv6.Vm.Memory

set_option autoImplicit false

namespace Xv6.Vm

open Foundation

/-! ## Walking -/

/-- The loop of `walk`, from a level down. -/
def walkLoop (va : Nat) (alloc : Bool) : Nat → Nat → Code (Option Nat)
  | 0, pagetable => return some (pagetable + 8 * PX 0 va)
  | level + 1, pagetable => do
      let pte := pagetable + 8 * PX (level + 1) va
      let v ← load pte
      if v &&& PTE_V ≠ 0 then walkLoop va alloc level (PTE2PA v)
      else if !alloc then return none
      else
        match ← kalloc with
        | none => return none
        | some child => do
            memset child 0
            store pte (PA2PTE child ||| PTE_V)
            walkLoop va alloc level child

/-- `walk`: the address of the entry for `va`. -/
def walk (pagetable va : Nat) (alloc : Bool) : Code (Option Nat) :=
  if MAXVA ≤ va then throw "walk" else walkLoop va alloc 2 pagetable

def walkaddr (pagetable va : Nat) : Code Nat :=
  if MAXVA ≤ va then return 0
  else do
    match ← walk pagetable va false with
    | none => return 0
    | some pte => do
        let v ← load pte
        if v &&& PTE_V = 0 then return 0
        else if v &&& PTE_U = 0 then return 0
        else return PTE2PA v

/-! ## Mapping -/

def mappagesLoop (pagetable perm last : Nat) : Nat → Nat → Nat → Code Bool
  | 0, _, _ => throw "walk"
  | fuel + 1, a, pa => do
      match ← walk pagetable a true with
      | none => return false
      | some pte => do
          let v ← load pte
          if v &&& PTE_V ≠ 0 then throw "remap"
          else do
            store pte (PA2PTE pa ||| perm ||| PTE_V)
            if a = last then return true
            else
              let a := (a + PGSIZE) % 2 ^ 64
              let pa := (pa + PGSIZE) % 2 ^ 64
              mappagesLoop pagetable perm last fuel a pa

def mappages (pagetable va size pa perm : Nat) : Code Bool :=
  mappagesLoop pagetable perm (PGROUNDDOWN ((va + size + (2 ^ 64 - 1)) % 2 ^ 64))
    (MAXVA / PGSIZE + 1) (PGROUNDDOWN va) pa

section
variable (ld : Linker)

def uvmunmapLoop (pagetable : Nat) (doFree : Bool) : Nat → Nat → Code Unit
  | 0, _ => return ()
  | npages + 1, a => do
      match ← walk pagetable a false with
      | none => throw "uvmunmap: walk"
      | some pte => do
          let v ← load pte
          if v &&& PTE_V = 0 then throw "uvmunmap: not mapped"
          else if PTE_FLAGS v = PTE_V then throw "uvmunmap: not a leaf"
          else do
            (if doFree then kfree ld (PTE2PA v) else pure ())
            store pte 0
            uvmunmapLoop pagetable doFree npages (a + PGSIZE)

def uvmunmap (pagetable va npages : Nat) (doFree : Bool) : Code Unit :=
  if va % PGSIZE ≠ 0 then throw "uvmunmap: not aligned"
  else uvmunmapLoop ld pagetable doFree (((va + npages * PGSIZE) % 2 ^ 64 - va) / PGSIZE) va

def uvmclear (pagetable va : Nat) : Code Unit := do
  match ← walk pagetable va false with
  | none => throw "uvmclear"
  | some pte => do
      let v ← load pte
      store pte (v &&& (2 ^ 64 - 1 - PTE_U))

/-! ## User memory -/

def uvmcreate : Code (Option Nat) := do
  match ← kalloc with
  | none => return none
  | some pagetable => do
      memset pagetable 0
      return some pagetable

/-- Bytes within one page. -/
def memmove (pa : Nat) (bytes : List UInt8) : Code Unit :=
  modify fun s => s.setPage (pa / PGSIZE) (storeBytes (s.mem (pa / PGSIZE)) (pa % PGSIZE) bytes)

/-- `memmove(dst, src, PGSIZE)` -/
def copyPage (dst src : Nat) : Code Unit :=
  modify fun s => s.setPage (dst / PGSIZE) (s.mem (src / PGSIZE))

/-- The permissions of a page of user memory. -/
def PTE_URWX : Nat := PTE_W ||| PTE_X ||| PTE_R ||| PTE_U

/-- `uvminit`, which does not look at what `kalloc` and `mappages` return: without memory
the source writes to address 0, which is a fault here. -/
def uvminit (pagetable : Nat) (src : List UInt8) : Code Unit :=
  if PGSIZE ≤ src.length then throw "inituvm: more than a page"
  else do
    match ← kalloc with
    | none => throw "kerneltrap"
    | some mem => do
        memset mem 0
        let _ ← mappages pagetable 0 PGSIZE mem PTE_URWX
        memmove mem src

/-- A `uint64` cut to an `int`, and that as a `uint64` again. -/
def viaInt (x : Nat) : Nat := ((x + 2 ^ 31) % 2 ^ 32 + (2 ^ 64 - 2 ^ 31)) % 2 ^ 64

def uvmdealloc (pagetable oldsz newsz : Nat) : Code Nat :=
  if oldsz ≤ newsz then return oldsz
  else if PGROUNDUP newsz < PGROUNDUP oldsz then do
    let npages := viaInt ((PGROUNDUP oldsz - PGROUNDUP newsz) / PGSIZE)
    uvmunmap ld pagetable (PGROUNDUP newsz) npages true
    return newsz
  else return newsz

def uvmallocLoop (pagetable oldsz newsz : Nat) : Nat → Nat → Code Nat
  | 0, _ => return newsz
  | npages + 1, a => do
      match ← kalloc with
      | none => do
          let _ ← uvmdealloc ld pagetable a oldsz
          return 0
      | some mem => do
          memset mem 0
          if ← mappages pagetable a PGSIZE mem PTE_URWX then
            uvmallocLoop pagetable oldsz newsz npages (a + PGSIZE)
          else do
            kfree ld mem
            let _ ← uvmdealloc ld pagetable a oldsz
            return 0

/-- `uvmalloc`: the new size, or 0. -/
def uvmalloc (pagetable oldsz newsz : Nat) : Code Nat :=
  if newsz < oldsz then return oldsz
  else
    let oldsz := PGROUNDUP oldsz
    uvmallocLoop ld pagetable oldsz newsz ((newsz - oldsz + (PGSIZE - 1)) / PGSIZE) oldsz

/-- `freewalk`.  The source recurses as deep as valid entries without permissions lead;
`depth` bounds that for the three levels of a page table. -/
def freewalk : Nat → Nat → Code Unit
  | 0, _ => throw "freewalk: leaf"
  | depth + 1, pagetable => do
      (List.range 512).forM fun i => do
        let pte ← load (pagetable + 8 * i)
        if pte &&& PTE_V ≠ 0 ∧ pte &&& (PTE_R ||| PTE_W ||| PTE_X) = 0 then do
          freewalk depth (PTE2PA pte)
          store (pagetable + 8 * i) 0
        else if pte &&& PTE_V ≠ 0 then throw "freewalk: leaf"
        else return ()
      kfree ld pagetable

def uvmfree (pagetable sz : Nat) : Code Unit := do
  (if 0 < sz then uvmunmap ld pagetable 0 (PGROUNDUP sz / PGSIZE) true else pure ())
  freewalk ld 3 pagetable

def uvmcopyLoop (old new : Nat) : Nat → Nat → Code Bool
  | 0, _ => return true
  | npages + 1, i => do
      match ← walk old i false with
      | none => throw "uvmcopy: pte should exist"
      | some pte => do
          let v ← load pte
          if v &&& PTE_V = 0 then throw "uvmcopy: page not present"
          else do
            match ← kalloc with
            | none => do
                uvmunmap ld new 0 (i / PGSIZE) true
                return false
            | some mem => do
                copyPage mem (PTE2PA v)
                if ← mappages new i PGSIZE mem (PTE_FLAGS v) then
                  uvmcopyLoop old new npages (i + PGSIZE)
                else do
                  kfree ld mem
                  uvmunmap ld new 0 (i / PGSIZE) true
                  return false

def uvmcopy (old new sz : Nat) : Code Bool :=
  uvmcopyLoop ld old new ((sz + (PGSIZE - 1)) / PGSIZE) 0

end

/-! ## Copying between the kernel and a user process

Every page takes at least one byte off what is left to copy, so the fuel need not be
more than that. -/

def copyoutLoop (pagetable : Nat) : Nat → Nat → List UInt8 → Code Bool
  | _, _, [] => return true
  | 0, _, _ :: _ => return false
  | fuel + 1, dstva, x :: xs => do
      let va0 := PGROUNDDOWN dstva
      let pa0 ← walkaddr pagetable va0
      if pa0 = 0 then return false
      else do
        let n := min (PGSIZE - (dstva - va0)) (x :: xs).length
        memmove (pa0 + (dstva - va0)) ((x :: xs).take n)
        copyoutLoop pagetable fuel ((va0 + PGSIZE) % 2 ^ 64) ((x :: xs).drop n)

def copyout (pagetable dstva : Nat) (src : List UInt8) : Code Bool :=
  copyoutLoop pagetable src.length dstva src

/-- The bytes at a physical address, within one page. -/
def loadBytes (pa n : Nat) : Code (List UInt8) := do
  return bytesAt ((← get).mem (pa / PGSIZE)) (pa % PGSIZE) n

def copyinLoop (pagetable : Nat) : Nat → Nat → Nat → Code (Option (List UInt8))
  | _, _, 0 => return some []
  | 0, _, _ + 1 => return none
  | fuel + 1, srcva, len + 1 => do
      let va0 := PGROUNDDOWN srcva
      let pa0 ← walkaddr pagetable va0
      if pa0 = 0 then return none
      else do
        let n := min (PGSIZE - (srcva - va0)) (len + 1)
        let bytes ← loadBytes (pa0 + (srcva - va0)) n
        let rest ← copyinLoop pagetable fuel ((va0 + PGSIZE) % 2 ^ 64) (len + 1 - n)
        return rest.map (bytes ++ ·)

/-- `copyin`: the bytes copied, unless one is not mapped. -/
def copyin (pagetable srcva len : Nat) : Code (Option (List UInt8)) :=
  copyinLoop pagetable len srcva len

def copyinstrLoop (pagetable : Nat) : Nat → Nat → Nat → Code (Option (List UInt8))
  | _, _, 0 => return none
  | 0, _, _ + 1 => return none
  | fuel + 1, srcva, max + 1 => do
      let va0 := PGROUNDDOWN srcva
      let pa0 ← walkaddr pagetable va0
      if pa0 = 0 then return none
      else do
        let n := min (PGSIZE - (srcva - va0)) (max + 1)
        let bytes ← loadBytes (pa0 + (srcva - va0)) n
        if 0 ∈ bytes then return some (bytes.takeWhile (· ≠ 0))
        else do
          let rest ← copyinstrLoop pagetable fuel ((va0 + PGSIZE) % 2 ^ 64) (max + 1 - n)
          return rest.map (bytes ++ ·)

/-- `copyinstr`: the string without the null byte that ends it, if there is one among
the first `max` bytes. -/
def copyinstr (pagetable srcva max : Nat) : Code (Option (List UInt8)) :=
  copyinstrLoop pagetable max srcva max

end Xv6.Vm
