/-
  Vm/Break.lean --- when `growproc` moves the break by exactly what it was asked to.

  `growproc` computes the new size as a `uint`.  Sizes are far below that, so growing never
  wraps: there is no memory for it.  Shrinking below zero does wrap, to a size that is
  larger than the old one; `uvmdealloc` takes that for nothing to do, and `growproc`
  returns 0 with the break where it was.
-/
import Xv6.Vm.Isolation

set_option autoImplicit false

namespace Xv6.Vm

open List Foundation
open Procs (ProcState initproc)

variable {ld : Linker} {K : Nat → Prop} {m m' : Pid → Pages} {s s' : Sys} {p : Pid}

namespace UMem

/-- The byte at an address, if there is a page for it. -/
def byte (u : UMem) (va : Nat) : Option UInt8 :=
  (u.pages[va / PGSIZE]?).map fun page => getByte page.data (va % PGSIZE)

/-- What `growproc(n)` is for: the size moves by `n`, what is below both sizes stays, and
pages that were not there before are zero. -/
structure Moved (u u' : UMem) (n : Int32) : Prop where
  size : (u'.sz : Int) = u.sz + n.toInt
  below : ∀ va < min u.sz u'.sz, u'.byte va = u.byte va
  fresh : ∀ i page, u.pages.length ≤ i → u'.pages[i]? = some page → page = zeroPage

/-- What `growproc(n)` may do, by what it returns. -/
def Grows (u u' : UMem) (n : Int32) (ok : Bool) : Prop :=
  if ok then u.Moved u' n else u' = u

variable {n : Int32}

theorem addInt_of_nonneg {sz : Nat} (hsz : sz ≤ 2 ^ 27) (h : 0 ≤ sz + n.toInt) :
    (addInt sz n : Int) = sz + n.toInt := by
  have hlt := n.toInt_lt
  rw [addInt]
  omega

theorem addInt_of_neg {sz : Nat} (hsz : sz ≤ 2 ^ 27) (h : sz + n.toInt < 0) : sz < addInt sz n := by
  have hle := n.le_toInt
  rw [addInt]
  omega

/-- The page of a byte below a size. -/
theorem page_lt_np {va sz : Nat} (h : va < sz) : va / PGSIZE < np sz := by
  rw [np, show PGSIZE = 4096 from rfl]
  omega

theorem sbrk_moved {u : UMem} (hsz : u.sz ≤ 2 ^ 27) (hlen : np u.sz = u.pages.length)
    (h : 0 ≤ u.sz + n.toInt) : u.Moved (u.sbrk n) n := by
  have hadd := addInt_of_nonneg hsz h
  rw [sbrk]
  split
  · -- zero pages are appended
    have hmax : max u.sz (addInt u.sz n) = addInt u.sz n := by omega
    refine ⟨?_, fun va hva => ?_, fun i page hi hpage => ?_⟩
    · rw [hmax]
      exact hadd
    · have hpage := page_lt_np (lt_of_lt_of_le hva (min_le_left _ _))
      rw [byte, byte, Pages.grow, getElem?_append_left (by omega)]
    · rw [Pages.grow, getElem?_append_right hi] at hpage
      exact (mem_replicate.mp (mem_of_getElem? hpage)).2
  · split
    · -- the last pages are gone
      have hmin : min u.sz (addInt u.sz n) = addInt u.sz n := by omega
      rw [hmin]
      refine ⟨hadd, fun va hva => ?_, fun i page hi hpage => ?_⟩
      · have hpage := page_lt_np (lt_of_lt_of_le hva (min_le_right _ _))
        rw [byte, byte, getElem?_take_of_lt hpage]
      · have hlt := (List.getElem?_eq_some_iff.mp hpage).1
        rw [length_take] at hlt
        omega
    · refine ⟨by omega, fun _ _ => rfl, fun i page hi hpage => ?_⟩
      have hlt := (List.getElem?_eq_some_iff.mp hpage).1
      omega

/-- Below zero nothing happens. -/
theorem sbrk_below_zero {u : UMem} (hsz : u.sz ≤ 2 ^ 27) (hlen : np u.sz = u.pages.length)
    (h : u.sz + n.toInt < 0) : u.sbrk n = u := by
  have hadd := addInt_of_neg hsz h
  have hmin : min u.sz (addInt u.sz n) = u.sz := by omega
  rw [sbrk]
  rw [if_neg (by omega), if_pos (by omega), hmin, hlen, take_length]

end UMem

/-- `growproc` does what it is for, unless it would move the break below zero: then it
returns 0 and has not moved it. -/
theorem growproc_exact_iff (h : Inv ld K m s) (hp : (s.proc p).state = .runnable) (n : Int32) :
    Total (growproc ld p n) (fun ok s' => ∃ m', After ld K p m m' s s' ∧
      ((umem m s p).Grows (umem m' s' p) n ok ↔ 0 ≤ ((s.proc p).sz : Int) + n.toInt)) s := by
  obtain ⟨g, hacc⟩ := h.accounts
  obtain ⟨r, tf, hspace⟩ := hacc.hasSpace (h.pagetable hp)
  have hsmall := hspace.space.size_lt hacc.pool hspace.size
  refine (growproc_total h hp n).mono ?_
  rintro ok s' ⟨m', hafter, hmem, -, hok⟩
  refine ⟨m', hafter, ?_⟩
  rw [hmem]
  by_cases hneg : ((s.proc p).sz : Int) + n.toInt < 0
  · obtain rfl : ok = true := hok (by omega)
    refine iff_of_false (fun hgrows => ?_) (by omega)
    have hmoved : (umem m s p).Moved ((umem m s p).sbrk n) n := hgrows
    have hsize := hmoved.size
    rw [UMem.sbrk_below_zero hsmall hspace.size hneg] at hsize
    rw [umem] at hsize
    omega
  · refine iff_of_true ?_ (by omega)
    cases ok with
    | false => exact rfl
    | true => exact UMem.sbrk_moved hsmall hspace.size (Int.not_lt.mp hneg)

/-- The first process grows by a byte. -/
theorem growproc_exact_boot : ∃ s m, Inv bootKernel bootKernelPages m s ∧
    Total (growproc bootKernel initproc 1) (fun ok s' => ∃ m',
      After bootKernel bootKernelPages initproc m m' s s' ∧
      ((umem m s initproc).Grows (umem m' s' initproc) 1 ok ↔
        0 ≤ ((s.proc initproc).sz : Int) + (1 : Int32).toInt)) s := by
  obtain ⟨s, -, hs, hrun⟩ := bootState_reachable 5
  obtain ⟨m, hinv⟩ := hs.inv
  exact ⟨s, m, hinv, growproc_exact_iff hinv hrun 1⟩

/-- The first process asks to give back more than it has, and is told that it did. -/
theorem growproc_below_zero : ∃ s, Reachable bootKernel bootKernelPages s ∧
    Total (growproc bootKernel initproc Int32.minValue) (fun ok s' => ok = true ∧
      (s'.proc initproc).sz = (s.proc initproc).sz ∧
      ((s'.proc initproc).sz : Int) ≠ (s.proc initproc).sz + Int32.minValue.toInt) s := by
  obtain ⟨s, -, hs, hrun⟩ := bootState_reachable 5
  obtain ⟨m, hinv⟩ := hs.inv
  obtain ⟨g, hacc⟩ := hinv.accounts
  obtain ⟨r, tf, hspace⟩ := hacc.hasSpace (hinv.pagetable hrun)
  have hsmall := hspace.space.size_lt hacc.pool hspace.size
  have hmin : Int32.minValue.toInt = -2 ^ 31 := by decide
  refine ⟨s, hs, (growproc_total hinv hrun Int32.minValue).mono ?_⟩
  rintro ok s' ⟨m', -, hmem, -, hok⟩
  obtain rfl : ok = true := hok (by omega)
  have hneg : ((s.proc initproc).sz : Int) + Int32.minValue.toInt < 0 := by omega
  have hkeep : (umem m s initproc).sbrk Int32.minValue = umem m s initproc :=
    UMem.sbrk_below_zero hsmall hspace.size hneg
  have hsame : umem m' s' initproc = umem m s initproc := hmem.trans ((if_pos rfl).trans hkeep)
  have hsz : (s'.proc initproc).sz = (s.proc initproc).sz := congrArg UMem.sz hsame
  exact ⟨rfl, hsz, by omega⟩

end Xv6.Vm
