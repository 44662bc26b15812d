/-
  Vm/Copy.lean --- `uvmcopy` gives the child a copy of its own.

  What is said here is about the bytes of physical memory: what the two page tables map,
  in which physical pages, and what is in them.  The roles of pages are what it is proved
  with.
-/
import Xv6.Vm.Boot

set_option autoImplicit false

namespace Xv6.Vm

open Function List Foundation
open Procs (initproc)

variable {g g' : Nat → Role} {s s' : Phys} {ld : Linker} {r r' tf tf' sz : Nat} {p p' : Pid}
  {pages pages' : List UPage}

/-! ## The pages of an address space -/

/-- The physical page of an entry. -/
def entryPage (pte : Nat) : Nat := PTE2PA pte / PGSIZE

/-- The pages of an address space: those of its page table, and those it maps. -/
def PageOf (mem : Nat → Page) (r n : Nat) : Prop :=
  (∃ path : List Nat, path.length ≤ 2 ∧ node mem path r = some n) ∨
    ∃ i pte, mapping mem r i = some pte ∧ entryPage pte = n

/-- An address space is as it was: what it maps, and every page of it. -/
structure Intact (s s' : Phys) (r : Nat) : Prop where
  mapping : mapping s'.mem r = mapping s.mem r
  pages : ∀ n, PageOf s.mem r n → s'.mem n = s.mem n

variable {n : Nat}

theorem UPage.entryPage_entry (u : UPage) (hn : n < 2 ^ 52) : entryPage (u.entry n) = n := by
  rw [entryPage, u.entry_page hn, page_div]

theorem entryPage_leaf {n perm : Nat} (hn : n < 2 ^ 52) (hperm : perm < 2 ^ 10) :
    entryPage (leafEntry (n * PGSIZE) perm 0) = n := by
  have hflags : perm ||| PTE_V < 2 ^ 10 := Nat.or_lt_two_pow hperm (by decide)
  have hpa : n * PGSIZE < 2 ^ 64 := by
    rw [show PGSIZE = 4096 from rfl]
    omega
  rw [entryPage, leafEntry, Nat.zero_mul, Nat.add_zero, Nat.mod_eq_of_lt hpa, Nat.or_assoc,
    PA2PTE_or hflags, page_div, PTE2PA_of hn hflags, page_div]

/-- The trampoline is below what `kalloc` gives out. -/
theorem Pool.trampoline (hpool : Pool ld g s) : g (ld.trampoline / PGSIZE) = .outside := by
  rw [hpool.range]
  rintro ⟨hlow, -⟩
  have htext := ld.text.2
  have hpos : 0 < PGSIZE := by decide
  have hle := Nat.div_mul_le_self ld.trampoline PGSIZE
  omega

section

variable (hpool : Pool ld g s) (h : Space g s r (procTop ld tf) pages) (htf : g tf = .trapframe p)

include hpool h htf

/-- The role of a page that is mapped. -/
theorem Space.mapping_role {i pte : Nat} (hpte : mapping s.mem r i = some pte) :
    g (entryPage pte) = .user r i ∨ g (entryPage pte) = .trapframe p ∨
      g (entryPage pte) = .outside := by
  by_cases hi : i < pages.length
  · obtain ⟨n, hmap, hn, -⟩ := h.user i _ (getElem?_eq_getElem hi)
    have hsmall := (hpool.managed hn (by simp)).small
    obtain rfl := Option.some.inj (hmap.symm.trans hpte)
    rw [UPage.entryPage_entry _ hsmall]
    exact Or.inl hn
  · rw [h.rest i (by omega), procTop] at hpte
    split at hpte
    · have hsmall := (hpool.managed htf (by simp)).small
      rw [← Option.some.inj hpte, entryPage_leaf hsmall (by decide)]
      exact Or.inr (Or.inl htf)
    · split at hpte
      · have haligned : ld.trampoline = ld.trampoline / PGSIZE * PGSIZE :=
          (Nat.div_mul_cancel (Nat.dvd_of_mod_eq_zero ld.aligned)).symm
        have hsmall : ld.trampoline / PGSIZE < 2 ^ 52 := by
          refine Nat.div_lt_of_lt_mul ?_
          have htext := ld.text.2
          have hfits := ld.fits
          rw [show PGSIZE = 4096 from rfl] at htext ⊢
          rw [show PHYSTOP = 2281701376 from rfl] at hfits
          omega
        rw [haligned] at hpte
        rw [← Option.some.inj hpte, entryPage_leaf hsmall (by decide)]
        exact Or.inr (Or.inr hpool.trampoline)
      · cases hpte

/-- The roles of its pages. -/
theorem Space.pageOf_role (hn : PageOf s.mem r n) :
    (∃ path, g n = .node r path) ∨ (∃ i, g n = .user r i) ∨ g n = .trapframe p ∨
    g n = .outside := by
  rcases hn with ⟨path, hlen, hnode⟩ | ⟨i, pte, hpte, rfl⟩
  · exact Or.inl ⟨path, hpool.tables.role_of h.root hlen hnode⟩
  · rcases h.mapping_role hpool htf hpte with huser | hrest
    · exact Or.inr (Or.inl ⟨i, huser⟩)
    · exact Or.inr (Or.inr hrest)

/-- None of them is in another address space. -/
theorem Space.pageOf_apart (hne : r ≠ r') (hn : PageOf s.mem r n) : ¬ InSpace r' (g n) := by
  rcases h.pageOf_role hpool htf hn with ⟨path, hrole⟩ | ⟨i, hrole⟩ | hrole | hrole <;> rw [hrole]
  · exact mt inSpace_node.mp hne
  · exact mt inSpace_user.mp hne
  · exact not_inSpace_plain trivial
  · exact not_inSpace_outside r'

end

variable {top : Nat → Option Nat}

/-- It is intact if its pages are. -/
theorem Space.intact_of_keep (hpool : Pool ld g s) (h : Space g s r top pages)
    (hkeep : ∀ n, PageOf s.mem r n → s'.mem n = s.mem n) :
    Intact s s' r := by
  refine ⟨hpool.tables.mapping_congr h.root fun x path j hx => ?_, hkeep⟩
  have hpath := (hpool.tables.node x r path).mp hx
  rw [word, word, hkeep x (Or.inl ⟨path, hpath.1, hpath.2.2⟩)]

/-- Work on another address space leaves it intact. -/
theorem Space.intact (hpool : Pool ld g s) (h : Space g s r (procTop ld tf) pages)
    (htf : g tf = .trapframe p) (hne : r ≠ r') (hchange : Change (InSpace r') g g' s s') :
    Intact s s' r :=
  h.intact_of_keep hpool fun n hn => (hchange.keep n (h.pageOf_apart hpool htf hne hn)).2

/-! ## Copies out to one of two -/

/-- A number of `copyout`s, each to one of two address spaces. -/
def copyouts (r r' : Nat) : List (Bool × Nat × List UInt8) → Code Unit
  | [] => return ()
  | (second, va, bytes) :: rest => do
      let _ ← copyout ((if second then r' else r) * PGSIZE) va bytes
      copyouts r r' rest

/-- Two address spaces, each of one process. -/
structure Apart (ld : Linker) (g : Nat → Role) (s : Phys) (r tf r' tf' : Nat) (p p' : Pid) :
    Prop where
  pool : Pool ld g s
  ne : r ≠ r'
  first : ∃ pages, Space g s r (procTop ld tf) pages
  second : ∃ pages, Space g s r' (procTop ld tf') pages
  frame : g tf = .trapframe p
  frame' : g tf' = .trapframe p'

namespace Apart

theorem symm (h : Apart ld g s r tf r' tf' p p') : Apart ld g s r' tf' r tf p' p :=
  ⟨h.pool, h.ne.symm, h.second, h.first, h.frame', h.frame⟩

/-- A `copyout` to one does not touch the other. -/
theorem copyout (h : Apart ld g s r tf r' tf' p p') (va : Nat) (bytes : List UInt8) :
    Total (Vm.copyout (r * PGSIZE) va bytes)
      (fun _ s' => Apart ld g s' r tf r' tf' p p' ∧ Intact s s' r') s := by
  obtain ⟨pages, hspace⟩ := h.first
  obtain ⟨pages', hspace'⟩ := h.second
  refine (copyout_user h.pool hspace va bytes).mono ?_
  rintro _ s' ⟨-, hworked⟩
  have hframe := hspace'.frame_of_ne h.pool.tables h.ne.symm hworked.change
  exact ⟨⟨hworked.pool, h.ne, ⟨_, hworked.space⟩, ⟨_, hframe⟩, h.frame, h.frame'⟩,
    hspace'.intact h.pool h.frame' h.ne.symm hworked.change⟩

/-- Nor do the ones before it change that. -/
theorem copyouts (rest : List (Bool × Nat × List UInt8)) : ∀ s, Apart ld g s r tf r' tf' p p' →
      Total (Vm.copyouts r r' rest) (fun _ s' => Apart ld g s' r tf r' tf' p p') s := by
  induction rest with
  | nil => exact fun s h => Total.pure h
  | cons w rest ih =>
    obtain ⟨second, va, bytes⟩ := w
    intro s h
    have hone : Total (Vm.copyout ((if second then r' else r) * PGSIZE) va bytes)
        (fun _ s' => Apart ld g s' r tf r' tf' p p') s := by
      cases second with
      | false => exact (h.copyout va bytes).mono fun _ s' h' => h'.1
      | true => exact (h.symm.copyout va bytes).mono fun _ s' h' => h'.1.symm
    exact hone.seq fun _ s' h' => ih s' h'

end Apart

/-! ## `uvmcopy` -/

/-- Every page of `r` has been copied to a page that is only in `r'`, and what is copied out
to one of the two later does not touch the other. -/
structure Copied (s s' : Phys) (r r' sz : Nat) : Prop where
  page : ∀ i < np sz, ∃ pte pte', mapping s.mem r i = some pte ∧ mapping s'.mem r' i = some pte' ∧
    PTE_FLAGS pte' = PTE_FLAGS pte ∧ s'.mem (entryPage pte') = s.mem (entryPage pte) ∧
    ¬ PageOf s'.mem r (entryPage pte') ∧
    (∀ path : List Nat, path.length ≤ 2 → node s'.mem path r' ≠ some (entryPage pte')) ∧
    ∀ j other, j ≠ i → mapping s'.mem r' j = some other → entryPage other ≠ entryPage pte'
  later : ∀ rest, Total (copyouts r r' rest) (fun _ s₁ => ∀ va bytes,
    Total (copyout (r * PGSIZE) va bytes) (fun _ s₂ => Intact s₁ s₂ r') s₁ ∧
      Total (copyout (r' * PGSIZE) va bytes) (fun _ s₂ => Intact s₁ s₂ r) s₁) s'

/-- Nothing is mapped in `r'` below the trapframe, and of the pages that were free only
those of its page table are not. -/
structure Undone (s s' : Phys) (r' : Nat) : Prop where
  unmapped : ∀ i < TOPV, mapping s'.mem r' i = none
  free : ∀ n ∈ s.free, n ∈ s'.free ∨
    ∃ path : List Nat, path.length ≤ 2 ∧ node s'.mem path r' = some n

theorem Worked.trapframe (hworked : Worked ld r top pages g g' s s') {q : Pid}
    (hn : g n = .trapframe q) : g' n = .trapframe q := by
  rw [(hworked.change.keep n (by rw [hn]; exact not_inSpace_plain trivial)).1, hn]

/-- The pages of the parent are in the child. -/
theorem Worked.copied (hpool : Pool ld g s) (hold : Space g s r (procTop ld tf) pages)
    (htf : g tf = .trapframe p) (htf' : g tf' = .trapframe p') (hne : r ≠ r')
    (hsz : np sz = pages.length) (hworked : Worked ld r' (procTop ld tf') pages g g' s s') :
    Copied s s' r r' sz := by
  have hframe : ∀ {n q}, g n = .trapframe q → g' n = .trapframe q := hworked.trapframe
  have hold' := hold.frame_of_ne hpool.tables hne hworked.change
  have hapart : Apart ld g' s' r tf r' tf' p p' :=
    ⟨hworked.pool, hne, ⟨_, hold'⟩, ⟨_, hworked.space⟩, hframe htf, hframe htf'⟩
  refine ⟨fun i hi => ?_, fun rest => ?_⟩
  · obtain ⟨u, hu⟩ : ∃ u, pages[i]? = some u :=
      ⟨_, getElem?_eq_getElem (hsz ▸ hi : i < pages.length)⟩
    obtain ⟨n, hmap, hn, hdata⟩ := hold.user i u hu
    obtain ⟨n', hmap', hn', hdata'⟩ := hworked.space.user i u hu
    have hpage := u.entryPage_entry (hpool.managed hn (by simp)).small
    have hpage' := u.entryPage_entry (hworked.pool.managed hn' (by simp)).small
    refine ⟨_, _, hmap, hmap', ?_, ?_, ?_, ?_, ?_⟩
    · rw [UPage.entry_flags, UPage.entry_flags]
    · rw [hpage, hpage', hdata, hdata']
    · rw [hpage']
      intro hof
      refine hold'.pageOf_apart hworked.pool (hframe htf) hne hof ?_
      rw [hn']
      exact Or.inr ⟨i, rfl⟩
    · intro path hlen hnode
      rw [hpage'] at hnode
      cases hn'.symm.trans (hworked.pool.tables.role_of hworked.space.root hlen hnode)
    · intro j other hj hother heq
      rw [hpage'] at heq
      rcases hworked.space.mapping_role hworked.pool
        (hframe htf') hother with hrole | hrole | hrole <;>
        rw [heq] at hrole
      · exact hj (Role.user.inj (hrole.symm.trans hn')).2
      · cases hn'.symm.trans hrole
      · cases hn'.symm.trans hrole
  · refine (hapart.copyouts rest).mono fun _ s₁ h₁ va bytes => ⟨?_, ?_⟩
    · exact (h₁.copyout va bytes).mono fun _ _ h₂ => h₂.2
    · exact (h₁.symm.copyout va bytes).mono fun _ _ h₂ => h₂.2

/-- The child has no pages. -/
theorem Worked.undone (hpool : Pool ld g s) (hworked : Worked ld r' top [] g g' s s') :
    Undone s s' r' := by
  refine ⟨fun i hi => ?_, fun n hn => ?_⟩
  · rw [hworked.space.rest i (Nat.zero_le i), hworked.space.top_none hi]
  · have hfree := (hpool.tables.free n).mp hn
    rcases hworked.change.stay n (Or.inl (Or.inl hfree)) with (hfree' | ⟨path, hpath⟩) | ⟨w, hw⟩
    · exact Or.inl ((hworked.pool.tables.free n).mpr hfree')
    · have hnode := (hworked.pool.tables.node n r' path).mp hpath
      exact Or.inr ⟨path, hnode.1, hnode.2.2⟩
    · obtain ⟨u, hu, -⟩ := hworked.space.only n w hw
      cases hu

/-- `uvmcopy` from one process to another that has no user memory, wherever `kalloc` fails:
the parent is not touched; the child gets a copy that is its own, or nothing. -/
theorem uvmcopy_private (hpool : Pool ld g s) (hne : r ≠ r')
    (hparent : Space g s r (procTop ld tf) pages) (hchild : Space g s r' (procTop ld tf') [])
    (htf : g tf = .trapframe p) (htf' : g tf' = .trapframe p') (hsz : np sz = pages.length) :
    Total (uvmcopy ld (r * PGSIZE) (r' * PGSIZE) sz) (fun ok s' =>
      Intact s s' r ∧ if ok then Copied s s' r r' sz else Undone s s' r') s := by
  refine (uvmcopy_total hne hpool hparent hchild hsz).mono ?_
  rintro ok s' ⟨g', hworked⟩
  refine ⟨hparent.intact hpool htf hne hworked.change, ?_⟩
  cases ok with
  | true => exact hworked.copied hpool hparent htf htf' hne hsz
  | false => exact hworked.undone hpool

/-! ## A parent and a child -/

/-- The first process has one page, and there is a process for its child. -/
theorem uvmcopy_private_onePage : ∃ s s' q r r',
    (userinit bootKernel).run (bootState 5) = .ok ((), s) ∧
    (allocproc bootKernel).run s = .ok (some q, s') ∧
    (s'.proc initproc).pagetable = r * PGSIZE ∧ (s'.proc q).pagetable = r' * PGSIZE ∧
    Total (uvmcopy bootKernel (r * PGSIZE) (r' * PGSIZE) PGSIZE) (fun ok phys =>
      Intact s'.phys phys r ∧
        if ok then Copied s'.phys phys r r' PGSIZE else Undone s'.phys phys r') s'.phys := by
  obtain ⟨s, m, g, _, _, hinit, hinv, hpages, hacc, hfirst⟩ := userinit_space (bootState_booted 5)
  obtain ⟨res, s', hrun, hres⟩ := allocproc_total hacc hinv.unused
  have hsome : res ≠ none := by
    have hcheck : ((userinit bootKernel).run (bootState 5) >>= fun x =>
        (allocproc bootKernel).run x.2).toOption.any (fun x => x.1.isSome) = true := by
      decide +kernel
    rw [hinit] at hcheck
    change ((allocproc bootKernel).run s).toOption.any _ = true at hcheck
    rw [hrun] at hcheck
    rintro rfl
    cases hcheck
  obtain ⟨q, rfl, hnew⟩ := hres.resolve_left fun h => hsome h.1
  obtain ⟨g', hacc'⟩ := hnew.accounts
  have hzero := hinv.unused q hnew.unused
  have hq : initproc ≠ q := by
    rintro rfl
    exact hfirst.ne_zero hacc.pool hzero
  obtain ⟨r, tf, hparent⟩ := hacc'.hasSpace (p := initproc) <| by
    rw [hnew.other _ hq]
    exact hfirst.ne_zero hacc.pool
  obtain ⟨r', tf', hchild⟩ := hacc'.hasSpace hnew.pagetable
  rw [hpages] at hparent
  rw [(hacc.bare hzero).2] at hchild
  have hne : r ≠ r' := by
    rintro rfl
    exact hq (hacc'.inj _ _ (hparent.pagetable.trans hchild.pagetable.symm)
      (hparent.ne_zero hacc'.pool))
  exact ⟨s, s', q, r, r', hinit, hrun, hparent.pagetable, hchild.pagetable,
    uvmcopy_private hacc'.pool hne hparent.space hchild.space hparent.role hchild.role np_PGSIZE⟩

end Xv6.Vm
