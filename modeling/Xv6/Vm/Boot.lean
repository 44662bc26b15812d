/-
  Vm/Boot.lean --- `userinit`: the first process.

  When the kernel has booted, the pages that `kalloc` gives out are free, but for those the
  kernel has taken for good, and there are no processes and no open files.  `userinit`
  makes the first process.  It does not look at what `mappages` returns, so this needs a
  few free pages; with ten of them it cannot fail (`avail`).
-/
import Xv6.Vm.ProcCalls

set_option autoImplicit false

namespace Xv6.Vm

open Function List Foundation
open Procs (ProcState initproc)

variable {ld : Linker} {K : Nat → Prop} {g : Nat → Role}

/-! ## Enough memory -/

/-- How many more times `kalloc` finds a page. -/
def avail (s : Phys) : Nat := min s.budget s.free.length

section Avail

variable {s s' : Phys}

/-- Given `k` pages it succeeds, and takes no more than these. -/
def Costs {α : Type} (k : Nat) (ok : α → Prop) (m : Code α) (s : Phys) : Prop :=
  Whenever m (fun a s' => k ≤ avail s → ok a ∧ avail s ≤ avail s' + k) s

namespace Costs

variable {α β : Type} {j k : Nat} {ok : α → Prop} {ok' : β → Prop} {m : Code α} {f : α → Code β}

theorem weaken (h : Costs j ok m s) (hjk : j ≤ k) : Costs k ok m s :=
  h.mono fun a s' hQ havail => by
    obtain ⟨hok, hcost⟩ := hQ (by omega)
    exact ⟨hok, by omega⟩

theorem seq (h : Costs j ok m s) (hrest : ∀ a s', ok a → Costs k ok' (f a) s') :
    Costs (j + k) ok' (m >>= f) s := by
  refine Whenever.seq h fun a s' hQ => ?_
  by_cases havail : j + k ≤ avail s
  · obtain ⟨hok, hcost⟩ := hQ (by omega)
    refine (hrest a s' hok).mono fun b s'' hQ' _ => ?_
    obtain ⟨hok', hcost'⟩ := hQ' (by omega)
    exact ⟨hok', by omega⟩
  · exact fun b s'' _ hle => absurd hle havail

theorem pure {a : α} (ha : ok a) : Costs 0 ok (Pure.pure a) s :=
  Whenever.pure fun _ => ⟨ha, by omega⟩

/-- What works on the contents of pages costs nothing. -/
theorem modify {f : Phys → Phys} (hf : avail (f s) = avail s) :
    Costs 0 (fun _ => True) (modifyGet fun x => (⟨⟩, f x) : Code PUnit) s :=
  Whenever.of_total (Total.modify fun _ => ⟨trivial, by omega⟩)

theorem get : Costs 0 (fun _ => True) (MonadState.get : Code Phys) s :=
  Whenever.of_total (Total.get fun _ => ⟨trivial, by omega⟩)

theorem throw {e : String} : Costs k ok (MonadExcept.throw e) s := Whenever.throw

end Costs

theorem kalloc_costs : Costs 1 (· ≠ none) kalloc s := by
  rw [Costs, kalloc]
  have hget : Whenever (MonadState.get : Code Phys) (fun a s' => a = s ∧ s' = s) s :=
    Whenever.of_total (Total.get ⟨rfl, rfl⟩)
  refine hget.seq ?_
  rintro a s₁ ⟨rfl, rfl⟩
  split
  · rename_i budget n free hbudget hfree
    refine Whenever.of_total (Total.bind (Total.set (Total.bind (memset_total (Total.pure ?_)))))
    intro _
    refine ⟨by simp, ?_⟩
    rw [avail, avail, hbudget, hfree, length_cons, Phys.setPage]
    dsimp only
    omega
  · rename_i hnot
    refine Whenever.pure fun havail => ?_
    rw [avail] at havail
    obtain ⟨budget, hbudget⟩ := Nat.exists_eq_succ_of_ne_zero (n := s₁.budget) (by omega)
    obtain ⟨n, free, hfree⟩ := exists_cons_of_length_pos (l := s₁.free) (by omega)
    exact (hnot budget n free hbudget hfree).elim

/-- With a page left, `kalloc` returns the first of the free list. -/
theorem kalloc_found (havail : 1 ≤ avail s) :
    Total kalloc (fun res s' => ∃ n l b, s.free = n :: l ∧ res = some (n * PGSIZE) ∧
      s' = ⟨update s.mem n fun _ => 5, l, b⟩ ∧ avail s ≤ avail s' + 1) s := by
  have hall : Total kalloc (fun res s' => res = none ∨ ∃ n l b, s.free = n :: l ∧
      res = some (n * PGSIZE) ∧ s' = ⟨update s.mem n fun _ => 5, l, b⟩) s :=
    kalloc_total (Or.inl rfl) fun n l b hfree => Or.inr ⟨n, l, b, hfree, rfl, rfl⟩
  refine (hall.and kalloc_costs).mono ?_
  rintro res s' ⟨hnone | ⟨n, l, b, hfree, hres, hs'⟩, hcost⟩
  · exact absurd hnone (hcost havail).1
  · exact ⟨n, l, b, hfree, hres, hs', (hcost havail).2⟩

theorem load_costs (pa : Nat) : Costs 0 (fun _ => True) (load pa) s :=
  Costs.seq (j := 0) Costs.get fun _ _ _ => Costs.pure trivial

theorem store_costs (pa v : Nat) : Costs 0 (fun _ => True) (store pa v) s := Costs.modify rfl

theorem memset_costs (pa : Nat) (c : UInt8) : Costs 0 (fun _ => True) (memset pa c) s :=
  Costs.modify rfl

theorem walkLoop_costs (va level : Nat) : ∀ (pagetable : Nat) (s : Phys),
    Costs level (· ≠ none) (walkLoop va true level pagetable) s := by
  induction level with
  | zero => exact fun pagetable s => Costs.pure (by simp)
  | succ level ih =>
    intro pagetable s
    have hstep : Costs (0 + (level + 1)) (· ≠ none) (walkLoop va true (level + 1) pagetable) s := by
      rw [walkLoop]
      refine (load_costs _).seq fun v s₁ _ => ?_
      split
      · exact (ih _ s₁).weaken (by omega)
      · refine (kalloc_costs.seq (k := level) fun res s₂ hres => ?_).weaken
          (Nat.add_comm 1 level).le
        cases res with
        | none => exact absurd rfl hres
        | some child =>
          have hmore := (memset_costs child 0 (s := s₂)).seq fun _ s₃ _ =>
            (store_costs (pagetable + 8 * PX (level + 1) va) (PA2PTE child ||| PTE_V) (s := s₃)).seq
              fun _ s₄ _ => ih child s₄
          rw [Nat.zero_add, Nat.zero_add] at hmore
          exact hmore
    rw [Nat.zero_add] at hstep
    exact hstep

/-- One page is mapped. -/
theorem mappages_costs {pagetable va size pa perm : Nat}
    (hone : PGROUNDDOWN va = PGROUNDDOWN ((va + size + (2 ^ 64 - 1)) % 2 ^ 64)) :
    Costs 2 (· = true) (mappages pagetable va size pa perm) s := by
  have hwalk : ∀ a s₁, Costs 2 (· ≠ none) (walk pagetable a true) s₁ := by
    intro a s₁
    rw [walk]
    split
    · exact Costs.throw
    · exact walkLoop_costs _ 2 _ _
  rw [mappages, mappagesLoop]
  refine Costs.seq (j := 2) (k := 0) (hwalk _ s) fun res s₁ hres => ?_
  cases res with
  | none => exact absurd rfl hres
  | some pte =>
    refine Costs.seq (j := 0) (k := 0) (load_costs pte) fun v s₂ _ => ?_
    split
    · exact Costs.throw
    · refine Costs.seq (j := 0) (k := 0) (store_costs _ _) fun _ s₃ _ => ?_
      exact Costs.pure rfl

theorem procPagetable_costs (trapframe : Nat) :
    Costs 5 (· ≠ none) (procPagetable ld trapframe) s := by
  rw [procPagetable]
  have hcreate : Costs 1 (· ≠ none) uvmcreate s := by
    refine Costs.seq (j := 1) (k := 0) kalloc_costs fun res s₁ hres => ?_
    cases res with
    | none => exact absurd rfl hres
    | some pagetable =>
      exact Costs.seq (j := 0) (k := 0) (memset_costs _ _) fun _ _ _ => Costs.pure (by simp)
  refine Costs.seq (j := 1) (k := 4) hcreate fun res s₁ hres => ?_
  cases res with
  | none => exact absurd rfl hres
  | some pagetable =>
    refine Costs.seq (j := 2) (k := 2) (mappages_costs (by decide)) fun ok s₂ hok => ?_
    rw [if_pos hok]
    refine Costs.seq (j := 2) (k := 0) (mappages_costs (by decide)) fun ok s₃ hok => ?_
    rw [if_pos hok]
    exact Costs.pure (by simp)

/-- The first page of user memory is the program. -/
theorem uvminit_total {r : Nat} {top : Nat → Option Nat} {src : List UInt8} (hpool : Pool ld g s)
    (h : Space g s r top []) (hsrc : src.length < PGSIZE) (havail : 3 ≤ avail s) :
    Total (uvminit (r * PGSIZE) src) (fun _ s' => ∃ g',
      Worked ld r top [⟨storeBytes (fun _ => 0) 0 src, true⟩] g g' s s') s := by
  rw [uvminit, if_neg (by omega)]
  refine Total.seq (kalloc_found (by omega)) ?_
  rintro _ s₁ ⟨n, l, b, hfree, rfl, rfl, havail₁⟩
  refine Total.bind (memset_total ?_)
  have havail₂ : 2 ≤ avail (s.withPage n b l zeroPage.data) := by
    have hsame : avail (s.withPage n b l zeroPage.data)
        = avail ⟨update s.mem n fun _ => 5, l, b⟩ := rfl
    omega
  rw [s.zeroed]
  have hmap := mappages_user (b := b) hpool h hfree zeroPage (show PTE_URWX < 2 ^ 10 by decide)
    (by decide)
  rw [length_nil, Nat.zero_mul] at hmap
  refine Total.bind ((hmap.and (mappages_costs (by decide))).mono ?_)
  rintro ok s₂ ⟨hres, hcost₂⟩
  obtain ⟨rfl, -⟩ := hcost₂ havail₂
  obtain ⟨g₂, hworked, hn⟩ := hres
  have hmove : Total (memmove (n * PGSIZE + 0) src)
      (fun _ s' => s' = s₂.setPage n (storeBytes (s₂.mem n) 0 src)) s₂ :=
    memmove_total (by decide) rfl
  rw [Nat.add_zero] at hmove
  refine hmove.mono ?_
  rintro _ s' rfl
  -- the page is the first page of user memory, so it was zero
  have hget : ([] ++ [zeroPage] : List UPage)[0]? = some zeroPage := rfl
  obtain ⟨n', hm', hn', hdata⟩ := hworked.space.user 0 zeroPage hget
  obtain ⟨u, hu, hm⟩ := hworked.space.only n 0 hn
  have hnn : n = n' := by
    rw [hget] at hu
    obtain rfl := Option.some.inj hu
    have hentry := Option.some.inj (hm.symm.trans hm')
    rw [UPage.entry, UPage.entry] at hentry
    omega
  subst hnn
  rw [hdata]
  have hwrite := hworked.space.write hworked.pool hget hn (storeBytes zeroPage.data 0 src)
  exact ⟨g₂, hworked.trans hwrite⟩

end Avail

/-! ## The first process -/

/-- The kernel has booted: `kinit` has freed all pages, the kernel has taken the pages `K`,
and the tables are empty. -/
structure Booted (ld : Linker) (K : Nat → Prop) (s : Sys) : Prop where
  nodup : s.phys.free.Nodup
  free : ∀ n, n ∈ s.phys.free ↔ ld.Managed n ∧ ¬ K n
  kernel : ∀ n, K n → ld.Managed n
  room : 10 ≤ avail s.phys
  proc : ∀ p, (s.proc p).state = .unused ∧ Bare (s.proc p) ∧ ∀ fd, (s.proc p).ofile fd = none
  file : ∀ f, (s.file f).ref = 0 ∧ (s.file f).type = .none
  pipe : ∀ n, (s.pipe n).readopen = false ∧ (s.pipe n).writeopen = false

open Classical in
/-- The roles of pages when the kernel has booted. -/
noncomputable def bootRoles (K : Nat → Prop) (s : Phys) (n : Nat) : Role :=
  if n ∈ s.free then .free else if K n then .kernel else .outside

variable {s s' : Sys}

theorem bootRoles_cases (K : Nat → Prop) (s : Phys) (n : Nat) :
    (n ∈ s.free ∧ bootRoles K s n = .free) ∨ (n ∉ s.free ∧ K n ∧ bootRoles K s n = .kernel) ∨
      (n ∉ s.free ∧ ¬ K n ∧ bootRoles K s n = .outside) := by
  by_cases hfree : n ∈ s.free
  · exact Or.inl ⟨hfree, if_pos hfree⟩
  · by_cases hK : K n
    · exact Or.inr (Or.inl ⟨hfree, hK, (if_neg hfree).trans (if_pos hK)⟩)
    · exact Or.inr (Or.inr ⟨hfree, hK, (if_neg hfree).trans (if_neg hK)⟩)

/-- No page has another role. -/
theorem bootRoles_ne {ρ : Role} (hρ : ρ ≠ .free ∧ ρ ≠ .kernel ∧ ρ ≠ .outside) (K : Nat → Prop)
    (s : Phys) (n : Nat) : bootRoles K s n ≠ ρ := by
  rcases bootRoles_cases K s n with ⟨-, h⟩ | ⟨-, -, h⟩ | ⟨-, -, h⟩ <;> rw [h]
  · exact Ne.symm hρ.1
  · exact Ne.symm hρ.2.1
  · exact Ne.symm hρ.2.2

/-- A kernel with forty pages, of which it takes the last. -/
def bootKernel : Linker :=
  ⟨PHYSTOP - 40 * PGSIZE, KERNBASE, KERNBASE_aligned, by decide, by decide⟩

def bootKernelPages (n : Nat) : Prop := n = PHYSTOP / PGSIZE - 1

/-- All bytes of memory are `fill`. -/
def bootState (fill : UInt8) : Sys where
  phys := ⟨fun _ _ => fill, range' (PHYSTOP / PGSIZE - 40) 39, 39⟩
  proc _ := ⟨.unused, none, 0, 0, 0, 0, fun _ => none⟩
  file _ := ⟨.none, 0, false, 0⟩
  pipe _ := ⟨false, false⟩

theorem bootState_booted (fill : UInt8) :
    Booted bootKernel bootKernelPages (bootState fill) := by
  have hmanaged : ∀ n, bootKernel.Managed n ↔ 557016 ≤ n ∧ n < 557056 := by
    intro n
    have hkend : bootKernel.kend = 557016 * 4096 := by decide
    rw [Linker.Managed, hkend, show PGSIZE = 4096 from rfl, show PHYSTOP = 557056 * 4096 by decide]
    omega
  have hkernel : ∀ n, bootKernelPages n ↔ n = 557055 := fun n => Iff.rfl
  have hroom : 10 ≤ min 39 (range' (PHYSTOP / PGSIZE - 40) 39).length := by decide
  refine ⟨nodup_range', fun n => ?_, fun n hn => ?_, hroom, fun p => ?_, fun f => ?_, fun n => ?_⟩
  · rw [hmanaged, hkernel]
    have hfree : (bootState fill).phys.free = range' 557016 39 := rfl
    rw [hfree, mem_range'_1]
    omega
  · rw [hkernel] at hn
    rw [hmanaged]
    omega
  · exact ⟨rfl, ⟨rfl, rfl, rfl⟩, fun _ => rfl⟩
  · exact ⟨rfl, rfl⟩
  · exact ⟨rfl, rfl⟩

theorem Booted.inv (h : Booted ld K s) : Inv ld K (fun _ => []) s := by
  have hne : ∀ {ρ : Role}, ρ ≠ .free ∧ ρ ≠ .kernel ∧ ρ ≠ .outside → ∀ n,
      bootRoles K s.phys n ≠ ρ := fun hρ => bootRoles_ne hρ K s.phys
  have htables : Tables (bootRoles K s.phys) s.phys := by
    refine ⟨h.nodup, fun n => ?_, fun n hn => ((h.free n).mp hn).1.small, fun n r p => ?_⟩
    · rcases bootRoles_cases K s.phys n with ⟨hn, hrole⟩ | ⟨hn, -, hrole⟩ | ⟨hn, -, hrole⟩
        <;> rw [hrole]
      · exact iff_of_true hn rfl
      · exact iff_of_false hn (by simp)
      · exact iff_of_false hn (by simp)
    · exact iff_of_false (hne (by simp) n) fun hr => hne (by simp) r hr.2.1
  have hpool : Pool ld (bootRoles K s.phys) s.phys := by
    refine ⟨htables, fun n => ?_, fun n r i hn => absurd hn (hne (by simp) n)⟩
    rcases bootRoles_cases K s.phys n with ⟨hn, hrole⟩ | ⟨-, hK, hrole⟩ | ⟨hn, hK, hrole⟩
      <;> rw [hrole]
    · exact iff_of_false (by simp) (not_not.mpr ((h.free n).mp hn).1)
    · exact iff_of_false (by simp) (not_not.mpr (h.kernel n hK))
    · exact iff_of_true rfl fun hman => hn ((h.free n).mpr ⟨hman, hK⟩)
  refine ⟨⟨bootRoles K s.phys, hpool, fun p => Or.inl ⟨(h.proc p).2.1, rfl⟩, fun p q _ hp => ?_,
    fun n r path hn => absurd hn (hne (by simp) n), fun n p hn => absurd hn (hne (by simp) n),
    hne (by simp), fun n => ?_, fun n => ?_⟩, ?_, fun p => ?_, fun p _ => (h.proc p).2.2⟩
  · exact absurd (h.proc p).2.1.pagetable hp
  · rw [(h.pipe n).1, (h.pipe n).2]
    exact iff_of_false (hne (by simp) n) (by simp)
  · rcases bootRoles_cases K s.phys n with ⟨hn, hrole⟩ | ⟨-, hK, hrole⟩ | ⟨-, hK, hrole⟩
      <;> rw [hrole]
    · exact iff_of_false (by simp) ((h.free n).mp hn).2
    · exact iff_of_true rfl hK
    · exact iff_of_false (by simp) hK
  · have hnoend : ∀ f page w, ¬ IsEnd (s.file f) page w := fun f page w he => by
      cases (h.file f).2.symm.trans he.type
    have hnone : fdTable s.proc = fun _ => none := funext fun i => (h.proc i.1).2.2 i.2
    refine ⟨fun f => ?_, fun f _ => (h.file f).2, fun page w => ?_, fun f f' page w he _ =>
      absurd he (hnoend f page w)⟩
    · dsimp only
      rw [(h.file f).1, hnone, refs]
      simp
    · refine iff_of_false ?_ fun ⟨f, he⟩ => hnoend f page w he
      cases w with
      | false =>
        rw [Pipe.isOpen, if_neg (by simp), (h.pipe page).1]
        simp
      | true =>
        rw [Pipe.isOpen, if_pos rfl, (h.pipe page).2]
        simp
  · exact iff_of_true (h.proc p).1 (h.proc p).2.1.pagetable

/-! ## `userinit` -/

theorem onPhys_whenever {α : Type} {c : Code α} {Q : α → Sys → Prop}
    (h : Whenever c (fun a phys => ∀ s', PhysSet s s' phys → Q a s') s.phys) :
    Whenever (onPhys c) Q s := by
  intro a s' hrun
  rw [StateT.run, onPhys] at hrun
  cases hc : c.run s.phys with
  | error e =>
    rw [hc] at hrun
    cases hrun
  | ok x =>
    rw [hc] at hrun
    obtain ⟨rfl, rfl⟩ := Prod.mk.inj (Except.ok.inj hrun)
    exact h x.1 x.2 hc _ ⟨rfl, rfl, rfl, rfl⟩

/-- With six pages `allocproc` does not fail, if a process is left. -/
theorem allocproc_costs {p : Pid}
    (hp : (finRange NPROC).find? (fun p => (s.proc p).state = .unused) = some p) :
    Whenever (allocproc ld) (fun res s' => 6 ≤ avail s.phys →
      res = some p ∧ avail s.phys ≤ avail s'.phys + 6) s := by
  have hget : Whenever (MonadState.get : Call Sys) (fun a s' => a = s ∧ s' = s) s :=
    Whenever.of_total (Total.get ⟨rfl, rfl⟩)
  rw [allocproc]
  refine hget.seq ?_
  rintro a s₁ ⟨rfl, rfl⟩
  rw [hp]
  by_cases havail : 6 ≤ avail s₁.phys
  · refine (onPhys_whenever (kalloc_costs.mono fun res phys hcost s₂ hs₂ => ?_)).seq
      (P := fun res s₂ => res ≠ none ∧ avail s₁.phys ≤ avail s₂.phys + 1) ?_
    · rw [hs₂.phys]
      exact hcost (by omega)
    rintro res s₂ ⟨hres, hcost₂⟩
    cases res with
    | none => exact absurd rfl hres
    | some trapframe =>
      refine (Whenever.of_total (modifyProc_total (Q := fun _ s₃ => s₃.phys = s₂.phys)
        fun s₃ hs₃ => hs₃.phys)).seq ?_
      intro _ s₃ hs₃
      refine (onPhys_whenever ((procPagetable_costs trapframe).mono
        fun res phys hcost s₄ hs₄ => ?_)).seq
        (P := fun res s₄ => res ≠ none ∧ avail s₃.phys ≤ avail s₄.phys + 5) ?_
      · rw [hs₄.phys]
        exact hcost (by rw [hs₃]; omega)
      rintro res s₄ ⟨hres₄, hcost₄⟩
      cases res with
      | none => exact absurd rfl hres₄
      | some pagetable =>
        refine Whenever.of_total
          (Total.bind (modifyProc_total fun s₅ hs₅ => Total.pure fun _ => ?_))
        rw [hs₃] at hcost₄
        rw [hs₅.phys]
        exact ⟨rfl, by omega⟩
  · exact fun _ _ _ hle => absurd hle havail

theorem np_PGSIZE : np PGSIZE = 1 := by decide

/-- What the first process has for memory. -/
def initPages : Pages := [⟨storeBytes (fun _ => 0) 0 initcode, true⟩]

/-- The first process is there, and no other. -/
theorem userinit_total (h : Booted ld K s) :
    Total (userinit ld)
      (fun _ s' => (∃ m, Inv ld K m s' ∧ umem m s' initproc = ⟨initPages, PGSIZE⟩) ∧
      (s'.proc initproc).state = .runnable ∧ ∀ q, q ≠ initproc →
      (s'.proc q).state = .unused) s := by
  have hinv := h.inv
  obtain ⟨g, hacc⟩ := hinv.accounts
  have hfind : (finRange NPROC).find? (fun p => (s.proc p).state = .unused) = some initproc := by
    have hrange : finRange NPROC = 0 :: (finRange 63).map Fin.succ := finRange_succ
    rw [hrange]
    exact find?_cons_of_pos (decide_eq_true (h.proc 0).1)
  have hroom := h.room
  rw [userinit]
  refine Total.bind (((allocproc_total hacc hinv.unused).and (allocproc_costs hfind)).mono ?_)
  rintro res s₁ ⟨halloc, hcost⟩
  obtain ⟨rfl, hroom₁⟩ := hcost (by omega)
  obtain ⟨p, hp, hnew⟩ : ∃ p, some initproc = some p ∧ Allocated ld K (fun _ => []) s s₁ p := by
    rcases halloc with ⟨hnone, -⟩ | hsome
    · cases hnone
    · exact hsome
  obtain rfl := Option.some.inj hp
  obtain ⟨g₁, hacc₁⟩ := hnew.accounts
  obtain ⟨r, tf, hspace⟩ := hacc₁.hasSpace hnew.pagetable
  refine Total.bind (Total.get ?_)
  dsimp only
  rw [hspace.pagetable]
  have hsrc : initcode.length < PGSIZE := by decide
  refine Total.bind (onPhys_total ((uvminit_total hacc₁.pool hspace.space hsrc (by omega)).mono ?_))
  rintro _ phys ⟨g₂, hworked⟩ s₂ hs₂
  refine Total.bind (modifyProc_total fun s₃ hs₃ => ?_)
  have hself₃ : s₃.proc initproc = { s₁.proc initproc with sz := PGSIZE } := by
    rw [hs₃.self, hs₂.proc]
  rw [← hs₂.phys, ← hs₃.phys] at hworked
  have hacc₃ : Accounts ld K g₂ _ s₃ := hacc₁.worked hspace hworked
    (hs₂.only.trans hs₃.only) (by rw [hself₃]) (by rw [hself₃]) (by rw [hself₃]; exact np_PGSIZE)
  have hpt₃ : (s₃.proc initproc).pagetable ≠ 0 := by
    rw [hself₃]
    exact hnew.pagetable
  have htf : (s₁.proc initproc).trapframe = (s₃.proc initproc).trapframe := by rw [hself₃]
  rw [htf]
  refine Total.seq (storeField_total hacc₃ hpt₃ (by decide)) ?_
  rintro _ s₄ ⟨hacc₄, hs₄⟩
  rw [← hs₄.proc] at hpt₃ ⊢
  refine Total.seq (storeField_total hacc₄ hpt₃ (by decide)) ?_
  rintro _ s₅ ⟨hacc₅, hs₅⟩
  have hset := hs₄.trans hs₅
  refine modifyProc_total fun s₆ hs₆ => ?_
  have hs : Only initproc s s₆ := (hnew.only.trans (hs₂.only.trans hs₃.only)).trans
    (hset.only.trans hs₆.only)
  have hself₆ : s₆.proc initproc = { s₃.proc initproc with state := .runnable } := by
    rw [hs₆.self, hset.proc]
  refine ⟨⟨_, hinv.one hs.other ⟨g₂, hacc₅.congrOne hs₆.phys hs₆.pipe hs₆.other ?_⟩
    (hinv.files.congrOne hs ?_) ?_ ?_, ?_⟩, ?_, fun q hq => ?_⟩
  · rw [hs₆.self]
    exact ⟨rfl, rfl, rfl⟩
  · rw [hself₆, hself₃, hnew.self]
  · rw [hself₆, hself₃]
    exact iff_of_false (by simp) hnew.pagetable
  · rw [hself₆]
    exact fun hq => absurd rfl hq
  · rw [umem, update_self, hself₆, hself₃]
    rfl
  · rw [hs₆.self]
  · rw [hs.other q hq]
    exact (h.proc q).1

/-- The address space of the first process. -/
theorem userinit_space (h : Booted ld K s) : ∃ s' m g r tf, (userinit ld).run s = .ok ((), s') ∧
    Inv ld K m s' ∧ m initproc = initPages ∧ Accounts ld K g m s' ∧
    HasSpace ld g s'.phys initproc (s'.proc initproc) initPages r tf := by
  obtain ⟨_, s', hrun, ⟨m, hinv, hmem⟩, hlive, -⟩ := userinit_total h
  obtain ⟨g, hacc⟩ := hinv.accounts
  obtain ⟨r, tf, hspace⟩ := hacc.hasSpace (hinv.pagetable hlive)
  have hpages : m initproc = initPages := congrArg UMem.pages hmem
  exact ⟨s', m, g, r, tf, hrun, hinv, hpages, hacc, hpages ▸ hspace⟩

end Xv6.Vm
