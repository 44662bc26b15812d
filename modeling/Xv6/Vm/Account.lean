/-
  Vm/Account.lean --- who has which page, over the whole system.

  `Accounts` connects the roles of pages with the process table and the pipes: every page
  table is that of one process, every trapframe page is that of its process, and so on.
  What a process does in one system call touches only free pages and pages of its own
  (`Local`), so one rule, `Accounts.step`, covers all calls; the pages of pipes have a rule
  of their own.
-/
import Xv6.Vm.Load
import Xv6.Vm.System

set_option autoImplicit false

namespace Xv6.Vm

open Function Foundation

variable {ld : Linker} {K : Nat → Prop} {g g' : Nat → Role} {m : Pid → Pages} {s s' : Sys} {p : Pid}

/-! ## The rules of `Total` for calls

A step changes one part of the system; the rules say which, and what it is now. -/

/-- Only physical memory has changed. -/
structure PhysSet (s s' : Sys) (phys : Phys) : Prop where
  phys : s'.phys = phys
  proc : s'.proc = s.proc
  file : s'.file = s.file
  pipe : s'.pipe = s.pipe

theorem PhysSet.eq (h : PhysSet s s' s.phys) : s' = s := by
  cases s
  cases s'
  obtain ⟨rfl, rfl, rfl, rfl⟩ := h
  rfl

/-- Only the process `p` has changed. -/
structure ProcSet (s s' : Sys) (p : Pid) (f : Proc → Proc) : Prop where
  phys : s'.phys = s.phys
  file : s'.file = s.file
  pipe : s'.pipe = s.pipe
  self : s'.proc p = f (s.proc p)
  other : ∀ q, q ≠ p → s'.proc q = s.proc q

/-- Only `p` and physical memory may have changed. -/
structure Only (p : Pid) (s s' : Sys) : Prop where
  other : ∀ q, q ≠ p → s'.proc q = s.proc q
  file : s'.file = s.file
  pipe : s'.pipe = s.pipe

theorem Only.trans {s'' : Sys} (h : Only p s s') (h' : Only p s' s'') : Only p s s'' :=
  ⟨fun q hq => (h'.other q hq).trans (h.other q hq), h'.file.trans h.file, h'.pipe.trans h.pipe⟩

theorem PhysSet.trans {s'' : Sys} {phys phys' : Phys} (h : PhysSet s s' phys)
    (h' : PhysSet s' s'' phys') : PhysSet s s'' phys' :=
  ⟨h'.phys, h'.proc.trans h.proc, h'.file.trans h.file, h'.pipe.trans h.pipe⟩

theorem PhysSet.only {phys : Phys} (h : PhysSet s s' phys) : Only p s s' :=
  ⟨fun q _ => congrFun h.proc q, h.file, h.pipe⟩

theorem ProcSet.only {f : Proc → Proc} (h : ProcSet s s' p f) : Only p s s' :=
  ⟨h.other, h.file, h.pipe⟩

/-- A process that is not `p` is related to itself. -/
theorem only_proc {R : Proc → Proc → Prop} (hother : ∀ q, q ≠ p → s'.proc q = s.proc q)
    (hself : R (s.proc p) (s'.proc p)) (hrefl : ∀ x, R x x) (q : Pid) :
    R (s.proc q) (s'.proc q) := by
  by_cases hq : q = p
  · rw [hq]
    exact hself
  · rw [hother q hq]
    exact hrefl _

/-- Only one file has changed. -/
structure FileSet (s s' : Sys) (i : FileId) (f : File → File) : Prop where
  phys : s'.phys = s.phys
  proc : s'.proc = s.proc
  pipe : s'.pipe = s.pipe
  self : s'.file i = f (s.file i)
  other : ∀ j, j ≠ i → s'.file j = s.file j

/-- Only the flags of one pipe have changed. -/
structure PipeSet (s s' : Sys) (page : Nat) (pi : Pipe) : Prop where
  phys : s'.phys = s.phys
  proc : s'.proc = s.proc
  file : s'.file = s.file
  pipe : s'.pipe = Function.update s.pipe page pi

theorem onPhys_total {α : Type} {c : Code α} {Q : α → Sys → Prop}
    (h : Total c (fun a phys => ∀ s', PhysSet s s' phys → Q a s') s.phys) :
    Total (onPhys c) Q s := by
  obtain ⟨a, phys, hrun, hQ⟩ := h
  refine ⟨a, { s with phys }, ?_, hQ _ ⟨rfl, rfl, rfl, rfl⟩⟩
  rw [StateT.run, onPhys, hrun]
  rfl

variable {Q : Unit → Sys → Prop}

theorem modifyProc_total {f : Proc → Proc} (h : ∀ s', ProcSet s s' p f → Q () s') :
    Total (modifyProc p f) Q s :=
  Total.modify (h _ ⟨rfl, rfl, rfl, update_self .., fun _ hq => update_of_ne hq _ _⟩)

theorem modifyFile_total {i : FileId} {f : File → File} (h : ∀ s', FileSet s s' i f → Q () s') :
    Total (modifyFile i f) Q s :=
  Total.modify (h _ ⟨rfl, rfl, rfl, update_self .., fun _ hj => update_of_ne hj _ _⟩)

theorem setPipe_total {page : Nat} {pi : Pipe} (h : ∀ s', PipeSet s s' page pi → Q () s') :
    Total (setPipe page pi) Q s :=
  Total.modify (h _ ⟨rfl, rfl, rfl, rfl⟩)

/-! ## Processes -/

/-- A process without memory. -/
structure Bare (x : Proc) : Prop where
  pagetable : x.pagetable = 0
  trapframe : x.trapframe = 0
  sz : x.sz = 0

/-- The process `p` has the page table at `r`, with these pages, and the trapframe `tf`. -/
structure HasSpace (ld : Linker) (g : Nat → Role) (phys : Phys) (p : Pid) (x : Proc)
    (pages : Pages) (r tf : Nat) : Prop where
  pagetable : x.pagetable = r * PGSIZE
  trapframe : x.trapframe = tf * PGSIZE
  role : g tf = .trapframe p
  space : Space g phys r (procTop ld tf) pages
  size : np x.sz = pages.length

def Owned (ld : Linker) (g : Nat → Role) (phys : Phys) (p : Pid) (x : Proc) (pages : Pages) :
    Prop :=
  (Bare x ∧ pages = []) ∨ ∃ r tf, HasSpace ld g phys p x pages r tf

/-- The same memory. -/
structure SameMem (x y : Proc) : Prop where
  pagetable : y.pagetable = x.pagetable
  trapframe : y.trapframe = x.trapframe
  sz : y.sz = x.sz

theorem SameMem.refl (x : Proc) : SameMem x x := ⟨rfl, rfl, rfl⟩

variable {pages : Pages} {phys : Phys}

theorem HasSpace.congr {x y : Proc} {r tf : Nat} (h : HasSpace ld g phys p x pages r tf)
    (hxy : SameMem x y) :
    HasSpace ld g phys p y pages r tf :=
  ⟨hxy.pagetable.trans h.pagetable, hxy.trapframe.trans h.trapframe, h.role, h.space,
    (congrArg np hxy.sz).trans h.size⟩

theorem Owned.congr {x y : Proc} (h : Owned ld g phys p x pages) (hxy : SameMem x y) :
    Owned ld g phys p y pages := by
  rcases h with ⟨hbare, hpages⟩ | ⟨r, tf, hspace⟩
  · exact Or.inl ⟨⟨hxy.pagetable.trans hbare.pagetable, hxy.trapframe.trans hbare.trapframe,
      hxy.sz.trans hbare.sz⟩, hpages⟩
  · exact Or.inr ⟨r, tf, hspace.congr hxy⟩

variable {ρ : Role}

/-- Where a role outside `X` is, nothing has changed. -/
theorem Change.iff {X : Role → Prop} {phys phys' : Phys} (h : Change X g g' phys phys') (hρ : ¬ X ρ)
    (n : Nat) : g' n = ρ ↔ g n = ρ := by
  by_cases hX : X (g n)
  · refine iff_of_false (fun hn => hρ ?_) (fun hn => hρ ?_)
    · rw [← hn]
      exact h.stay n hX
    · rw [← hn]
      exact hX
  · rw [(h.keep n hX).1]

theorem HasSpace.frame {X : Role → Prop} {phys phys' : Phys} {x : Proc} {r tf : Nat}
    (h : HasSpace ld g phys p x pages r tf) (htables : Tables g phys)
    (hchange : Change X g g' phys phys') (hnode : ∀ path, ¬ X (.node r path))
    (huser : ∀ w, ¬ X (.user r w)) (hframe : ¬ X (.trapframe p)) :
    HasSpace ld g' phys' p x pages r tf :=
  ⟨h.pagetable, h.trapframe, (hchange.iff hframe tf).mpr h.role,
    h.space.frame htables hchange hnode huser, h.size⟩

theorem HasSpace.ne_zero {x : Proc} {r tf : Nat} (h : HasSpace ld g phys p x pages r tf)
    (hpool : Pool ld g phys) : x.pagetable ≠ 0 := by
  have hr : r ≠ 0 := Managed.ne_zero (hpool.managed h.space.root (by simp))
  rw [h.pagetable]
  exact Nat.mul_ne_zero hr (by decide)

/-- An address of a page is that of one page. -/
theorem page_inj {a b : Nat} (h : a * PGSIZE = b * PGSIZE) : a = b :=
  Nat.eq_of_mul_eq_mul_right (by decide) h

/-! ## The system -/

structure Accounts (ld : Linker) (K : Nat → Prop) (g : Nat → Role) (m : Pid → Pages) (s : Sys) :
    Prop where
  pool : Pool ld g s.phys
  owned : ∀ p, Owned ld g s.phys p (s.proc p) (m p)
  inj : ∀ p q, (s.proc p).pagetable = (s.proc q).pagetable → (s.proc p).pagetable ≠ 0 → p = q
  table : ∀ n r path, g n = .node r path → ∃ p, (s.proc p).pagetable = r * PGSIZE
  frame : ∀ n p, g n = .trapframe p → (s.proc p).trapframe = n * PGSIZE
  arg : ∀ n, g n ≠ .arg
  pipe : ∀ n, g n = .pipe ↔ (s.pipe n).readopen = true ∨ (s.pipe n).writeopen = true
  kernel : ∀ n, g n = .kernel ↔ K n

namespace Accounts

section

variable (h : Accounts ld K g m s)

include h

/-- Nothing that has to do with memory has changed. -/
theorem congr (hphys : s'.phys = s.phys) (hpipe : s'.pipe = s.pipe)
    (hproc : ∀ p, SameMem (s.proc p) (s'.proc p)) : Accounts ld K g m s' := by
  refine ⟨hphys ▸ h.pool, fun p => ?_, fun p q hpq hne => ?_, fun n r path hn => ?_,
    fun n p hn => ?_, h.arg, hpipe ▸ h.pipe, h.kernel⟩
  · rw [hphys]
    exact (h.owned p).congr (hproc p)
  · rw [(hproc p).pagetable] at hpq hne
    rw [(hproc q).pagetable] at hpq
    exact h.inj p q hpq hne
  · obtain ⟨p, hp⟩ := h.table n r path hn
    exact ⟨p, (hproc p).pagetable.trans hp⟩
  · exact (hproc p).trapframe.trans (h.frame n p hn)

theorem congrOne (hphys : s'.phys = s.phys) (hpipe : s'.pipe = s.pipe)
    (hother : ∀ q, q ≠ p → s'.proc q = s.proc q) (hself : SameMem (s.proc p) (s'.proc p)) :
    Accounts ld K g m s' :=
  h.congr hphys hpipe (only_proc hother hself SameMem.refl)

/-- The address space of a process that has one. -/
theorem hasSpace (hp : (s.proc p).pagetable ≠ 0) :
    ∃ r tf, HasSpace ld g s.phys p (s.proc p) (m p) r tf := by
  rcases h.owned p with ⟨hbare, -⟩ | hspace
  · exact absurd hbare.pagetable hp
  · exact hspace

theorem bare (hp : (s.proc p).pagetable = 0) : Bare (s.proc p) ∧ m p = [] := by
  rcases h.owned p with hbare | ⟨r, tf, hspace⟩
  · exact hbare
  · exact absurd hp (hspace.ne_zero h.pool)

/-- Only its own trapframe has this role. -/
theorem no_trapframe (hp : (s.proc p).trapframe = 0) (n : Nat) : g n ≠ .trapframe p := by
  intro hn
  have hzero := (h.frame n p hn).symm.trans hp
  have hne := Managed.ne_zero (h.pool.managed hn (by simp))
  exact Nat.mul_ne_zero hne (by decide) hzero

/-- The address of `kalloc`'s next calls does not matter. -/
theorem budget (b : Nat) : Accounts ld K g m { s with phys := { s.phys with budget := b } } := by
  have hspace : ∀ {r top pages}, Space g s.phys r top pages →
      Space g { s.phys with budget := b } r top pages := fun hs =>
    ⟨hs.root, hs.inner, hs.user, hs.only, hs.rest, hs.high⟩
  refine ⟨⟨⟨h.pool.tables.nodup, h.pool.tables.free, h.pool.tables.small, h.pool.tables.node⟩,
    h.pool.range, h.pool.owner⟩, fun p => ?_, h.inj, h.table, h.frame, h.arg, h.pipe, h.kernel⟩
  rcases h.owned p with hbare | ⟨r, tf, hown⟩
  · exact Or.inl hbare
  · exact Or.inr ⟨r, tf, hown.pagetable, hown.trapframe, hown.role, hspace hown.space, hown.size⟩

end

end Accounts

/-! ## What a process does -/

/-- The page tables of a process: the one it had, and those that are made. -/
def Mine (x : Proc) (N : Nat → Prop) (r : Nat) : Prop := x.pagetable = r * PGSIZE ∨ N r

/-- The free pages, the pages of the tables `R`, the trapframe of `p` and argument pages. -/
def Local (R : Nat → Prop) (p : Pid) : Role → Prop
  | .free | .arg => True
  | .node r _ | .user r _ => R r
  | .trapframe q => q = p
  | .pipe | .kernel | .outside => False

variable {R : Nat → Prop}

theorem InSpace.local {r : Nat} (hr : R r) (h : InSpace r ρ) : Local R p ρ := by
  rcases h with (rfl | ⟨path, rfl⟩) | ⟨w, rfl⟩
  · trivial
  · exact hr
  · exact hr

theorem Scratch.local (h : Scratch ρ) : Local R p ρ := by
  rcases h with rfl | rfl <;> trivial

theorem free_local (h : ρ = .free) : Local R p ρ := by
  rw [h]
  trivial

/-- Another process keeps its address space. -/
theorem Accounts.other (h : Accounts ld K g m s) {N : Nat → Prop} (hN : ∀ r, N r → g r = .free)
    {phys' : Phys} (hchange : Change (Local (Mine (s.proc p) N) p) g g' s.phys phys') {q : Pid}
    (hq : q ≠ p) : Owned ld g' phys' q (s.proc q) (m q) := by
  rcases h.owned q with hbare | ⟨r, tf, hspace⟩
  · exact Or.inl hbare
  · have hr : ¬ Mine (s.proc p) N r := by
      rintro (hpt | hnew)
      · exact hq (h.inj q p (hspace.pagetable.trans hpt.symm) (hspace.ne_zero h.pool))
      · cases (hN r hnew).symm.trans hspace.space.root
    exact Or.inr ⟨r, tf, hspace.frame h.pool.tables hchange (fun _ => hr) (fun _ => hr) hq⟩

/-- What a process does to free pages and to pages of its own keeps the accounts of all, if
its own are right in the end. -/
theorem Accounts.step (h : Accounts ld K g m s) {N : Nat → Prop} (hN : ∀ r, N r → g r = .free)
    (hpool : Pool ld g' s'.phys)
    (hchange : Change (Local (Mine (s.proc p) N) p) g g' s.phys s'.phys)
    (hs : Only p s s') (howned : Owned ld g' s'.phys p (s'.proc p) pages)
    (hnew : ∀ r, (s'.proc p).pagetable = r * PGSIZE → r ≠ 0 → Mine (s.proc p) N r)
    (htable : ∀ n r path, Mine (s.proc p) N r → g' n = .node r path →
      (s'.proc p).pagetable = r * PGSIZE)
    (hframe : ∀ n, g' n = .trapframe p → (s'.proc p).trapframe = n * PGSIZE)
    (harg : ∀ n, g' n ≠ .arg) : Accounts ld K g' (update m p pages) s' := by
  -- the table of a process that has not moved is not that of `p`
  have hapart : ∀ q, q ≠ p → (s'.proc p).pagetable = (s'.proc q).pagetable →
      (s'.proc p).pagetable ≠ 0 → False := by
    intro q hq heq hne
    rw [hs.other q hq] at heq
    have hq0 : (s.proc q).pagetable ≠ 0 := heq ▸ hne
    obtain ⟨r, tf, hspace⟩ := h.hasSpace hq0
    have hr0 : r ≠ 0 := by
      rintro rfl
      rw [hspace.pagetable, Nat.zero_mul] at hq0
      exact hq0 rfl
    rcases hnew r (heq.trans hspace.pagetable) hr0 with hpt | hfree
    · exact hq (h.inj q p (hspace.pagetable.trans hpt.symm) hq0)
    · cases (hN r hfree).symm.trans hspace.space.root
  refine ⟨hpool, fun q => ?_, fun q q' hqq hne => ?_, fun n r path hn => ?_, fun n q hn => ?_,
    harg, fun n => ?_, fun n => ?_⟩
  · by_cases hq : q = p
    · subst hq
      rw [update_self]
      exact howned
    · rw [update_of_ne hq, hs.other q hq]
      exact h.other hN hchange hq
  · by_cases hq : q = p
    · subst hq
      by_contra hq'
      exact hapart q' (Ne.symm hq') hqq hne
    · by_cases hq' : q' = p
      · subst hq'
        exact absurd hne fun _ => hapart q hq hqq.symm (hqq ▸ hne)
      · rw [hs.other q hq] at hqq hne
        rw [hs.other q' hq'] at hqq
        exact h.inj q q' hqq hne
  · by_cases hr : Mine (s.proc p) N r
    · exact ⟨p, htable n r path hr hn⟩
    · obtain ⟨q, hq⟩ := h.table n r path ((hchange.iff (ρ := .node r path) hr n).mp hn)
      have hqp : q ≠ p := by
        rintro rfl
        exact hr (Or.inl hq)
      exact ⟨q, by rw [hs.other q hqp, hq]⟩
  · by_cases hq : q = p
    · subst hq
      exact hframe n hn
    · rw [hs.other q hq]
      exact h.frame n q ((hchange.iff (ρ := .trapframe q) hq n).mp hn)
  · rw [hchange.iff (ρ := .pipe) id n, hs.pipe]
    exact h.pipe n
  · rw [hchange.iff (ρ := .kernel) id n]
    exact h.kernel n

/-- Pages of pipes are allocated and freed. -/
theorem Accounts.pipeStep (h : Accounts ld K g m s) (hpool : Pool ld g' s'.phys)
    (hchange : Change (fun ρ => ρ = .free ∨ ρ = .pipe) g g' s.phys s'.phys)
    (hproc : s'.proc = s.proc)
    (hpipe : ∀ n, g' n = .pipe ↔ (s'.pipe n).readopen = true ∨ (s'.pipe n).writeopen = true) :
    Accounts ld K g' m s' := by
  refine ⟨hpool, fun q => ?_, hproc ▸ h.inj, fun n r path hn => ?_, fun n q hn => ?_,
    fun n hn => ?_, hpipe, fun n => ?_⟩
  · rw [hproc]
    rcases h.owned q with hbare | ⟨r, tf, hspace⟩
    · exact Or.inl hbare
    · exact Or.inr ⟨r, tf, hspace.frame h.pool.tables hchange (by simp) (by simp) (by simp)⟩
  · rw [hproc]
    exact h.table n r path ((hchange.iff (by simp) n).mp hn)
  · rw [hproc]
    exact h.frame n q ((hchange.iff (by simp) n).mp hn)
  · exact h.arg n ((hchange.iff (by simp) n).mp hn)
  · rw [hchange.iff (by simp) n]
    exact h.kernel n

end Xv6.Vm
