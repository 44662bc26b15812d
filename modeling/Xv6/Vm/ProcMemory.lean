/-
  Vm/ProcMemory.lean --- memory of processes: allocated, worked on and freed.

  `allocproc` gives a process a trapframe and an empty address space, or leaves everything
  as it was; `freeproc` takes them away.  Both are instances of `Accounts.step`, as is all
  work on the address space of one process.
-/
import Xv6.Vm.Account

set_option autoImplicit false

namespace Xv6.Vm

open Function Foundation

variable {ld : Linker} {K : Nat → Prop} {g g' : Nat → Role} {m : Pid → Pages} {s s' : Sys} {p : Pid}
  {pages : Pages} {r tf : Nat}

/-! ## Work on one address space -/

/-- No page table is made. -/
def NoNew (_ : Nat) : Prop := False

theorem noNew_free {g : Nat → Role} : ∀ r, NoNew r → g r = .free := fun _ h => h.elim

/-- The address space of `p` has been worked on. -/
theorem Accounts.worked (h : Accounts ld K g m s)
    (hspace : HasSpace ld g s.phys p (s.proc p) (m p) r tf)
    (hworked : Worked ld r (procTop ld tf) pages g g' s.phys s'.phys)
    (hs : Only p s s') (hpagetable : (s'.proc p).pagetable = (s.proc p).pagetable)
    (htrapframe : (s'.proc p).trapframe = (s.proc p).trapframe)
    (hsz : np (s'.proc p).sz = pages.length) :
    Accounts ld K g' (update m p pages) s' := by
  have hmine : Mine (s.proc p) NoNew r := Or.inl hspace.pagetable
  have hframe : ∀ n, g' n = .trapframe p ↔ g n = .trapframe p :=
    hworked.change.iff (not_inSpace_plain (show (Role.trapframe p).Plain from trivial))
  refine h.step noNew_free hworked.pool (hworked.change.mono fun _ => InSpace.local hmine) hs
    (Or.inr ⟨r, tf, hpagetable.trans hspace.pagetable, htrapframe.trans hspace.trapframe,
      (hframe tf).mpr hspace.role, hworked.space, hsz⟩) (fun r' hr' _ => ?_)
    (fun n r' path hr' hn => ?_) (fun n hn => ?_) fun n hn => ?_
  · exact Or.inl (hpagetable.symm.trans hr')
  · rcases hr' with hr' | hr'
    · exact hpagetable.trans hr'
    · exact hr'.elim
  · exact htrapframe.trans (h.frame n p ((hframe n).mp hn))
  · exact h.arg n
      ((hworked.change.iff (not_inSpace_plain (show Role.arg.Plain from trivial)) n).mp hn)

variable {phys : Phys}

/-- The contents of a page change. -/
theorem Change.setPage {X : Role → Prop} {n : Nat} (hn : X (g n)) (page : Page) :
    Change X g g phys (phys.setPage n page) := by
  refine ⟨fun k hk => ⟨rfl, Phys.setPage_of_ne ?_⟩, fun _ hk => hk⟩
  rintro rfl
  exact hk hn

/-- The kernel writes to the trapframe of `p`. -/
theorem Accounts.writeTrapframe (h : Accounts ld K g m s)
    (hspace : HasSpace ld g s.phys p (s.proc p) (m p) r tf) {page : Page}
    (hs : PhysSet s s' (s.phys.setPage tf page)) : Accounts ld K g m s' := by
  have hframe : Space g (s.phys.setPage tf page) r (procTop ld tf) (m p) :=
    hspace.space.frame h.pool.tables (Change.setPage (X := (· = .trapframe p)) hspace.role page)
      (by simp) (by simp)
  have hlocal : Local (Mine (s.proc p) NoNew) p (g tf) := by
    rw [hspace.role]
    rfl
  have hsame : update m p (m p) = m := update_eq_self p m
  rw [← hsame]
  refine h.step noNew_free (by rw [hs.phys]; exact h.pool.setPage hspace.role trivial page)
    (by rw [hs.phys]; exact Change.setPage hlocal page) hs.only ?_ (fun r' hr' _ => ?_)
      (fun n r' path hr' hn => ?_) (fun n hn => ?_) h.arg
  · rw [hs.phys, hs.proc]
    exact Or.inr ⟨r, tf, hspace.pagetable, hspace.trapframe, hspace.role, hframe, hspace.size⟩
  · rw [hs.proc] at hr'
    exact Or.inl hr'
  · rw [hs.proc]
    rcases hr' with hr' | hr'
    · exact hr'
    · exact hr'.elim
  · rw [hs.proc]
    exact h.frame n p hn

/-- A store to a field of the trapframe. -/
theorem storeField_total (h : Accounts ld K g m s) (hp : (s.proc p).pagetable ≠ 0) {off v : Nat}
    (hoff : off < PGSIZE) :
    Total (onPhys (store ((s.proc p).trapframe + off) v))
      (fun _ s' => Accounts ld K g m s' ∧ PhysSet s s' s'.phys) s := by
  obtain ⟨r, tf, hspace⟩ := h.hasSpace hp
  rw [hspace.trapframe]
  refine onPhys_total (Total.modify fun s' hs => ?_)
  rw [page_add_div hoff, page_add_mod hoff] at hs
  exact ⟨h.writeTrapframe hspace hs, rfl, hs.proc, hs.file, hs.pipe⟩

/-! ## `freeproc` -/

/-- What `freeproc` leaves of a process. -/
def freed (x : Proc) : Proc :=
  { x with trapframe := 0, pagetable := 0, sz := 0, parent := none, xstate := 0, state := .unused }

/-- The trapframe of a process, if it has one, and no other page with that role. -/
def FrameOf (g : Nat → Role) (p : Pid) (x : Proc) : Prop :=
  (x.trapframe = 0 ∧ ∀ n, g n ≠ .trapframe p) ∨
    ∃ tf, x.trapframe = tf * PGSIZE ∧ g tf = .trapframe p ∧ ∀ n, g n = .trapframe p → n = tf

/-- The page table of a process, if it has one. -/
def TableOf (ld : Linker) (g : Nat → Role) (phys : Phys) (x : Proc) : Prop :=
  x.pagetable = 0 ∨ ∃ r tf pages, x.pagetable = r * PGSIZE ∧ r ≠ 0 ∧
    Space g phys r (procTop ld tf) pages ∧ np x.sz = pages.length

/-- Nothing is left of the memory of `p`. -/
structure Cleared (ld : Linker) (p : Pid) (x : Proc) (g g' : Nat → Role) (phys phys' : Phys) :
    Prop where
  pool : Pool ld g' phys'
  change : Change (Local (Mine x NoNew) p) g g' phys phys'
  frame : ∀ n, g' n ≠ .trapframe p
  table : ∀ n r path, x.pagetable = r * PGSIZE → r ≠ 0 → g' n ≠ .node r path
  arg : ∀ n, g' n = .arg → g n = .arg

theorem freeTrapframe_total {x : Proc} (hpool : Pool ld g phys) (hf : FrameOf g p x) :
    Total (if x.trapframe ≠ 0 then kfree ld x.trapframe else pure ()) (fun _ phys' => ∃ g',
      Pool ld g' phys' ∧ Change (fun ρ => ρ = .free ∨ ρ = .trapframe p) g g' phys phys' ∧
      ∀ n, g' n ≠ .trapframe p) phys := by
  rcases hf with ⟨hzero, hnone⟩ | ⟨tf, htf, hrole, honly⟩
  · rw [if_neg (not_not.mpr hzero)]
    exact Total.pure ⟨g, hpool, Change.refl _ g phys, hnone⟩
  · have hmanaged := hpool.managed hrole (by simp)
    rw [htf, if_pos (Nat.mul_ne_zero (Managed.ne_zero hmanaged) (by decide))]
    refine kfree_total hmanaged ⟨_, hpool.give hrole trivial _, ?_, fun n hn => ?_⟩
    · exact Change.update (Or.inr hrole) (Or.inl rfl) fun k hk _ => update_of_ne hk _ _
    · by_cases hntf : n = tf
      · rw [hntf, update_self] at hn
        cases hn
      · rw [update_of_ne hntf] at hn
        exact hntf (honly n hn)

theorem freeTable_total {x : Proc} (hpool : Pool ld g phys) (ht : TableOf ld g phys x) :
    Total (if x.pagetable ≠ 0 then procFreepagetable ld x.pagetable x.sz else pure ())
      (fun _ phys' => ∃ g', Pool ld g' phys' ∧
        Change (fun ρ => ∃ r, x.pagetable = r * PGSIZE ∧ InSpace r ρ) g g' phys phys' ∧
        ∀ n r path, x.pagetable = r * PGSIZE → r ≠ 0 → g' n ≠ .node r path) phys := by
  rcases ht with hzero | ⟨r, tf, pages, hpt, hr, hspace, hsz⟩
  · rw [if_neg (not_not.mpr hzero)]
    refine Total.pure ⟨g, hpool, Change.refl _ g phys, fun n r path hpt hr => ?_⟩
    exact absurd (hpt.symm.trans hzero) (Nat.mul_ne_zero hr (by decide))
  · rw [hpt, if_pos (Nat.mul_ne_zero hr (by decide))]
    refine (procFreepagetable_total hpool hspace hsz).mono ?_
    rintro _ phys' ⟨g', hgone⟩
    refine ⟨g', hgone.pool, hgone.change.mono fun ρ hρ => ⟨r, rfl, hρ⟩,
      fun n r' path hr' _ hn => ?_⟩
    have hfree := hgone.gone n (Or.inl (Or.inr ⟨path, by rw [hn, page_inj hr']⟩))
    cases hn.symm.trans hfree

theorem freeproc_cleared (hpool : Pool ld g s.phys) (hf : FrameOf g p (s.proc p))
    (ht : TableOf ld g s.phys (s.proc p)) :
    Total (freeproc ld p) (fun _ s' => (∃ g', Cleared ld p (s.proc p) g g' s.phys s'.phys) ∧
      s'.proc p = freed (s.proc p) ∧ Only p s s') s := by
  have hlift : ∀ {c : Prop} [Decidable c] (code : Code Unit),
      (if c then onPhys code else pure ()) = onPhys (if c then code else pure ()) := by
    intro c _ code
    split <;> rfl
  rw [freeproc]
  refine Total.bind (Total.get ?_)
  dsimp only
  rw [hlift, hlift]
  refine Total.bind (onPhys_total ((freeTrapframe_total hpool hf).mono ?_))
  rintro _ phys₁ ⟨g₁, hpool₁, hchange₁, hframe₁⟩ s₁ hs₁
  have ht₁ : TableOf ld g₁ s₁.phys (s.proc p) := by
    rcases ht with hzero | ⟨r, tf, pages, hpt, hr, hspace, hsz⟩
    · exact Or.inl hzero
    · rw [hs₁.phys]
      exact Or.inr
        ⟨r, tf, pages, hpt, hr, hspace.frame hpool.tables hchange₁ (by simp) (by simp), hsz⟩
  rw [← hs₁.phys] at hpool₁ hchange₁
  refine Total.bind (onPhys_total ((freeTable_total hpool₁ ht₁).mono ?_))
  rintro _ phys₂ ⟨g₂, hpool₂, hchange₂, htable₂⟩ s₂ hs₂
  refine modifyProc_total fun s₃ hs₃ => ⟨⟨g₂, ?_⟩, ?_, (hs₁.trans hs₂).only.trans hs₃.only⟩
  · rw [hs₃.phys, hs₂.phys]
    have hlocal₁ : Change (Local (Mine (s.proc p) NoNew) p) g g₁ s.phys s₁.phys :=
      hchange₁.mono fun ρ hρ => by
        rcases hρ with rfl | rfl
        · trivial
        · rfl
    have hlocal₂ : Change (Local (Mine (s.proc p) NoNew) p) g₁ g₂ s₁.phys phys₂ :=
      hchange₂.mono fun ρ ⟨r, hr, hρ⟩ => InSpace.local (Or.inl hr) hρ
    have hnot : ∀ ρ, Role.Plain ρ → ¬ ∃ r, (s.proc p).pagetable = r * PGSIZE ∧ InSpace r ρ :=
      fun ρ hρ ⟨r, hr⟩ => not_inSpace_plain hρ hr.2
    refine ⟨hpool₂, hlocal₁.trans hlocal₂, fun n hn => ?_, htable₂, fun n hn => ?_⟩
    · exact hframe₁ n ((hchange₂.iff (hnot (.trapframe p) trivial) n).mp hn)
    · exact (hchange₁.iff (by simp) n).mp ((hchange₂.iff (hnot .arg trivial) n).mp hn)
  · rw [hs₃.self, hs₂.proc, hs₁.proc]
    rfl

section

variable (h : Accounts ld K g m s)

include h

/-- The accounts when the memory of `p` is gone. -/
theorem Accounts.cleared {x : Proc}
    (hsame : x.pagetable = (s.proc p).pagetable) (hclear : Cleared ld p x g g' s.phys s'.phys)
    (hbare : Bare (s'.proc p)) (hs : Only p s s') :
    Accounts ld K g' (update m p []) s' := by
  have hmine : Mine x NoNew = Mine (s.proc p) NoNew := by
    funext r
    rw [Mine, Mine, hsame]
  refine h.step noNew_free hclear.pool (hmine ▸ hclear.change) hs
    (Or.inl ⟨hbare, rfl⟩) (fun r hr hr0 => ?_) (fun n r path hr hn => ?_) (fun n hn => ?_)
    fun n hn => h.arg n (hclear.arg n hn)
  · exact absurd (hr.symm.trans hbare.pagetable) (Nat.mul_ne_zero hr0 (by decide))
  · rcases hr with hr | hr
    · have hr0 : r ≠ 0 := by
        rintro rfl
        have hroot := hclear.pool.tables.root_of hn
        exact Managed.ne_zero (hclear.pool.managed hroot (by simp)) rfl
      exact absurd hn (hclear.table n r path (hsame.trans hr) hr0)
    · exact hr.elim
  · exact absurd hn (hclear.frame n)

theorem Accounts.frameOf (p : Pid) : FrameOf g p (s.proc p) := by
  rcases h.owned p with ⟨hbare, -⟩ | ⟨r, tf, hspace⟩
  · exact Or.inl ⟨hbare.trapframe, h.no_trapframe hbare.trapframe⟩
  · refine Or.inr ⟨tf, hspace.trapframe, hspace.role, fun n hn => page_inj ?_⟩
    exact (h.frame n p hn).symm.trans hspace.trapframe

theorem Accounts.tableOf (p : Pid) : TableOf ld g s.phys (s.proc p) := by
  rcases h.owned p with ⟨hbare, -⟩ | ⟨r, tf, hspace⟩
  · exact Or.inl hbare.pagetable
  · have hr := Managed.ne_zero (h.pool.managed hspace.space.root (by simp))
    exact Or.inr ⟨r, tf, m p, hspace.pagetable, hr, hspace.space, hspace.size⟩

/-- The memory of a process is freed. -/
theorem freeproc_total (p : Pid) :
    Total (freeproc ld p) (fun _ s' => (∃ g', Accounts ld K g' (update m p []) s') ∧
      s'.proc p = freed (s.proc p) ∧ Only p s s') s := by
  refine (freeproc_cleared h.pool (h.frameOf p) (h.tableOf p)).mono ?_
  rintro _ s' ⟨⟨g', hclear⟩, hself, hs⟩
  refine ⟨⟨g', h.cleared rfl hclear ?_ hs⟩, hself, hs⟩
  rw [hself]
  exact ⟨rfl, rfl, rfl⟩

end

/-! ## `allocproc` -/

/-- A process that was unused has got a trapframe and an address space without user memory. -/
structure Allocated (ld : Linker) (K : Nat → Prop) (m : Pid → Pages) (s s' : Sys) (p : Pid) :
    Prop where
  unused : (s.proc p).state = .unused
  accounts : ∃ g', Accounts ld K g' m s'
  pagetable : (s'.proc p).pagetable ≠ 0
  self : s'.proc p = { s.proc p with
    trapframe := (s'.proc p).trapframe, pagetable := (s'.proc p).pagetable }
  other : ∀ q, q ≠ p → s'.proc q = s.proc q
  file : s'.file = s.file
  pipe : s'.pipe = s.pipe

theorem Allocated.only (h : Allocated ld K m s s' p) : Only p s s' := ⟨h.other, h.file, h.pipe⟩

/-- Nothing has changed but fields of a process that is not used. -/
structure NotAllocated (ld : Linker) (K : Nat → Prop) (m : Pid → Pages) (s s' : Sys) : Prop where
  accounts : ∃ g', Accounts ld K g' m s'
  used : ∀ q, (s.proc q).state ≠ .unused → s'.proc q = s.proc q
  unused : ∀ q, (s.proc q).state = .unused → (s'.proc q).state = .unused ∧
    (s'.proc q).pagetable = 0 ∧ (s'.proc q).ofile = (s.proc q).ofile
  file : s'.file = s.file
  pipe : s'.pipe = s.pipe

theorem find_unused
    (h : (List.finRange NPROC).find? (fun p => (s.proc p).state = .unused) = some p) :
    (s.proc p).state = .unused := by
  have hp := List.find?_some h
  exact of_decide_eq_true hp

/-- The page `tf` is the trapframe of `p` now. -/
theorem takeTrapframe (h : Accounts ld K g m s) (hbare : Bare (s.proc p)) {n b : Nat} {l : List Nat}
    (hfree : s.phys.free = n :: l) (hphys : phys = ⟨update s.phys.mem n fun _ => 5, l, b⟩) :
    Pool ld (update g n (.trapframe p)) phys ∧
      Change (fun ρ => ρ = .free ∨ ρ = .trapframe p) g (update g n (.trapframe p)) s.phys phys ∧
      ∀ k, update g n (.trapframe p) k = .trapframe p ↔ k = n := by
  have hn := h.pool.tables.free_head hfree
  rw [hphys]
  refine ⟨h.pool.take (ρ := .trapframe p) hfree trivial _, ?_, fun k => ?_⟩
  · exact Change.update (Or.inl hn) (Or.inr rfl) fun k hk _ => update_of_ne hk _ _
  · by_cases hk : k = n
    · rw [hk, update_self]
      exact iff_of_true rfl rfl
    · rw [update_of_ne hk]
      exact iff_of_false (h.no_trapframe hbare.trapframe k) hk

theorem allocproc_total (h : Accounts ld K g m s)
    (hunused : ∀ q, (s.proc q).state = .unused → (s.proc q).pagetable = 0) :
    Total (allocproc ld) (fun res s' => (res = none ∧ NotAllocated ld K m s s') ∨
      ∃ np, res = some np ∧ Allocated ld K m s s' np) s := by
  rw [allocproc]
  refine Total.bind (Total.get ?_)
  cases hfind : (List.finRange NPROC).find? fun p => (s.proc p).state = .unused with
  | none =>
    exact Total.pure (Or.inl ⟨rfl, ⟨g, h⟩, fun _ _ => rfl, fun q hq => ⟨hq, hunused q hq, rfl⟩,
      rfl, rfl⟩)
  | some p =>
    have hp := find_unused hfind
    obtain ⟨hbare, hmp⟩ := h.bare (hunused p hp)
    have hpages : update m p [] = m := by
      rw [← hmp, update_eq_self]
    -- a process that is used is another one
    have hfail : ∀ s', Only p s s' → (∃ g', Accounts ld K g' m s') →
        (s'.proc p).state = .unused ∧ (s'.proc p).pagetable = 0 ∧
          (s'.proc p).ofile = (s.proc p).ofile → NotAllocated ld K m s s' := by
      intro s' hs hacc hself
      refine ⟨hacc, fun q hq => hs.other q ?_, fun q hq => ?_, hs.file, hs.pipe⟩
      · rintro rfl
        exact hq hp
      · by_cases hqp : q = p
        · rw [hqp]
          exact hself
        · rw [hs.other q hqp]
          exact ⟨hq, hunused q hq, rfl⟩
    refine Total.bind (onPhys_total (kalloc_total (fun s₁ hs₁ => ?_) fun n l b hfree s₁ hs₁ => ?_))
    · refine Total.bind (modifyProc_total fun s₂ hs₂ => Total.pure (Or.inl ⟨rfl, ?_⟩))
      have hs := hs₁.only.trans hs₂.only
      refine hfail s₂ hs ⟨g, h.congrOne (by rw [hs₂.phys, hs₁.phys]) hs.pipe hs.other ?_⟩ ?_
      · rw [hs₂.self, hs₁.proc]
        exact ⟨rfl, hbare.trapframe.symm, rfl⟩
      · rw [hs₂.self, hs₁.proc]
        exact ⟨hp, hbare.pagetable, rfl⟩
    · obtain ⟨hpool₁, hchange₁, hframe₁⟩ := takeTrapframe h hbare hfree hs₁.phys
      have hmanaged := hpool₁.managed ((hframe₁ n).mpr rfl) (by simp)
      have hn64 : n * PGSIZE < 2 ^ 64 := lt_trans hmanaged.2 (by decide)
      refine Total.bind (modifyProc_total fun s₂ hs₂ => ?_)
      rw [← hs₂.phys] at hpool₁ hchange₁
      refine Total.bind (onPhys_total ((procPagetable_total hpool₁ hn64).mono ?_))
      rintro _ phys₃ (⟨rfl, g₃, hpool₃, hchange₃⟩ | ⟨r, g₃, rfl, hr, hworked⟩) s₃ hs₃
      · -- no page table: the trapframe is freed again
        refine Total.bind (modifyProc_total fun s₄ hs₄ => ?_)
        have hself₄ : s₄.proc p = { s.proc p with trapframe := n * PGSIZE, pagetable := 0 } := by
          rw [hs₄.self, hs₃.proc, hs₂.self, hs₁.proc]
        have hframe₄ : FrameOf g₃ p (s₄.proc p) := by
          refine Or.inr ⟨n, by rw [hself₄], ?_, fun k hk => ?_⟩
          · exact (hchange₃.iff (by simp) n).mpr ((hframe₁ n).mpr rfl)
          · exact (hframe₁ k).mp ((hchange₃.iff (by simp) k).mp hk)
        rw [← hs₃.phys, ← hs₄.phys] at hpool₃ hchange₃
        refine Total.seq (freeproc_cleared hpool₃ hframe₄ (Or.inl (by rw [hself₄]))) ?_
        rintro _ s' ⟨⟨g', hclear⟩, hself, hs'⟩
        have hs := (hs₁.only.trans hs₂.only).trans ((hs₃.only.trans hs₄.only).trans hs')
        -- all of it was local to `p`
        have hmine : Mine (s₄.proc p) NoNew = Mine (s.proc p) NoNew := by
          funext r
          rw [Mine, Mine, hself₄, hbare.pagetable]
        have hlocal : Change (Local (Mine (s.proc p) NoNew) p) g g₃ s.phys s₄.phys := by
          refine (hchange₁.mono fun ρ hρ => ?_).trans (hchange₃.mono fun ρ hρ => free_local hρ)
          rcases hρ with rfl | rfl
          · trivial
          · rfl
        have hcleared : Cleared ld p (s₄.proc p) g g' s.phys s'.phys := by
          refine ⟨hclear.pool, hmine ▸ hlocal.trans (hmine ▸ hclear.change), hclear.frame,
            hclear.table, fun k hk => ?_⟩
          exact (hchange₁.iff (by simp) k).mp ((hchange₃.iff (by simp) k).mp (hclear.arg k hk))
        refine Total.pure (Or.inl ⟨rfl, hfail s' hs ⟨g', ?_⟩ ?_⟩)
        · rw [← hpages]
          refine h.cleared (by rw [hself₄, hbare.pagetable]) hcleared ?_ hs
          rw [hself]
          exact ⟨rfl, rfl, rfl⟩
        · rw [hself, hself₄]
          exact ⟨rfl, rfl, rfl⟩
      · refine Total.bind (modifyProc_total fun s₄ hs₄ => Total.pure (Or.inr ⟨p, rfl, ?_⟩))
        have hself₄ : s₄.proc p = { s.proc p with
            trapframe := n * PGSIZE, pagetable := r * PGSIZE } := by
          rw [hs₄.self, hs₃.proc, hs₂.self, hs₁.proc]
        rw [← hs₃.phys, ← hs₄.phys] at hworked
        have hs := (hs₁.only.trans hs₂.only).trans (hs₃.only.trans hs₄.only)
        have hrg : g r = .free := by
          have hrn : r ≠ n := by
            rintro rfl
            cases ((hframe₁ r).mpr rfl).symm.trans hr
          rw [update_of_ne hrn] at hr
          exact hr
        have hr0 : r * PGSIZE ≠ 0 := Nat.mul_ne_zero (Managed.ne_zero
          (hworked.pool.managed hworked.space.root (by simp))) (by decide)
        have hframe₃ : ∀ k, g₃ k = .trapframe p ↔ k = n := fun k =>
          (hworked.change.iff (not_inSpace_plain (ρ := .trapframe p) trivial) k).trans (hframe₁ k)
        have hlocal : Change (Local (Mine (s.proc p) (· = r)) p) g g₃ s.phys s₄.phys := by
          refine (hchange₁.mono fun ρ hρ => ?_).trans
            (hworked.change.mono fun ρ hρ => InSpace.local (Or.inr rfl) hρ)
          rcases hρ with rfl | rfl
          · trivial
          · rfl
        have hacc : Accounts ld K g₃ (update m p []) s₄ := by
          refine h.step (fun r' hr' => by rw [hr', hrg]) hworked.pool hlocal hs
            (Or.inr ⟨r, n, by rw [hself₄], by rw [hself₄], (hframe₃ n).mpr rfl, hworked.space, ?_⟩)
            (fun r' hr' _ => ?_) (fun k r' path hr' hk => ?_) (fun k hk => ?_) fun k hk => ?_
          · rw [hself₄, hbare.sz]
            decide
          · rw [hself₄] at hr'
            exact Or.inr (page_inj hr').symm
          · rcases hr' with hr' | rfl
            · -- the table at zero is no table
              have hzero : r' = 0 := by
                rw [hbare.pagetable] at hr'
                exact (page_inj (hr'.symm.trans (Nat.zero_mul PGSIZE).symm))
              have hroot := hworked.pool.tables.root_of hk
              exact absurd hzero (Managed.ne_zero (hworked.pool.managed hroot (by simp)))
            · rw [hself₄]
          · rw [hself₄, (hframe₃ k).mp hk]
          · refine h.arg k ((hchange₁.iff (by simp) k).mp ?_)
            exact (hworked.change.iff (not_inSpace_plain (ρ := .arg) trivial) k).mp hk
        rw [hpages] at hacc
        refine ⟨hp, ⟨g₃, hacc⟩, ?_, ?_, hs.other, hs.file, hs.pipe⟩
        · rw [hself₄]
          exact hr0
        · rw [hself₄]

end Xv6.Vm
