/-
  Vm/ProcCalls.lean --- `fork`, `exit`, `wait` and `exec` keep the accounts.
-/
import Xv6.Vm.Calls

set_option autoImplicit false

namespace Xv6.Vm

open Function List Foundation
open Procs (ProcState initproc)

variable {ld : Linker} {K : Nat → Prop} {g g' : Nat → Role} {m m' : Pid → Pages}
  {s s' : Sys} {p : Pid}

/-! ## `fork` -/

/-- The child gets a reference for every descriptor of its parent. -/
theorem dupFiles_total {np : Pid} (fds : List Fd) :
    ∀ s : Sys, fds.Nodup → FilesOk 0 s → (∀ fd ∈ fds, (s.proc np).ofile fd = none) →
      Total (dupFiles p np fds) (fun _ s' => FilesOk 0 s' ∧ OnlyFds s s' np ∧ s'.phys = s.phys ∧
        s'.pipe = s.pipe) s := by
  induction fds with
  | nil =>
    intro s _ hfiles _
    exact Total.pure ⟨hfiles, .refl s np, rfl, rfl⟩
  | cons fd fds ih =>
    intro s hnodup hfiles hnone
    obtain ⟨hnotin, hnodup'⟩ := nodup_cons.mp hnodup
    rw [dupFiles]
    refine Total.bind (Total.get ?_)
    cases hfd : (s.proc p).ofile fd with
    | none => exact ih s hnodup' hfiles fun fd' hfd' => hnone fd' (mem_cons_of_mem fd hfd')
    | some f =>
      have hpos := hfiles.counted.pos_of_entry (i := (p, fd)) hfd (le_refl 0)
      refine Total.seq (filedup_total hfiles hpos) ?_
      rintro _ s₁ ⟨hs₁, hfiles₁⟩
      refine Total.bind (modifyProc_total fun s₂ hs₂ => ?_)
      have hempty : fdTable s₁.proc (np, fd) = none := by
        rw [hs₁.proc]
        exact hnone fd mem_cons_self
      have hfiles₂ := hfiles₁.setFd hs₂ (hfiles₁.counted.put hempty f)
      rw [add_sub_cancel_right] at hfiles₂
      refine (ih s₂ hnodup' hfiles₂ fun fd' hfd' => ?_).mono ?_
      · have hfdne : fd' ≠ fd := by
          rintro rfl
          exact hnotin hfd'
        rw [hs₂.self, hs₁.proc]
        dsimp only
        rw [update_of_ne hfdne]
        exact hnone fd' (mem_cons_of_mem fd hfd')
      · rintro _ s' ⟨hfiles', honly, hphys, hpipe⟩
        refine ⟨hfiles', ((OnlyFds.of_proc hs₁.proc).trans (.of_fdSet hs₂)).trans honly, ?_, ?_⟩
        · rw [hphys, hs₂.phys, hs₁.phys]
        · rw [hpipe, hs₂.pipe, hs₁.pipe]

/-- Only the process `np`, which was not used before, has changed. -/
structure OnlyUnused (s s' : Sys) (np : Pid) : Prop where
  unused : (s.proc np).state = .unused
  other : ∀ q, q ≠ np → s'.proc q = s.proc q

/-- A call after which every process there was is as before. -/
theorem Inv.fresh (h : Inv ld K m s) {np : Pid} (hnew : OnlyUnused s s' np)
    (hacc : ∃ g', Accounts ld K g' m' s') (hfiles : FilesOk 0 s') (hm : ∀ q, q ≠ np → m' q = m q)
    (hmemory : (s'.proc np).state = .unused ↔ (s'.proc np).pagetable = 0)
    (hclosed : (s'.proc np).state ≠ .runnable → ∀ fd, (s'.proc np).ofile fd = none)
    (hp : (s.proc p).state = .runnable) :
    After ld K p m m' s s' ∧ umem m' s' p = umem m s p ∧ (s'.proc p).state = .runnable := by
  have hrun : ∀ q, (s.proc q).state = .runnable → q ≠ np := by
    rintro q hq rfl
    cases hq.symm.trans hnew.unused
  have hsame : ∀ q, (s.proc q).state = .runnable →
      umem m' s' q = umem m s q ∧ (s'.proc q).state = .runnable := by
    intro q hq
    rw [umem, umem, hnew.other q (hrun q hq), hm q (hrun q hq)]
    exact ⟨rfl, hq⟩
  exact ⟨⟨h.one hnew.other hacc hfiles hmemory hclosed, fun q _ hq => hsame q hq⟩, hsame p hp⟩

theorem copyTrapframe_total (h : Accounts ld K g m s) (hp : (s.proc p).pagetable ≠ 0) (src : Nat) :
    Total (onPhys (copyTrapframe src (s.proc p).trapframe))
      (fun _ s' => Accounts ld K g m s' ∧ PhysSet s s' s'.phys) s := by
  obtain ⟨r, tf, hspace⟩ := h.hasSpace hp
  refine onPhys_total (Total.bind (Total.get (Total.modify fun s' hs =>
    ⟨?_, rfl, hs.proc, hs.file, hs.pipe⟩)))
  rw [hspace.trapframe, page_div] at hs
  exact h.writeTrapframe hspace hs

theorem fork_total (h : Inv ld K m s) (hp : (s.proc p).state = .runnable) :
    Total (fork ld p) (fun _ s' => ∃ m', (After ld K p m m' s s' ∧ umem m' s' p = umem m s p ∧
      (s'.proc p).state = .runnable) ∧ ∀ q, (s.proc q).state = .unused →
        (s'.proc q).state ≠ .unused → umem m' s' q = umem m s p) s := by
  obtain ⟨g, hacc⟩ := h.accounts
  rw [fork]
  refine Total.seq (allocproc_total hacc h.unused) ?_
  rintro _ s₁ (⟨rfl, hno⟩ | ⟨np, rfl, hnew⟩)
  · -- no process: only a process that is not used may have changed
    refine Total.pure
      ⟨m, ⟨⟨⟨hno.accounts, ?_, fun q => ?_, fun q hq fd => ?_⟩, fun q _ hq => ?_⟩, ?_, ?_⟩,
      fun q hq hused => absurd (hno.unused q hq).1 hused⟩
    · refine h.files.congr hno.file hno.pipe fun q => ?_
      by_cases hq : (s.proc q).state = .unused
      · exact (hno.unused q hq).2.2
      · rw [hno.used q hq]
    · by_cases hq : (s.proc q).state = .unused
      · exact iff_of_true (hno.unused q hq).1 (hno.unused q hq).2.1
      · rw [hno.used q hq]
        exact h.memory q
    · by_cases hq' : (s.proc q).state = .unused
      · rw [(hno.unused q hq').2.2]
        exact h.closed q (by rw [hq']; simp) fd
      · rw [hno.used q hq'] at hq ⊢
        exact h.closed q hq fd
    · rw [umem, umem, hno.used q (by rw [hq]; simp)]
      exact ⟨rfl, hq⟩
    · rw [umem, umem, hno.used p (by rw [hp]; simp)]
    · rw [hno.used p (by rw [hp]; simp)]
      exact hp
  have hne : np ≠ p := by
    rintro rfl
    cases hp.symm.trans hnew.unused
  obtain ⟨g₁, hacc₁⟩ := hnew.accounts
  have hp₁ : (s₁.proc p).pagetable ≠ 0 := by
    rw [hnew.other p (Ne.symm hne)]
    exact h.pagetable hp
  obtain ⟨r, tf, hspace⟩ := hacc₁.hasSpace hp₁
  obtain ⟨r', tf', hspace'⟩ := hacc₁.hasSpace hnew.pagetable
  have hrr : r ≠ r' := by
    rintro rfl
    exact hne (hacc₁.inj np p (hspace'.pagetable.trans hspace.pagetable.symm) hnew.pagetable)
  have hmnp : m np = [] := (hacc.bare (h.unused np hnew.unused)).2
  have hsz₁ : (s₁.proc np).sz = 0 := by
    rw [hnew.self]
    exact (hacc.bare (h.unused np hnew.unused)).1.sz
  have hofile₁ : ∀ fd, (s₁.proc np).ofile fd = none := by
    rw [hnew.self]
    exact h.closed np (by rw [hnew.unused]; simp)
  refine Total.bind (Total.get (Total.bind (Total.get ?_)))
  dsimp only
  rw [hspace.pagetable, hspace'.pagetable]
  refine Total.bind (onPhys_total ((uvmcopy_total hrr hacc₁.pool hspace.space
    (hmnp ▸ hspace'.space) hspace.size).mono ?_))
  rintro ok phys ⟨g₂, hworked⟩ s₂ hs₂
  rw [← hs₂.phys] at hworked
  have honly₂ := hnew.only.trans hs₂.only
  have hfiles₂ : FilesOk 0 s₂ := h.files.congrOne honly₂ (by rw [hs₂.proc, hnew.self])
  cases ok with
  | false =>
    -- the new process is freed
    have hacc₂ : Accounts ld K g₂ _ s₂ := hacc₁.worked hspace' hworked hs₂.only
      (by rw [hs₂.proc]) (by rw [hs₂.proc]) (by rw [hs₂.proc, hsz₁]; rfl)
    refine Total.seq (freeproc_total hacc₂ np) ?_
    rintro _ s₃ ⟨hacc₃, hself₃, hs₃⟩
    have honly₃ := honly₂.trans hs₃
    have hofile₃ : ∀ fd, (s₃.proc np).ofile fd = none := by
      rw [hself₃, freed, hs₂.proc]
      exact hofile₁
    refine Total.pure ⟨_, h.fresh ⟨hnew.unused, honly₃.other⟩ hacc₃
      (hfiles₂.congrOne hs₃ (by rw [hself₃]; rfl)) (fun q hq => ?_) ?_ (fun _ => hofile₃) hp,
      fun q hq hused => ?_⟩
    · rw [update_of_ne hq, update_of_ne hq]
    · rw [hself₃]
      exact iff_of_true rfl rfl
    · by_cases hqn : q = np
      · rw [hqn, hself₃] at hused
        exact absurd rfl hused
      · rw [honly₃.other q hqn] at hused
        exact absurd hq hused
  | true =>
    refine Total.bind (modifyProc_total fun s₃ hs₃ => ?_)
    have hself₃ : s₃.proc np = { s₁.proc np with sz := (s₁.proc p).sz, parent := some p } := by
      rw [hs₃.self, hs₂.proc]
    have hpt₃ : (s₃.proc np).pagetable ≠ 0 := by
      rw [hself₃]
      exact hnew.pagetable
    have hacc₃ : Accounts ld K g₂ _ s₃ := hacc₁.worked hspace' (by rw [hs₃.phys]; exact hworked)
      (hs₂.only.trans hs₃.only) (by rw [hself₃]) (by rw [hself₃])
        (by rw [hself₃]; exact hspace.size)
    have hfiles₃ : FilesOk 0 s₃ := hfiles₂.congrOne hs₃.only (by rw [hs₃.self])
    have htf : (s₁.proc np).trapframe = (s₃.proc np).trapframe := by rw [hself₃]
    rw [htf]
    refine Total.seq (copyTrapframe_total hacc₃ hpt₃ _) ?_
    rintro _ s₄ ⟨hacc₄, hs₄⟩
    rw [← hs₄.proc] at hpt₃ ⊢
    refine Total.seq (storeField_total hacc₄ hpt₃ (by decide)) ?_
    rintro _ s₅ ⟨hacc₅, hs₅⟩
    have hproc : s₅.proc = s₃.proc := hs₅.proc.trans hs₄.proc
    have hfiles₅ : FilesOk 0 s₅ := hfiles₃.congrOne (p := p) (hs₄.trans hs₅).only (by rw [hproc])
    refine Total.seq (dupFiles_total (List.finRange NOFILE) s₅ (nodup_finRange _) hfiles₅
      fun fd _ => ?_) ?_
    · rw [hproc, hself₃]
      exact hofile₁ fd
    rintro _ s₆ ⟨hfiles₆, honly₆, hphys₆, hpipe₆⟩
    have hacc₆ : Accounts ld K g₂ (update m np (m p)) s₆ :=
      hacc₅.congrOne hphys₆ hpipe₆ honly₆.other (by rw [honly₆.self]; exact ⟨rfl, rfl, rfl⟩)
    have hother₇ : ∀ s₇, ProcSet s₆ s₇ np (fun x => { x with state := .runnable }) →
        ∀ q, q ≠ np → s₇.proc q = s.proc q := fun s₇ hs₇ q hq => by
      rw [hs₇.other q hq, honly₆.other q hq, hproc, hs₃.other q hq, honly₂.other q hq]
    refine Total.bind (modifyProc_total fun s₇ hs₇ => Total.pure
      ⟨update m np (m p), h.fresh ⟨hnew.unused, hother₇ s₇ hs₇⟩ ⟨g₂, ?_⟩
        (hfiles₆.congrOne hs₇.only (by rw [hs₇.self]))
        (fun q hq => update_of_ne hq _ _) ?_ (fun hrun => ?_) hp, fun q hq hused => ?_⟩)
    · exact hacc₆.congrOne hs₇.phys hs₇.pipe hs₇.other (by rw [hs₇.self]; exact ⟨rfl, rfl, rfl⟩)
    · rw [hs₇.self, honly₆.self, hproc, hself₃]
      exact iff_of_false (by simp) hnew.pagetable
    · rw [hs₇.self] at hrun
      exact absurd rfl hrun
    · by_cases hqn : q = np
      · rw [hqn, umem, umem, update_self, hs₇.self, honly₆.self, hproc, hself₃,
          hnew.other p (Ne.symm hne)]
      · rw [hother₇ s₇ hs₇ q hqn] at hused
        exact absurd hq hused

/-! ## `exit` -/

/-- All descriptors of the list are closed. -/
theorem closeFiles_total (fds : List Fd) : ∀ (g : Nat → Role) (s : Sys), Accounts ld K g m s →
    FilesOk 0 s → Total (closeFiles ld p fds) (fun _ s' => (∃ g', Accounts ld K g' m s') ∧
      FilesOk 0 s' ∧ OnlyFds s s' p ∧
      ∀ fd, fd ∈ fds ∨ (s.proc p).ofile fd = none → (s'.proc p).ofile fd = none) s := by
  induction fds with
  | nil =>
    intro g s hacc hfiles
    refine Total.pure ⟨⟨g, hacc⟩, hfiles, .refl s p, ?_⟩
    rintro fd (hfd | hfd)
    · cases hfd
    · exact hfd
  | cons fd fds ih =>
    intro g s hacc hfiles
    rw [closeFiles]
    refine Total.bind (Total.get ?_)
    cases hfd : (s.proc p).ofile fd with
    | none =>
      refine (ih g s hacc hfiles).mono ?_
      rintro _ s' ⟨hacc', hfiles', honly, hnone⟩
      refine ⟨hacc', hfiles', honly, ?_⟩
      rintro fd' (hmem | hnone')
      · rcases mem_cons.mp hmem with rfl | hmem
        · exact hnone fd' (Or.inr hfd)
        · exact hnone fd' (Or.inl hmem)
      · exact hnone fd' (Or.inr hnone')
    | some f =>
      -- the file is closed before the descriptor is cleared
      have hpos := hfiles.counted.pos_of_entry (i := (p, fd)) hfd (le_refl 0)
      refine Total.seq (fileclose_total hacc hfiles hpos) ?_
      rintro _ s₁ ⟨hkept, hfiles₁⟩
      obtain ⟨g₁, hacc₁⟩ := hkept.accounts
      have hfd₁ : (s₁.proc p).ofile fd = some f := by rw [hkept.proc, hfd]
      refine Total.seq (clearFd_total hfiles₁ hfd₁) ?_
      rintro _ s₂ ⟨hs₂, hfiles₂⟩
      rw [sub_add_cancel] at hfiles₂
      refine (ih g₁ s₂ (hacc₁.setFd hs₂) hfiles₂).mono ?_
      rintro _ s' ⟨hacc', hfiles', honly, hnone⟩
      have hofile : ∀ fd', (s₂.proc p).ofile fd' = if fd' = fd then none
          else (s.proc p).ofile fd' := by
        intro fd'
        rw [hs₂.self, hkept.proc]
        exact update_apply ..
      refine ⟨hacc', hfiles', ((OnlyFds.of_proc hkept.proc).trans (.of_fdSet hs₂)).trans honly, ?_⟩
      intro fd' hfd'
      by_cases heq : fd' = fd
      · exact hnone fd' (Or.inr (by rw [hofile, if_pos heq]))
      · rcases hfd' with hmem | hnone'
        · rcases mem_cons.mp hmem with hmem | hmem
          · exact absurd hmem heq
          · exact hnone fd' (Or.inl hmem)
        · exact hnone fd' (Or.inr (by rw [hofile, if_neg heq, hnone']))

/-- Only parents change. -/
theorem reparent_total (p : Pid) :
    Total (reparent p)
      (fun _ s' => (∀ q, s'.proc q = { s.proc q with parent := (s'.proc q).parent }) ∧
      s'.phys = s.phys ∧ s'.file = s.file ∧ s'.pipe = s.pipe) s := by
  refine Total.modify ⟨fun q => ?_, rfl, rfl, rfl⟩
  dsimp only
  split <;> rfl

section

variable (h : Inv ld K m s) (hp : (s.proc p).state = .runnable)

include h hp

theorem exit_total (hinit : p ≠ initproc) (status : Int) :
    Total (exit ld p status) (fun _ s' => After ld K p m m s s' ∧ umem m s' p = umem m s p) s := by
  obtain ⟨g, hacc⟩ := h.accounts
  rw [exit, if_neg hinit]
  refine Total.seq (closeFiles_total (List.finRange NOFILE) g s hacc h.files) ?_
  rintro _ s₁ ⟨⟨g₁, hacc₁⟩, hfiles₁, honly, hnone⟩
  refine Total.seq (reparent_total (s := s₁) p) ?_
  rintro _ s₂ ⟨hproc₂, hphys₂, hfile₂, hpipe₂⟩
  refine modifyProc_total fun s₃ hs₃ => ?_
  have hself : s₃.proc p = { s₁.proc p with
      parent := (s₂.proc p).parent, xstate := status, state := .zombie } := by
    rw [hs₃.self, hproc₂ p]
  have hother : ∀ q, q ≠ p → s₃.proc q = { s.proc q with parent := (s₂.proc q).parent } := by
    intro q hq
    rw [hs₃.other q hq, hproc₂ q, honly.other q hq]
  have hfile₃ : s₃.file = s₁.file := hs₃.file.trans hfile₂
  have hpipe₃ : s₃.pipe = s₁.pipe := hs₃.pipe.trans hpipe₂
  have hphys₃ : s₃.phys = s₁.phys := hs₃.phys.trans hphys₂
  have hofile : ∀ q, (s₃.proc q).ofile = (s₁.proc q).ofile := fun q => by
    by_cases hq : q = p
    · rw [hq, hself]
    · rw [hother q hq, honly.other q hq]
  refine ⟨⟨⟨⟨g₁, hacc₁.congr hphys₃ hpipe₃ fun q => ?_⟩, hfiles₁.congr hfile₃ hpipe₃ hofile,
    fun q => ?_, fun q hq fd => ?_⟩, fun q hq hrun => ?_⟩, ?_⟩
  · by_cases hq : q = p
    · rw [hq, hself]
      exact ⟨rfl, rfl, rfl⟩
    · rw [hother q hq, honly.other q hq]
      exact ⟨rfl, rfl, rfl⟩
  · by_cases hq : q = p
    · rw [hq, hself, honly.self]
      exact iff_of_false (by simp) (h.pagetable hp)
    · rw [hother q hq]
      exact h.memory q
  · rw [hofile]
    by_cases hqp : q = p
    · rw [hqp]
      exact hnone fd (Or.inl (mem_finRange fd))
    · rw [hother q hqp] at hq
      rw [honly.other q hqp]
      exact h.closed q hq fd
  · rw [umem, umem, hother q hq]
    exact ⟨rfl, hrun⟩
  · rw [umem, umem, hself, honly.self]

/-! ## `wait` -/

/-- A child that has exited is freed. -/
theorem reap_total {np : Pid} (hzombie : (s.proc np).state = .zombie) :
    Total (freeproc ld np) (fun _ s' => ∃ m', After ld K p m m' s s' ∧
      umem m' s' p = umem m s p ∧ (s'.proc p).state = .runnable) s := by
  obtain ⟨g, hacc⟩ := h.accounts
  have hrun : ∀ q, (s.proc q).state = .runnable → q ≠ np := by
    rintro q hq rfl
    cases hq.symm.trans hzombie
  refine (freeproc_total hacc np).mono ?_
  rintro _ s' ⟨hacc', hself, hs⟩
  have hsame : ∀ q, (s.proc q).state = .runnable →
      umem (update m np []) s' q = umem m s q ∧ (s'.proc q).state = .runnable := by
    intro q hq
    rw [umem, umem, hs.other q (hrun q hq), update_of_ne (hrun q hq)]
    exact ⟨rfl, hq⟩
  refine ⟨_, ⟨h.one hs.other hacc' (h.files.congrOne hs (by rw [hself]; rfl)) ?_ ?_,
    fun q _ hq => hsame q hq⟩, hsame p hp⟩
  · rw [hself]
    exact iff_of_true rfl rfl
  · rw [hself]
    exact fun _ => h.closed np (by rw [hzombie]; simp)

theorem wait_total (addr : Nat) :
    Total (wait ld p addr) (fun reply s' => ∃ m', After ld K p m m' s s' ∧
      umem m' s' p = (Syscall.wait addr).effect reply (umem m s p) ∧
      (s'.proc p).state = .runnable) s := by
  have hsame := h.onlyFds hp h.accounts h.files (.refl s p)
  rw [wait]
  refine Total.bind (Total.get ?_)
  cases hfind : (List.finRange NPROC).find? fun np =>
      (s.proc np).parent = some p ∧ (s.proc np).state = .zombie with
  | none =>
    dsimp only
    split
    · exact Total.pure ⟨m, hsame⟩
    · exact Total.pure ⟨m, hsame⟩
  | some np =>
    have hnp : (s.proc np).parent = some p ∧ (s.proc np).state = .zombie := find_finRange hfind
    dsimp only
    -- the status is copied, or not asked for
    have hcopy : Total (if addr ≠ 0 then
          onPhys (copyout (s.proc p).pagetable addr (bytes32 (s.proc np).xstate)) else pure true)
        (fun _ s₁ => ∃ m₁, After ld K p m m₁ s s₁ ∧ umem m₁ s₁ p =
          (if addr = 0 then umem m s p
            else (umem m s p).copyout addr (bytes32 (s.proc np).xstate)) ∧
          (s₁.proc p).state = .runnable ∧ s₁.proc = s.proc) s := by
      by_cases haddr : addr = 0
      · rw [if_neg (not_not.mpr haddr), if_pos haddr]
        exact Total.pure ⟨m, hsame.1, hsame.2.1, hsame.2.2, rfl⟩
      · rw [if_pos haddr, if_neg haddr]
        refine (copyout_total h hp _ _).mono ?_
        rintro ok s₁ ⟨-, hafter⟩
        exact hafter
    refine Total.seq hcopy ?_
    rintro ok s₁ ⟨m₁, hafter, humem, hrun, hproc⟩
    cases ok with
    | false => exact Total.pure ⟨m₁, hafter, humem, hrun⟩
    | true =>
      have hzombie : (s₁.proc np).state = .zombie := by
        rw [hproc]
        exact hnp.2
      refine Total.seq (reap_total hafter.inv hrun hzombie) ?_
      rintro _ s₂ ⟨m₂, hafter₂, humem₂, hrun₂⟩
      exact Total.pure ⟨m₂, hafter.trans hafter₂, humem₂.trans humem, hrun₂⟩

end

/-! ## `exec` -/

/-- A field of the trapframe in the page `tf` is set. -/
theorem storeTrapframe_total {tf off v : Nat} (hrole : g tf = .trapframe p) (hoff : off < PGSIZE)
    (hpool : Pool ld g s.phys) :
    Total (onPhys (store (tf * PGSIZE + off) v)) (fun _ s' => Pool ld g s'.phys ∧
      Change (· = .trapframe p) g g s.phys s'.phys ∧ PhysSet s s' s'.phys) s := by
  refine onPhys_total (Total.modify fun s' hs => ?_)
  rw [page_add_div hoff] at hs
  rw [hs.phys]
  exact ⟨hpool.setPage hrole trivial _, Change.setPage hrole _, hs⟩

/-- `exec` has put a new page table in the place of the old one. -/
structure Replaced (ld : Linker) (p : Pid) (tf r n : Nat) (pages : Pages) (sz : Nat)
    (g g' : Nat → Role) (s s' : Sys) : Prop where
  fresh : g n = .free
  pool : Pool ld g' s'.phys
  change : Change (Local (Mine (s.proc p) (· = n)) p) g g' s.phys s'.phys
  plain : ∀ ρ : Role, ρ.Plain → ∀ k, g' k = ρ ↔ g k = ρ
  old : ∀ k path, g' k ≠ .node r path
  space : Space g' s'.phys n (procTop ld tf) pages
  size : np sz = pages.length
  self : s'.proc p = { s.proc p with pagetable := n * PGSIZE, sz }
  other : ∀ q, q ≠ p → s'.proc q = s.proc q
  file : s'.file = s.file
  pipe : s'.pipe = s.pipe

/-- Nothing but free pages has changed. -/
structure Untouched (ld : Linker) (g g' : Nat → Role) (s s' : Sys) : Prop where
  pool : Pool ld g' s'.phys
  change : Change (· = .free) g g' s.phys s'.phys
  proc : s'.proc = s.proc
  file : s'.file = s.file
  pipe : s'.pipe = s.pipe

theorem Untouched.set (h : Untouched ld g g' s s') : PhysSet s s' s'.phys :=
  ⟨rfl, h.proc, h.file, h.pipe⟩

theorem exec_total {file : Option (List UInt8)} {argv : List Nat}
    {pages : Pages} {r tf : Nat} (hpool : Pool ld g s.phys)
    (hspace : HasSpace ld g s.phys p (s.proc p) pages r tf)
    (hargs : ∀ a ∈ argv, g (a / PGSIZE) = .arg) :
    Total (exec ld p file argv) (fun ok s' => (ok = false ∧ ∃ g', Untouched ld g g' s s') ∨
      (ok = true ∧ ∃ g' n pages' sz bytes, Replaced ld p tf r n pages' sz g g' s s' ∧
        file = some bytes ∧ Pages.image bytes (strings s.phys argv) = some (pages', sz))) s := by
  have hmanaged := hpool.managed hspace.role (by simp)
  have htf : tf * PGSIZE < 2 ^ 64 := lt_trans hmanaged.2 (by decide)
  cases file with
  | none => exact Total.pure (Or.inl ⟨rfl, g, hpool, Change.refl _ g _, rfl, rfl, rfl⟩)
  | some file =>
    rw [exec]
    refine Total.bind (Total.get ?_)
    dsimp only
    rw [hspace.trapframe, hspace.pagetable]
    refine Total.bind (onPhys_total ((execImage_total hpool htf hargs).mono ?_))
    rintro _ phys
      (⟨rfl, g₁, hpool₁, hchange₁⟩ | ⟨n, g₁, pages', sz, sp, rfl, hn, hworked, hsz, himage⟩) s₁ hs₁
    · rw [← hs₁.phys] at hpool₁ hchange₁
      exact Total.pure (Or.inl ⟨rfl, g₁, hpool₁, hchange₁, hs₁.proc, hs₁.file, hs₁.pipe⟩)
    rw [← hs₁.phys] at hworked
    have hrn : r ≠ n := by
      rintro rfl
      cases hn.symm.trans hspace.space.root
    have hold := hspace.space.frame_of_ne hpool.tables hrn hworked.change
    have hrole₁ : g₁ tf = .trapframe p :=
      (hworked.change.iff (not_inSpace_plain (ρ := .trapframe p) trivial) tf).mpr hspace.role
    refine Total.seq (storeTrapframe_total hrole₁ (by decide) hworked.pool) ?_
    rintro _ s₂ ⟨hpool₂, hchange₂, hs₂⟩
    refine Total.bind (modifyProc_total fun s₃ hs₃ => ?_)
    rw [← hs₃.phys] at hpool₂ hchange₂
    refine Total.seq (storeTrapframe_total hrole₁ (by decide) hpool₂) ?_
    rintro _ s₄ ⟨hpool₄, hchange₄, hs₄⟩
    refine Total.seq (storeTrapframe_total hrole₁ (by decide) hpool₄) ?_
    rintro _ s₅ ⟨hpool₅, hchange₅, hs₅⟩
    -- neither page table has changed since it was made
    have hstores := (hchange₂.trans hchange₄).trans hchange₅
    have hold₅ := hold.frame hworked.pool.tables hstores (by simp) (by simp)
    have hnew₅ := hworked.space.frame hworked.pool.tables hstores (by simp) (by simp)
    refine Total.bind (onPhys_total ((procFreepagetable_total hpool₅ hold₅ hspace.size).mono ?_))
    rintro _ phys₆ ⟨g₆, hgone⟩ s₆ hs₆
    rw [← hs₆.phys] at hgone
    have hs₁₂ := hs₁.trans hs₂
    have hs₃₆ := (hs₄.trans hs₅).trans hs₆
    have hs : Only p s s₆ := (hs₁₂.only.trans hs₃.only).trans hs₃₆.only
    refine Total.pure (Or.inr ⟨rfl, g₆, n, pages', sz, file, ⟨hn, hgone.pool, ?_, fun ρ hρ k => ?_,
      fun k path hk => ?_, ?_, hsz, ?_, hs.other, hs.file, hs.pipe⟩, rfl, himage⟩)
    · have hlocal₁ : Change (Local (Mine (s.proc p) (· = n)) p) g g₁ s.phys s₁.phys :=
        hworked.change.mono fun ρ hρ => InSpace.local (Or.inr rfl) hρ
      have hlocal₂ : Change (Local (Mine (s.proc p) (· = n)) p) g₁ g₁ s₁.phys s₅.phys :=
        hstores.mono fun ρ hρ => by
          rw [hρ]
          rfl
      exact (hlocal₁.trans hlocal₂).trans
        (hgone.change.mono fun ρ hρ => InSpace.local (Or.inl hspace.pagetable) hρ)
    · exact (hgone.change.iff (not_inSpace_plain hρ) k).trans
        (hworked.change.iff (not_inSpace_plain hρ) k)
    · cases hk.symm.trans (hgone.gone k (Or.inl (Or.inr ⟨path, hk⟩)))
    · exact hnew₅.frame_of_ne hpool₅.tables (Ne.symm hrn) hgone.change
    · rw [hs₃₆.proc, hs₃.self, hs₁₂.proc]

theorem not_scratch {ρ : Role} (hfree : ρ ≠ .free) (harg : ρ ≠ .arg) : ¬ Scratch ρ :=
  fun hρ => hρ.elim hfree harg

theorem HasSpace.scratch {phys phys' : Phys} {x : Proc} {r tf : Nat} {pages : Pages}
    (h : HasSpace ld g phys p x pages r tf) (htables : Tables g phys)
    (hchange : Change Scratch g g' phys phys') : HasSpace ld g' phys' p x pages r tf := by
  refine h.frame htables hchange ?_ ?_ ?_
  · exact fun _ => not_scratch (by simp) (by simp)
  · exact fun _ => not_scratch (by simp) (by simp)
  · exact not_scratch (by simp) (by simp)

theorem Accounts.noArgs (h : Accounts ld K g m s) : ArgPages g [] := by
  refine ⟨nodup_nil, fun a ha => absurd ha not_mem_nil, fun n => ?_⟩
  exact iff_of_false (h.arg n) not_mem_nil

/-- Pages for arguments have come and gone. -/
theorem Accounts.scratch (h : Accounts ld K g m s) (hpool : Pool ld g' s'.phys)
    (hchange : Change Scratch g g' s.phys s'.phys) (harg : ∀ n, g' n ≠ .arg)
    (hproc : s'.proc = s.proc) (hpipe : s'.pipe = s.pipe) : Accounts ld K g' m s' := by
  have hiff : ∀ {ρ : Role}, ρ ≠ .free → ρ ≠ .arg → ∀ n, g' n = ρ ↔ g n = ρ := fun hfree harg n =>
    hchange.iff (not_scratch hfree harg) n
  refine ⟨hpool, fun q => ?_, hproc ▸ h.inj, fun n r path hn => ?_, fun n q hn => ?_, harg,
    fun n => ?_, fun n => ?_⟩
  · rw [hproc]
    rcases h.owned q with hbare | ⟨r, tf, hspace⟩
    · exact Or.inl hbare
    · exact Or.inr ⟨r, tf, hspace.scratch h.pool.tables hchange⟩
  · rw [hproc]
    exact h.table n r path ((hiff (by simp) (by simp) n).mp hn)
  · rw [hproc]
    exact h.frame n q ((hiff (by simp) (by simp) n).mp hn)
  · rw [hiff (by simp) (by simp), hpipe]
    exact h.pipe n
  · rw [hiff (by simp) (by simp)]
    exact h.kernel n

theorem sysExec_total (h : Inv ld K m s) (hp : (s.proc p).state = .runnable) (upath uargv : Nat)
    (file : Option (List UInt8)) :
    Total (sysExec ld p upath uargv file) (fun ok s' => ∃ m', After ld K p m m' s s' ∧
      umem m' s' p = (if ok then ((umem m s p).exec uargv file).getD (umem m s p)
        else umem m s p) ∧ (s'.proc p).state = .runnable) s := by
  obtain ⟨g, hacc⟩ := h.accounts
  obtain ⟨r, tf, hspace⟩ := hacc.hasSpace (h.pagetable hp)
  rw [sysExec]
  refine Total.bind (Total.get ?_)
  dsimp only
  rw [hspace.pagetable]
  refine Total.bind (onPhys_total ((copyinstr_user hacc.pool hspace.space upath MAXPATH).mono ?_))
  rintro _ _ ⟨rfl, rfl⟩ s₁ hs₁
  rw [hs₁.eq]
  have hsame := h.onlyFds hp h.accounts h.files (.refl s p)
  cases (m p).copyinstr upath MAXPATH with
  | none => exact Total.pure ⟨m, hsame⟩
  | some path =>
    refine Total.bind (onPhys_total ((fetchArgs_total _ _ MAXARG [] g s.phys hacc.pool hspace.space
      hacc.noArgs).mono ?_))
    rintro ⟨ok, argv⟩ phys₂ ⟨g₂, hpool₂, hchange₂, hargs₂, hstrings⟩ s₂ hs₂
    rw [← hs₂.phys] at hpool₂ hchange₂ hstrings
    have hspace₂ : HasSpace ld g₂ s₂.phys p (s₂.proc p) (m p) r tf := by
      rw [hs₂.proc]
      exact hspace.scratch hacc.pool.tables hchange₂
    -- what `exec` does, if it is called
    have hexec : Total (if ok = true then exec ld p file argv else pure false) (fun ok' s₃ =>
        (ok' = false ∧ ∃ g₃, Untouched ld g₂ g₃ s₂ s₃) ∨
        (ok' = true ∧ ∃ g₃ n pages sz, Replaced ld p tf r n pages sz g₂ g₃ s₂ s₃ ∧
          (umem m s p).exec uargv file = some ⟨pages, sz⟩)) s₂ := by
      cases ok with
      | false =>
        exact Total.pure (Or.inl ⟨rfl, g₂, hpool₂, Change.refl _ g₂ _, rfl, rfl, rfl⟩)
      | true =>
        refine (exec_total hpool₂ hspace₂ fun a ha => hargs₂.role ha).mono ?_
        rintro ok' s₃ (⟨hok, hno⟩ | ⟨hok, g₃, n, pages, sz, bytes, hnew, hfile, himage⟩)
        · exact Or.inl ⟨hok, hno⟩
        · refine Or.inr ⟨hok, g₃, n, pages, sz, hnew, ?_⟩
          have hfetch : (m p).fetchArgs (s.proc p).sz uargv MAXARG []
              = some (strings s₂.phys argv) := hstrings rfl
          rw [UMem.exec, umem]
          dsimp only
          rw [hfetch, Option.bind_some, hfile, Option.bind_some, himage]
          rfl
    refine Total.seq hexec ?_
    rintro ok' s₃ (⟨rfl, g₃, hno⟩ | ⟨rfl, g₃, n, pages, sz, hnew, heffect⟩)
    · -- the pages of the arguments are freed, and nothing else has happened
      have hargs₃ : ArgPages g₃ argv := ⟨hargs₂.nodup, hargs₂.page, fun k => by
        rw [hno.change.iff (by simp), hargs₂.arg k]⟩
      refine Total.bind (onPhys_total ((freeArgs_total argv g₃ s₃.phys hno.pool hargs₃).mono ?_))
      rintro _ phys₄ ⟨g₄, hpool₄, hchange₄, harg₄⟩ s₄ hs₄
      rw [← hs₄.phys] at hpool₄ hchange₄
      have hs := (hs₂.trans hno.set).trans hs₄
      have hchange := (hchange₂.trans (hno.change.mono fun _ => Or.inl)).trans hchange₄
      exact Total.pure ⟨m, h.onlyFds hp ⟨g₄, hacc.scratch hpool₄ hchange harg₄ hs.proc hs.pipe⟩
        (h.files.congrOne (p := p) hs.only (by rw [hs.proc])) (.of_proc hs.proc)⟩
    · have hargs₃ : ArgPages g₃ argv := ⟨hargs₂.nodup, hargs₂.page, fun k => by
        rw [hnew.plain .arg trivial, hargs₂.arg k]⟩
      refine Total.bind (onPhys_total ((freeArgs_total argv g₃ s₃.phys hnew.pool hargs₃).mono ?_))
      rintro _ phys₄ ⟨g₄, hpool₄, hchange₄, harg₄⟩ s₄ hs₄
      rw [← hs₄.phys] at hpool₄ hchange₄
      have hself₄ : s₄.proc p = { s.proc p with pagetable := n * PGSIZE, sz } := by
        rw [hs₄.proc, hnew.self, hs₂.proc]
      have hs := (hs₂.only.trans ⟨hnew.other, hnew.file, hnew.pipe⟩).trans hs₄.only
      -- the root of the new table was free before the call
      have hn : g n = .free := by
        by_contra hfree
        have hnot : ¬ Scratch (g n) := fun hn => hn.elim hfree (hacc.arg n)
        exact hfree ((hchange₂.keep n hnot).1.symm.trans hnew.fresh)
      have hn0 : n * PGSIZE ≠ 0 := Nat.mul_ne_zero (Managed.ne_zero
        (hnew.pool.managed hnew.space.root (by simp))) (by decide)
      have hchange : Change (Local (Mine (s.proc p) (· = n)) p) g g₄ s.phys s₄.phys := by
        refine ((hchange₂.mono fun _ => Scratch.local).trans ?_).trans
          (hchange₄.mono fun _ => Scratch.local)
        rw [← hs₂.proc]
        exact hnew.change
      have hframe : ∀ k, g₄ k = .trapframe p ↔ g k = .trapframe p := fun k =>
        ((hchange₄.iff (not_scratch (by simp) (by simp)) k).trans
          (hnew.plain (.trapframe p) trivial k)).trans
            (hchange₂.iff (not_scratch (by simp) (by simp)) k)
      have hspace₄ : Space g₄ s₄.phys n (procTop ld tf) pages :=
        Scratch.frame hnew.space hnew.pool.tables hchange₄
      have hacc₄ : Accounts ld K g₄ (update m p pages) s₄ := by
        refine hacc.step (fun r' hr' => by rw [hr', hn]) hpool₄ hchange hs
          (Or.inr ⟨n, tf, by rw [hself₄], by rw [hself₄]; exact hspace.trapframe,
            (hframe tf).mpr hspace.role, hspace₄, by rw [hself₄]; exact hnew.size⟩)
          (fun r' hr' _ => ?_) (fun k r' path' hr' hk => ?_) (fun k hk => ?_) harg₄
        · rw [hself₄] at hr'
          exact Or.inr (page_inj hr').symm
        · rcases hr' with hr' | rfl
          · -- the old table is gone
            rw [hspace.pagetable] at hr'
            rw [← page_inj hr'] at hk
            exact absurd ((hchange₄.iff (not_scratch (by simp) (by simp)) k).mp hk)
              (hnew.old k path')
          · rw [hself₄]
        · rw [hself₄]
          exact hacc.frame k p ((hframe k).mp hk)
      refine Total.pure ⟨update m p pages, ⟨h.one hs.other ⟨g₄, hacc₄⟩
        (h.files.congrOne hs (by rw [hself₄])) ?_ ?_, fun q hq hrun => ?_⟩, ?_, ?_⟩
      · rw [hself₄]
        exact iff_of_false (by rw [hp]; simp) hn0
      · rw [hself₄]
        exact fun hq => absurd hp hq
      · rw [umem, umem, hs.other q hq, update_of_ne hq]
        exact ⟨rfl, hrun⟩
      · rw [if_pos rfl, heffect, umem, hself₄, update_self]
        rfl
      · rw [hself₄]
        exact hp

end Xv6.Vm
