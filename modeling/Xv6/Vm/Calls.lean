/-
  Vm/Calls.lean --- every system call keeps the accounts, and does to the memory of its
  caller what it says.

  `Inv` is what holds between system calls.  Of the memory of processes it says that it is
  a list of pages for each; `effect` is what a call makes of that list, from what it was and
  what the call returned.  The memory of every other live process is left as it was.
-/
import Xv6.Vm.Files
import Xv6.Vm.ProcMemory

set_option autoImplicit false

namespace Xv6.Vm

open Function Foundation
open Procs (ProcState initproc)

variable {ld : Linker} {K : Nat → Prop} {g g' : Nat → Role} {m m' : Pid → Pages}
  {s s' : Sys} {p : Pid}

/-! ## The memory of one process -/

structure UMem where
  pages : Pages
  sz : Nat

namespace UMem

/-- `copyout` of kernel data. -/
def copyout (u : UMem) (va : Nat) (data : List UInt8) : UMem :=
  { u with pages := (u.pages.copyout va data).1 }

/-- `exec`, when it succeeds. -/
def exec (u : UMem) (uargv : Nat) (file : Option (List UInt8)) : Option UMem :=
  (u.pages.fetchArgs u.sz uargv MAXARG []).bind fun strs =>
    file.bind fun file => (Pages.image file strs).map fun (pages, sz) => ⟨pages, sz⟩

/-- `sbrk`, when it succeeds. -/
def sbrk (u : UMem) (n : Int32) : UMem :=
  let sz := addInt u.sz n
  if 0 < n.toInt then ⟨u.pages.grow (max u.sz sz), max u.sz sz⟩
  else if n.toInt < 0 then ⟨u.pages.take (np (min u.sz sz)), min u.sz sz⟩
  else u

/-- The descriptors that `pipe` returns; the second only if the first could be copied. -/
def pipe (u : UMem) (fdarray : Nat) (fd0 fd1 : Fd) : UMem :=
  if (u.pages.copyout fdarray (bytes32 fd0.val)).2 then
    (u.copyout fdarray (bytes32 fd0.val)).copyout ((fdarray + 4) % 2 ^ 64) (bytes32 fd1.val)
  else u.copyout fdarray (bytes32 fd0.val)

end UMem

/-- What a system call does to the memory of its caller, given what it returned. -/
def Syscall.effect (call : Syscall) (reply : Reply) (u : UMem) : UMem :=
  match call, reply with
  | .exec _ uargv file, .done => (u.exec uargv file).getD u
  | .sbrk n, .done => u.sbrk n
  | .wait addr, .child status _ => if addr = 0 then u else u.copyout addr (bytes32 status)
  | .pipe fdarray, .fds fd0 fd1 _ => u.pipe fdarray fd0 fd1
  | .copyout va data, _ => u.copyout va data
  | _, _ => u

/-! ## Between system calls -/

structure Inv (ld : Linker) (K : Nat → Prop) (m : Pid → Pages) (s : Sys) : Prop where
  accounts : ∃ g, Accounts ld K g m s
  files : FilesOk 0 s
  memory : ∀ p, (s.proc p).state = .unused ↔ (s.proc p).pagetable = 0
  closed : ∀ p, (s.proc p).state ≠ .runnable → ∀ fd, (s.proc p).ofile fd = none

/-- The memory of a process. -/
def umem (m : Pid → Pages) (s : Sys) (p : Pid) : UMem := ⟨m p, (s.proc p).sz⟩

/-- The invariant holds again, and the other processes have not been touched. -/
structure After (ld : Linker) (K : Nat → Prop) (p : Pid) (m m' : Pid → Pages) (s s' : Sys) :
    Prop where
  inv : Inv ld K m' s'
  others : ∀ q, q ≠ p → (s.proc q).state = .runnable →
    umem m' s' q = umem m s q ∧ (s'.proc q).state = .runnable

theorem After.trans {m'' : Pid → Pages} {s'' : Sys} (h : After ld K p m m' s s')
    (h' : After ld K p m' m'' s' s'') : After ld K p m m'' s s'' := by
  refine ⟨h'.inv, fun q hq hrun => ?_⟩
  obtain ⟨hmem, hrun'⟩ := h.others q hq hrun
  obtain ⟨hmem', hrun''⟩ := h'.others q hq hrun'
  exact ⟨hmem'.trans hmem, hrun''⟩

namespace Inv

theorem pagetable (h : Inv ld K m s) (hp : (s.proc p).state = .runnable) :
    (s.proc p).pagetable ≠ 0 := fun hzero => by
  cases hp.symm.trans ((h.memory p).mpr hzero)

theorem unused (h : Inv ld K m s) (q : Pid) (hq : (s.proc q).state = .unused) :
    (s.proc q).pagetable = 0 :=
  (h.memory q).mp hq

/-- Nothing but files has changed. -/
theorem keep (h : Inv ld K m s) (hacc : ∃ g', Accounts ld K g' m s') (hfiles : FilesOk 0 s')
    (hproc : ∀ q, s'.proc q = { s.proc q with ofile := (s'.proc q).ofile })
    (hfd : ∀ q, (s.proc q).state ≠ .runnable → ∀ fd, (s'.proc q).ofile fd = none) :
    After ld K p m m s s' := by
  have hstate : ∀ q, (s'.proc q).state = (s.proc q).state := fun q => by rw [hproc q]
  have hpt : ∀ q, (s'.proc q).pagetable = (s.proc q).pagetable := fun q => by rw [hproc q]
  have hsz : ∀ q, (s'.proc q).sz = (s.proc q).sz := fun q => by rw [hproc q]
  refine ⟨⟨hacc, hfiles, fun q => ?_, fun q hq => ?_⟩, fun q _ hq => ⟨?_, ?_⟩⟩
  · rw [hstate, hpt]
    exact h.memory q
  · rw [hstate] at hq
    exact hfd q hq
  · rw [umem, umem, hsz]
  · rw [hstate]
    exact hq

/-- One process has changed. -/
theorem one (h : Inv ld K m s) (hother : ∀ q, q ≠ p → s'.proc q = s.proc q)
    (hacc : ∃ g', Accounts ld K g' m' s') (hfiles : FilesOk 0 s')
    (hmemory : (s'.proc p).state = .unused ↔ (s'.proc p).pagetable = 0)
    (hclosed : (s'.proc p).state ≠ .runnable → ∀ fd, (s'.proc p).ofile fd = none) :
    Inv ld K m' s' := by
  refine ⟨hacc, hfiles, fun q => ?_, fun q hq => ?_⟩
  · by_cases hqp : q = p
    · rw [hqp]
      exact hmemory
    · rw [hother q hqp]
      exact h.memory q
  · by_cases hqp : q = p
    · rw [hqp] at hq ⊢
      exact hclosed hq
    · rw [hother q hqp] at hq ⊢
      exact h.closed q hq

end Inv

/-! ## `sbrk` and `copyout` -/

/-- Work on the memory of the caller. -/
theorem Inv.worked (h : Inv ld K m s) (hacc : Accounts ld K g m s) {r tf : Nat} {pages : Pages}
    (hp : (s.proc p).state = .runnable) (hspace : HasSpace ld g s.phys p (s.proc p) (m p) r tf)
    (hworked : Worked ld r (procTop ld tf) pages g g' s.phys s'.phys)
    (hs : Only p s s') (sz : Nat) (hself : s'.proc p = { s.proc p with sz })
    (hsz : np sz = pages.length) :
    After ld K p m (update m p pages) s s' ∧
      umem (update m p pages) s' p = ⟨pages, sz⟩ ∧ (s'.proc p).state = .runnable := by
  have hacc' := hacc.worked hspace hworked hs (by rw [hself]) (by rw [hself])
    (by rw [hself]; exact hsz)
  refine ⟨⟨h.one hs.other ⟨g', hacc'⟩ (h.files.congrOne hs (by rw [hself])) ?_ ?_,
    fun q hq hrun => ⟨?_, ?_⟩⟩, ?_, ?_⟩
  · rw [hself]
    exact h.memory p
  · rw [hself]
    exact fun hq => absurd hp hq
  · rw [umem, umem, hs.other q hq, update_of_ne hq]
  · rw [hs.other q hq]
    exact hrun
  · rw [umem, hself, update_self]
  · rw [hself]
    exact hp

theorem copyout_total (h : Inv ld K m s) (hp : (s.proc p).state = .runnable) (va : Nat)
    (data : List UInt8) :
    Total (onPhys (copyout (s.proc p).pagetable va data)) (fun ok s' =>
      ok = ((m p).copyout va data).2 ∧ ∃ m', After ld K p m m' s s' ∧
        umem m' s' p = (umem m s p).copyout va data ∧ (s'.proc p).state = .runnable ∧
        s'.proc = s.proc) s := by
  obtain ⟨g, hacc⟩ := h.accounts
  obtain ⟨r, tf, hspace⟩ := hacc.hasSpace (h.pagetable hp)
  rw [hspace.pagetable]
  refine onPhys_total ((copyout_user hacc.pool hspace.space va data).mono ?_)
  rintro ok phys ⟨hok, hworked⟩ s' hs
  rw [← hs.phys] at hworked
  obtain ⟨hafter, humem, hrun⟩ := h.worked hacc hp hspace hworked hs.only
    (s.proc p).sz (by rw [hs.proc]) (by rw [Pages.length_copyout]; exact hspace.size)
  exact ⟨hok, _, hafter, humem, hrun, hs.proc⟩

theorem addInt_eq {sz : Nat} {n : Int32} (hsz : sz ≤ 2 ^ 27) (hn : 0 < n.toInt) :
    (addInt sz n : Int) = sz + n.toInt := by
  have hlt := n.toInt_lt
  rw [addInt]
  omega

theorem growproc_total (h : Inv ld K m s) (hp : (s.proc p).state = .runnable) (n : Int32) :
    Total (growproc ld p n) (fun ok s' => ∃ m', After ld K p m m' s s' ∧
      umem m' s' p = (if ok then (umem m s p).sbrk n else umem m s p) ∧
      (s'.proc p).state = .runnable ∧ (n.toInt ≤ 0 → ok = true)) s := by
  obtain ⟨g, hacc⟩ := h.accounts
  obtain ⟨r, tf, hspace⟩ := hacc.hasSpace (h.pagetable hp)
  have hsmall := hspace.space.size_lt hacc.pool hspace.size
  have hmod : (s.proc p).sz % 2 ^ 32 = (s.proc p).sz := Nat.mod_eq_of_lt (by omega)
  rw [growproc]
  refine Total.bind (Total.get ?_)
  dsimp only
  rw [hmod, hspace.pagetable]
  by_cases hpos : 0 < n.toInt
  · rw [if_pos hpos]
    have hadd := addInt_eq hsmall hpos
    have hlt := n.toInt_lt
    refine Total.bind (onPhys_total ((uvmalloc_grow hacc.pool hspace.space hspace.size _).mono ?_))
    rintro sz phys ⟨g', pages', hworked, hres⟩ s₁ hs₁
    have hsz : sz % 2 ^ 32 = sz := by
      refine Nat.mod_eq_of_lt ?_
      rcases hres with ⟨rfl, -⟩ | ⟨rfl, -⟩ <;> omega
    rw [hsz]
    by_cases hzero : sz = 0
    · rw [if_pos hzero]
      have hpages : pages' = m p := by
        rcases hres with ⟨hmax, -⟩ | ⟨-, hpages⟩
        · omega
        · exact hpages
      subst hpages
      rw [← hs₁.phys] at hworked
      obtain ⟨hafter, humem, hrun⟩ := h.worked hacc hp hspace hworked hs₁.only
        (s.proc p).sz (by rw [hs₁.proc]) hspace.size
      exact Total.pure ⟨_, hafter, humem, hrun, fun hle => by omega⟩
    · rw [if_neg hzero]
      obtain ⟨rfl, rfl⟩ : sz = max (s.proc p).sz (addInt (s.proc p).sz n) ∧
          pages' = (m p).grow (max (s.proc p).sz (addInt (s.proc p).sz n)) := by
        rcases hres with hres | ⟨h0, -⟩
        · exact hres
        · exact absurd h0 hzero
      refine Total.bind (modifyProc_total fun s₂ hs₂ => ?_)
      rw [← hs₁.phys, ← hs₂.phys] at hworked
      have hlen := Pages.length_grow (m p) (hspace.size ▸
        np_mono (Nat.le_max_left (s.proc p).sz (addInt (s.proc p).sz n)))
      obtain ⟨hafter, humem, hrun⟩ := h.worked hacc hp hspace hworked
        (hs₁.only.trans hs₂.only) _ (by rw [hs₂.self, hs₁.proc]) hlen.symm
      refine Total.pure ⟨_, hafter, ?_, hrun, fun _ => rfl⟩
      rw [humem, if_pos rfl, UMem.sbrk, umem]
      dsimp only
      rw [if_pos hpos]
  rw [if_neg hpos]
  by_cases hneg : n.toInt < 0
  · rw [if_pos hneg]
    refine Total.bind (onPhys_total ((uvmdealloc_total hacc.pool hspace.space hspace.size).mono ?_))
    rintro sz phys ⟨rfl, g', hworked⟩ s₁ hs₁
    obtain ⟨sz, hsz⟩ : ∃ sz, sz = min (s.proc p).sz (addInt (s.proc p).sz n) := ⟨_, rfl⟩
    rw [← hsz] at hworked ⊢
    have hle : sz ≤ (s.proc p).sz := by omega
    rw [Nat.mod_eq_of_lt (show sz < 2 ^ 32 by omega)]
    refine Total.bind (modifyProc_total fun s₂ hs₂ => ?_)
    rw [← hs₁.phys, ← hs₂.phys] at hworked
    have hlen : np sz = ((m p).take (np sz)).length := by
      rw [List.length_take, ← hspace.size]
      exact (Nat.min_eq_left (np_mono hle)).symm
    obtain ⟨hafter, humem, hrun⟩ := h.worked hacc hp hspace hworked
      (hs₁.only.trans hs₂.only) sz (by rw [hs₂.self, hs₁.proc]) hlen
    refine Total.pure ⟨_, hafter, ?_, hrun, fun _ => rfl⟩
    rw [humem, if_pos rfl, UMem.sbrk, umem]
    dsimp only
    rw [if_neg hpos, if_pos hneg, ← hsz]
  · rw [if_neg hneg]
    refine Total.bind (modifyProc_total fun s₁ hs₁ => ?_)
    have hworked : Worked ld r (procTop ld tf) (m p) g g s.phys s₁.phys := by
      rw [hs₁.phys]
      exact Worked.refl hacc.pool hspace.space
    obtain ⟨hafter, humem, hrun⟩ := h.worked hacc hp hspace hworked hs₁.only _ hs₁.self hspace.size
    refine Total.pure ⟨_, hafter, ?_, hrun, fun _ => rfl⟩
    rw [humem, if_pos rfl, UMem.sbrk, umem]
    dsimp only
    rw [if_neg hpos, if_neg hneg]

/-! ## Descriptors -/

/-- Only descriptors and files have changed. -/
structure OnlyFds (s s' : Sys) (p : Pid) : Prop where
  self : s'.proc p = { s.proc p with ofile := (s'.proc p).ofile }
  other : ∀ q, q ≠ p → s'.proc q = s.proc q

theorem OnlyFds.refl (s : Sys) (p : Pid) : OnlyFds s s p := ⟨rfl, fun _ _ => rfl⟩

theorem OnlyFds.trans {s'' : Sys} (h : OnlyFds s s' p) (h' : OnlyFds s' s'' p) :
    OnlyFds s s'' p := by
  refine ⟨?_, fun q hq => (h'.other q hq).trans (h.other q hq)⟩
  rw [h'.self, h.self]

theorem OnlyFds.of_proc (h : s'.proc = s.proc) : OnlyFds s s' p :=
  ⟨by rw [h], fun q _ => by rw [h]⟩

theorem OnlyFds.of_fdSet {fd : Fd} {v : Option FileId} (h : FdSet s s' p fd v) : OnlyFds s s' p :=
  ⟨by rw [h.self], h.other⟩

section

variable (h : Inv ld K m s) (hp : (s.proc p).state = .runnable)

include h hp

/-- A call that has only to do with files. -/
theorem Inv.onlyFds
    (hacc : ∃ g', Accounts ld K g' m s') (hfiles : FilesOk 0 s') (hfds : OnlyFds s s' p) :
    After ld K p m m s s' ∧ umem m s' p = umem m s p ∧ (s'.proc p).state = .runnable := by
  refine ⟨h.keep hacc hfiles (fun q => ?_) fun q hq fd => ?_, ?_, ?_⟩
  · by_cases hqp : q = p
    · rw [hqp]
      exact hfds.self
    · rw [hfds.other q hqp]
  · have hqp : q ≠ p := by
      rintro rfl
      exact hq hp
    rw [hfds.other q hqp]
    exact h.closed q hq fd
  · rw [umem, umem, hfds.self]
  · rw [hfds.self]
    exact hp

theorem sysClose_total (fd : Fd) :
    Total (sysClose ld p fd) (fun _ s' => After ld K p m m s s' ∧ umem m s' p = umem m s p ∧
      (s'.proc p).state = .runnable) s := by
  obtain ⟨g, hacc⟩ := h.accounts
  rw [sysClose]
  refine Total.bind (Total.get ?_)
  cases hfd : (s.proc p).ofile fd with
  | none => exact Total.pure (h.onlyFds hp h.accounts h.files (.refl s p))
  | some f =>
    refine Total.seq (clearFd_total h.files hfd) ?_
    rintro _ s₁ ⟨hs₁, hfiles₁⟩
    have hpos : 0 < (s₁.file f).ref := by
      refine hfiles₁.counted.pos_of_hand ?_
      rw [zero_add, Pi.single_eq_same]
      exact Int.one_pos
    refine Total.seq (fileclose_total (hacc.setFd hs₁) hfiles₁ hpos) ?_
    rintro _ s₂ ⟨hkept, hfiles₂⟩
    rw [add_sub_cancel_right] at hfiles₂
    exact Total.pure (h.onlyFds hp hkept.accounts hfiles₂
      ((OnlyFds.of_fdSet hs₁).trans (.of_proc hkept.proc)))

theorem sysDup_total (fd : Fd) :
    Total (sysDup p fd) (fun _ s' => After ld K p m m s s' ∧ umem m s' p = umem m s p ∧
      (s'.proc p).state = .runnable) s := by
  obtain ⟨g, hacc⟩ := h.accounts
  rw [sysDup]
  refine Total.bind (Total.get ?_)
  cases hfd : (s.proc p).ofile fd with
  | none => exact Total.pure (h.onlyFds hp h.accounts h.files (.refl s p))
  | some f =>
    refine Total.seq (fdalloc_total h.files p f) ?_
    rintro _ s₁ (⟨rfl, rfl⟩ | ⟨fd', rfl, hnone, hs₁, hfiles₁⟩)
    · exact Total.pure (h.onlyFds hp h.accounts h.files (.refl s₁ p))
    -- the count is that of the descriptor there was
    have hpos : 0 < (s₁.file f).ref := by
      rw [hs₁.file]
      exact h.files.counted.pos_of_entry (i := (p, fd)) hfd (le_refl 0)
    refine Total.seq (filedup_total hfiles₁ hpos) ?_
    rintro _ s₂ ⟨hs₂, hfiles₂⟩
    rw [sub_add_cancel] at hfiles₂
    exact Total.pure (h.onlyFds hp ⟨g, (hacc.setFd hs₁).setFile hs₂⟩ hfiles₂
      ((OnlyFds.of_fdSet hs₁).trans (.of_proc hs₂.proc)))

theorem sysOpen_total (type : FileType) :
    Total (sysOpen ld p type) (fun _ s' => After ld K p m m s s' ∧ umem m s' p = umem m s p ∧
      (s'.proc p).state = .runnable) s := by
  obtain ⟨g, hacc⟩ := h.accounts
  rw [sysOpen]
  refine Total.seq (filealloc_total h.files) ?_
  rintro _ s₁ (⟨rfl, rfl⟩ | ⟨f, rfl, href, htype, hs₁, hfiles₁⟩)
  · exact Total.pure (h.onlyFds hp h.accounts h.files (.refl s₁ p))
  have hacc₁ := hacc.setFile hs₁
  have hpos : 0 < (s₁.file f).ref := by
    rw [hs₁.self]
    exact Int.one_pos
  refine Total.seq (fdalloc_total hfiles₁ p f) ?_
  rintro _ s₂ (⟨rfl, rfl⟩ | ⟨fd, rfl, hnone, hs₂, hfiles₂⟩)
  · refine Total.seq (fileclose_total hacc₁ hfiles₁ hpos) ?_
    rintro _ s₃ ⟨hkept, hfiles₃⟩
    rw [add_sub_cancel_right] at hfiles₃
    exact Total.pure (h.onlyFds hp hkept.accounts hfiles₃ (.of_proc (hkept.proc.trans hs₁.proc)))
  · refine Total.bind (modifyFile_total fun s₃ hs₃ => Total.pure ?_)
    rw [add_sub_cancel_right] at hfiles₂
    have hnopipe : ∀ t : FileType, (if t = .device then FileType.device else .inode) ≠ .pipe := by
      intro t
      split <;> simp
    have hfiles₃ : FilesOk (0 + Pi.single f 0) s₃ := by
      refine hfiles₂.setFile ?_ hs₃.other hs₃.proc hs₃.pipe (fun hle => ?_) fun page w => ?_
      · rw [hs₃.self]
        exact (add_zero _).symm
      · rw [hs₃.self, hs₂.file] at hle
        exact absurd hle (not_le.mpr hpos)
      · rw [hs₃.self, hs₂.file, hs₁.self]
        exact iff_of_false (fun he => hnopipe type he.type) fun he => by
          cases htype.symm.trans he.type
    rw [Pi.single_zero, add_zero] at hfiles₃
    exact h.onlyFds hp ⟨g, (hacc₁.setFd hs₂).setFile hs₃⟩ hfiles₃
      (((OnlyFds.of_proc hs₁.proc).trans (.of_fdSet hs₂)).trans (.of_proc hs₃.proc))

end

/-! ## `pipe` -/

theorem single_one_nonneg (f f' : FileId) : 0 ≤ (Pi.single f (1 : Int) : FileId → Int) f' := by
  by_cases hf : f' = f
  · rw [hf, Pi.single_eq_same]
    exact Int.one_nonneg
  · rw [Pi.single_eq_of_ne hf]

/-- Both files of a pipe are closed again. -/
theorem closeBoth_total {α : Type} (hacc : Accounts ld K g m s) {rf wf : FileId}
    (hfiles : FilesOk (0 + Pi.single rf 1 + Pi.single wf 1) s) (x : α) :
    Total (do fileclose ld rf; fileclose ld wf; return x) (fun res s' => res = x ∧
      Kept ld K m s s' ∧ FilesOk 0 s') s := by
  have hpos : 0 < (s.file rf).ref := by
    refine hfiles.counted.pos_of_hand ?_
    have hone := single_one_nonneg wf rf
    rw [zero_add, Pi.add_apply, Pi.single_eq_same]
    omega
  refine Total.seq (fileclose_total hacc hfiles hpos) ?_
  rintro _ s₁ ⟨hkept₁, hfiles₁⟩
  have hsum : (0 + Pi.single rf 1 + Pi.single wf 1 - Pi.single rf 1 : FileId → Int)
      = Pi.single wf 1 := by abel
  rw [hsum] at hfiles₁
  obtain ⟨g₁, hacc₁⟩ := hkept₁.accounts
  have hpos₁ : 0 < (s₁.file wf).ref := by
    refine hfiles₁.counted.pos_of_hand ?_
    rw [Pi.single_eq_same]
    exact Int.one_pos
  refine Total.seq (fileclose_total hacc₁ hfiles₁ hpos₁) ?_
  rintro _ s₂ ⟨hkept₂, hfiles₂⟩
  rw [sub_self] at hfiles₂
  exact Total.pure ⟨rfl, hkept₁.trans hkept₂, hfiles₂⟩

section

variable (h : Inv ld K m s) (hp : (s.proc p).state = .runnable)

include h hp

/-- The descriptors of a pipe are given up again. -/
theorem undoPipe_total {fd0 fd1 : Fd}
    {rf wf : FileId} (hne : fd0 ≠ fd1) (hfd0 : (s.proc p).ofile fd0 = some rf)
    (hfd1 : (s.proc p).ofile fd1 = some wf) (reply : Reply) :
    Total (do clearFd p fd0; clearFd p fd1; fileclose ld rf; fileclose ld wf; return reply)
      (fun res s' => res = reply ∧ After ld K p m m s s' ∧ umem m s' p = umem m s p ∧
        (s'.proc p).state = .runnable) s := by
  obtain ⟨g, hacc⟩ := h.accounts
  refine Total.seq (clearFd_total h.files hfd0) ?_
  rintro _ s₁ ⟨hs₁, hfiles₁⟩
  have hfd1' : (s₁.proc p).ofile fd1 = some wf := by
    rw [hs₁.self]
    dsimp only
    rw [update_of_ne (Ne.symm hne), hfd1]
  refine Total.seq (clearFd_total hfiles₁ hfd1') ?_
  rintro _ s₂ ⟨hs₂, hfiles₂⟩
  refine (closeBoth_total ((hacc.setFd hs₁).setFd hs₂) hfiles₂ reply).mono ?_
  rintro _ s₃ ⟨rfl, hkept, hfiles₃⟩
  exact ⟨rfl, h.onlyFds hp hkept.accounts hfiles₃
    (((OnlyFds.of_fdSet hs₁).trans (.of_fdSet hs₂)).trans (.of_proc hkept.proc))⟩

/-- `pipe` has its descriptors, and copies them to the memory of the caller. -/
theorem copyFds_total (fdarray : Nat) (fd0 fd1 : Fd) : Total (do
        let ok ← onPhys (copyout (s.proc p).pagetable fdarray (bytes32 fd0.val))
        if ok then
          onPhys (copyout (s.proc p).pagetable ((fdarray + 4) % 2 ^ 64) (bytes32 fd1.val))
        else pure false) (fun _ s' => ∃ m', After ld K p m m' s s' ∧
          umem m' s' p = (umem m s p).pipe fdarray fd0 fd1 ∧ (s'.proc p).state = .runnable ∧
          s'.proc = s.proc) s := by
  refine Total.seq (copyout_total h hp _ _) ?_
  rintro ok s₁ ⟨hok, m₁, hafter, humem, hrun, hproc⟩
  rw [UMem.pipe, ← humem, show (umem m s p).pages = m p from rfl, ← hok]
  cases ok with
  | false => exact Total.pure ⟨m₁, hafter, rfl, hrun, hproc⟩
  | true =>
    have hsecond := copyout_total hafter.inv hrun ((fdarray + 4) % 2 ^ 64) (bytes32 fd1.val)
    rw [hproc] at hsecond
    refine hsecond.mono ?_
    rintro ok' s₂ ⟨-, m₂, hafter₂, humem₂, hrun₂, hproc₂⟩
    exact ⟨m₂, hafter.trans hafter₂, humem₂, hrun₂, hproc₂⟩

theorem sysPipe_total (fdarray : Nat) :
    Total (sysPipe ld p fdarray) (fun reply s' => ∃ m', After ld K p m m' s s' ∧
      umem m' s' p = (Syscall.pipe fdarray).effect reply (umem m s p) ∧
      (s'.proc p).state = .runnable) s := by
  obtain ⟨g, hacc⟩ := h.accounts
  rw [sysPipe]
  refine Total.seq (pipealloc_total hacc h.files) ?_
  rintro _ s₁ ⟨hkept₁, ⟨rfl, hfiles₁⟩ | ⟨rf, wf, rfl, hne, hfiles₁⟩⟩
  · exact Total.pure ⟨m, h.onlyFds hp hkept₁.accounts hfiles₁ (.of_proc hkept₁.proc)⟩
  obtain ⟨g₁, hacc₁⟩ := hkept₁.accounts
  have honly₁ : OnlyFds s s₁ p := .of_proc hkept₁.proc
  refine Total.seq (fdalloc_total hfiles₁ p rf) ?_
  rintro _ s₂ (⟨rfl, rfl⟩ | ⟨fd0, rfl, hnone0, hs₂, hfiles₂⟩)
  · refine (closeBoth_total hacc₁ hfiles₁ Reply.failed).mono ?_
    rintro _ s₃ ⟨rfl, hkept₃, hfiles₃⟩
    exact ⟨m, h.onlyFds hp hkept₃.accounts hfiles₃ (honly₁.trans (.of_proc hkept₃.proc))⟩
  have hacc₂ := hacc₁.setFd hs₂
  have honly₂ := honly₁.trans (.of_fdSet hs₂)
  have hfd0 : (s₂.proc p).ofile fd0 = some rf := by
    rw [hs₂.self]
    exact update_self ..
  refine Total.seq (fdalloc_total hfiles₂ p wf) ?_
  rintro _ s₃ (⟨rfl, rfl⟩ | ⟨fd1, rfl, hnone1, hs₃, hfiles₃⟩)
  · refine Total.seq (clearFd_total hfiles₂ hfd0) ?_
    rintro _ s₄ ⟨hs₄, hfiles₄⟩
    rw [sub_add_cancel] at hfiles₄
    refine (closeBoth_total (hacc₂.setFd hs₄) hfiles₄ Reply.failed).mono ?_
    rintro _ s₅ ⟨rfl, hkept₅, hfiles₅⟩
    exact ⟨m, h.onlyFds hp hkept₅.accounts hfiles₅
      ((honly₂.trans (.of_fdSet hs₄)).trans (.of_proc hkept₅.proc))⟩
  have hsum : (0 + Pi.single rf 1 + Pi.single wf 1 - Pi.single rf 1 - Pi.single wf 1 : FileId → Int)
      = 0 := by abel
  rw [hsum] at hfiles₃
  obtain ⟨hafter₃, humem₃, hrun₃⟩ := h.onlyFds hp ⟨g₁, hacc₂.setFd hs₃⟩ hfiles₃
    (honly₂.trans (.of_fdSet hs₃))
  have hfds : fd0 ≠ fd1 := by
    rintro rfl
    cases hnone1.symm.trans hfd0
  refine Total.bind (Total.get ?_)
  dsimp only
  have hcopy := copyFds_total hafter₃.inv hrun₃ fdarray fd0 fd1
  rw [← bind_assoc]
  refine Total.seq hcopy ?_
  rintro ok s₄ ⟨m₄, hafter₄, humem₄, hrun₄, hproc₄⟩
  rw [humem₃] at humem₄
  have hall := hafter₃.trans hafter₄
  cases ok with
  | true => exact Total.pure ⟨m₄, hall, humem₄, hrun₄⟩
  | false =>
    have hfd0' : (s₄.proc p).ofile fd0 = some rf := by
      rw [hproc₄, hs₃.self]
      dsimp only
      rw [update_of_ne hfds, hfd0]
    have hfd1' : (s₄.proc p).ofile fd1 = some wf := by
      rw [hproc₄, hs₃.self]
      exact update_self ..
    refine (undoPipe_total hafter₄.inv hrun₄ hfds hfd0' hfd1' _).mono ?_
    rintro _ s₅ ⟨rfl, hafter₅, humem₅, hrun₅⟩
    exact ⟨m₄, hall.trans hafter₅, humem₅.trans humem₄, hrun₅⟩

end

end Xv6.Vm
