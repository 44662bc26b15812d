/-
  Vm/Reachable.lean --- what holds in every state the system can be in.

  A system call of any process keeps `Inv`, and no system call panics but one: the first
  process must not exit.  So `Inv` holds in all states that can be reached after `userinit`.
  Two consequences are spelled out on the bytes of memory and the process table, without
  roles: which pages there are and who has them, and what a page table maps.
-/
import Xv6.Vm.Boot

set_option autoImplicit false

namespace Xv6.Vm

open Foundation
open Procs (ProcState initproc)

variable {ld : Linker} {K : Nat → Prop} {g : Nat → Role} {m m' : Pid → Pages} {s s' : Sys} {p : Pid}

/-! ## One system call -/

/-- `Inv` holds again, and the caller's memory is what the call makes of it. -/
structure Called (ld : Linker) (K : Nat → Prop) (p : Pid) (call : Syscall) (reply : Reply)
    (m m' : Pid → Pages) (s s' : Sys) : Prop where
  after : After ld K p m m' s s'
  effect : umem m' s' p = call.effect reply (umem m s p)
  running : (∀ status, call ≠ .exit status) → (s'.proc p).state = .runnable
  child : call = .fork → ∀ q, (s.proc q).state = .unused → (s'.proc q).state ≠ .unused →
    umem m' s' q = umem m s p

/-- A call that returns a Boolean. -/
theorem total_ofBool {c : Call Bool} {call : Syscall} (hfork : call ≠ .fork)
    (h : Total c (fun ok s' => ∃ m', After ld K p m m' s s' ∧
      umem m' s' p = call.effect (.ofBool ok) (umem m s p) ∧ (s'.proc p).state = .runnable) s) :
    Total (do return Reply.ofBool (← c))
      (fun reply s' => ∃ m', Called ld K p call reply m m' s s') s := by
  refine Total.seq h ?_
  rintro ok s' ⟨m', hafter, heffect, hrun⟩
  exact Total.pure ⟨m', hafter, heffect, fun _ => hrun, fun hcall => absurd hcall hfork⟩

/-- Every system call returns, if it is not the exit of the first process. -/
theorem Syscall.run_total (h : Inv ld K m s) (hp : (s.proc p).state = .runnable) (call : Syscall)
    (hexit : ∀ status, call = .exit status → p ≠ initproc) :
    Total (call.run ld p) (fun reply s' => ∃ m', Called ld K p call reply m m' s s') s := by
  cases call with
  | fork =>
    refine Total.seq (fork_total h hp) ?_
    rintro res s' ⟨m', ⟨hafter, hmem, hrun⟩, hchild⟩
    exact Total.pure ⟨m', hafter, hmem, fun _ => hrun, fun _ => hchild⟩
  | exec upath uargv file =>
    refine total_ofBool nofun ((sysExec_total h hp upath uargv file).mono ?_)
    rintro ok s' ⟨m', hafter, hmem, hrun⟩
    exact ⟨m', hafter, by cases ok <;> exact hmem, hrun⟩
  | sbrk n =>
    refine total_ofBool nofun ((growproc_total h hp n).mono ?_)
    rintro ok s' ⟨m', hafter, hmem, hrun, -⟩
    exact ⟨m', hafter, by cases ok <;> exact hmem, hrun⟩
  | exit status =>
    refine Total.seq (exit_total h hp (hexit status rfl) status) ?_
    rintro _ s' ⟨hafter, hmem⟩
    exact Total.pure ⟨m, hafter, hmem, fun hne => absurd rfl (hne status), nofun⟩
  | wait addr =>
    refine (wait_total h hp addr).mono ?_
    rintro reply s' ⟨m', hafter, hmem, hrun⟩
    exact ⟨m', hafter, hmem, fun _ => hrun, nofun⟩
  | pipe fdarray =>
    refine (sysPipe_total h hp fdarray).mono ?_
    rintro reply s' ⟨m', hafter, hmem, hrun⟩
    exact ⟨m', hafter, hmem, fun _ => hrun, nofun⟩
  | close fd =>
    exact total_ofBool nofun ((sysClose_total h hp fd).mono fun _ _ hres => ⟨m, hres⟩)
  | dup fd =>
    exact total_ofBool nofun ((sysDup_total h hp fd).mono fun _ _ hres => ⟨m, hres⟩)
  | «open» type =>
    exact total_ofBool nofun ((sysOpen_total h hp type).mono fun _ _ hres => ⟨m, hres⟩)
  | copyout va data =>
    refine Total.bind (Total.get (total_ofBool nofun ((copyout_total h hp va data).mono ?_)))
    rintro ok s' ⟨-, m', hafter, hmem, hrun, -⟩
    exact ⟨m', hafter, hmem, hrun⟩

/-- When `kalloc` will find no page does not matter between calls. -/
theorem Inv.budget (h : Inv ld K m s) (b : Nat) :
    Inv ld K m { s with phys := { s.phys with budget := b } } := by
  obtain ⟨g, hacc⟩ := h.accounts
  exact ⟨⟨g, hacc.budget b⟩, h.files.congr rfl rfl fun _ => rfl, h.memory, h.closed⟩

/-! ## The system -/

/-- What an action can do. -/
inductive Outcome (ld : Linker) (K : Nat → Prop) (m : Pid → Pages) (a : Action) (s : Sys) :
    Prop where
  /-- the first process calls `exit` -/
  | panic (status : Int) (hproc : a.proc = initproc) (hcall : a.call = .exit status)
      (hrun : step ld a s = .error "init exiting")
  /-- the process cannot run -/
  | idle (hstate : (s.proc a.proc).state ≠ .runnable) (hrun : step ld a s = .ok (.sleeping, s))
  | call (reply : Reply) (m' : Pid → Pages) (s' : Sys) (hstate : (s.proc a.proc).state = .runnable)
      (hrun : step ld a s = .ok (reply, s')) (hcalled : Called ld K a.proc a.call reply m m' s s')

theorem outcome (h : Inv ld K m s) (a : Action) : Outcome ld K m a s := by
  by_cases hp : (s.proc a.proc).state = .runnable
  · have hstep : step ld a s =
        (a.call.run ld a.proc).run { s with phys := { s.phys with budget := a.budget } } :=
          if_pos hp
    by_cases hinit : a.proc = initproc ∧ ∃ status, a.call = .exit status
    · obtain ⟨hproc, status, hcall⟩ := hinit
      refine .panic status hproc hcall ?_
      rw [hstep, hcall, hproc]
      rfl
    · obtain ⟨reply, s', hrun, m', hcalled⟩ := Syscall.run_total (h.budget a.budget) hp a.call
        fun status hcall hproc => hinit ⟨hproc, status, hcall⟩
      exact .call reply m' s' hp (hstep.trans hrun)
        ⟨⟨hcalled.after.inv, hcalled.after.others⟩, hcalled.effect, hcalled.running, hcalled.child⟩
  · exact .idle hp (if_neg hp)

/-- One action keeps the invariant. -/
theorem step_inv {a : Action} {reply : Reply} (h : Inv ld K m s)
    (hstep : step ld a s = .ok (reply, s')) : ∃ m', Inv ld K m' s' := by
  cases outcome h a with
  | panic status _ _ hrun => cases hrun.symm.trans hstep
  | idle _ hrun =>
    cases hrun.symm.trans hstep
    exact ⟨m, h⟩
  | call reply m' s'' _ hrun hcalled =>
    cases hrun.symm.trans hstep
    exact ⟨m', hcalled.after.inv⟩

/-- Nothing panics but the exit of the first process. -/
theorem step_error {a : Action} {e : String} (h : Inv ld K m s) (hstep : step ld a s = .error e) :
    e = "init exiting" := by
  cases outcome h a with
  | panic status _ _ hrun => exact Except.error.inj (hstep.symm.trans hrun)
  | idle _ hrun => cases hrun.symm.trans hstep
  | call reply m' s'' _ hrun _ => cases hrun.symm.trans hstep

/-- The states after `userinit`. -/
inductive Reachable (ld : Linker) (K : Nat → Prop) : Sys → Prop where
  | boot {s₀ s : Sys} (hboot : Booted ld K s₀) (hinit : (userinit ld).run s₀ = .ok ((), s)) :
      Reachable ld K s
  | step {s s' : Sys} {a : Action} {reply : Reply} (hs : Reachable ld K s)
      (hstep : step ld a s = .ok (reply, s')) : Reachable ld K s'

theorem Reachable.inv (h : Reachable ld K s) : ∃ m, Inv ld K m s := by
  induction h with
  | boot hboot hinit =>
    obtain ⟨m, hinv, -⟩ := ((userinit_total hboot).elim hinit).1
    exact ⟨m, hinv⟩
  | step _ hstep ih =>
    obtain ⟨m, hinv⟩ := ih
    exact step_inv hinv hstep

theorem run_cons {a : Action} {as : List Action} {replies : List Reply}
    (h : run ld (a :: as) s = .ok (replies, s')) :
    ∃ reply s₁ rest, step ld a s = .ok (reply, s₁) ∧ run ld as s₁ = .ok (rest, s') ∧
      replies = reply :: rest := by
  rw [run] at h
  cases hstep : step ld a s with
  | error e =>
    rw [hstep] at h
    cases h
  | ok x =>
    rw [hstep] at h
    cases hrun : run ld as x.2 with
    | error e =>
      replace h : ((run ld as x.2) >>= fun y => Except.ok (x.1 :: y.1, y.2)) =
        .ok (replies, s') := h
      rw [hrun] at h
      cases h
    | ok y =>
      replace h : ((run ld as x.2) >>= fun y => Except.ok (x.1 :: y.1, y.2)) =
        .ok (replies, s') := h
      rw [hrun] at h
      cases h
      exact ⟨x.1, x.2, y.1, rfl, hrun, rfl⟩

/-- A run keeps to the states that can be reached. -/
theorem Reachable.run (as : List Action) : ∀ {s s' : Sys} {replies : List Reply},
    Reachable ld K s → Vm.run ld as s = .ok (replies, s') → Reachable ld K s' := by
  induction as with
  | nil =>
    intro s s' replies h hrun
    cases hrun
    exact h
  | cons a as ih =>
    intro s s' replies h hrun
    obtain ⟨reply, s₁, rest, hstep, hrest, -⟩ := run_cons hrun
    exact ih (.step h hstep) hrest

/-- The small kernel starts its first process. -/
theorem bootState_reachable (fill : UInt8) :
    ∃ s, (userinit bootKernel).run (bootState fill) = .ok ((), s) ∧
      Reachable bootKernel bootKernelPages s ∧ (s.proc initproc).state = .runnable := by
  obtain ⟨_, s, hrun, -, hstate, -⟩ := userinit_total (bootState_booted fill)
  exact ⟨s, hrun, .boot (bootState_booted fill) hrun, hstate⟩

/-- It makes these calls after `userinit`. -/
def bootRun (fill : UInt8) (as : List Action) : Except String (List Reply × Sys) := do
  let (_, s) ← (userinit bootKernel).run (bootState fill)
  run bootKernel as s

theorem bootRun_eq {fill : UInt8} {s : Sys} (as : List Action)
    (hinit : (userinit bootKernel).run (bootState fill) = .ok ((), s)) :
    bootRun fill as = run bootKernel as s := by
  rw [bootRun, hinit]
  rfl

/-- What a run ends with, from its evaluation. -/
theorem ok_of_check {ε α : Type} {P : α → Prop} [DecidablePred P] {x : Except ε α}
    (h : x.toOption.any (fun y => P y) = true) : ∃ y, x = .ok y ∧ P y := by
  cases x with
  | error e => cases h
  | ok y => exact ⟨y, rfl, of_decide_eq_true h⟩

/-- The first process forks and the child grows; then it cannot grow itself, as there is no
page for it. -/
def forkAndGrow : List Action := [⟨0, .fork, 20⟩, ⟨1, .sbrk 5000, 20⟩, ⟨0, .sbrk 4096, 0⟩]

theorem forkAndGrow_reachable : ∃ s, Reachable bootKernel bootKernelPages s ∧
    bootRun 5 forkAndGrow = .ok ([.done, .done, .failed], s) ∧
    (s.proc 0).state = .runnable ∧ (s.proc 1).state = .runnable := by
  obtain ⟨s₀, hinit, hs₀, -⟩ := bootState_reachable 5
  have hcheck : (bootRun 5 forkAndGrow).toOption.any (fun x => x.1 = [.done, .done, .failed] ∧
      (x.2.proc 0).state = .runnable ∧ (x.2.proc 1).state = .runnable) = true := by
    decide +kernel
  obtain ⟨⟨replies, s⟩, hrun, rfl, hstates⟩ := ok_of_check hcheck
  exact ⟨s, hs₀.run _ ((bootRun_eq _ hinit).symm.trans hrun), hrun, hstates⟩

/-! ## Address spaces -/

/-- The page table of a process. -/
def Proc.root (x : Proc) : Nat := x.pagetable / PGSIZE

/-- The pages of its user memory. -/
def Proc.npages (x : Proc) : Nat := PGROUNDUP x.sz / PGSIZE

variable {pages : Pages} {phys : Phys}

theorem HasSpace.root_eq {x : Proc} {r tf : Nat} (h : HasSpace ld g phys p x pages r tf) :
    x.root = r := by
  rw [Proc.root, h.pagetable]
  exact Nat.mul_div_cancel r (by decide)

theorem HasSpace.npages_eq {x : Proc} {r tf : Nat} (h : HasSpace ld g phys p x pages r tf)
    (hpool : Pool ld g phys) : x.npages = pages.length := by
  have hsmall := h.space.size_lt hpool h.size
  rw [← h.size, Proc.npages, PGROUNDUP, np]
  rw [Nat.mod_eq_of_lt (by rw [show PGSIZE = 4096 from rfl]; omega)]
  exact Nat.mul_div_cancel _ (by decide)

/-- The address space of a live process. -/
theorem Inv.space (h : Inv ld K m s) (hacc : Accounts ld K g m s)
    (hp : (s.proc p).state ≠ .unused) :
    ∃ tf, HasSpace ld g s.phys p (s.proc p) (m p) (s.proc p).root tf := by
  obtain ⟨r, tf, hspace⟩ := hacc.hasSpace fun hzero => hp ((h.memory p).mpr hzero)
  refine ⟨tf, ?_⟩
  rw [hspace.root_eq]
  exact hspace

/-- An entry that is a leaf. -/
def IsLeaf (pte : Nat) : Prop := pte &&& (PTE_R ||| PTE_W ||| PTE_X) ≠ 0

theorem UPage.isLeaf (u : UPage) (n : Nat) : IsLeaf (u.entry n) := by
  rw [IsLeaf, entry, and_flags u.flags_lt (by decide), u.flags_eq]
  split <;> decide

theorem isLeaf_flags (pte : Nat) : IsLeaf (PTE_FLAGS pte) ↔ IsLeaf pte := by
  have hmod : pte % 2 ^ 10 < 2 ^ 10 := Nat.mod_lt _ (by decide)
  have hsplit : pte = pte / 2 ^ 10 * 2 ^ 10 + pte % 2 ^ 10 := (Nat.div_add_mod' pte _).symm
  conv_rhs => rw [hsplit, IsLeaf, and_flags hmod (by decide)]
  rw [PTE_FLAGS_eq, IsLeaf]

/-- What is above user memory is there and is leaves without `PTE_U`. -/
theorem procTop_shape (ld : Linker) (tf i : Nat) :
    ((procTop ld tf i).isSome ↔ i = TOPV ∨ i = TOPV + 1) ∧
      ∀ pte, procTop ld tf i = some pte → IsLeaf pte ∧ pte &&& PTE_U = 0 := by
  refine ⟨?_, fun pte hpte => ⟨?_, (procTop_leaf hpte).2.1⟩⟩
  · rw [procTop]
    split
    · exact iff_of_true rfl (by omega)
    · split
      · exact iff_of_true rfl (by omega)
      · exact iff_of_false (by simp) (by omega)
  · rw [← isLeaf_flags]
    rw [procTop] at hpte
    split at hpte
    · rw [← Option.some.inj hpte, (leafEntry_flags _ (by decide)).1, IsLeaf]
      decide
    · split at hpte
      · rw [← Option.some.inj hpte, (leafEntry_flags _ (by decide)).1, IsLeaf]
        decide
      · cases hpte

/-- The page table of `x` maps the pages of user memory, the trapframe and the trampoline, and
no others; all of them are leaves at the last level. -/
structure Shaped (mem : Nat → Page) (x : Proc) : Prop where
  mapped : ∀ i, (mapping mem x.root i).isSome ↔
    i < x.npages ∨ i = TRAPFRAME / PGSIZE ∨ i = TRAMPOLINE / PGSIZE
  leaf : ∀ i pte, mapping mem x.root i = some pte → IsLeaf pte
  inner : ∀ path n j, path.length < 2 → node mem path x.root = some n →
    word mem n j &&& PTE_V ≠ 0 → ¬ IsLeaf (word mem n j)
  kernelOnly : ∀ i pte, mapping mem x.root i = some pte →
    i = TRAPFRAME / PGSIZE ∨ i = TRAMPOLINE / PGSIZE → pte &&& PTE_U = 0

theorem HasSpace.shaped {x : Proc} {tf : Nat} (h : HasSpace ld g phys p x pages x.root tf)
    (hpool : Pool ld g phys) : Shaped phys.mem x := by
  have htop : TRAMPOLINE / PGSIZE = TRAPFRAME / PGSIZE + 1 := by decide
  have hlen : pages.length < TRAPFRAME / PGSIZE := h.space.length_lt_TOPV hpool
  have hshape := fun i => procTop_shape ld tf i
  refine ⟨fun i => ?_, fun i pte hpte => ?_, fun path n j hpath hn hvalid => ?_,
    fun i pte hpte hi => ?_⟩
  · rw [h.npages_eq hpool, htop]
    by_cases hi : i < pages.length
    · obtain ⟨n, hmap, -⟩ := h.space.user i _ (List.getElem?_eq_getElem hi)
      rw [hmap]
      exact iff_of_true rfl (Or.inl hi)
    · rw [h.space.rest i (by omega), (hshape i).1, or_iff_right hi]
      rfl
  · by_cases hi : i < pages.length
    · obtain ⟨n, hmap, -⟩ := h.space.user i _ (List.getElem?_eq_getElem hi)
      obtain rfl := Option.some.inj (hmap.symm.trans hpte)
      exact UPage.isLeaf _ n
    · rw [h.space.rest i (by omega)] at hpte
      exact ((hshape i).2 pte hpte).1
  · exact not_not.mpr (h.space.inner n path j
      (hpool.tables.role_of h.space.root (by omega) hn) hpath hvalid)
  · rw [h.space.rest i (by omega)] at hpte
    exact ((hshape i).2 pte hpte).2

/-- The address space of every live process has this shape in every state that can be
reached, and no call panics there, but for the exit of the first process. -/
theorem addressSpace_shape (h : Reachable ld K s) :
    (∀ p, (s.proc p).state ≠ .unused → Shaped s.phys.mem (s.proc p)) ∧
      ∀ a e, step ld a s = .error e → e = "init exiting" := by
  obtain ⟨m, hinv⟩ := h.inv
  obtain ⟨g, hacc⟩ := hinv.accounts
  refine ⟨fun p hp => ?_, fun a e => step_error hinv⟩
  obtain ⟨tf, hspace⟩ := hinv.space hacc hp
  exact hspace.shaped hacc.pool

theorem addressSpace_shape_small : ∃ s, bootRun 5 forkAndGrow = .ok ([.done, .done, .failed], s) ∧
    Shaped s.phys.mem (s.proc 0) ∧ Shaped s.phys.mem (s.proc 1) := by
  obtain ⟨s, hs, hrun, hparent, hchild⟩ := forkAndGrow_reachable
  have hshape := (addressSpace_shape hs).1
  exact ⟨s, hrun, hshape 0 (by rw [hparent]; simp), hshape 1 (by rw [hchild]; simp)⟩

/-! ## Who has which page -/

inductive Holder where
  | free
  /-- a page-table page of a process, by its path -/
  | table (p : Pid) (path : List Nat)
  /-- a page of its user memory -/
  | user (p : Pid) (i : Nat)
  | trapframe (p : Pid)
  | pipe
  | kernel

/-- The page `n` is held so; `K` are the pages the kernel took when it booted. -/
def Holds (K : Nat → Prop) (s : Sys) : Holder → Nat → Prop
  | .free, n => n ∈ s.phys.free
  | .table p path, n => (s.proc p).state ≠ .unused ∧ path.length ≤ 2 ∧
      node s.phys.mem path (s.proc p).root = some n
  | .user p i, n => (s.proc p).state ≠ .unused ∧ i < (s.proc p).npages ∧
      ∃ pte, mapping s.phys.mem (s.proc p).root i = some pte ∧ PTE2PA pte = n * PGSIZE
  | .trapframe p, n => (s.proc p).state ≠ .unused ∧ (s.proc p).trapframe = n * PGSIZE
  | .pipe, n => ∃ f, 0 < (s.file f).ref ∧ (s.file f).type = .pipe ∧ (s.file f).pipe = n
  | .kernel, n => K n

/-- The role that goes with it. -/
def Holder.role (s : Sys) : Holder → Role
  | .free => .free
  | .table p path => .node (s.proc p).root path
  | .user p i => .user (s.proc p).root i
  | .trapframe p => .trapframe p
  | .pipe => .pipe
  | .kernel => .kernel

/-- Only live processes have pages. -/
def Holder.Live (s : Sys) : Holder → Prop
  | .table p _ | .user p _ | .trapframe p => (s.proc p).state ≠ .unused
  | .free | .pipe | .kernel => True

section

variable (h : Inv ld K m s) (hacc : Accounts ld K g m s)

include h hacc

theorem Inv.pipe_iff (n : Nat) : Holds K s .pipe n ↔ g n = .pipe := by
  rw [hacc.pipe n, Pipe.live_iff]
  constructor
  · rintro ⟨f, href, htype, hpage⟩
    exact ⟨(s.file f).writable, (h.files.ends n _).mpr ⟨f, href, htype, hpage, rfl⟩⟩
  · rintro ⟨w, hopen⟩
    obtain ⟨f, hend⟩ := (h.files.ends n w).mp hopen
    exact ⟨f, hend.ref, hend.type, hend.pipe⟩

/-- What is held is told by the role. -/
theorem Inv.holds_iff (o : Holder) (n : Nat) : Holds K s o n ↔ o.Live s ∧ g n = o.role s := by
  cases o with
  | free => exact (hacc.pool.tables.free n).trans (and_iff_right trivial).symm
  | table p path =>
    refine and_congr_right fun hp => ?_
    obtain ⟨tf, hspace⟩ := h.space hacc hp
    rw [Holder.role, hacc.pool.tables.node]
    exact and_congr_right fun _ => (and_iff_right hspace.space.root).symm
  | user p i =>
    refine and_congr_right fun hp => ?_
    obtain ⟨tf, hspace⟩ := h.space hacc hp
    rw [hspace.npages_eq hacc.pool]
    have hsmall : ∀ {n}, g n = .user (s.proc p).root i → n < 2 ^ 52 := fun hn =>
      (hacc.pool.managed hn (by simp)).small
    constructor
    · rintro ⟨hi, pte, hpte, hpage⟩
      obtain ⟨n', hmap, hrole, -⟩ := hspace.space.user i _ (List.getElem?_eq_getElem hi)
      obtain rfl := Option.some.inj (hmap.symm.trans hpte)
      rw [UPage.entry_page _ (hsmall hrole)] at hpage
      rw [← page_inj hpage]
      exact hrole
    · intro hrole
      obtain ⟨u, hu, hmap⟩ := hspace.space.only n i hrole
      exact ⟨(List.getElem?_eq_some_iff.mp hu).1, _, hmap, u.entry_page (hsmall hrole)⟩
  | trapframe p =>
    refine and_congr_right fun hp => ?_
    obtain ⟨tf, hspace⟩ := h.space hacc hp
    constructor
    · intro htf
      rw [← page_inj (hspace.trapframe.symm.trans htf)]
      exact hspace.role
    · exact hacc.frame n p
  | pipe => exact (h.pipe_iff hacc n).trans (and_iff_right trivial).symm
  | kernel => exact (hacc.kernel n).symm.trans (and_iff_right trivial).symm

/-- Two holders that live have different roles. -/
theorem Inv.role_inj {o o' : Holder}
    (ho : o.Live s) (ho' : o'.Live s) (hrole : o.role s = o'.role s) : o = o' := by
  have hroot : ∀ {p q}, (s.proc p).state ≠ .unused → (s.proc q).state ≠ .unused →
      (s.proc p).root = (s.proc q).root → p = q := by
    intro p q hp hq heq
    obtain ⟨tf, hspace⟩ := h.space hacc hp
    obtain ⟨tf', hspace'⟩ := h.space hacc hq
    refine hacc.inj p q ?_ (hspace.ne_zero hacc.pool)
    rw [hspace.pagetable, hspace'.pagetable, heq]
  cases o <;> cases o' <;> first | rfl | (cases hrole <;> rfl) | skip
  case table.table p path q path' =>
    obtain ⟨hr, rfl⟩ := Role.node.inj hrole
    rw [hroot ho ho' hr]
  case user.user p i q j =>
    obtain ⟨hr, rfl⟩ := Role.user.inj hrole
    rw [hroot ho ho' hr]

/-- A page that is managed has a role of a holder. -/
theorem Inv.holder {n : Nat} (hn : ld.Managed n) : ∃ o : Holder, o.Live s ∧ g n = o.role s := by
  have hlive : ∀ {p r}, r ≠ 0 → (s.proc p).pagetable = r * PGSIZE →
      (s.proc p).state ≠ .unused ∧ (s.proc p).root = r := by
    intro p r hr hp
    refine ⟨fun hunused => ?_, ?_⟩
    · exact Nat.mul_ne_zero hr (by decide) (hp.symm.trans (h.unused p hunused))
    · rw [Proc.root, hp]
      exact Nat.mul_div_cancel r (by decide)
  have htable : ∀ {n r path}, g n = .node r path → ∃ p, (s.proc p).state ≠ .unused ∧
      (s.proc p).root = r := by
    intro n r path hnode
    obtain ⟨p, hp⟩ := hacc.table n r path hnode
    have hroot := hacc.pool.tables.root_of hnode
    exact ⟨p, hlive (Managed.ne_zero (hacc.pool.managed hroot (by simp))) hp⟩
  cases hrole : g n with
  | free => exact ⟨.free, trivial, rfl⟩
  | node r path =>
    obtain ⟨p, hp, rfl⟩ := htable hrole
    exact ⟨.table p path, hp, rfl⟩
  | user r i =>
    obtain ⟨p, hp, rfl⟩ := htable (hacc.pool.owner n r i hrole)
    exact ⟨.user p i, hp, rfl⟩
  | arg => exact absurd hrole (hacc.arg n)
  | trapframe p =>
    refine ⟨.trapframe p, fun hunused => ?_, rfl⟩
    exact hacc.no_trapframe (hacc.bare (h.unused p hunused)).1.trapframe n hrole
  | pipe => exact ⟨.pipe, trivial, rfl⟩
  | kernel => exact ⟨.kernel, trivial, rfl⟩
  | outside => exact absurd hn ((hacc.pool.range n).mp hrole)

end

/-- In every state that can be reached, the free list, the pages of all page tables, the user
pages, the trapframes, the pages of pipes and those of the kernel partition the pages there
are; so nothing is freed twice, used when it is free, or lost. -/
theorem pages_partitioned (h : Reachable ld K s) :
    s.phys.free.Nodup ∧ (∀ n, ld.Managed n → ∃! o, Holds K s o n) ∧
      (∀ o n, Holds K s o n → ld.Managed n) ∧
      ∀ a e, step ld a s = .error e → e = "init exiting" := by
  obtain ⟨m, hinv⟩ := h.inv
  obtain ⟨g, hacc⟩ := hinv.accounts
  have hiff := hinv.holds_iff hacc
  refine ⟨hacc.pool.tables.nodup, fun n hn => ?_, fun o n ho => ?_, fun a e => step_error hinv⟩
  · obtain ⟨o, ho⟩ := hinv.holder hacc hn
    refine ⟨o, (hiff o n).mpr ho, fun o' ho' => ?_⟩
    obtain ⟨hlive, hrole⟩ := (hiff o' n).mp ho'
    exact hinv.role_inj hacc hlive ho.1 (hrole.symm.trans ho.2)
  · refine hacc.pool.managed ((hiff o n).mp ho).2 ?_
    cases o <;> simp [Holder.role]

theorem pages_partitioned_small : ∃ s, bootRun 5 forkAndGrow = .ok ([.done, .done, .failed], s) ∧
    s.phys.free.Nodup ∧ ∀ n, bootKernel.Managed n → ∃! o, Holds bootKernelPages s o n := by
  obtain ⟨s, hs, hrun, -⟩ := forkAndGrow_reachable
  obtain ⟨hnodup, hone, -⟩ := pages_partitioned hs
  exact ⟨s, hrun, hnodup, hone⟩

end Xv6.Vm
