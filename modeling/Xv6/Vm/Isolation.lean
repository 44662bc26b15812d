/-
  Vm/Isolation.lean --- the memory of a process depends on what it does, and on nothing else.

  What a call does to the memory of its caller is a function of that memory, of the call and
  of its reply (`Syscall.effect`), and no other call changes it.  So the memory at the end of
  a run is a fold over the process's own calls, whatever else happened in the run: two runs
  with the same own calls and replies end with the same memory.
-/
import Xv6.Vm.Reachable

set_option autoImplicit false

namespace Xv6.Vm

open List Foundation
open Procs (ProcState initproc)

variable {ld : Linker} {K : Nat → Prop} {g : Nat → Role} {m m' : Pid → Pages} {s s' : Sys} {p : Pid}

/-! ## Memory as the page table has it -/

/-- Page `i` of the memory of a process. -/
def userPage (s : Sys) (p : Pid) (i : Nat) : Option UPage :=
  if i < (s.proc p).npages then
    (mapping s.phys.mem (s.proc p).root i).map fun pte =>
      ⟨s.phys.mem (PTE2PA pte / PGSIZE), pte &&& PTE_U ≠ 0⟩
  else none

/-- The memory of a process: its size, and all bytes that are mapped. -/
def userMemory (s : Sys) (p : Pid) : Nat × (Nat → Option UPage) := ((s.proc p).sz, userPage s p)

theorem Inv.userPage_eq (h : Inv ld K m s) (hp : (s.proc p).state ≠ .unused) (i : Nat) :
    userPage s p i = (m p)[i]? := by
  obtain ⟨g, hacc⟩ := h.accounts
  obtain ⟨tf, hspace⟩ := h.space hacc hp
  rw [userPage, hspace.npages_eq hacc.pool]
  by_cases hi : i < (m p).length
  · obtain ⟨n, hmap, hrole, hdata⟩ := hspace.space.user i _ (getElem?_eq_getElem hi)
    have hsmall := (hacc.pool.managed hrole (by simp)).small
    rw [if_pos hi, hmap, getElem?_eq_getElem hi, Option.map_some, UPage.entry_page _ hsmall,
      Nat.mul_div_cancel n (by decide), hdata]
    have huser : decide ((m p)[i].entry n &&& PTE_U ≠ 0) = (m p)[i].user := by
      cases hu : (m p)[i].user with
      | false => exact decide_eq_false (not_not.mpr ((UPage.entry_user _ n).mpr hu))
      | true =>
        refine decide_eq_true fun hzero => ?_
        cases hu.symm.trans ((UPage.entry_user _ n).mp hzero)
    rw [huser]
  · rw [if_neg hi, getElem?_eq_none (by omega)]

/-- It is the list of pages that the invariant is about. -/
theorem Inv.userMemory_eq_iff {K' : Nat → Prop} {q : Pid} (h : Inv ld K m s) (h' : Inv ld K' m' s')
    (hp : (s.proc p).state ≠ .unused) (hq : (s'.proc q).state ≠ .unused) :
    userMemory s p = userMemory s' q ↔ umem m s p = umem m' s' q := by
  have hpages : userPage s p = userPage s' q ↔ m p = m' q := by
    rw [funext_iff, List.ext_getElem?_iff]
    refine forall_congr' fun i => ?_
    rw [h.userPage_eq hp, h'.userPage_eq hq]
  rw [userMemory, userMemory, Prod.mk.injEq, hpages, umem, umem, UMem.mk.injEq, and_comm]

/-! ## Runs -/

/-- The calls of a process in a run, with what they returned. -/
def own (b : Pid) : List Action → List Reply → List (Syscall × Reply)
  | a :: as, reply :: replies =>
      if a.proc = b then (a.call, reply) :: own b as replies else own b as replies
  | _, _ => []

/-- What they do to its memory. -/
def effects (calls : List (Syscall × Reply)) (u : UMem) : UMem :=
  calls.foldl (fun u x => x.1.effect x.2 u) u

variable {b : Pid} {reply : Reply}

/-- One action, seen from a process that runs. -/
theorem step_memory {a : Action} (h : Inv ld K m s) (hb : (s.proc b).state = .runnable)
    (hstep : step ld a s = .ok (reply, s')) (hexit : a.proc = b → ∀ status, a.call ≠ .exit status) :
    ∃ m', Inv ld K m' s' ∧ (s'.proc b).state = .runnable ∧
      umem m' s' b = if a.proc = b then a.call.effect reply (umem m s b) else umem m s b := by
  cases outcome h a with
  | panic status _ _ hrun => cases hrun.symm.trans hstep
  | idle hstate hrun =>
    cases hrun.symm.trans hstep
    have hne : a.proc ≠ b := by
      rintro rfl
      exact hstate hb
    exact ⟨m, h, hb, (if_neg hne).symm⟩
  | call reply' m' s'' _ hrun hcalled =>
    cases hrun.symm.trans hstep
    by_cases hab : a.proc = b
    · subst hab
      exact ⟨m', hcalled.after.inv, hcalled.running (hexit rfl),
        hcalled.effect.trans (if_pos rfl).symm⟩
    · obtain ⟨hmem, hrunning⟩ := hcalled.after.others b (Ne.symm hab) hb
      exact ⟨m', hcalled.after.inv, hrunning, hmem.trans (if_neg hab).symm⟩

/-- A run, seen from a process that does not exit in it. -/
theorem run_memory (as : List Action) : ∀ (s : Sys) (m : Pid → Pages) (replies : List Reply),
    Inv ld K m s → (s.proc b).state = .runnable → run ld as s = .ok (replies, s') →
    (∀ x ∈ own b as replies, ∀ status, x.1 ≠ .exit status) →
    ∃ m', Inv ld K m' s' ∧ (s'.proc b).state = .runnable ∧
      umem m' s' b = effects (own b as replies) (umem m s b) := by
  induction as with
  | nil =>
    intro s m replies h hb hrun _
    cases hrun
    exact ⟨m, h, hb, rfl⟩
  | cons a as ih =>
    intro s m replies h hb hrun hexit
    obtain ⟨reply, s₁, rest, hstep, hrest, rfl⟩ := run_cons hrun
    rw [own] at hexit ⊢
    by_cases hab : a.proc = b
    · rw [if_pos hab] at hexit ⊢
      obtain ⟨m₁, h₁, hb₁, hmem₁⟩ := step_memory h hb hstep fun _ => hexit _ mem_cons_self
      obtain ⟨m', h', hb', hmem'⟩ := ih s₁ m₁ rest h₁ hb₁ hrest fun x hx =>
        hexit x (mem_cons_of_mem _ hx)
      rw [if_pos hab] at hmem₁
      exact ⟨m', h', hb', by rw [hmem', hmem₁]; rfl⟩
    · rw [if_neg hab] at hexit ⊢
      obtain ⟨m₁, h₁, hb₁, hmem₁⟩ := step_memory h hb hstep fun heq => absurd heq hab
      obtain ⟨m', h', hb', hmem'⟩ := ih s₁ m₁ rest h₁ hb₁ hrest hexit
      rw [if_neg hab] at hmem₁
      exact ⟨m', h', hb', by rw [hmem', hmem₁]⟩

/-! ## Isolation -/

theorem running_live (hb : (s.proc b).state = .runnable) : (s.proc b).state ≠ .unused := by
  rw [hb]
  simp

/-- What another process does leaves the memory of `b` alone. -/
theorem other_memory {a : Action} (h : Inv ld K m s) (hb : (s.proc b).state = .runnable)
    (hab : a.proc ≠ b) (hstep : step ld a s = .ok (reply, s')) :
    userMemory s' b = userMemory s b := by
  obtain ⟨m', h', hb', hmem⟩ := step_memory h hb hstep fun heq => absurd heq hab
  rw [if_neg hab] at hmem
  exact (h'.userMemory_eq_iff h (running_live hb') (running_live hb)).mpr hmem

/-- The pages that `sbrk` adds are zero. -/
theorem sbrk_zero {n : Int32} {budget : Nat} (h : Inv ld K m s) (hb : (s.proc b).state = .runnable)
    (hstep : step ld ⟨b, .sbrk n, budget⟩ s = .ok (.done, s')) {i : Nat}
    (hold : userPage s b i = none) {u : UPage} (hnew : userPage s' b i = some u) :
    u = zeroPage := by
  obtain ⟨m', h', hb', hmem⟩ := step_memory h hb hstep fun _ => nofun
  rw [h.userPage_eq (running_live hb)] at hold
  rw [h'.userPage_eq (running_live hb')] at hnew
  have hpages : m' b = ((umem m s b).sbrk n).pages := congrArg UMem.pages (hmem.trans (if_pos rfl))
  have hlen := getElem?_eq_none_iff.mp hold
  rw [hpages, UMem.sbrk] at hnew
  dsimp only [umem] at hnew
  split at hnew
  · rw [Pages.grow, getElem?_append_right hlen] at hnew
    exact eq_of_mem_replicate (mem_of_getElem? hnew)
  · split at hnew
    · rw [getElem?_eq_none (by rw [length_take]; omega)] at hnew
      cases hnew
    · rw [hold] at hnew
      cases hnew

/-- A child starts with the memory of its parent. -/
theorem fork_memory {b q : Pid} {budget : Nat} (h : Inv ld K m s)
    (hb : (s.proc b).state = .runnable) (hstep : step ld ⟨b, .fork, budget⟩ s = .ok (reply, s'))
    (hq : (s.proc q).state = .unused) (hq' : (s'.proc q).state ≠ .unused) :
    userMemory s' q = userMemory s b := by
  cases outcome h ⟨b, .fork, budget⟩ with
  | panic status _ hcall _ => cases hcall
  | idle hstate _ => exact absurd hb hstate
  | call reply' m' s'' _ hrun hcalled =>
    cases hrun.symm.trans hstep
    exact (hcalled.after.inv.userMemory_eq_iff h hq' (running_live hb)).mpr
      (hcalled.child rfl q hq hq')

/-- Two runs, from states in which `b` has the same memory and with the same calls of `b` and
the same replies, end with the same memory of `b`.  What the other processes do, what is in
their memory and what is in free pages does not matter: no call of another process changes
the memory of `b`, and what `sbrk` and `fork` map shows nothing of what was in the pages. -/
theorem memory_isolation {K₁ K₂ : Nat → Prop} {b : Pid} {s₁ s₂ s₁' s₂' : Sys}
    {as₁ as₂ : List Action} {replies₁ replies₂ : List Reply}
    (h₁ : Reachable ld K₁ s₁) (h₂ : Reachable ld K₂ s₂)
    (hb₁ : (s₁.proc b).state = .runnable) (hb₂ : (s₂.proc b).state = .runnable)
    (hsame : userMemory s₁ b = userMemory s₂ b)
    (hrun₁ : run ld as₁ s₁ = .ok (replies₁, s₁')) (hrun₂ : run ld as₂ s₂ = .ok (replies₂, s₂'))
    (hown : own b as₁ replies₁ = own b as₂ replies₂)
    (hexit : ∀ x ∈ own b as₁ replies₁, ∀ status, x.1 ≠ .exit status) :
    userMemory s₁' b = userMemory s₂' b ∧
      (∀ a reply s, a.proc ≠ b → step ld a s₁ = .ok (reply, s) →
        userMemory s b = userMemory s₁ b) ∧
      (∀ n budget s i u, step ld ⟨b, .sbrk n, budget⟩ s₁ = .ok (.done, s) →
        userPage s₁ b i = none → userPage s b i = some u → u = zeroPage) ∧
      ∀ q budget reply s, step ld ⟨b, .fork, budget⟩ s₁ = .ok (reply, s) →
        (s₁.proc q).state = .unused → (s.proc q).state ≠ .unused →
        userMemory s q = userMemory s₁ b := by
  obtain ⟨m₁, hinv₁⟩ := h₁.inv
  obtain ⟨m₂, hinv₂⟩ := h₂.inv
  obtain ⟨m₁', hinv₁', hb₁', hmem₁⟩ := run_memory as₁ s₁ m₁ replies₁ hinv₁ hb₁ hrun₁ hexit
  obtain ⟨m₂', hinv₂', hb₂', hmem₂⟩ := run_memory as₂ s₂ m₂ replies₂ hinv₂ hb₂ hrun₂ (hown ▸ hexit)
  rw [hinv₁.userMemory_eq_iff hinv₂ (running_live hb₁) (running_live hb₂)] at hsame
  refine ⟨?_, fun a reply s hab => other_memory hinv₁ hb₁ hab,
    fun n budget s i u hstep hold hnew => sbrk_zero hinv₁ hb₁ hstep hold hnew,
    fun q budget reply s hstep hq hq' => fork_memory hinv₁ hb₁ hstep hq hq'⟩
  rw [hinv₁'.userMemory_eq_iff hinv₂' (running_live hb₁') (running_live hb₂'), hmem₁,
    hmem₂, hsame, hown]

/-- The first process has the same memory after `userinit` in any two kernels. -/
theorem userinit_memory {K' : Nat → Prop} {s₀ s₀' : Sys} (h : Booted ld K s₀)
    (h' : Booted ld K' s₀') (hrun : (userinit ld).run s₀ = .ok ((), s))
    (hrun' : (userinit ld).run s₀' = .ok ((), s')) :
    userMemory s initproc = userMemory s' initproc := by
  obtain ⟨_, t, ht, ⟨m, hinv, hmem⟩, hlive, -⟩ := userinit_total h
  obtain ⟨_, t', ht', ⟨m', hinv', hmem'⟩, hlive', -⟩ := userinit_total h'
  cases hrun.symm.trans ht
  cases hrun'.symm.trans ht'
  rw [hinv.userMemory_eq_iff hinv' (running_live hlive) (running_live hlive'), hmem, hmem']

/-- After the fork the child writes to its memory and grows, before the parent grows. -/
def busyChild : List Action :=
  [⟨0, .fork, 20⟩, ⟨1, .copyout 0 [1, 2, 3], 0⟩, ⟨1, .sbrk 4096, 20⟩, ⟨0, .sbrk 4096, 20⟩]

/-- The child does nothing. -/
def idleChild : List Action := [⟨0, .fork, 20⟩, ⟨0, .sbrk 4096, 20⟩]

/-- In one run the child is busy and free pages hold fives, in the other it is idle and they
hold sevens. -/
theorem memory_isolation_small : ∃ s₁ s₂ : Sys,
    bootRun 5 busyChild = .ok ([.done, .done, .done, .done], s₁) ∧
      bootRun 7 idleChild = .ok ([.done, .done], s₂) ∧
      ((s₁.proc 1).sz = 8192 ∧ (s₂.proc 1).sz = 4096) ∧
      (557050 ∈ s₁.phys.free ∧ getByte (s₁.phys.mem 557050) 0 = 5) ∧
      (557050 ∈ s₂.phys.free ∧ getByte (s₂.phys.mem 557050) 0 = 7) ∧
      userMemory s₁ initproc = userMemory s₂ initproc := by
  obtain ⟨t₁, hinit₁, ht₁, hb₁⟩ := bootState_reachable 5
  obtain ⟨t₂, hinit₂, ht₂, hb₂⟩ := bootState_reachable 7
  have hcheck₁ : (bootRun 5 busyChild).toOption.any (fun x =>
      x.1 = [.done, .done, .done, .done] ∧ (x.2.proc 1).sz = 8192 ∧
        557050 ∈ x.2.phys.free ∧ getByte (x.2.phys.mem 557050) 0 = 5) = true := by decide +kernel
  have hcheck₂ : (bootRun 7 idleChild).toOption.any (fun x =>
      x.1 = [.done, .done] ∧ (x.2.proc 1).sz = 4096 ∧
        557050 ∈ x.2.phys.free ∧ getByte (x.2.phys.mem 557050) 0 = 7) = true := by decide +kernel
  obtain ⟨⟨replies₁, s₁⟩, hrun₁, rfl, hsz₁, hfree₁⟩ := ok_of_check hcheck₁
  obtain ⟨⟨replies₂, s₂⟩, hrun₂, rfl, hsz₂, hfree₂⟩ := ok_of_check hcheck₂
  refine ⟨s₁, s₂, hrun₁, hrun₂, ⟨hsz₁, hsz₂⟩, hfree₁, hfree₂, ?_⟩
  have hsame := userinit_memory (bootState_booted 5) (bootState_booted 7) hinit₁ hinit₂
  rw [bootRun_eq _ hinit₁] at hrun₁
  rw [bootRun_eq _ hinit₂] at hrun₂
  refine (memory_isolation ht₁ ht₂ hb₁ hb₂ hsame hrun₁ hrun₂ rfl fun x hx => ?_).1
  have hown : own initproc busyChild [.done, .done, .done, .done] =
      [(.fork, .done), (.sbrk 4096, .done)] := rfl
  rw [hown, mem_cons, mem_singleton] at hx
  obtain rfl | rfl := hx
  · exact nofun
  · exact nofun

end Xv6.Vm
