/-
  Sched/Routines.lean --- the routines of `proc.c` and `sleeplock.c` keep the invariant.
-/
import Xv6.Sched.Steps

set_option autoImplicit false

namespace Xv6.Sched

open Function List
open Procs (ProcState initproc incrInt)

variable {C L S : Type}
variable {s t : State C L S} {c : C} {p q : Pid} {k : Pc L S} {chan : Key S} {lk : Lk L S}
  {a : Act L S} {i : Nat}

theorem boot_inv : (boot : State C L S).Inv := by
  refine ⟨fun c => rfl, ?_, ?_, ?_, ?_⟩
  · intro c c' p hc
    cases hc
  · intro c p hc
    cases hc
  · intro c p hc
    cases hc
  · intro p _
    by_cases hp : p = initproc
    · refine Or.inr ⟨.forkret, ?_, Or.inl ?_⟩
      · simp [boot, hp]
      · simp [boot, hp, Ret.state]
    · refine Or.inl ⟨?_, ?_⟩
      · simp [boot, hp, Proc.zero]
      · simp [boot, hp]

namespace State.Inv

/-- A process that is not running, and whose lock is held by another one, is on no processor. -/
theorem off_of_held (h : s.Inv) (hc : (s.cpu c).loop = .gone p) (hq : s.plock q = some c)
    (hqp : q ≠ p) (hstate : (s.proc q).state ≠ .running) (c' : C) : (s.cpu c').proc ≠ some q :=
  Sched.Inv.off_of_open h (Sched.Inv.open_of_held h hc hq hqp) hstate c'

theorem ne_of_state (h : s.Inv) (hc : (s.cpu c).loop = .gone p)
    (hstate : (s.proc q).state ≠ (s.pc (.proc p)).state) : q ≠ p := by
  rintro rfl
  exact hstate (Sched.Inv.gone h c q hc).state

variable [DecidableEq C]

theorem pc_of_goto (hqp : q ≠ p) : (s.goto (.proc q) k).pc (.proc p) = s.pc (.proc p) :=
  update_of_ne (fun heq => hqp (Ctx.proc.inj heq).symm) ..

/-- Where an interrupt may come. -/
theorem plain_of_interruptible (hk : k.interruptible = true) :
    k.plocks p = [] ∧ k.state = .running ∧ k.alive := by
  cases k with
  | user | want | acquiresleep | releasesleep | sleepAgain | yield | kill | forkScan | exitInit
  | exitRead | exitLockParent | waitLock => exact ⟨rfl, rfl, trivial⟩
  | _ => cases hk

theorem scheduler (h : s.Inv) (hc : (s.cpu c).loop = .scan i) (hstep : scheduler s c i = some t) :
    t.Inv := by
  rw [Sched.scheduler] at hstep
  split at hstep
  · dsimp only at hstep
    split at hstep
    · rename_i hrunnable
      obtain ⟨s₁, hacquire, rfl⟩ := Option.map_eq_some_iff.mp hstep
      obtain ⟨hfree, rfl⟩ := acquire_eq_some.mp hacquire
      exact Sched.Inv.dispatch h hc hfree hrunnable rfl
    · obtain ⟨s₁, hvisit, rfl⟩ := Option.map_eq_some_iff.mp hstep
      have h₁ := h.visit hvisit fun x => Or.inl rfl
      obtain ⟨-, rfl⟩ := visit_eq_some.mp hvisit
      exact Sched.Inv.scan h₁ hc
  · cases hstep
    exact Sched.Inv.scan h hc

/-! ## One process goes on -/

section

variable {k₀ : Pc L S} (h : s.Inv) (hc : (s.cpu c).loop = .gone p)

include h hc

/-- The lock of a process is taken. -/
theorem acquire (hfree : s.plock q = none) (hpc : s.pc (.proc p) = k₀)
    (hlocks : k.plocks p = k₀.plocks p ++ [q]) (hstate : k₀.state = k.state) (halive : k.alive) :
    ((s.setLock q (some c)).goto (.proc p) k).Inv := by
  subst hpc
  have hexec := Sched.Inv.gone h c p hc
  refine Sched.Inv.goto h hc (others_acquire hfree) ?_ ?_ hstate halive
  · intro q' hq'
    rw [hlocks, mem_append, mem_singleton] at hq'
    change update s.plock q (some c) q' = some c
    by_cases hqq : q' = q
    · rw [hqq, update_self]
    · rw [update_of_ne hqq]
      exact hexec.locks q' (hq'.resolve_right hqq)
  · rw [hlocks]
    refine List.Nodup.append hexec.nodup (nodup_singleton q) ?_
    rw [disjoint_singleton]
    intro hmem
    cases hfree.symm.trans (hexec.locks q hmem)

/-- The lock of a process is released. -/
theorem release (hpc : s.pc (.proc p) = k₀)
    (hlocks : ∀ q', q' ∈ k.plocks p ↔ q' ∈ k₀.plocks p ∧ q' ≠ q) (hnodup : (k.plocks p).Nodup)
    (hmem : q ∈ k₀.plocks p) (hstate : k₀.state = k.state) (halive : k.alive) :
    ((s.setLock q none).goto (.proc p) k).Inv := by
  subst hpc
  have hexec := Sched.Inv.gone h c p hc
  refine Sched.Inv.goto h hc (others_release (hexec.locks q hmem)) ?_ hnodup hstate halive
  intro q' hq'
  obtain ⟨hq', hne⟩ := (hlocks q').mp hq'
  change update s.plock q none q' = some c
  rw [update_of_ne hne]
  exact hexec.locks q' hq'

theorem acquireNext (hstep : (s.acquire c q).map (·.goto (.proc p) k) = some t)
    (hpc : s.pc (.proc p) = k₀) (hlocks : k.plocks p = k₀.plocks p ++ [q])
    (hstate : k₀.state = k.state) (halive : k.alive) : t.Inv := by
  obtain ⟨s₁, hacquire, rfl⟩ := Option.map_eq_some_iff.mp hstep
  obtain ⟨hfree, rfl⟩ := acquire_eq_some.mp hacquire
  exact h.acquire hc hfree hpc hlocks hstate halive

theorem visitNext {f : Proc S → Proc S} (hstep : (s.visit q f).map (·.goto (.proc p) k) = some t)
    (hf : ∀ x, (f x).state = x.state ∨ x.state = .sleeping ∧ (f x).state = .runnable)
    (hpc : s.pc (.proc p) = k₀) (hlocks : k.plocks p = k₀.plocks p) (hstate : k₀.state = k.state)
    (halive : k.alive) : t.Inv := by
  obtain ⟨s₁, hvisit, rfl⟩ := Option.map_eq_some_iff.mp hstep
  have h₁ := h.visit hvisit hf
  obtain ⟨-, rfl⟩ := visit_eq_some.mp hvisit
  exact h₁.next hc hpc hlocks hstate halive

/-! ## Routines -/

theorem sleepState (hpc : s.pc (.proc p) = .sleepState chan lk) : (sleepState s p chan lk).Inv := by
  have hlocks := (Sched.Inv.gone h c p hc).locks
  rw [hpc] at hlocks
  exact Sched.Inv.own h hc others_same hlocks (nodup_singleton p) rfl trivial

theorem sched {r : Ret L S}
    (hpc : s.pc (.proc p) = .sched r) (hstep : sched s c p r = some t) : t.Inv := by
  rw [Sched.sched] at hstep
  split at hstep
  · cases hstep
    exact Sched.Inv.swtch h hc hpc
  · cases hstep

theorem switched {r : Ret L S}
    (hpc : s.pc (.proc p) = .switched r) (hstep : switched s p r = some t) : t.Inv := by
  have hexec := Sched.Inv.gone h c p hc
  have hrunning : (s.proc p).state = .running := by rw [hexec.state, hpc]; rfl
  have hlock : s.plock p = some c := hexec.locks p (by rw [hpc]; exact mem_cons_self)
  cases r with
  | yield | forkret =>
    cases hstep
    refine h.release hc hpc ?_ nodup_nil mem_cons_self rfl trivial
    simp [Pc.plocks]
  | sleep chan lk =>
    cases hstep
    exact Sched.Inv.own h hc (others_release hlock) (by simp [Pc.plocks]) nodup_nil hrunning trivial
  | wait =>
    cases hstep
    refine Sched.Inv.own h hc others_same ?_ (nodup_singleton p) hrunning trivial
    intro q hq
    rw [mem_singleton.mp hq]
    exact hlock
  | exit => cases hstep

theorem yield (hstep : yield s c p = some t) : t.Inv := by
  obtain ⟨s₁, hacquire, rfl⟩ := Option.map_eq_some_iff.mp hstep
  obtain ⟨hfree, rfl⟩ := acquire_eq_some.mp hacquire
  refine Sched.Inv.own h hc (others_acquire hfree) ?_ (nodup_singleton p) rfl trivial
  intro q hq
  rw [mem_singleton.mp hq]
  exact update_self ..

theorem kill {pid : Int} (hpc : s.pc (.proc p) = .kill pid i) (hstep : kill s p pid i = some t) :
    t.Inv := by
  rw [Sched.kill] at hstep
  split at hstep
  · split at hstep
    · refine h.visitNext hc hstep ?_ hpc rfl rfl trivial
      intro x
      dsimp only
      split
      · rename_i hsleep
        exact Or.inr ⟨hsleep, rfl⟩
      · exact Or.inl rfl
    · exact h.visitNext hc hstep (fun x => Or.inl rfl) hpc rfl rfl trivial
  · cases hstep
    exact h.next hc hpc rfl rfl trivial

theorem forkInto (hpc : s.pc (.proc p) = .forkScan i) (hfree : s.plock q = none)
    (hunused : (s.proc q).state = .unused) (hstep : forkInto s p q a = some t) :
    t.Inv := by
  have hopen : Open s.plock s.cpu q := open_of_free hfree
  cases a with
  | nopage =>
    cases hstep
    have h₁ : (s.setProc q { s.proc q with pid := s.nextpid }).Inv :=
      Sched.Inv.change h hopen (Or.inl rfl)
    exact h₁.next hc hpc rfl rfl trivial
  | fail =>
    cases hstep
    have h₁ : (s.setProc q (freeproc (s.proc q))).Inv :=
      Sched.Inv.change h hopen (Or.inl hunused.symm)
    exact h₁.next hc hpc rfl rfl trivial
  | go =>
    cases hstep
    have hoff := Sched.Inv.off_of_open h hopen (by rw [hunused]; simp)
    have hqp : q ≠ p := h.ne_of_state hc (by rw [hunused, hpc]; simp [Pc.state])
    have h₁ := Sched.Inv.other (k := .switched .forkret)
      (y := { s.proc q with pid := s.nextpid, parent := some p, state := .runnable })
      h hoff (Or.inr ⟨.forkret, rfl, Or.inl rfl⟩)
    exact State.Inv.next (s := (s.setProc q _).goto (.proc q) _) h₁ hc ((pc_of_goto hqp).trans hpc)
      rfl rfl trivial
  | _ => cases hstep

theorem forkScan (hpc : s.pc (.proc p) = .forkScan i) (hstep : forkScan s p i a = some t) :
    t.Inv := by
  rw [Sched.forkScan] at hstep
  split at hstep
  · rename_i hi
    split at hstep
    · rename_i hfree
      split at hstep
      · rename_i hunused
        have h₁ : ({ s with nextpid := incrInt s.nextpid } : State C L S).Inv := h
        exact h₁.forkInto hc hpc hfree hunused hstep
      · cases hstep
        exact h.next hc hpc rfl rfl trivial
    · cases hstep
  · cases hstep
    exact h.next hc hpc rfl rfl trivial

/-! ## `exit` and `wait` -/

theorem exitRead (hpc : s.pc (.proc p) = .exitRead) (hstep : exitRead s p = some t) : t.Inv := by
  obtain ⟨s₁, hvisit, hstep⟩ := Option.bind_eq_some_iff.mp hstep
  obtain ⟨op, hop, rfl⟩ := Option.map_eq_some_iff.mp hstep
  have h₁ := h.visit hvisit fun x => Or.inl rfl
  obtain ⟨-, rfl⟩ := visit_eq_some.mp hvisit
  exact h₁.next hc hpc rfl rfl trivial

theorem reparent {op : Pid} (hpc : s.pc (.proc p) = .reparent op i) : (reparent s p op i).Inv := by
  rw [Sched.reparent]
  split
  · split
    · exact h.next hc hpc rfl rfl trivial
    · exact h.next hc hpc rfl rfl trivial
  · exact h.next hc hpc rfl rfl trivial

theorem exitRelease {op : Pid}
    (hpc : s.pc (.proc p) = .exitRelease op) : (exitRelease s p op).Inv := by
  have hnodup := (Sched.Inv.gone h c p hc).nodup
  rw [hpc] at hnodup
  have hop : op ≠ p := by simpa [Pc.plocks] using hnodup
  refine h.release hc hpc ?_ (nodup_singleton p) mem_cons_self rfl trivial
  intro q
  simp only [Pc.plocks, mem_cons, not_mem_nil, or_false]
  constructor
  · rintro rfl
    exact ⟨Or.inr rfl, hop.symm⟩
  · rintro ⟨hq | hq, hne⟩
    · exact absurd hq hne
    · exact hq

theorem waitScan {havekids : Bool} (hpc : s.pc (.proc p) = .waitScan i havekids) :
    (waitScan s p i havekids).Inv := by
  have hlocks := (Sched.Inv.gone h c p hc).locks
  rw [hpc] at hlocks
  rw [Sched.waitScan]
  split
  · split
    · exact h.next hc hpc rfl rfl trivial
    · exact h.next hc hpc rfl rfl trivial
  · split
    · refine h.release hc hpc ?_ nodup_nil mem_cons_self rfl trivial
      simp [Pc.plocks]
    · exact Sched.Inv.own h hc others_same hlocks (nodup_singleton p) rfl trivial

/-- Both locks are released. -/
theorem waitReturn {np : Pid} (hpc : s.pc (.proc p) = .waitFound np) :
    (((s.setLock np none).setLock p none).goto (.proc p) .user).Inv := by
  have hlocks := (Sched.Inv.gone h c p hc).locks
  have hnodup := (Sched.Inv.gone h c p hc).nodup
  rw [hpc] at hlocks hnodup
  have hp : s.plock p = some c := hlocks p (by simp [Pc.plocks])
  have hnp : s.plock np = some c := hlocks np (by simp [Pc.plocks])
  have hne : p ≠ np := by simpa [Pc.plocks] using hnodup
  have hstate : (s.pc (.proc p)).state = .running := by rw [hpc]; rfl
  refine Sched.Inv.goto h hc ?_ (by simp [Pc.plocks]) nodup_nil hstate trivial
  intro q c' hcc hq
  have hp₁ : update s.plock np none p = some c := (update_of_ne hne ..).trans hp
  exact others_release hp₁ q c' hcc (others_release hnp q c' hcc hq)

theorem waitFound {np : Pid} (hpc : s.pc (.proc p) = .waitFound np)
    (hstep : waitFound s p np a = some t) :
    t.Inv := by
  have hlocks := (Sched.Inv.gone h c p hc).locks
  have hnodup := (Sched.Inv.gone h c p hc).nodup
  rw [hpc] at hlocks hnodup
  have hnp : s.plock np = some c := hlocks np (by simp [Pc.plocks])
  have hne : p ≠ np := by simpa [Pc.plocks] using hnodup
  unfold Sched.waitFound at hstep
  by_cases hzombie : (s.proc np).state = .zombie
  · rw [if_pos hzombie] at hstep
    cases a with
    | fail =>
      cases hstep
      exact h.waitReturn hc hpc
    | go =>
      cases hstep
      have hoff := h.off_of_held hc hnp hne.symm (by rw [hzombie]; simp)
      have h₁ := Sched.Inv.other (k := .dead) (y := freeproc (s.proc np)) h hoff (Or.inl ⟨rfl, rfl⟩)
      refine State.Inv.waitReturn (s := (s.setProc np _).goto (.proc np) _) h₁ hc ?_
      rw [pc_of_goto hne.symm]
      exact hpc
    | _ => cases hstep
  · rw [if_neg hzombie] at hstep
    cases a with
    | go =>
      cases hstep
      refine h.release hc hpc ?_ (nodup_singleton p) (by simp [Pc.plocks]) rfl trivial
      intro q
      simp only [Pc.plocks, mem_cons, not_mem_nil, or_false]
      constructor
      · rintro rfl
        exact ⟨Or.inl rfl, hne⟩
      · rintro ⟨hq | hq, hne⟩
        · exact hq
        · exact absurd hq hne
    | _ => cases hstep

theorem user (hpc : s.pc (.proc p) = .user) (hstep : user s p a = some t) : t.Inv := by
  have hnext : ∀ {k : Pc L S}, k.interruptible = true → (s.goto (.proc p) k).Inv := by
    intro k hk
    obtain ⟨hlocks, hstate, halive⟩ := plain_of_interruptible (p := p) hk
    exact h.next hc hpc hlocks hstate.symm halive
  cases a with
  | lock l =>
    cases hstep
    exact hnext rfl
  | yield =>
    cases hstep
    exact hnext rfl
  | call k =>
    simp only [Sched.user] at hstep
    split at hstep
    · obtain ⟨pc, hstart, rfl⟩ := Option.map_eq_some_iff.mp hstep
      apply hnext
      cases k with
      | exit =>
        simp only [Call.start] at hstart
        split at hstart
        · cases hstart
        · cases hstart
          rfl
      | _ =>
        cases hstart
        rfl
    · cases hstep
  | iret =>
    obtain ⟨pc, -, rfl⟩ := Option.map_eq_some_iff.mp hstep
    exact hnext pc.property
  | _ => cases hstep

theorem trap (hstep : trap s p = some t) : t.Inv := by
  rw [Sched.trap] at hstep
  split at hstep
  · rename_i htrap
    cases hstep
    obtain ⟨hlocks, hstate, -⟩ := plain_of_interruptible (p := p) htrap.2
    exact h.next hc rfl hlocks.symm hstate trivial
  · cases hstep

/-! ## Channels and sleep locks -/

variable [DecidableEq S]

theorem wakeup (hpc : s.pc (.proc p) = .wakeup chan lk i)
    (hstep : wakeup s (.proc p) chan lk i = some t) : t.Inv := by
  rw [Sched.wakeup] at hstep
  split at hstep
  · exact h.visitNext hc hstep (wake_state _) hpc rfl rfl trivial
  · cases hstep
    cases lk with
    | other l => exact h.next hc hpc rfl rfl trivial
    | inner k => exact h.next hc hpc rfl rfl trivial

theorem exitDie {op : Pid} (hpc : s.pc (.proc p) = .exitDie op) : (exitDie s p op).Inv := by
  have hlocks := (Sched.Inv.gone h c p hc).locks
  have hnodup := (Sched.Inv.gone h c p hc).nodup
  rw [hpc] at hlocks hnodup
  have hop : op ≠ p := by simpa [Pc.plocks] using hnodup
  have h₁ : (s.setProc op (wakeup1 op (s.proc op))).Inv :=
    Sched.Inv.change h (Sched.Inv.open_of_held h hc (hlocks op mem_cons_self) hop) (wake_state _ _)
  exact Sched.Inv.own h₁ hc others_same hlocks hnodup rfl trivial

variable [DecidableEq L]

theorem testing {k : S} (hpc : s.pc (.proc p) = .testing k) : (testing s p k).Inv := by
  rw [Sched.testing]
  split
  · exact h.next hc hpc rfl rfl trivial
  · exact h.next hc hpc rfl rfl trivial

theorem takeNext (hstep : (s.take c (.proc p) lk).map (·.goto (.proc p) k) = some t)
    (hpc : s.pc (.proc p) = k₀) (hlocks : k.plocks p = k₀.plocks p) (hstate : k₀.state = k.state)
    (halive : k.alive) : t.Inv := by
  obtain ⟨s₁, htake, rfl⟩ := Option.map_eq_some_iff.mp hstep
  obtain ⟨-, rfl⟩ := take_eq_some.mp htake
  exact h.next hc hpc hlocks hstate halive

theorem sleepAgain (hpc : s.pc (.proc p) = .sleepAgain lk) (hstep : sleepAgain s c p lk = some t) :
    t.Inv := by
  rw [Sched.sleepAgain] at hstep
  cases lk with
  | other l => exact h.takeNext hc hstep hpc rfl rfl trivial
  | inner k => exact h.takeNext hc hstep hpc rfl rfl trivial

theorem crit {l : L} (hpc : s.pc (.proc p) = .crit l) (hstep : crit s (.proc p) l a = some t) :
    t.Inv := by
  cases a with
  | release =>
    cases hstep
    exact h.next hc hpc rfl rfl trivial
  | wakeup n =>
    cases hstep
    exact h.next hc hpc rfl rfl trivial
  | sleep n =>
    simp only [Sched.crit] at hstep
    split at hstep
    · cases hstep
      exact h.next hc hpc rfl rfl trivial
    · cases hstep
  | _ => cases hstep

/-! ## All of it -/

theorem proceed (hpc : s.pc (.proc p) = k) (hstep : proceed s c p k = some t) : t.Inv := by
  cases k with
  | want l => exact h.takeNext hc hstep hpc rfl rfl trivial
  | wakeup chan lk i => exact h.wakeup hc hpc hstep
  | acquiresleep k => exact h.takeNext hc hstep hpc rfl rfl trivial
  | testing k =>
    cases hstep
    exact h.testing hc hpc
  | releasesleep k => exact h.takeNext hc hstep hpc rfl rfl trivial
  | unlocking k | releasing k =>
    cases hstep
    exact h.next hc hpc rfl rfl trivial
  | sleepLock chan lk => exact h.acquireNext hc hstep hpc rfl rfl trivial
  | sleepRelease chan lk =>
    cases hstep
    exact h.next hc hpc rfl rfl trivial
  | sleepState chan lk =>
    cases hstep
    exact h.sleepState hc hpc
  | sleepAgain lk => exact h.sleepAgain hc hpc hstep
  | sched r => exact h.sched hc hpc hstep
  | switched r => exact h.switched hc hpc hstep
  | yield => exact h.yield hc hstep
  | kill pid i => exact h.kill hc hpc hstep
  | exitInit => exact h.visitNext hc hstep (wake_state _) hpc rfl rfl trivial
  | exitRead => exact h.exitRead hc hpc hstep
  | exitLockParent op => exact h.acquireNext hc hstep hpc rfl rfl trivial
  | exitLockSelf op => exact h.acquireNext hc hstep hpc rfl rfl trivial
  | reparent op i =>
    cases hstep
    exact h.reparent hc hpc
  | giveAway op pp => exact h.visitNext hc hstep (fun x => Or.inl rfl) hpc rfl rfl trivial
  | exitDie op =>
    cases hstep
    exact h.exitDie hc hpc
  | exitRelease op =>
    cases hstep
    exact h.exitRelease hc hpc
  | waitLock => exact h.acquireNext hc hstep hpc rfl rfl trivial
  | waitScan i havekids =>
    cases hstep
    exact h.waitScan hc hpc
  | waitChild np => exact h.acquireNext hc hstep hpc rfl rfl trivial
  | user | crit l | forkScan i | waitFound np | dead => cases hstep

theorem process (hstep : process s c p a = some t) : t.Inv := by
  unfold Sched.process at hstep
  split at hstep
  · exact h.trap hc hstep
  · split at hstep
    · rename_i hpc
      exact h.user hc hpc hstep
    · rename_i hpc
      exact h.crit hc hpc hstep
    · rename_i hpc
      exact h.forkScan hc hpc hstep
    · rename_i hpc
      exact h.waitFound hc hpc hstep
    · split at hstep
      · exact h.proceed hc rfl hstep
      · cases hstep

end

variable [DecidableEq L] [DecidableEq S]

/-! ## Schedulers -/

theorem schedule (h : s.Inv) (hc : (s.cpu c).loop = .scan i) (hstep : schedule s c i a = some t) :
    t.Inv := by
  unfold Sched.schedule at hstep
  split at hstep
  · split at hstep
    · exact h.scheduler hc hstep
    · cases hstep
      exact Sched.Inv.handler h _
    · cases hstep
  · split at hstep
    · obtain ⟨s₁, htake, rfl⟩ := Option.map_eq_some_iff.mp hstep
      obtain ⟨-, rfl⟩ := take_eq_some.mp htake
      exact Sched.Inv.handler h _
    · cases hstep
  · cases a with
    | release =>
      cases hstep
      exact Sched.Inv.handler h _
    | wakeup n =>
      cases hstep
      exact Sched.Inv.handler h _
    | _ => cases hstep
  · split at hstep
    · rw [Sched.wakeup] at hstep
      split at hstep
      · obtain ⟨s₁, hvisit, rfl⟩ := Option.map_eq_some_iff.mp hstep
        exact Sched.Inv.handler (h.visit hvisit (wake_state _)) _
      · cases hstep
        exact Sched.Inv.handler h _
    · cases hstep
  · cases hstep

/-- Whatever a processor does keeps the invariant. -/
theorem step (h : s.Inv) (hstep : step s c a = some t) : t.Inv := by
  unfold Sched.step at hstep
  split at hstep
  · rename_i i hc
    exact h.schedule hc hstep
  · rename_i p hc
    exact h.process hc hstep
  · rename_i p hc
    split at hstep
    · cases hstep
      exact Sched.Inv.leave h hc
    · cases hstep

end State.Inv

variable [DecidableEq C] [DecidableEq L] [DecidableEq S]

theorem run_inv {as : List (C × Act L S)} (hrun : run as boot = some s) : s.Inv :=
  run_isRun.keeps (fun _ _ _ h hstep => State.Inv.step h hstep) boot_inv hrun

end Xv6.Sched
