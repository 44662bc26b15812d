/-
  Sched/OneCpu.lean --- a process runs on at most one processor, and is not torn down while it
  runs.
-/
import Xv6.Sched.Routines

set_option autoImplicit false

namespace Xv6.Sched

open Function
open Procs (ProcState initproc incrInt)

variable {C L S : Type}
variable {s t : State C L S} {c : C} {p q : Pid} {k : Pc L S} {chan : Key S} {lk : Lk L S}
  {x : Ctx C} {a : Act L S}

/-! ## Zombies -/

/-- A zombie stays one until it is freed, and no processor gets it. -/
structure Mortal (s t : State C L S) : Prop where
  state : ∀ p, (s.proc p).state = .zombie →
    (t.proc p).state = .zombie ∨ (t.proc p).state = .unused
  cpu : ∀ p, (s.proc p).state = .zombie → ∀ c, (t.cpu c).proc = some p → (s.cpu c).proc = some p

theorem set_zombie {y : Proc S} (hproc : t.proc = update s.proc q y)
    (hy : (s.proc q).state = .zombie → y.state = .zombie ∨ y.state = .unused)
    (p : Pid) (hp : (s.proc p).state = .zombie) :
    (t.proc p).state = .zombie ∨ (t.proc p).state = .unused := by
  rw [hproc]
  by_cases hpq : p = q
  · rw [hpq, update_self]
    exact hy (hpq ▸ hp)
  · rw [update_of_ne hpq]
    exact Or.inl hp

theorem mortal_set {y : Proc S} (hcpu : t.cpu = s.cpu) (hproc : t.proc = update s.proc q y)
    (hy : (s.proc q).state = .zombie → y.state = .zombie ∨ y.state = .unused) : Mortal s t := by
  refine ⟨set_zombie hproc hy, ?_⟩
  intro p _ c hc
  rwa [hcpu] at hc

theorem mortal_same (hcpu : t.cpu = s.cpu) (h : t.proc = s.proc) : Mortal s t :=
  mortal_set (q := initproc) hcpu (h.trans (update_eq_self _ _).symm) Or.inl

/-- A process that is executed and has not changed its state is no zombie. -/
theorem State.Inv.not_zombie (h : s.Inv) (hc : (s.cpu c).loop = .gone p) (hpc : s.pc (.proc p) = k)
    (hk : k.state = .running) : (s.proc p).state ≠ .zombie := by
  intro hzombie
  have hstate := (Sched.Inv.gone h c p hc).state
  rw [hpc, hk] at hstate
  cases hzombie.symm.trans hstate

theorem State.Inv.running_iff (h : s.Inv) (hfree : s.plock p = none) :
    (s.proc p).state = .running ↔ ∃ c, (s.cpu c).proc = some p := by
  constructor
  · intro hrunning
    by_contra hnone
    -- a process that no processor has is in `sched`, or not there
    rcases Sched.Inv.off h p (fun c hc => hnone ⟨c, hc⟩) with ⟨hunused, -⟩ | ⟨r, -, hr | ⟨hr, -⟩⟩
    · cases hrunning.symm.trans hunused
    · cases r with
      | _ => cases hrunning.symm.trans hr
    · cases hrunning.symm.trans hr
  · rintro ⟨c, hc⟩
    obtain ⟨hloop, hmem⟩ := Sched.Inv.running_of_open h (open_of_free hfree) hc
    exact (Sched.Inv.gone h c p hloop).state.trans (Pc.state_of_notMem hmem)

variable [DecidableEq C]

/-- One entry changes, and the loop of one scheduler goes on. -/
theorem mortal_loop {v : Cpu} {y : Proc S} (hcpu : t.cpu = update s.cpu c v)
    (hproc : t.proc = update s.proc q y)
    (hv : ∀ p, v.proc = some p → (s.cpu c).proc = some p ∨ (s.proc p).state = .runnable)
    (hy : (s.proc q).state = .zombie → y.state = .zombie ∨ y.state = .unused) : Mortal s t := by
  refine ⟨set_zombie hproc hy, ?_⟩
  intro p hp c' hc'
  rw [hcpu] at hc'
  by_cases hcc : c' = c
  · rw [hcc, update_self] at hc'
    rw [hcc]
    rcases hv p hc' with hproc | hrunnable
    · exact hproc
    · cases hp.symm.trans hrunnable
  · rw [update_of_ne hcc] at hc'
    exact hc'

theorem mortal_visit {f : Proc S → Proc S} (h : (s.visit q f).map (·.goto x k) = some t)
    (hf : ∀ x, (f x).state = x.state ∨ x.state = .sleeping ∧ (f x).state = .runnable) :
    Mortal s t := by
  obtain ⟨s₁, hvisit, rfl⟩ := Option.map_eq_some_iff.mp h
  obtain ⟨-, rfl⟩ := visit_eq_some.mp hvisit
  refine mortal_set (y := f (s.proc q)) rfl rfl fun hzombie => ?_
  rcases hf (s.proc q) with heq | ⟨hsleep, -⟩
  · exact Or.inl (heq.trans hzombie)
  · cases hzombie.symm.trans hsleep

theorem mortal_acquire (h : (s.acquire c q).map (·.goto (.proc p) k) = some t) : Mortal s t := by
  obtain ⟨s₁, hacquire, rfl⟩ := Option.map_eq_some_iff.mp h
  obtain ⟨-, rfl⟩ := acquire_eq_some.mp hacquire
  exact mortal_same rfl rfl

theorem mortal_fork {i : Nat} (h : forkScan s p i a = some t) : Mortal s t := by
  rw [forkScan] at h
  split at h
  · split at h
    · split at h
      · rename_i hunused
        have hy : ∀ {y : Proc S}, (s.proc ⟨i, by assumption⟩).state = .zombie →
            y.state = .zombie ∨ y.state = .unused := by
          intro y hzombie
          cases hunused.symm.trans hzombie
        cases a with
        | nopage | fail | go =>
          cases h
          exact mortal_set rfl rfl hy
        | _ => cases h
      · cases h
        exact mortal_same rfl rfl
    · cases h
  · cases h
    exact mortal_same rfl rfl

variable [DecidableEq S]

theorem mortal_wakeup {i : Nat} (h : wakeup s x chan lk i = some t) : Mortal s t := by
  rw [wakeup] at h
  split at h
  · exact mortal_visit h (wake_state _)
  · cases h
    exact mortal_same rfl rfl

variable [DecidableEq L]

theorem mortal_take {f : State C L S → State C L S} (h : (s.take c x lk).map f = some t)
    (hcpu : ∀ u, (f u).cpu = u.cpu) (hf : ∀ u, (f u).proc = u.proc) : Mortal s t := by
  obtain ⟨s₁, htake, rfl⟩ := Option.map_eq_some_iff.mp h
  obtain ⟨-, rfl⟩ := take_eq_some.mp htake
  exact mortal_same (hcpu _) (hf _)

theorem mortal_crit {l : L} (h : crit s x l a = some t) : Mortal s t := by
  cases a with
  | release | wakeup n =>
    cases h
    exact mortal_same rfl rfl
  | sleep n =>
    cases x with
    | proc p =>
      simp only [crit] at h
      split at h
      · cases h
        exact mortal_same rfl rfl
      · cases h
    | sched c => cases h
  | _ => cases h

namespace State.Inv

section

variable (h : s.Inv) (hc : (s.cpu c).loop = .gone p)

include h hc

theorem proceed_mortal (hstep : Sched.proceed s c p (s.pc (.proc p)) = some t) : Mortal s t := by
  cases hpc : s.pc (.proc p) with
  | want l | acquiresleep k | sleepAgain lk | releasesleep k =>
    rw [hpc] at hstep
    exact mortal_take hstep (fun _ => rfl) (fun _ => rfl)
  | wakeup chan lk i =>
    rw [hpc] at hstep
    exact mortal_wakeup hstep
  | testing k =>
    rw [hpc] at hstep
    cases hstep
    rw [Sched.testing]
    split
    · exact mortal_same rfl rfl
    · exact mortal_same rfl rfl
  | unlocking k | releasing k | sleepRelease chan lk | exitRelease op =>
    rw [hpc] at hstep
    cases hstep
    exact mortal_same rfl rfl
  | sleepLock chan lk | exitLockParent op | exitLockSelf op | waitLock | waitChild np =>
    rw [hpc] at hstep
    exact mortal_acquire hstep
  | sleepState chan lk =>
    rw [hpc] at hstep
    cases hstep
    exact mortal_set rfl rfl fun hzombie => absurd hzombie (h.not_zombie hc hpc rfl)
  | sched r =>
    rw [hpc] at hstep
    simp only [Sched.proceed, Sched.sched] at hstep
    split at hstep
    · cases hstep
      exact mortal_loop (q := p) rfl (update_eq_self _ _).symm (fun _ => Or.inl) Or.inl
    · cases hstep
  | switched r =>
    rw [hpc] at hstep
    cases r with
    | yield | forkret =>
      cases hstep
      exact mortal_same rfl rfl
    | sleep chan lk | wait =>
      cases hstep
      exact mortal_set rfl rfl Or.inl
    | exit => cases hstep
  | yield =>
    rw [hpc] at hstep
    obtain ⟨s₁, hacquire, rfl⟩ := Option.map_eq_some_iff.mp hstep
    obtain ⟨-, rfl⟩ := acquire_eq_some.mp hacquire
    exact mortal_set rfl rfl fun hzombie => absurd hzombie (h.not_zombie hc hpc rfl)
  | kill pid i =>
    rw [hpc] at hstep
    simp only [Sched.proceed, Sched.kill] at hstep
    split at hstep
    · split at hstep
      · refine mortal_visit hstep fun x => ?_
        dsimp only
        split
        · rename_i hsleep
          exact Or.inr ⟨hsleep, rfl⟩
        · exact Or.inl rfl
      · exact mortal_visit hstep fun x => Or.inl rfl
    · cases hstep
      exact mortal_same rfl rfl
  | exitInit =>
    rw [hpc] at hstep
    exact mortal_visit hstep (wake_state _)
  | exitRead =>
    rw [hpc] at hstep
    obtain ⟨s₁, hvisit, hstep⟩ := Option.bind_eq_some_iff.mp hstep
    obtain ⟨op, -, rfl⟩ := Option.map_eq_some_iff.mp hstep
    obtain ⟨-, rfl⟩ := visit_eq_some.mp hvisit
    exact mortal_set rfl rfl Or.inl
  | reparent op i =>
    rw [hpc] at hstep
    cases hstep
    rw [Sched.reparent]
    split
    · split
      · exact mortal_same rfl rfl
      · exact mortal_same rfl rfl
    · exact mortal_same rfl rfl
  | giveAway op pp =>
    rw [hpc] at hstep
    exact mortal_visit hstep fun x => Or.inl rfl
  | exitDie op =>
    rw [hpc] at hstep
    cases hstep
    refine ⟨?_, fun q _ c' hc' => hc'⟩
    intro q hq
    by_cases hqp : q = p
    · exact absurd (hqp ▸ hq) (h.not_zombie hc hpc rfl)
    · have hother : (Sched.exitDie s p op).proc q =
          update s.proc op (wakeup1 op (s.proc op)) q := update_of_ne hqp ..
      rw [hother]
      by_cases hop : q = op
      · rw [hop] at hq ⊢
        rw [update_self]
        rcases wake_state (.proc op) (s.proc op) with heq | ⟨hsleep, -⟩
        · exact Or.inl (heq.trans hq)
        · cases hq.symm.trans hsleep
      · rw [update_of_ne hop]
        exact Or.inl hq
  | waitScan i havekids =>
    rw [hpc] at hstep
    cases hstep
    rw [Sched.waitScan]
    split
    · split
      · exact mortal_same rfl rfl
      · exact mortal_same rfl rfl
    · split
      · exact mortal_same rfl rfl
      · exact mortal_set rfl rfl fun hzombie => absurd hzombie (h.not_zombie hc hpc rfl)
  | user | crit l | forkScan i | waitFound np | dead =>
    rw [hpc] at hstep
    cases hstep

theorem process_mortal (hstep : Sched.process s c p a = some t) : Mortal s t := by
  unfold Sched.process at hstep
  split at hstep
  · rw [Sched.trap] at hstep
    split at hstep
    · cases hstep
      exact mortal_same rfl rfl
    · cases hstep
  · split at hstep
    · cases a with
      | lock l | yield =>
        cases hstep
        exact mortal_same rfl rfl
      | call k =>
        simp only [Sched.user] at hstep
        split at hstep
        · obtain ⟨pc, -, rfl⟩ := Option.map_eq_some_iff.mp hstep
          exact mortal_same rfl rfl
        · cases hstep
      | iret =>
        obtain ⟨pc, -, rfl⟩ := Option.map_eq_some_iff.mp hstep
        exact mortal_same rfl rfl
      | _ => cases hstep
    · exact mortal_crit hstep
    · exact mortal_fork hstep
    · unfold Sched.waitFound at hstep
      split at hstep
      · cases a with
        | fail =>
          cases hstep
          exact mortal_same rfl rfl
        | go =>
          cases hstep
          exact mortal_set rfl rfl fun _ => Or.inr rfl
        | _ => cases hstep
      · cases a with
        | go =>
          cases hstep
          exact mortal_same rfl rfl
        | _ => cases hstep
    · split at hstep
      · exact h.proceed_mortal hc hstep
      · cases hstep

end

theorem schedule_mortal {i : Nat} (hstep : Sched.schedule s c i a = some t) : Mortal s t := by
  unfold Sched.schedule at hstep
  split at hstep
  · split at hstep
    · rw [Sched.scheduler] at hstep
      split at hstep
      · dsimp only at hstep
        split at hstep
        · rename_i hrunnable
          obtain ⟨s₁, hacquire, rfl⟩ := Option.map_eq_some_iff.mp hstep
          obtain ⟨-, rfl⟩ := acquire_eq_some.mp hacquire
          refine mortal_loop rfl rfl ?_ fun hzombie => ?_
          · intro p hp
            cases hp
            exact Or.inr hrunnable
          · cases hrunnable.symm.trans hzombie
        · obtain ⟨s₁, hvisit, rfl⟩ := Option.map_eq_some_iff.mp hstep
          obtain ⟨-, rfl⟩ := visit_eq_some.mp hvisit
          exact mortal_loop rfl rfl (fun _ => Or.inl) Or.inl
      · cases hstep
        exact mortal_loop (q := initproc) rfl (update_eq_self _ _).symm (fun _ => Or.inl) Or.inl
    · cases hstep
      exact mortal_same rfl rfl
    · cases hstep
  · split at hstep
    · exact mortal_take hstep (fun _ => rfl) (fun _ => rfl)
    · cases hstep
  · exact mortal_crit hstep
  · split at hstep
    · exact mortal_wakeup hstep
    · cases hstep
  · cases hstep

/-- Whatever a processor does, a zombie stays one until it is freed. -/
theorem mortal (h : s.Inv) (hstep : Sched.step s c a = some t) : Mortal s t := by
  unfold Sched.step at hstep
  split at hstep
  · exact schedule_mortal hstep
  · rename_i p hc
    exact h.process_mortal hc hstep
  · rename_i p hc
    split at hstep
    · cases hstep
      refine mortal_loop (q := p) rfl (update_eq_self _ _).symm ?_ Or.inl
      intro q hq
      cases hq
    · cases hstep

end State.Inv

/-! ## In every run -/

/-- How processors share the processes. -/
structure OneCpu (s : State C L S) : Prop where
  /-- No two processors have the same process. -/
  uniq : ∀ c c' p, (s.cpu c).proc = some p → (s.cpu c').proc = some p → c = c'
  /-- When `p->lock` is free, a process is `RUNNING` exactly if some processor has it. -/
  running : ∀ p, s.plock p = none →
    ((s.proc p).state = .running ↔ ∃ c, (s.cpu c).proc = some p)
  /-- Whatever is done next, a zombie stays one until it is freed, and no processor gets it. -/
  zombie : ∀ c a t, step s c a = some t → Mortal s t
  /-- When `wait` is about to free a process, no processor is on its kernel stack, or has it. -/
  freeproc : ∀ c p np, (s.cpu c).loop = .gone p → s.pc (.proc p) = .waitFound np →
    (s.proc np).state = .zombie → ∀ c', (s.cpu c').loop ≠ .gone np ∧ (s.cpu c').proc ≠ some np

theorem State.Inv.oneCpu (h : s.Inv) : OneCpu s where
  uniq := Sched.Inv.uniq h
  running _ hfree := h.running_iff hfree
  zombie _ _ _ hstep := h.mortal hstep
  freeproc := by
    intro c p np hc hpc hzombie c'
    have hexec := Sched.Inv.gone h c p hc
    have hlock : s.plock np = some c := hexec.locks np (by simp [hpc, Pc.plocks])
    have hne : np ≠ p := h.ne_of_state hc (by rw [hzombie, hpc]; simp [Pc.state])
    have hoff := h.off_of_held hc hlock hne (by rw [hzombie]; simp) c'
    exact ⟨fun hgone => hoff (Sched.Inv.proc_of_gone h hgone), hoff⟩

/-- In every state that any processors reach, a process is on at most one of them, and it is not
freed while it is on one. -/
theorem run_oneCpu {as : List (C × Act L S)} (hrun : run as boot = some s) : OneCpu s :=
  (run_inv hrun).oneCpu

/-- The first process forks, on one processor; the child exits on another, and is freed. -/
def forkExitWait : List (Bool × Act Unit Unit) :=
  [(false, .go), (false, .go), (false, .call .fork), (false, .go), (false, .go),
    (true, .go), (true, .go), (true, .go), (true, .call .exit)] ++
  -- `exit`, with `reparent` and `swtch`
  List.replicate 73 (true, .go) ++
  [(false, .call .wait), (false, .go), (false, .go), (false, .go), (false, .go), (false, .go)]

theorem run_oneCpu_forkExitWait :
    ∃ s : State Bool Unit Unit, run forkExitWait boot = some s ∧ (s.proc 1).state = .unused ∧
      (s.cpu true).proc = none ∧ OneCpu s := by
  have hrun : (run forkExitWait boot).map (fun s => ((s.proc 1).state, (s.cpu true).proc)) =
      some (.unused, none) := by
    decide +kernel
  obtain ⟨s, hs, hstate⟩ := Option.map_eq_some_iff.mp hrun
  exact ⟨s, hs, congrArg Prod.fst hstate, congrArg Prod.snd hstate, run_oneCpu hs⟩

end Xv6.Sched
