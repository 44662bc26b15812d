/-
  Sched/Steps.lean --- every step of a processor keeps the invariant.
-/
import Xv6.Sched.Invariant

set_option autoImplicit false

namespace Xv6.Sched

open Function
open Procs (ProcState initproc incrInt)

variable {C L S : Type}
variable {proc : Pid → Proc S} {plock plock' : Pid → Option C} {cpu : C → Cpu}
  {pc : Ctx C → Pc L S}
variable {s t : State C L S} {c : C} {p q : Pid} {k : Pc L S} {x y : Proc S} {chan : Key S}
  {lk : Lk L S}

/-! ## What a step does to the invariant -/

/-- An entry changes that is open, and at most from `SLEEPING` to `RUNNABLE`. -/
theorem Inv.change (h : Inv proc plock cpu pc) (hopen : Open plock cpu q)
    (hy : y.state = (proc q).state ∨ (proc q).state = .sleeping ∧ y.state = .runnable) :
    Inv (update proc q y) plock cpu pc := by
  refine ⟨h.loop, h.uniq, ?_, ?_, ?_⟩
  · intro c p hc
    have hexec := h.gone c p hc
    refine ⟨hexec.locks, hexec.nodup, ?_, hexec.alive⟩
    by_cases hpq : p = q
    · obtain ⟨-, hmem⟩ := h.running_of_open hopen (hpq ▸ h.proc_of_gone hc)
      have hrunning : (proc q).state = .running := by
        rw [← hpq, hexec.state, hpq]
        exact Pc.state_of_notMem hmem
      rw [hpq, update_self, Pc.state_of_notMem hmem]
      rcases hy with hy | ⟨hsleep, -⟩
      · exact hy.trans hrunning
      · cases hsleep.symm.trans hrunning
    · rw [update_of_ne hpq]
      exact hexec.state
  · intro c p hc
    have hback := h.back c p hc
    have hpq : p ≠ q := fun heq => hopen c (heq ▸ h.proc_of_back hc) (heq ▸ hback.1)
    rw [update_of_ne hpq]
    exact hback
  · intro p hp
    have hoff := h.off p hp
    by_cases hpq : p = q
    · rw [hpq, update_self]
      rw [hpq] at hoff
      rcases hy with hy | ⟨hsleep, hrunnable⟩
      · rw [hy]
        exact hoff
      · -- whoever sleeps has not exited
        rcases hoff with ⟨hunused, -⟩ | ⟨r, hr, hstate⟩
        · cases hsleep.symm.trans hunused
        · refine Or.inr ⟨r, hr, Or.inr ⟨hrunnable, ?_⟩⟩
          rintro rfl
          rcases hstate with hstate | ⟨-, hne⟩
          · cases hsleep.symm.trans hstate
          · exact hne rfl
    · rw [update_of_ne hpq]
      exact hoff

theorem others_acquire (hfree : plock q = none) (q' : Pid) (c' : C) (_ : c' ≠ c)
    (h : plock q' = some c') : update plock q (some c) q' = some c' := by
  have hne : q' ≠ q := by
    rintro rfl
    cases hfree.symm.trans h
  rw [update_of_ne hne]
  exact h

theorem others_release (hheld : plock q = some c) (q' : Pid) (c' : C) (hcc : c' ≠ c)
    (h : plock q' = some c') : update plock q none q' = some c' := by
  have hne : q' ≠ q := by
    rintro rfl
    exact hcc (Option.some.inj (h.symm.trans hheld))
  rw [update_of_ne hne]
  exact h

theorem others_same (q' : Pid) (c' : C) (_ : c' ≠ c) (h : plock q' = some c') :
    plock q' = some c' := h

theorem acquire_eq_some : s.acquire c q = some t ↔ s.plock q = none ∧ t = s.setLock q (some c) := by
  rw [State.acquire]
  split
  · rename_i h
    simp [h, eq_comm]
  · rename_i h
    simp [h]

theorem visit_eq_some {f : Proc S → Proc S} :
    s.visit q f = some t ↔ s.plock q = none ∧ t = s.setProc q (f (s.proc q)) := by
  rw [State.visit]
  split
  · rename_i h
    simp [h, eq_comm]
  · rename_i h
    simp [h]

/-- A processor that has a process has no other one, and no other processor has it. -/
theorem Inv.has (h : Inv proc plock cpu pc) (hc : (cpu c).proc = some p) :
    (∀ c', c' ≠ c → (cpu c').proc ≠ some p) ∧ ∀ q, (cpu c).proc = some q → q = p :=
  ⟨fun c' hcc hc' => hcc (h.uniq c' c p hc' hc), fun _ hq => Option.some.inj (hq.symm.trans hc)⟩

/-- An entry whose lock is free is looked at. -/
theorem State.Inv.visit {f : Proc S → Proc S} (h : s.Inv) (hvisit : s.visit q f = some t)
    (hf : ∀ x, (f x).state = x.state ∨ x.state = .sleeping ∧ (f x).state = .runnable) : t.Inv := by
  obtain ⟨hfree, rfl⟩ := visit_eq_some.mp hvisit
  exact Sched.Inv.change h (open_of_free hfree) (hf _)

variable [DecidableEq C]

/-- A step in which a processor and a process change, and the process is on no other
processor. -/
theorem Inv.only {proc' : Pid → Proc S} {pc' : Ctx C → Pc L S} {x : Cpu}
    (h : Inv proc plock cpu pc) (hproc : ∀ q, q ≠ p → proc' q = proc q)
    (hpc : ∀ q, q ≠ p → pc' (.proc q) = pc (.proc q))
    (hothers : ∀ q c', c' ≠ c → plock q = some c' → plock' q = some c')
    (hfree : ∀ c', c' ≠ c → (cpu c').proc ≠ some p) (hold : ∀ q, (cpu c).proc = some q → q = p)
    (hloop : x.proc = x.loop.proc) (hnew : ∀ q, x.proc = some q → q = p)
    (hgone : x.loop = .gone p → Executing proc' plock' pc' c p)
    (hback : x.loop = .back p → plock' p = some c ∧
      ∃ r, pc' (.proc p) = .switched r ∧ (proc' p).state = r.state)
    (hoff : x.proc = none → Off (proc' p).state (pc' (.proc p))) :
    Inv proc' plock' (update cpu c x) pc' := by
  have hne : ∀ {c' q}, c' ≠ c → (cpu c').proc = some q → q ≠ p := by
    rintro c' q hcc hc' rfl
    exact hfree c' hcc hc'
  have hhas : ∀ {c' q}, (update cpu c x c').proc = some q →
      c' = c ∧ q = p ∨ c' ≠ c ∧ (cpu c').proc = some q := by
    intro c' q hc'
    by_cases hcc : c' = c
    · rw [hcc, update_self] at hc'
      exact Or.inl ⟨hcc, hnew q hc'⟩
    · rw [update_of_ne hcc] at hc'
      exact Or.inr ⟨hcc, hc'⟩
  refine ⟨?_, ?_, ?_, ?_, ?_⟩
  · intro c'
    by_cases hcc : c' = c
    · rw [hcc, update_self]
      exact hloop
    · rw [update_of_ne hcc]
      exact h.loop c'
  · intro c₁ c₂ q h₁ h₂
    rcases hhas h₁ with ⟨rfl, rfl⟩ | ⟨hc₁, hq₁⟩
    · rcases hhas h₂ with ⟨rfl, -⟩ | ⟨hc₂, hq₂⟩
      · rfl
      · exact absurd hq₂ (hfree c₂ hc₂)
    · rcases hhas h₂ with ⟨rfl, rfl⟩ | ⟨-, hq₂⟩
      · exact absurd hq₁ (hfree c₁ hc₁)
      · exact h.uniq c₁ c₂ q hq₁ hq₂
  · intro c' q hc'
    by_cases hcc : c' = c
    · rw [hcc, update_self] at hc'
      obtain rfl := hnew q (by rw [hloop, hc']; rfl)
      rw [hcc]
      exact hgone hc'
    · rw [update_of_ne hcc] at hc'
      have hq := hne hcc (h.proc_of_gone hc')
      exact (h.gone c' q hc').congr (hpc q hq) (by rw [hproc q hq]) fun q' => hothers q' c' hcc
  · intro c' q hc'
    by_cases hcc : c' = c
    · rw [hcc, update_self] at hc'
      obtain rfl := hnew q (by rw [hloop, hc']; rfl)
      rw [hcc]
      exact hback hc'
    · rw [update_of_ne hcc] at hc'
      have hq := hne hcc (h.proc_of_back hc')
      obtain ⟨hlock, hr⟩ := h.back c' q hc'
      rw [hpc q hq, hproc q hq]
      exact ⟨hothers q c' hcc hlock, hr⟩
  · intro q hq
    by_cases hqp : q = p
    · rw [hqp] at hq ⊢
      refine hoff (Option.eq_none_iff_forall_ne_some.mpr fun r hr => hq c ?_)
      rw [update_self, hr, hnew r hr]
    · rw [hproc q hqp, hpc q hqp]
      refine h.off q fun c' hc' => hq c' ?_
      have hcc : c' ≠ c := by
        rintro rfl
        exact hqp (hold q hc')
      rw [update_of_ne hcc]
      exact hc'

/-- The process that a processor executes goes on, and takes or releases locks. -/
theorem Inv.own (h : Inv proc plock cpu pc) (hc : (cpu c).loop = .gone p)
    (hothers : ∀ q c', c' ≠ c → plock q = some c' → plock' q = some c')
    (hlocks : ∀ q ∈ k.plocks p, plock' q = some c) (hnodup : (k.plocks p).Nodup)
    (hstate : y.state = k.state) (halive : k.alive) :
    Inv (update proc p y) plock' cpu (update pc (.proc p) k) := by
  have hhas := h.proc_of_gone hc
  obtain ⟨hfree, hold⟩ := h.has hhas
  have hexec : Executing (update proc p y) plock' (update pc (.proc p) k) c p := by
    refine ⟨?_, ?_, ?_, ?_⟩
    · rw [update_self]
      exact hlocks
    · rw [update_self]
      exact hnodup
    · rw [update_self, update_self]
      exact hstate
    · rw [update_self]
      exact halive
  have honly := h.only (fun q hq => update_of_ne hq y proc)
    (fun q hq => update_of_ne (proc_ne hq) k pc) hothers hfree hold (h.loop c) hold
    (fun _ => hexec) (fun hback => by cases hback.symm.trans hc) fun hnone => by
      cases hnone.symm.trans hhas
  rwa [update_eq_self] at honly

/-- It only goes on. -/
theorem Inv.goto (h : Inv proc plock cpu pc) (hc : (cpu c).loop = .gone p)
    (hothers : ∀ q c', c' ≠ c → plock q = some c' → plock' q = some c')
    (hlocks : ∀ q ∈ k.plocks p, plock' q = some c) (hnodup : (k.plocks p).Nodup)
    (hstate : (pc (.proc p)).state = k.state) (halive : k.alive) :
    Inv proc plock' cpu (update pc (.proc p) k) := by
  have hown := h.own (y := proc p) hc hothers hlocks hnodup
    ((h.gone c p hc).state.trans hstate) halive
  rwa [update_eq_self] at hown

/-- The code of a process goes on, with the same locks of processes. -/
theorem State.Inv.next (h : s.Inv) (hc : (s.cpu c).loop = .gone p) {k₀ : Pc L S}
    (hpc : s.pc (.proc p) = k₀) (hlocks : k.plocks p = k₀.plocks p) (hstate : k₀.state = k.state)
    (halive : k.alive) : (s.goto (.proc p) k).Inv := by
  subst hpc
  have hexec := Sched.Inv.gone h c p hc
  refine Sched.Inv.goto h hc others_same ?_ ?_ hstate halive
  · rw [hlocks]
    exact hexec.locks
  · rw [hlocks]
    exact hexec.nodup

theorem pc_update_sched (k : Pc L S) (p : Pid) : update pc (.sched c) k (.proc p) = pc (.proc p) :=
  update_of_ne (by simp) ..

section

variable (h : Inv proc plock cpu pc)

include h

/-- An interrupt handler on the stack of a scheduler goes on. -/
theorem Inv.handler (k : Pc L S) : Inv proc plock cpu (update pc (.sched c) k) := by
  refine ⟨h.loop, h.uniq, ?_, ?_, ?_⟩
  · intro c' p hc
    exact (h.gone c' p hc).congr (pc_update_sched k p) rfl fun _ => id
  · intro c' p hc
    rw [pc_update_sched]
    exact h.back c' p hc
  · intro p hp
    rw [pc_update_sched]
    exact h.off p hp

omit h in
/-- A processor goes on with the process it has. -/
theorem update_loop_proc (cpu : C → Cpu) (c : C) (l : Loop) (c' : C) :
    (update cpu c { cpu c with loop := l } c').proc = (cpu c').proc := by
  by_cases hcc : c' = c
  · rw [hcc, update_self]
  · rw [update_of_ne hcc]

/-- A scheduler goes on to another entry. -/
theorem Inv.scan {i j : Nat} (hc : (cpu c).loop = .scan i) :
    Inv proc plock (update cpu c { cpu c with loop := .scan j }) pc := by
  have hloop := h.loop c
  rw [hc] at hloop
  have hproc := update_loop_proc cpu c (.scan j)
  have hne : ∀ {c' p}, (update cpu c { cpu c with loop := .scan j } c').loop = .gone p ∨
      (update cpu c { cpu c with loop := .scan j } c').loop = .back p → c' ≠ c := by
    intro c' p hc' heq
    rw [heq, update_self] at hc'
    rcases hc' with hc' | hc' <;> cases hc'
  refine ⟨?_, ?_, ?_, ?_, ?_⟩
  · intro c'
    by_cases hcc : c' = c
    · rw [hcc, update_self]
      exact hloop
    · rw [update_of_ne hcc]
      exact h.loop c'
  · intro c₁ c₂ p h₁ h₂
    rw [hproc] at h₁ h₂
    exact h.uniq c₁ c₂ p h₁ h₂
  · intro c' p hc'
    rw [update_of_ne (hne (Or.inl hc'))] at hc'
    exact h.gone c' p hc'
  · intro c' p hc'
    rw [update_of_ne (hne (Or.inr hc'))] at hc'
    exact h.back c' p hc'
  · intro p hp
    exact h.off p fun c' => by
      rw [← hproc]
      exact hp c'

/-- An entry changes that no processor has, and the code that belongs to it. -/
theorem Inv.other (hoff : ∀ c, (cpu c).proc ≠ some q) (hy : Off y.state k) :
    Inv (update proc q y) plock cpu (update pc (.proc q) k) := by
  refine ⟨h.loop, h.uniq, ?_, ?_, ?_⟩
  · intro c p hc
    have hp : p ≠ q := fun heq => hoff c (heq ▸ h.proc_of_gone hc)
    exact (h.gone c p hc).congr (update_of_ne (proc_ne hp) ..) (by rw [update_of_ne hp]) fun _ => id
  · intro c p hc
    have hp : p ≠ q := fun heq => hoff c (heq ▸ h.proc_of_back hc)
    rw [update_of_ne (proc_ne hp), update_of_ne hp]
    exact h.back c p hc
  · intro p hp
    by_cases hpq : p = q
    · rw [hpq, update_self, update_self]
      exact hy
    · rw [update_of_ne (proc_ne hpq), update_of_ne hpq]
      exact h.off p hp

/-- `swtch`, from a process to the scheduler -/
theorem Inv.swtch {r : Ret L S} (hc : (cpu c).loop = .gone p) (hpc : pc (.proc p) = .sched r) :
    Inv proc plock (update cpu c { cpu c with loop := .back p })
      (update pc (.proc p) (.switched r)) := by
  have hexec := h.gone c p hc
  have hhas := h.proc_of_gone hc
  obtain ⟨hfree, hold⟩ := h.has hhas
  refine h.only (fun _ _ => rfl) (fun q hq => update_of_ne (proc_ne hq) _ pc) (fun _ _ _ => id)
    hfree hold hhas hold (fun hgone => by cases hgone) (fun _ => ?_) fun hnone => by
      cases hnone.symm.trans hhas
  have hlock := hexec.locks p (by rw [hpc]; exact List.mem_cons_self)
  have hstate := hexec.state
  rw [hpc] at hstate
  rw [update_self]
  exact ⟨hlock, r, rfl, hstate⟩

/-- A scheduler is done with the process that was running. -/
theorem Inv.leave {j : Nat} (hc : (cpu c).loop = .back p) :
    Inv proc (update plock p none) (update cpu c ⟨none, .scan j⟩) pc := by
  obtain ⟨hlock, r, hr, hstate⟩ := h.back c p hc
  obtain ⟨hfree, hold⟩ := h.has (h.proc_of_back hc)
  refine h.only (fun _ _ => rfl) (fun _ _ => rfl) (others_release hlock) hfree hold rfl
    (fun q hq => by cases hq) (fun hgone => by cases hgone)
      (fun hback => by cases hback) fun _ => ?_
  exact Or.inr ⟨r, hr, Or.inl hstate⟩

/-- A scheduler picks a process. -/
theorem Inv.dispatch {i : Nat} (hc : (cpu c).loop = .scan i) (hfree : plock p = none)
    (hstate : (proc p).state = .runnable) (hy : y.state = .running) :
    Inv (update proc p y) (update plock p (some c)) (update cpu c ⟨some p, .gone p⟩) pc := by
  have hoff := h.off_of_open (open_of_free hfree) (by rw [hstate]; simp)
  obtain ⟨r, hr, hexit⟩ : ∃ r, pc (.proc p) = .switched r ∧ r ≠ .exit := by
    rcases h.off p hoff with ⟨hunused, -⟩ | ⟨r, hr, hr' | ⟨-, hne⟩⟩
    · cases hstate.symm.trans hunused
    · refine ⟨r, hr, ?_⟩
      rintro rfl
      cases hstate.symm.trans hr'
    · exact ⟨r, hr, hne⟩
  have hnone : (cpu c).proc = none := by
    rw [h.loop, hc]
    rfl
  refine h.only (fun q hq => update_of_ne hq y proc) (fun _ _ => rfl) (others_acquire hfree)
    (fun c' _ => hoff c') (fun q hq => by cases hq.symm.trans hnone) rfl
    (fun q hq => (Option.some.inj hq).symm) (fun _ => ?_) (fun hback => by cases hback)
    fun hnone => by cases hnone
  refine ⟨?_, ?_, ?_, ?_⟩
  · rw [hr]
    intro q hq
    rw [List.mem_singleton.mp hq, update_self]
  · rw [hr]
    exact List.nodup_singleton p
  · rw [hr, update_self]
    exact hy
  · rw [hr]
    cases r with
    | exit => exact absurd rfl hexit
    | _ => trivial

end

/-! ## Locks and channels -/

variable [DecidableEq L] [DecidableEq S]

theorem take_eq_some {x : Ctx C} : s.take c x lk = some t ↔ s.slock lk = none ∧ t = { s with
      slock := update s.slock lk (some c)
      seen := update s.seen x (s.sleepers lk) } := by
  rw [State.take]
  split
  · rename_i h
    simp [h, eq_comm]
  · rename_i h
    simp [h]

theorem wake_state (ch : Chan S) (x : Proc S) :
    (wake ch x).state = x.state ∨ x.state = .sleeping ∧ (wake ch x).state = .runnable := by
  rw [wake]
  split
  · rename_i h
    exact Or.inr ⟨h.1, rfl⟩
  · exact Or.inl rfl

end Xv6.Sched
