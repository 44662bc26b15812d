/-
  Sched/Wakeup.lean --- every run of the processors is one of the protocol of `sleep` and `wakeup`.
-/
import Xv6.Sched.Sleep

set_option autoImplicit false

namespace Xv6.Sched

open Function
open Procs (ProcState initproc incrInt)

variable {C L S : Type}
variable {s t u : State C L S} {c : C} {p q : Pid} {k k₀ : Pc L S} {x : Ctx C} {lk : Lk L S}
  {a : Act L S}

/-! ## The start, and what holds in quiet states -/

theorem boot_calm : Calm (boot : State C L S) := by
  refine ⟨⟨?_, ?_, fun _ _ => rfl⟩, boot_inv⟩
  · intro p
    by_cases hp : p = initproc
    · simp [boot, hp, Proc.zero, Pc.chan]
    · simp [boot, hp, Proc.zero, Pc.chan]
  · intro p hp
    exact absurd rfl hp

theorem boot_view (x : Ctx C) : (boot : State C L S).obs.view x = .plain := by
  cases x with
  | proc p =>
    change (if p = initproc then Pc.switched .forkret else .dead : Pc L S).view = .plain
    split
    · rfl
    · rfl
  | sched c => rfl

theorem boot_sound : Sound (boot : State C L S).obs := by
  have hinv : (boot : State C L S).Inv := boot_inv
  refine ⟨hinv.who_injective, ?_, ?_, ?_, ?_, ?_, ?_, ?_, ?_⟩
  · intro c lk hlk
    rw [boot_view] at hlk
    cases hlk
  · intro x lk hlk
    rw [boot_view] at hlk
    cases hlk
  · intro x p n hn
    cases hn
  · intro x lk hlk
    rw [boot_view] at hlk
    cases hlk
  · intro x q lk i hx
    rw [boot_view] at hx
    cases hx
  · intro p k lk hp
    rw [boot_view] at hp
    cases hp
  · intro x k lk i hx
    rw [boot_view] at hx
    cases hx
  · intro p k hpend
    rw [Obs.Pending, boot_view] at hpend
    rcases hpend with hpend | ⟨hpend, -⟩
    · cases hpend
    · cases hpend

/-- The code of a process that no processor has. -/
theorem Calm.pc_of_off (h : Calm s) (hoff : ∀ c, (s.cpu c).proc ≠ some q)
    (hstate : (s.proc q).state = .unused ∨ (s.proc q).state = .zombie) :
    s.pc (.proc q) = .dead ∨ s.pc (.proc q) = .switched .exit := by
  rcases Sched.Inv.off h.inv q hoff with ⟨-, hdead⟩ | ⟨r, hr, hr' | ⟨hrunnable, -⟩⟩
  · exact Or.inl hdead
  · rw [hr'] at hstate
    cases r with
    | exit => exact Or.inr hr
    | _ => rcases hstate with hstate | hstate <;> cases hstate
  · rw [hrunnable] at hstate
    rcases hstate with hstate | hstate <;> cases hstate

/-- Who has `p->chan` set is in `sched`. -/
theorem Calm.down_of_chan (h : Calm s) {q : Key S} (hchan : (s.proc p).chan = some (.key q)) :
    (s.pc (.proc p)).view = .down q := by
  rw [h.chan p] at hchan
  cases hpc : s.pc (.proc p) with
  | sched r | switched r =>
    rw [hpc] at hchan
    cases r with
    | sleep q' lk =>
      cases hchan
      rfl
    | _ => cases hchan
  | _ =>
    rw [hpc] at hchan
    cases hchan

/-- Where interrupts can come, nothing is held, and the process is not in `sched`. -/
theorem quiet_of_interruptible (hk : k.interruptible = true) :
    k.view = .plain ∧ ∀ p, k.chan p = none := by
  cases k with
  | user | want | acquiresleep | releasesleep | sleepAgain | yield | kill | forkScan | exitInit
  | exitRead | exitLockParent | waitLock => exact ⟨rfl, fun _ => rfl⟩
  | _ => cases hk

variable [DecidableEq C] [DecidableEq L] [DecidableEq S]

namespace Calm

/-! ## Steps that the protocol does not see -/

section

variable (h : Calm s) (hc : (s.cpu c).loop = .gone p)

include h hc

/-- A process goes on. -/
theorem go (halike : Alike s u) (hpc : s.pc (.proc p) = k₀) (hview : k.view = k₀.view)
    (hfollows : k₀.Follows p k) (hinv : (u.goto (.proc p) k).Inv) :
    Sim c s (u.goto (.proc p) k) := by
  subst hpc
  refine h.next (at_of_gone hc) halike hview ?_ hinv
  intro p' hp
  cases hp
  exact hfollows

theorem acquireNext (hstep : (s.acquire c q).map (·.goto (.proc p) k) = some t)
    (hpc : s.pc (.proc p) = k₀) (hview : k.view = k₀.view) (hfollows : k₀.Follows p k)
    (hinv : t.Inv) : Sim c s t := by
  obtain ⟨s₁, hacquire, rfl⟩ := Option.map_eq_some_iff.mp hstep
  obtain ⟨-, rfl⟩ := acquire_eq_some.mp hacquire
  exact h.go hc ((Alike.refl s).setLock _) hpc hview hfollows hinv

theorem visitNext {f : Proc S → Proc S} (hstep : (s.visit q f).map (·.goto (.proc p) k) = some t)
    (hchan : ∀ x, (f x).chan = x.chan)
    (hstate : ∀ x, (f x).state = x.state ∨ x.state = .sleeping ∧ (f x).state = .runnable)
    (hpc : s.pc (.proc p) = k₀) (hview : k.view = k₀.view) (hfollows : k₀.Follows p k)
    (hinv : t.Inv) : Sim c s t := by
  obtain ⟨s₁, hvisit, rfl⟩ := Option.map_eq_some_iff.mp hstep
  exact h.go hc (Alike.visit hvisit hchan hstate) hpc hview hfollows hinv

theorem takeNext (hstep : (s.take c (.proc p) lk).map (·.goto (.proc p) k) = some t)
    (hpc : s.pc (.proc p) = k₀) (hplain : k₀.view = .plain) (hk : k.view = .hold lk)
    (hfollows : k₀.Follows p k) (hinv : t.Inv) : Sim c s t := by
  subst hpc
  refine h.take (at_of_gone hc) hplain hk ?_ hstep hinv
  intro p' hp
  cases hp
  exact hfollows

end

/-! ## `proc.c` -/

variable {i : Nat}

section

variable (h : Calm s)

include h

theorem switched (hc : (s.cpu c).loop = .gone p) {r : Ret L S}
    (hpc : s.pc (.proc p) = .switched r) (hstep : switched s p r = some t) (hinv : t.Inv) :
    Sim c s t := by
  cases r with
  | yield | forkret =>
    cases hstep
    exact h.go hc ((Alike.refl s).setLock _) hpc rfl ⟨rfl, fun _ => trivial⟩ hinv
  | sleep q lk => exact h.sleepBack hpc hstep hinv
  | wait =>
    cases hstep
    exact h.alone (by rw [hpc]; rfl) (by rw [hpc]; simp [Pc.view]) rfl
      (by rw [hpc]; exact False.elim) hinv
  | exit => cases hstep

theorem kill (hc : (s.cpu c).loop = .gone p) {pid : Int} (hpc : s.pc (.proc p) = .kill pid i)
    (hstep : kill s p pid i = some t) (hinv : t.Inv) : Sim c s t := by
  rw [Sched.kill] at hstep
  split at hstep
  · split at hstep
    · refine h.visitNext hc hstep (fun _ => rfl) ?_ hpc rfl ⟨rfl, fun _ => trivial⟩ hinv
      intro x
      dsimp only
      split
      · rename_i hsleep
        exact Or.inr ⟨hsleep, rfl⟩
      · exact Or.inl rfl
    · exact h.visitNext hc hstep (fun _ => rfl) (fun _ => Or.inl rfl) hpc rfl ⟨rfl, False.elim⟩ hinv
  · cases hstep
    exact h.go hc (Alike.refl s) hpc rfl ⟨rfl, fun _ => trivial⟩ hinv

/-- An entry that is not in use, or that of a process that has exited, gets new code, and the
process goes on. -/
theorem other (hqp : q ≠ p) (hpc : (s.pc (.proc p)).view = .plain)
    (hchan : (s.pc (.proc p)).chan p = none) {y : Proc S} (hq : s.pc (.proc q) = .dead ∨
      s.pc (.proc q) = .switched .exit) (hy : y.chan = none) (hstate : y.state ≠ .sleeping)
    (hview : k.view = .plain) (hkchan : k.chan q = none)
    (hu : Alike ((s.setProc q y).goto (.proc q) k) u)
    (hinv : (u.goto (.proc p) .user).Inv) : Sim c s (u.goto (.proc p) .user) := by
  have hpcs : (u.goto (.proc p) .user).pc = update (update s.pc (.proc q) k) (.proc p) .user := by
    rw [← (show u.pc = update s.pc (.proc q) k from hu.pc)]
    rfl
  have hproc : ∀ q', q' ≠ q →
    ((s.setProc q y).goto (.proc q) k).proc q' = s.proc q' := fun q' hne =>
    setProc_of_ne hne
  have hself : ((s.setProc q y).goto (.proc q) k).proc q = y := setProc_self
  have hold : (s.pc (.proc q)).view = .plain ∧ ¬ (s.pc (.proc q)).inHandler := by
    rcases hq with hq | hq
    · rw [hq]
      exact ⟨rfl, fun hh => hh⟩
    · rw [hq]
      exact ⟨rfl, fun hh => hh⟩
  have h₁ : Tidy ((s.setProc q y).goto (.proc q) k) := by
    refine h.own rfl rfl rfl (fun q' hne => congrArg Proc.chan (hproc q' hne)) ?_
      fun hb => absurd (h.handler q hb) hold.2
    rw [hself, hy, hkchan]
  have hp : ((s.setProc q y).goto (.proc q) k).pc (.proc p) = s.pc (.proc p) :=
    goto_pc_of_ne (proc_ne hqp.symm)
  have h₂ : Tidy (u.goto (.proc p) .user) := by
    refine h₁.own (p := p) (k := .user) ?_ hu.cpu hu.below
      (fun q' _ => hu.chan q') ?_ fun _ => trivial
    · rw [hpcs]
      rfl
    · rw [show (u.goto (.proc p) .user).proc p = u.proc p from rfl, hu.chan p, hproc p hqp.symm,
        h.chan p, hchan]
      rfl
  refine sim_same ⟨h₂, hinv⟩ hu.slock hu.seen hu.sleeps hu.locked ?_
    (fun c' => Or.inl (congrFun (who_congr hu.cpu) c')) ?_
  · intro x
    rw [hpcs]
    by_cases hxp : x = .proc p
    · rw [hxp, update_self, hpc]
      rfl
    · rw [update_of_ne hxp]
      by_cases hxq : x = .proc q
      · rw [hxq, update_self, hview, hold.1]
      · rw [update_of_ne hxq]
  · intro q' hsleep
    have hsleep' := hu.asleep q' hsleep
    by_cases hne : q' = q
    · rw [hne, hself] at hsleep'
      exact absurd hsleep' hstate
    · rw [hproc q' hne] at hsleep'
      exact Or.inl hsleep'

section

variable (hc : (s.cpu c).loop = .gone p)

include hc

theorem forkInto {n : Int} (hpc : s.pc (.proc p) = .forkScan i)
    (hfree : s.plock q = none) (hunused : (s.proc q).state = .unused)
    (hstep : forkInto { s with nextpid := n } p q a = some t) (hinv : t.Inv) : Sim c s t := by
  have hoff := Sched.Inv.off_of_open h.inv (open_of_free hfree) (by rw [hunused]; simp)
  have hcode := h.pc_of_off hoff (Or.inl hunused)
  have halike : Alike s { s with nextpid := n } :=
    ⟨rfl, rfl, rfl, rfl, rfl, rfl, rfl, fun _ => rfl, fun _ hsleep => hsleep⟩
  have hchan : (s.proc q).chan = none := by
    rw [h.chan q]
    rcases hcode with hcode | hcode <;> rw [hcode] <;> rfl
  have hnext : ∀ {u : State C L S}, Alike s u → (u.goto (.proc p) .user).Inv →
      Sim c s (u.goto (.proc p) .user) := fun hu hinv =>
    h.go hc hu hpc rfl ⟨rfl, fun _ => trivial⟩ hinv
  cases a with
  | nopage =>
    cases hstep
    exact hnext (halike.setProc rfl fun hsleep => hsleep) hinv
  | fail =>
    cases hstep
    exact hnext (halike.setProc hchan.symm (by simp [freeproc])) hinv
  | go =>
    cases hstep
    have hqp : q ≠ p := h.inv.ne_of_state hc (by rw [hunused, hpc]; simp [Pc.state])
    refine h.other (k := .switched .forkret)
      (y := { s.proc q with pid := n, parent := some p, state := .runnable }) hqp (by rw [hpc]; rfl)
      (by rw [hpc]; rfl) hcode hchan (by simp) rfl rfl ?_ hinv
    exact ⟨rfl, rfl, rfl, rfl, rfl, rfl, rfl, fun _ => rfl, fun _ hsleep => hsleep⟩
  | _ => cases hstep

theorem forkScan (hpc : s.pc (.proc p) = .forkScan i)
    (hstep : forkScan s p i a = some t) (hinv : t.Inv) : Sim c s t := by
  rw [Sched.forkScan] at hstep
  split at hstep
  · split at hstep
    · rename_i hfree
      split at hstep
      · rename_i hunused
        exact h.forkInto hc hpc hfree hunused hstep hinv
      · cases hstep
        exact h.go hc (Alike.refl s) hpc rfl ⟨rfl, False.elim⟩ hinv
    · cases hstep
  · cases hstep
    exact h.go hc (Alike.refl s) hpc rfl ⟨rfl, fun _ => trivial⟩ hinv

theorem exitRead (hpc : s.pc (.proc p) = .exitRead)
    (hstep : exitRead s p = some t) (hinv : t.Inv) : Sim c s t := by
  obtain ⟨s₁, hvisit, hstep⟩ := Option.bind_eq_some_iff.mp hstep
  obtain ⟨op, -, rfl⟩ := Option.map_eq_some_iff.mp hstep
  exact h.go hc (Alike.visit hvisit (fun _ => rfl) fun _ => Or.inl rfl) hpc rfl
    ⟨rfl, False.elim⟩ hinv

theorem reparent {op : Pid} (hpc : s.pc (.proc p) = .reparent op i)
    (hstep : reparent s p op i = t) (hinv : t.Inv) :
    Sim c s t := by
  rw [Sched.reparent] at hstep
  split at hstep
  · split at hstep
    · subst hstep
      exact h.go hc (Alike.refl s) hpc rfl ⟨rfl, False.elim⟩ hinv
    · subst hstep
      exact h.go hc (Alike.refl s) hpc rfl ⟨rfl, False.elim⟩ hinv
  · subst hstep
    exact h.go hc (Alike.refl s) hpc rfl ⟨rfl, False.elim⟩ hinv

theorem exitDie {op : Pid}
    (hpc : s.pc (.proc p) = .exitDie op) (hinv : (exitDie s p op).Inv) :
    Sim c s (exitDie s p op) := by
  have hwoken : Alike s (s.setProc op (wakeup1 op (s.proc op))) := by
    refine (Alike.refl s).setProc (wake_chan _ _) fun hsleep => ?_
    rcases wake_state (.proc op) (s.proc op) with heq | ⟨hsleeping, -⟩
    · exact heq.symm.trans hsleep
    · exact hsleeping
  exact h.go hc (hwoken.setProc (hwoken.chan p) (by simp)) hpc rfl ⟨rfl, False.elim⟩ hinv

theorem waitScan {havekids : Bool}
    (hpc : s.pc (.proc p) = .waitScan i havekids) (hstep : waitScan s p i havekids = t)
    (hinv : t.Inv) : Sim c s t := by
  rw [Sched.waitScan] at hstep
  split at hstep
  · split at hstep
    · subst hstep
      exact h.go hc (Alike.refl s) hpc rfl ⟨rfl, False.elim⟩ hinv
    · subst hstep
      exact h.go hc (Alike.refl s) hpc rfl ⟨rfl, False.elim⟩ hinv
  · split at hstep
    · subst hstep
      exact h.go hc ((Alike.refl s).setLock _) hpc rfl ⟨rfl, fun _ => trivial⟩ hinv
    · subst hstep
      exact h.alone (by rw [hpc]; rfl) (by rw [hpc]; simp [Pc.view]) rfl
        (by rw [hpc]; exact False.elim) hinv

theorem waitFound {np : Pid} (hpc : s.pc (.proc p) = .waitFound np)
    (hstep : waitFound s p np a = some t) (hinv : t.Inv) : Sim c s t := by
  have hlocks := (Sched.Inv.gone h.inv c p hc).locks
  have hnodup := (Sched.Inv.gone h.inv c p hc).nodup
  rw [hpc] at hlocks hnodup
  have hnp : s.plock np = some c := hlocks np (by simp [Pc.plocks])
  have hne : np ≠ p := by
    rintro rfl
    simp [Pc.plocks] at hnodup
  unfold Sched.waitFound at hstep
  by_cases hzombie : (s.proc np).state = .zombie
  · rw [if_pos hzombie] at hstep
    cases a with
    | fail =>
      cases hstep
      exact h.go hc (((Alike.refl s).setLock _).setLock _) hpc rfl ⟨rfl, fun _ => trivial⟩ hinv
    | go =>
      cases hstep
      have hoff := h.inv.off_of_held hc hnp hne (by rw [hzombie]; simp)
      exact h.other (k := .dead) (y := freeproc (s.proc np)) hne (by rw [hpc]; rfl)
        (by rw [hpc]; rfl) (h.pc_of_off hoff (Or.inr hzombie)) rfl (by simp [freeproc]) rfl rfl
        (((Alike.refl _).setLock _).setLock _) hinv
    | _ => cases hstep
  · rw [if_neg hzombie] at hstep
    cases a with
    | go =>
      cases hstep
      exact h.go hc ((Alike.refl s).setLock _) hpc rfl ⟨rfl, False.elim⟩ hinv
    | _ => cases hstep

theorem yield (hpc : s.pc (.proc p) = .yield)
    (hstep : yield s c p = some t) (hinv : t.Inv) : Sim c s t := by
  obtain ⟨s₁, hacquire, rfl⟩ := Option.map_eq_some_iff.mp hstep
  obtain ⟨-, rfl⟩ := acquire_eq_some.mp hacquire
  exact h.go hc (((Alike.refl s).setLock _).setProc rfl (by simp)) hpc rfl
    ⟨rfl, fun _ => trivial⟩ hinv

end

end

/-! ## Spin locks and sleep locks -/

theorem crit (h : Calm s) (hat : At s c x) {l : L} (hpc : s.pc x = .crit l)
    (hstep : crit s x l a = some t) (hinv : t.Inv) : Sim c s t := by
  cases a with
  | release =>
    cases hstep
    refine h.drop hat (by rw [hpc]; rfl) (fun _ hk => hk) ?_ rfl hinv
    intro p _
    rw [hpc]
    exact ⟨rfl, fun _ => trivial⟩
  | wakeup n =>
    cases hstep
    refine h.scan hat (Alike.refl s) ?_ hinv ?_
    · intro p _
      rw [hpc]
      exact ⟨rfl, fun _ => trivial⟩
    · have hview : s.obs.view (s.obs.who c) = .hold (.other l) :=
        (congrArg (fun y => (s.pc y).view) hat.who).trans (by rw [hpc]; rfl)
      have hchange := Change.wakeup (c := c) (o := s.obs) (.other l) n hview
      rw [show s.obs.who c = x from hat.who] at hchange
      exact hchange
  | sleep n =>
    cases x with
    | proc p =>
      simp only [Sched.crit] at hstep
      split at hstep
      · rename_i hbelow
        cases hstep
        exact h.enter hat (by rw [hpc]; rfl) (by rw [hpc]; rfl)
          (Option.isNone_iff_eq_none.mp hbelow) (by simp) hinv
      · cases hstep
    | sched c' => cases hstep
  | _ => cases hstep

section

variable (h : Calm s) (hc : (s.cpu c).loop = .gone p)

include h hc

theorem testing {k : S} (hpc : s.pc (.proc p) = .testing k)
    (hinv : (testing s p k).Inv) : Sim c s (testing s p k) := by
  rw [Sched.testing] at hinv ⊢
  split at hinv
  · rename_i hlocked
    rw [if_pos hlocked]
    refine h.enter (at_of_gone hc) (by rw [hpc]; rfl) (by rw [hpc]; rfl) ?_ ?_ hinv
    · by_contra hne
      have hhandler := h.handler p hne
      rw [hpc] at hhandler
      exact hhandler
    · intro k' hk
      cases hk
      exact ⟨rfl, hlocked⟩
  · rename_i hlocked
    rw [if_neg hlocked]
    refine h.drop (at_of_gone hc) (by rw [hpc]; rfl) ?_ ?_ rfl hinv
    · intro k' hk
      by_cases hkk : k' = k
      · rw [hkk, update_self]
      · rw [update_of_ne hkk]
        exact hk
    · intro p' _
      rw [hpc]
      exact ⟨rfl, fun _ => trivial⟩

theorem unlocking {k : S} (hpc : s.pc (.proc p) = .unlocking k) (hinv : (unlocking s p k).Inv) :
    Sim c s (unlocking s p k) := by
  refine ⟨⟨h.move (at_of_gone hc) rfl rfl rfl (fun _ => rfl) ?_, hinv⟩, ?_⟩
  · intro p' _
    rw [hpc]
    exact ⟨rfl, False.elim⟩
  · have hwho : s.obs.who c = .proc p := who_of_gone hc
    have hview : s.obs.view (s.obs.who c) = .hold (.inner k) := by
      rw [hwho]
      exact congrArg Pc.view hpc
    have hchange := Change.unlock (c := c) (o := s.obs) k hview
    rw [hwho] at hchange
    convert hchange using 1
    simp only [State.obs, Sched.unlocking, State.goto, view_update]
    rfl

theorem releasing {k : S} (hpc : s.pc (.proc p) = .releasing k) (hinv : (releasing s p k).Inv) :
    Sim c s (releasing s p k) := by
  refine h.drop (at_of_gone hc) (by rw [hpc]; rfl) (fun _ hk => hk) ?_ rfl hinv
  intro p' _
  rw [hpc]
  exact ⟨rfl, fun _ => trivial⟩

theorem sleepAgain (hpc : s.pc (.proc p) = .sleepAgain lk)
    (hstep : sleepAgain s c p lk = some t) (hinv : t.Inv) : Sim c s t := by
  refine h.takeNext hc hstep hpc rfl ?_ ?_ hinv
  · cases lk <;> rfl
  · cases lk <;> exact ⟨rfl, False.elim⟩

end

/-! ## All of it -/

theorem proceed (h : Calm s) (hc : (s.cpu c).loop = .gone p)
    (hpc : s.pc (.proc p) = k) (hstep : proceed s c p k = some t) (hinv : t.Inv) : Sim c s t := by
  cases k with
  | want l => exact h.takeNext hc hstep hpc rfl rfl ⟨rfl, fun _ => trivial⟩ hinv
  | wakeup chan lk i => exact h.wakeup (at_of_gone hc) hpc hstep hinv
  | acquiresleep k | releasesleep k => exact h.takeNext hc hstep hpc rfl rfl ⟨rfl, False.elim⟩ hinv
  | testing k =>
    cases hstep
    exact h.testing hc hpc hinv
  | unlocking k =>
    cases hstep
    exact h.unlocking hc hpc hinv
  | releasing k =>
    cases hstep
    exact h.releasing hc hpc hinv
  | sleepLock chan lk => exact h.acquireNext hc hstep hpc rfl ⟨rfl, False.elim⟩ hinv
  | sleepRelease chan lk =>
    cases hstep
    exact h.sleepRelease (at_of_gone hc) hpc hinv
  | sleepState chan lk =>
    cases hstep
    exact h.sleepState hpc hinv
  | sleepAgain lk => exact h.sleepAgain hc hpc hstep hinv
  | sched r => exact h.sched hc hpc hstep hinv
  | switched r => exact h.switched hc hpc hstep hinv
  | yield => exact h.yield hc hpc hstep hinv
  | kill pid i => exact h.kill hc hpc hstep hinv
  | exitInit =>
    exact h.visitNext hc hstep (wake_chan _) (wake_state _) hpc rfl ⟨rfl, False.elim⟩ hinv
  | exitRead => exact h.exitRead hc hpc hstep hinv
  | exitLockParent op | exitLockSelf op | waitLock | waitChild np =>
    exact h.acquireNext hc hstep hpc rfl ⟨rfl, False.elim⟩ hinv
  | reparent op i => exact h.reparent hc hpc (Option.some.inj hstep) hinv
  | giveAway op pp =>
    exact h.visitNext hc hstep (fun _ => rfl) (fun _ => Or.inl rfl) hpc rfl ⟨rfl, False.elim⟩ hinv
  | exitDie op =>
    cases hstep
    exact h.exitDie hc hpc hinv
  | exitRelease op =>
    cases hstep
    exact h.go hc ((Alike.refl s).setLock _) hpc rfl ⟨rfl, False.elim⟩ hinv
  | waitScan i havekids => exact h.waitScan hc hpc (Option.some.inj hstep) hinv
  | user | crit l | forkScan i | waitFound np | dead => cases hstep

/-- An interrupt comes, or a handler returns. -/
theorem interrupt (h : Calm s) {b : Option { pc : Pc L S // pc.interruptible = true }}
    (hold : (s.pc (.proc p)).view = .plain ∧ (s.pc (.proc p)).chan p = none)
    (hk : k.view = .plain ∧ k.chan p = none) (hb : b ≠ none → k.inHandler)
    (ht : { s.goto (.proc p) k with below := update s.below p b } = t) (hinv : t.Inv) :
    Sim c s t := by
  have hpc : t.pc = update s.pc (.proc p) k := by rw [← ht]; rfl
  have hbelow : t.below = update s.below p b := by rw [← ht]
  have hproc : t.proc = s.proc := by rw [← ht]; rfl
  have hcpu : t.cpu = s.cpu := by rw [← ht]; rfl
  refine sim_same ⟨⟨?_, ?_, ?_⟩, hinv⟩ (by rw [← ht]; rfl) (by rw [← ht]; rfl) (by rw [← ht]; rfl)
    (by rw [← ht]; rfl) ?_ (fun c' => Or.inl (congrFun (who_congr hcpu) c')) ?_
  · intro q
    rw [hproc, hpc, h.chan q]
    by_cases hq : q = p
    · rw [hq, update_self, hold.2, hk.2]
    · rw [update_of_ne (proc_ne hq)]
  · intro q hq
    rw [hbelow] at hq
    rw [hpc]
    by_cases hqp : q = p
    · rw [hqp, update_self] at hq
      rw [hqp, update_self]
      exact hb hq
    · rw [update_of_ne hqp] at hq
      rw [update_of_ne (proc_ne hqp)]
      exact h.handler q hq
  · intro c' hc'
    rw [hcpu] at hc'
    rw [hpc, update_of_ne (by simp)]
    exact h.idle c' hc'
  · intro x
    rw [hpc]
    by_cases hx : x = .proc p
    · rw [hx, update_self, hold.1, hk.1]
    · rw [update_of_ne hx]
  · intro q hsleep
    rw [hproc] at hsleep
    exact Or.inl hsleep

theorem user (h : Calm s) (hc : (s.cpu c).loop = .gone p) (hpc : s.pc (.proc p) = .user)
    (hstep : user s p a = some t) (hinv : t.Inv) : Sim c s t := by
  cases a with
  | lock l | yield =>
    cases hstep
    exact h.go hc (Alike.refl s) hpc rfl ⟨rfl, fun _ => trivial⟩ hinv
  | call k =>
    simp only [Sched.user] at hstep
    split at hstep
    · rename_i hbelow
      obtain ⟨pc, hstart, rfl⟩ := Option.map_eq_some_iff.mp hstep
      have hk : pc.view = .plain ∧ ∀ p, pc.chan p = none := by
        apply quiet_of_interruptible
        cases k with
        | exit =>
          simp only [Call.start] at hstart
          split at hstart
          · cases hstart
          · cases hstart
            rfl
        | _ =>
          cases hstart
          rfl
      have hnone := Option.isNone_iff_eq_none.mp hbelow
      refine h.interrupt (p := p) (k := pc) (b := none) (by rw [hpc]; exact ⟨rfl, rfl⟩)
        ⟨hk.1, hk.2 p⟩ (fun hne => absurd rfl hne) ?_ hinv
      rw [← hnone, update_eq_self]
      rfl
    · cases hstep
  | iret =>
    obtain ⟨pc, -, rfl⟩ := Option.map_eq_some_iff.mp hstep
    obtain ⟨hview, hchan⟩ := quiet_of_interruptible pc.property
    exact h.interrupt (by rw [hpc]; exact ⟨rfl, rfl⟩) ⟨hview, hchan p⟩
      (fun hne => absurd rfl hne) rfl hinv
  | _ => cases hstep

theorem trap (h : Calm s) (hstep : trap s p = some t) (hinv : t.Inv) : Sim c s t := by
  rw [Sched.trap] at hstep
  split at hstep
  · rename_i htrap
    cases hstep
    obtain ⟨hview, hchan⟩ := quiet_of_interruptible htrap.2
    exact h.interrupt (k := .user) ⟨hview, hchan p⟩ ⟨rfl, rfl⟩ (fun _ => trivial) rfl hinv
  · cases hstep

theorem process (h : Calm s) (hc : (s.cpu c).loop = .gone p) (hstep : process s c p a = some t)
    (hinv : t.Inv) : Sim c s t := by
  unfold Sched.process at hstep
  split at hstep
  · exact h.trap hstep hinv
  · split at hstep
    · rename_i hpc
      exact h.user hc hpc hstep hinv
    · rename_i hpc
      exact h.crit (at_of_gone hc) hpc hstep hinv
    · rename_i hpc
      exact h.forkScan hc hpc hstep hinv
    · rename_i hpc
      exact h.waitFound hc hpc hstep hinv
    · split at hstep
      · exact h.proceed hc rfl hstep hinv
      · cases hstep

theorem schedule (h : Calm s) (hc : (s.cpu c).loop = .scan i) (hstep : schedule s c i a = some t)
    (hinv : t.Inv) : Sim c s t := by
  have hat := at_of_scan hc
  unfold Sched.schedule at hstep
  split at hstep
  · rename_i hpc
    split at hstep
    · exact h.scheduler hc hpc hstep hinv
    · cases hstep
      exact h.next hat (Alike.refl s) (by rw [hpc]; rfl) (by simp) hinv
    · cases hstep
  · rename_i hpc
    split at hstep
    · exact h.take hat (by rw [hpc]; rfl) rfl (by simp) hstep hinv
    · cases hstep
  · rename_i hpc
    exact h.crit hat hpc hstep hinv
  · rename_i hpc
    split at hstep
    · exact h.wakeup hat hpc hstep hinv
    · cases hstep
  · cases hstep

/-- Every step is one of the protocol. -/
theorem step (h : Calm s) (hstep : step s c a = some t) : Sim c s t := by
  have hinv := h.inv.step hstep
  unfold Sched.step at hstep
  split at hstep
  · rename_i i hc
    exact h.schedule hc hstep hinv
  · rename_i p hc
    exact h.process hc hstep hinv
  · rename_i p hc
    split at hstep
    · cases hstep
      exact h.schedulerBack hc hinv
    · cases hstep

end Calm

/-! ## In every run -/

theorem run_calm {as : List (C × Act L S)} (hrun : run as boot = some s) :
    Calm s ∧ Sound s.obs := by
  refine run_isRun.keeps (I := fun s => Calm s ∧ Sound s.obs) ?_ ⟨boot_calm, boot_sound⟩ hrun
  rintro x s t ⟨hcalm, hsound⟩ hstep
  obtain ⟨hcalm', hchange⟩ := hcalm.step hstep
  exact ⟨hcalm', hsound.change hchange⟩

/-- What `sleep` and `wakeup` promise. -/
structure WakesUp (s : State C L S) : Prop where
  /-- When a `wakeup` has been through the table, no call of `sleep` that was going on with the same
  spin lock when that was taken is asleep on the channel. -/
  woken : ∀ x q lk i, s.pc x = .wakeup q lk i → NPROC ≤ i → ∀ p n, s.seen x p = some n →
    (s.proc p).state = .sleeping → (s.proc p).chan = some (.key q) → s.sleeps p ≠ n
  /-- `sleep` returns with the spin lock, and `p->chan` is zero. -/
  slept : ∀ c p lk a t, (s.cpu c).loop = .gone p → s.pc (.proc p) = .sleepAgain lk →
    step s c a = some t → t.pc (.proc p) = lk.slept → t.slock lk = some c ∧ (t.proc p).chan = none
  /-- Who waits for a sleep lock waits for one that is held, when its spin lock is free. -/
  waits : ∀ p k, s.slock (.inner k) = none → (s.proc p).state = .sleeping →
    (s.proc p).chan = some (.key (.sleeplock k)) → s.locked k = true

theorem Calm.slept (h : Calm s) (hc : (s.cpu c).loop = .gone p)
    (hpc : s.pc (.proc p) = .sleepAgain lk) (hstep : Sched.step s c a = some t)
    (hslept : t.pc (.proc p) = lk.slept) :
    t.slock lk = some c ∧ (t.proc p).chan = none := by
  have hcalm := (h.step hstep).1
  refine ⟨?_, ?_⟩
  · simp only [Sched.step, hc, Sched.process, hpc] at hstep
    cases a with
    | trap =>
      simp only [Sched.trap] at hstep
      split at hstep
      · cases hstep
        have huser : lk.slept = .user := hslept.symm.trans (goto_pc_self (s := s))
        cases lk <;> cases huser
      · cases hstep
    | go =>
      obtain ⟨s₁, htake, rfl⟩ := Option.map_eq_some_iff.mp hstep
      obtain ⟨-, rfl⟩ := take_eq_some.mp htake
      exact update_self ..
    | _ => cases hstep
  · rw [hcalm.chan p, hslept]
    cases lk <;> rfl

/-- In every state that any processors reach, no wakeup is lost. -/
theorem run_wakesUp {as : List (C × Act L S)} (hrun : run as boot = some s) : WakesUp s := by
  obtain ⟨hcalm, hsound⟩ := run_calm hrun
  refine ⟨?_, ?_, ?_⟩
  · intro x q lk i hpc hi p n hseen hsleep hchan hn
    have hview : s.obs.view x = .wake q lk i := congrArg Pc.view hpc
    rw [← hn] at hseen
    exact hsound.woken x q lk i hview p (p.isLt.trans_le hi) hseen
      (Or.inr ⟨hcalm.down_of_chan hchan, hsleep⟩)
  · intro c p lk a t hc hpc hstep hslept
    exact hcalm.slept hc hpc hstep hslept
  · intro p k hfree hsleep hchan
    rcases hsound.sleeping p k (Or.inr ⟨hcalm.down_of_chan hchan, hsleep⟩) with hk | ⟨x, i, hx, -⟩
    · exact hk
    · -- a `wakeup` for the sleep lock holds the spin lock
      have hlk : (s.obs.view x).lk = some (.inner k) := by rw [hx]; rfl
      exact absurd hfree (hsound.lock_ne_none hlk)

/-- A process waits on one processor for the sleep lock that another one has, and this one releases
it, up to the end of `wakeup`. -/
def lockedOut : List (Bool × Act Unit Unit) :=
  [(false, .go), (false, .go), (false, .call .fork), (false, .go), (false, .go),
    (true, .go), (true, .go), (true, .go),
    (false, .call (.acquiresleep ())), (false, .go), (false, .go),
    -- `sleep`, and the rest of the round of the scheduler
    (true, .call (.acquiresleep ())), (true, .go), (true, .go), (true, .go),
      (true, .go), (true, .go),
    (true, .go), (true, .go),
    (false, .call (.releasesleep ())), (false, .go), (false, .go)] ++
  List.replicate NPROC (false, .go)

theorem run_wakesUp_lockedOut :
    ∃ s : State Bool Unit Unit, run lockedOut boot = some s ∧ s.seen (.proc 0) 1 = some 1 ∧
      (s.proc 1).state = .runnable ∧ s.sleeps 1 = 1 ∧ WakesUp s := by
  have hrun :
    (run lockedOut boot).map (fun s => (s.seen (.proc 0) 1, (s.proc 1).state, s.sleeps 1)) =
      some (some 1, .runnable, 1) := by
    decide +kernel
  obtain ⟨s, hs, hstate⟩ := Option.map_eq_some_iff.mp hrun
  refine ⟨s, hs, congrArg Prod.fst hstate, ?_, ?_, run_wakesUp hs⟩
  · exact congrArg (fun y => y.2.1) hstate
  · exact congrArg (fun y => y.2.2) hstate

end Xv6.Sched
