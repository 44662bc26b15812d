/-
  Sched/Sleep.lean --- no wakeup is lost.

  The code does what `Sched/Protocol.lean` says: a process that is in `sched` for a `sleep` has
  `p->chan` set, one that is between `release(lk)` and `swtch` holds `p->lock`, and one that no
  processor executes holds no spin lock.
-/
import Xv6.Sched.Protocol
import Xv6.Sched.Routines

set_option autoImplicit false

namespace Xv6.Sched

open Function
open Procs (ProcState initproc incrInt)

variable {C L S : Type}

/-! ## What code does, as the protocol sees it -/

def Pc.view : Pc L S → View L S
  | .crit l => .hold (.other l)
  | .testing k | .unlocking k | .releasing k => .hold (.inner k)
  | .wakeup q lk i => .wake q lk i
  | .sleepLock q lk | .sleepRelease q lk => .enter q lk
  | .sleepState q _ => .mid q
  | .sched (.sleep q _) | .switched (.sleep q _) => .down q
  | _ => .plain

/-- Who is about to sleep and has the spin lock is in one of two places. -/
theorem Pc.eq_of_enter {k : Pc L S} {q : Key S} {lk : Lk L S} (h : k.view = .enter q lk) :
    k = .sleepLock q lk ∨ k = .sleepRelease q lk := by
  cases k with
  | sleepLock q' lk' =>
    cases h
    exact Or.inl rfl
  | sleepRelease q' lk' =>
    cases h
    exact Or.inr rfl
  | sched r | switched r => cases r <;> cases h
  | _ => cases h

/-- `p->chan` -/
def Pc.chan (p : Pid) : Pc L S → Option (Chan S)
  | .sched (.sleep q _) | .switched (.sleep q _) => some (.key q)
  | .sched .wait | .switched .wait => some (.proc p)
  | _ => none

namespace State

/-- What a processor executes. -/
def who (s : State C L S) (c : C) : Ctx C :=
  match (s.cpu c).loop with
  | .gone p => .proc p
  | _ => .sched c

def obs (s : State C L S) : Obs C L S where
  view x := (s.pc x).view
  who := s.who
  lock := s.slock
  seen := s.seen
  sleeps := s.sleeps
  asleep p := (s.proc p).state = .sleeping
  locked := s.locked

end State

/-- Where an interrupt handler can be on the stack of a process. -/
def Pc.inHandler : Pc L S → Prop
  | .user | .want _ | .crit _ | .wakeup _ (.other _) _ | .yield | .sched .yield
  | .switched .yield => True
  | _ => False

/-- What the protocol does not see. -/
structure Tidy (s : State C L S) : Prop where
  chan : ∀ p, (s.proc p).chan = (s.pc (.proc p)).chan p
  handler : ∀ p, s.below p ≠ none → (s.pc (.proc p)).inHandler
  /-- No handler is on the stack of a scheduler that is in `swtch`, or just behind it. -/
  idle : ∀ c, (∀ i, (s.cpu c).loop ≠ .scan i) → s.pc (.sched c) = .user

structure Calm (s : State C L S) : Prop extends Tidy s where
  inv : s.Inv

variable {s t u : State C L S} {c : C} {p q : Pid} {k : Pc L S} {y : Proc S}
  {x : Ctx C} {lk : Lk L S} {i : Nat}

theorem who_of_gone (hc : (s.cpu c).loop = .gone p) : s.who c = .proc p := by
  rw [State.who, hc]

theorem who_of_scan (hc : (s.cpu c).loop = .scan i) : s.who c = .sched c := by
  rw [State.who, hc]

theorem State.Inv.who_injective (h : s.Inv) : Injective s.who := by
  intro c c' hcc
  rw [State.who, State.who] at hcc
  cases hc : (s.cpu c).loop with
  | gone p =>
    cases hc' : (s.cpu c').loop with
    | gone p' =>
      rw [hc, hc'] at hcc
      cases hcc
      exact Sched.Inv.uniq h c c' p (Sched.Inv.proc_of_gone h hc) (Sched.Inv.proc_of_gone h hc')
    | scan i | back p' =>
      rw [hc, hc'] at hcc
      cases hcc
  | scan i | back p =>
    cases hc' : (s.cpu c').loop with
    | gone p' =>
      rw [hc, hc'] at hcc
      cases hcc
    | scan i' | back p' =>
      rw [hc, hc'] at hcc
      cases hcc
      rfl

/-- A processor executes this code. -/
structure At (s : State C L S) (c : C) (x : Ctx C) : Prop where
  who : s.who c = x
  scan : ∀ c', x = .sched c' → ∃ i, (s.cpu c').loop = .scan i

theorem at_of_gone (hc : (s.cpu c).loop = .gone p) : At s c (.proc p) :=
  ⟨who_of_gone hc, by simp⟩

theorem at_of_scan (hc : (s.cpu c).loop = .scan i) : At s c (.sched c) := by
  refine ⟨who_of_scan hc, ?_⟩
  intro c' hcc
  cases hcc
  exact ⟨i, hc⟩

theorem who_congr (h : t.cpu = s.cpu) : t.who = s.who := by
  funext c
  rw [State.who, State.who, h]

/-- What a place in the code of `p` must have in common with the one before. -/
structure Pc.Follows (p : Pid) (k k' : Pc L S) : Prop where
  chan : k'.chan p = k.chan p
  handler : k.inHandler → k'.inHandler

theorem setProc_self : (s.setProc q y).proc q = y := update_self ..

theorem setProc_of_ne (h : p ≠ q) : (s.setProc q y).proc p = s.proc p := update_of_ne h ..

/-- Who is in a `sleep` with a spin lock that is being taken. -/
theorem Calm.of_sleepers [DecidableEq L] [DecidableEq S] (h : Calm s) {n : Nat}
    (hn : s.sleepers lk p = some n) : n = s.sleeps p ∧
      ∀ q lk', (s.pc (.proc p)).view = .enter q lk' → lk' = lk := by
  rw [State.sleepers] at hn
  split at hn
  · rename_i hsleep
    cases hn
    refine ⟨rfl, ?_⟩
    intro q lk' hview
    rw [Bool.or_eq_true] at hsleep
    rcases hsleep with hsleep | hbelow
    · rcases Pc.eq_of_enter hview with hpc | hpc
      · rw [hpc] at hsleep
        exact of_decide_eq_true hsleep
      · rw [hpc] at hsleep
        exact of_decide_eq_true hsleep
    · -- a handler does not sleep
      have hhandler := h.handler p (by rintro hnone; rw [hnone] at hbelow; cases hbelow)
      rcases Pc.eq_of_enter hview with hpc | hpc
      · rw [hpc] at hhandler
        cases hhandler
      · rw [hpc] at hhandler
        cases hhandler
  · cases hn

/-- A process whose lock is free is not about to sleep. -/
theorem Calm.view_ne_mid (h : Calm s) (hfree : s.plock p = none) (q : Key S) :
    (s.pc (.proc p)).view ≠ .mid q := by
  intro hview
  have hpc : ∃ lk, s.pc (.proc p) = .sleepState q lk := by
    cases hpc : s.pc (.proc p) with
    | sleepState q' lk =>
      rw [hpc] at hview
      cases hview
      exact ⟨lk, rfl⟩
    | sched r | switched r =>
      rw [hpc] at hview
      cases r <;> cases hview
    | _ =>
      rw [hpc] at hview
      cases hview
  obtain ⟨lk, hpc⟩ := hpc
  by_cases hon : ∃ c, (s.cpu c).proc = some p
  · obtain ⟨c, hc⟩ := hon
    have hmem := (Sched.Inv.running_of_open h.inv (open_of_free hfree) hc).2
    rw [hpc] at hmem
    exact hmem List.mem_cons_self
  · rcases Sched.Inv.off h.inv p (fun c hc => hon ⟨c, hc⟩) with ⟨-, hdead⟩ | ⟨r, hr, -⟩
    · cases hpc.symm.trans hdead
    · cases hpc.symm.trans hr

/-- Who is in `sched` for a `sleep` has `p->chan` set. -/
theorem Calm.chan_of_down (h : Calm s) {q : Key S} (hview : (s.pc (.proc p)).view = .down q) :
    (s.proc p).chan = some (.key q) := by
  rw [h.chan p]
  cases hpc : s.pc (.proc p) with
  | sched r | switched r =>
    rw [hpc] at hview
    cases r with
    | sleep q' lk =>
      cases hview
      rfl
    | _ => cases hview
  | _ =>
    rw [hpc] at hview
    cases hview

/-- States with the same code, and at most fewer processes asleep. -/
structure Alike (s u : State C L S) : Prop where
  pc : u.pc = s.pc
  cpu : u.cpu = s.cpu
  below : u.below = s.below
  slock : u.slock = s.slock
  seen : u.seen = s.seen
  sleeps : u.sleeps = s.sleeps
  locked : u.locked = s.locked
  chan : ∀ q, (u.proc q).chan = (s.proc q).chan
  asleep : ∀ q, (u.proc q).state = .sleeping → (s.proc q).state = .sleeping

namespace Alike

theorem refl (s : State C L S) : Alike s s :=
  ⟨rfl, rfl, rfl, rfl, rfl, rfl, rfl, fun _ => rfl, fun _ h => h⟩

theorem setLock (h : Alike s u) (holder : Option C) : Alike s (u.setLock q holder) :=
  ⟨h.pc, h.cpu, h.below, h.slock, h.seen, h.sleeps, h.locked, h.chan, h.asleep⟩

theorem setProc (h : Alike s u) (hchan : y.chan = (s.proc q).chan)
    (hstate : y.state = .sleeping → (s.proc q).state = .sleeping) : Alike s (u.setProc q y) := by
  refine ⟨h.pc, h.cpu, h.below, h.slock, h.seen, h.sleeps, h.locked, ?_, ?_⟩
  · intro p
    by_cases hp : p = q
    · rw [hp, setProc_self, hchan]
    · rw [setProc_of_ne hp, h.chan p]
  · intro p hsleep
    by_cases hp : p = q
    · rw [hp, setProc_self] at hsleep
      rw [hp]
      exact hstate hsleep
    · rw [setProc_of_ne hp] at hsleep
      exact h.asleep p hsleep

theorem visit {f : Proc S → Proc S} (hvisit : s.visit q f = some t)
    (hchan : ∀ x, (f x).chan = x.chan)
    (hstate : ∀ x, (f x).state = x.state ∨ x.state = .sleeping ∧ (f x).state = .runnable) :
    Alike s t := by
  obtain ⟨-, rfl⟩ := visit_eq_some.mp hvisit
  refine (refl s).setProc (hchan _) fun hsleep => ?_
  rcases hstate (s.proc q) with heq | ⟨hsleeping, -⟩
  · exact heq.symm.trans hsleep
  · exact hsleeping

end Alike

variable [DecidableEq C]

/-- The views, when the code of one changes. -/
theorem view_update (pc : Ctx C → Pc L S) (x : Ctx C) (k : Pc L S) :
    (fun y => (update pc x k y).view) = update (fun y => (pc y).view) x k.view := by
  funext y
  by_cases hy : y = x
  · rw [hy, update_self, update_self]
  · rw [update_of_ne hy, update_of_ne hy]

theorem goto_pc_self : (s.goto x k).pc x = k := update_self ..

theorem goto_pc_of_ne {z : Ctx C} (h : z ≠ x) : (s.goto x k).pc z = s.pc z := update_of_ne h ..

namespace Tidy

/-- The code of a process changes, and perhaps its own entry. -/
theorem own (h : Tidy s) (hpc : t.pc = update s.pc (.proc p) k) (hcpu : t.cpu = s.cpu)
    (hbelow : t.below = s.below) (hchan : ∀ q, q ≠ p → (t.proc q).chan = (s.proc q).chan)
    (hp : (t.proc p).chan = k.chan p) (hhandler : s.below p ≠ none → k.inHandler) : Tidy t := by
  refine ⟨?_, ?_, ?_⟩
  · intro q
    rw [hpc]
    by_cases hqp : q = p
    · rw [hqp, update_self]
      exact hp
    · rw [update_of_ne (proc_ne hqp), hchan q hqp]
      exact h.chan q
  · intro q hq
    rw [hbelow] at hq
    rw [hpc]
    by_cases hqp : q = p
    · rw [hqp, update_self]
      rw [hqp] at hq
      exact hhandler hq
    · rw [update_of_ne (proc_ne hqp)]
      exact h.handler q hq
  · intro c hc
    rw [hcpu] at hc
    rw [hpc, update_of_ne (by simp)]
    exact h.idle c hc

/-- The code of a process or a handler changes. -/
theorem move (h : Tidy s) (hat : At s c x) (hpc : t.pc = update s.pc x k)
    (hcpu : t.cpu = s.cpu) (hbelow : t.below = s.below)
    (hchan : ∀ q, (t.proc q).chan = (s.proc q).chan)
    (hfollows : ∀ p, x = .proc p → (s.pc x).Follows p k) : Tidy t := by
  cases x with
  | proc p =>
    obtain ⟨hk, hhandler⟩ := hfollows p rfl
    refine h.own hpc hcpu hbelow (fun q _ => hchan q) ?_ fun hb => hhandler (h.handler p hb)
    rw [hchan p, h.chan p, hk]
  | sched c' =>
    have hproc : ∀ q, t.pc (.proc q) = s.pc (.proc q) := by
      intro q
      rw [hpc, update_of_ne (by simp)]
    refine ⟨?_, ?_, ?_⟩
    · intro q
      rw [hproc, hchan]
      exact h.chan q
    · intro q hq
      rw [hbelow] at hq
      rw [hproc]
      exact h.handler q hq
    · intro c'' hc
      rw [hcpu] at hc
      have hne : c'' ≠ c' := by
        rintro rfl
        obtain ⟨i, hi⟩ := hat.scan c'' rfl
        exact hc i hi
      rw [hpc, update_of_ne (fun heq => hne (Ctx.sched.inj heq))]
      exact h.idle c'' hc

end Tidy

variable [DecidableEq L] [DecidableEq S]

/-- A step does what the protocol says. -/
def Sim (c : C) (s t : State C L S) : Prop := Calm t ∧ Change c s.obs t.obs

/-- Nothing happens that the protocol is about. -/
theorem sim_same (hcalm : Calm t) (hslock : t.slock = s.slock) (hseen : t.seen = s.seen)
    (hsleeps : t.sleeps = s.sleeps) (hlocked : t.locked = s.locked)
    (hview : ∀ x, (t.pc x).view = (s.pc x).view)
    (hwho : ∀ c, t.who c = s.who c ∨
      ((s.pc (s.who c)).view).lk = none ∧ ((s.pc (t.who c)).view).lk = none)
    (hasleep : ∀ p, (t.proc p).state = .sleeping →
      (s.proc p).state = .sleeping ∨ ∀ q, (s.pc (.proc p)).view ≠ .down q) : Sim c s t := by
  refine ⟨hcalm, ?_⟩
  have hobs : t.obs =
      { s.obs with who := t.who, asleep := fun p => (t.proc p).state = .sleeping } := by
    simp only [State.obs, hview, hslock, hseen, hsleeps, hlocked]
  rw [hobs]
  exact .same _ _ hcalm.inv.who_injective hwho hasleep

theorem wake_chan (ch : Chan S) (x : Proc S) : (wake ch x).chan = x.chan := by
  rw [wake]
  split
  · rfl
  · rfl

namespace Calm

/-- Code goes on, and the protocol does not see it. -/
theorem next (h : Calm s) (hat : At s c x) (halike : Alike s u) (hview : k.view = (s.pc x).view)
    (hfollows : ∀ p, x = .proc p → (s.pc x).Follows p k) (hinv : (u.goto x k).Inv) :
    Sim c s (u.goto x k) := by
  have hpc : (u.goto x k).pc = update s.pc x k := by
    rw [← halike.pc]
    rfl
  have htidy := h.move hat hpc halike.cpu halike.below halike.chan hfollows
  refine sim_same ⟨htidy, hinv⟩ halike.slock halike.seen halike.sleeps halike.locked ?_
    (fun c' => Or.inl (congrFun (who_congr halike.cpu) c')) fun q hq => Or.inl (halike.asleep q hq)
  intro y
  rw [hpc]
  by_cases hy : y = x
  · rw [hy, update_self, hview]
  · rw [update_of_ne hy]

/-! ## Spin locks -/

section

variable (h : Calm s)

include h

theorem take (hat : At s c x) (hplain : (s.pc x).view = .plain) (hk : k.view = .hold lk)
    (hfollows : ∀ p, x = .proc p → (s.pc x).Follows p k)
    (hstep : (s.take c x lk).map (·.goto x k) = some t) (hinv : t.Inv) : Sim c s t := by
  obtain ⟨s₁, htake, rfl⟩ := Option.map_eq_some_iff.mp hstep
  obtain ⟨hfree, rfl⟩ := take_eq_some.mp htake
  refine ⟨⟨h.move hat rfl rfl rfl (fun _ => rfl) hfollows, hinv⟩, ?_⟩
  have hchange := Change.take (c := c) (o := s.obs) lk (s.sleepers lk) ?_ hfree ?_
  · convert hchange using 1
    simp only [State.obs, State.goto, view_update, hk, hat.who]
    rfl
  · exact (congrArg (fun y => (s.pc y).view) hat.who).trans hplain
  · intro p n hn
    exact h.of_sleepers hn

theorem drop (hat : At s c x) (hview : (s.pc x).view = .hold lk) {locked : S → Bool}
    (hlocked : ∀ k, s.locked k = true → locked k = true)
    (hfollows : ∀ p, x = .proc p → (s.pc x).Follows p .user)
    (ht : t = { (s.drop lk).goto x .user with locked }) (hinv : t.Inv) : Sim c s t := by
  subst ht
  refine ⟨⟨h.move hat rfl rfl rfl (fun _ => rfl) hfollows, hinv⟩, ?_⟩
  have hchange := Change.drop (c := c) (o := s.obs) lk locked
    ((congrArg (fun y => (s.pc y).view) hat.who).trans hview) hlocked
  convert hchange using 1
  simp only [State.obs, State.goto, view_update, hat.who]
  rfl

/-- The holder of a spin lock calls `wakeup`, goes on with it, or returns from it. -/
theorem scan (hat : At s c x) (halike : Alike s u)
    (hfollows : ∀ p, x = .proc p → (s.pc x).Follows p k) (hinv : (u.goto x k).Inv)
    (hchange : Change c s.obs { s.obs with
      view := update s.obs.view x k.view
      asleep := fun p => (u.proc p).state = .sleeping }) : Sim c s (u.goto x k) := by
  have hpc : (u.goto x k).pc = update s.pc x k := by
    rw [← halike.pc]
    rfl
  refine ⟨⟨h.move hat hpc halike.cpu halike.below halike.chan hfollows, hinv⟩, ?_⟩
  convert hchange using 1
  have hwho : (u.goto x k).who = s.who := who_congr halike.cpu
  simp only [State.obs, hwho, hpc, view_update]
  simp only [State.goto, halike.slock, halike.seen, halike.sleeps, halike.locked]

theorem wakeup (hat : At s c x) {q : Key S} (hpc : s.pc x = .wakeup q lk i)
    (hstep : wakeup s x q lk i = some t) (hinv : t.Inv) : Sim c s t := by
  have hview : s.obs.view (s.obs.who c) = .wake q lk i := by
    change (s.pc (s.who c)).view = _
    rw [hat.who, hpc]
    rfl
  have hx : s.obs.who c = x := hat.who
  rw [Sched.wakeup] at hstep
  split at hstep
  · rename_i hi
    obtain ⟨s₁, hvisit, rfl⟩ := Option.map_eq_some_iff.mp hstep
    have halike := Alike.visit hvisit (wake_chan _) (wake_state _)
    obtain ⟨hfree, rfl⟩ := visit_eq_some.mp hvisit
    refine h.scan hat halike ?_ hinv ?_
    · intro p _
      rw [hpc]
      refine ⟨rfl, ?_⟩
      cases lk with
      | other l => exact fun _ => trivial
      | inner k => exact fun hfalse => hfalse
    · have hchange := Change.visit (c := c) (o := s.obs) q lk ⟨i, hi⟩ _ hview (h.view_ne_mid hfree)
        halike.asleep ?_
      · rw [hx] at hchange
        exact hchange
      · intro hdown hsleep
        have hchan := h.chan_of_down hdown
        rw [setProc_self, wake] at hsleep
        split at hsleep
        · cases hsleep
        · rename_i hne
          exact hne ⟨hsleep, hchan⟩
  · rename_i hi
    cases hstep
    refine h.scan hat (Alike.refl s) ?_ hinv ?_
    · intro p _
      rw [hpc]
      cases lk with
      | other l => exact ⟨rfl, fun _ => trivial⟩
      | inner k => exact ⟨rfl, False.elim⟩
    · have hchange := Change.woke (c := c) (o := s.obs) q lk i (Nat.le_of_not_lt hi) hview
      rw [hx] at hchange
      cases lk with
      | other l => exact hchange
      | inner k => exact hchange

end

/-! ## `sleep` -/

section

variable (h : Calm s)

include h

/-- A process calls `sleep`. -/
theorem enter (hat : At s c (.proc p)) {q : Key S} (hview : (s.pc (.proc p)).view = .hold lk)
    (hchan : (s.pc (.proc p)).chan p = none) (hbelow : s.below p = none)
    (hlocked : ∀ k, q = .sleeplock k → lk = .inner k ∧ s.locked k = true)
    (hinv : (s.enter p q lk).Inv) : Sim c s (s.enter p q lk) := by
  refine ⟨⟨h.own rfl rfl rfl (fun _ _ => rfl) ?_ fun hne => absurd hbelow hne, hinv⟩, ?_⟩
  · exact (h.chan p).trans hchan
  · have hchange := Change.enter (c := c) (o := s.obs) p q lk hat.who hview hlocked
    convert hchange using 1
    simp only [State.obs, State.enter, State.goto, view_update]
    rfl

theorem sleepRelease (hat : At s c (.proc p)) {q : Key S}
    (hpc : s.pc (.proc p) = .sleepRelease q lk) (hinv : (sleepRelease s p q lk).Inv) :
    Sim c s (sleepRelease s p q lk) := by
  refine ⟨⟨h.move hat rfl rfl rfl (fun _ => rfl) ?_, hinv⟩, ?_⟩
  · intro p' _
    rw [hpc]
    exact ⟨rfl, False.elim⟩
  · have hview : s.obs.view (.proc p) = .enter q lk := congrArg Pc.view hpc
    have hchange := Change.leave (c := c) (o := s.obs) p q lk hat.who hview
    convert hchange using 1
    simp only [State.obs, Sched.sleepRelease, State.goto, view_update]
    rfl

theorem sleepState {q : Key S} (hpc : s.pc (.proc p) = .sleepState q lk)
    (hinv : (sleepState s p q lk).Inv) : Sim c s (sleepState s p q lk) := by
  have hothers : ∀ p', p' ≠ p → (Sched.sleepState s p q lk).proc p' = s.proc p' :=
    fun p' hp => setProc_of_ne hp
  refine ⟨⟨h.own rfl rfl rfl (fun p' hp => congrArg Proc.chan (hothers p' hp)) ?_ ?_, hinv⟩, ?_⟩
  · exact congrArg Proc.chan setProc_self
  · intro hne
    have hhandler := h.handler p hne
    rw [hpc] at hhandler
    exact hhandler.elim
  · have hview : s.obs.view (.proc p) = .mid q := congrArg Pc.view hpc
    have hchange := Change.sleep (c := c) (o := s.obs) p q
      (fun p' => ((Sched.sleepState s p q lk).proc p').state = .sleeping) hview ?_
    · convert hchange using 1
      simp only [State.obs, Sched.sleepState, State.goto, view_update]
      rfl
    · intro p' hp hsleep
      rw [hothers p' hp] at hsleep
      exact hsleep

/-- A process of its own accord changes its entry and goes on; it holds no spin lock. -/
theorem alone (hview : k.view = (s.pc (.proc p)).view) (hne : ∀ q, (s.pc (.proc p)).view ≠ .down q)
    (hchan : y.chan = k.chan p) (hhandler : (s.pc (.proc p)).inHandler → k.inHandler)
    (hinv : ((s.setProc p y).goto (.proc p) k).Inv) :
    Sim c s ((s.setProc p y).goto (.proc p) k) := by
  have hproc : ∀ q, q ≠ p → ((s.setProc p y).goto (.proc p) k).proc q = s.proc q := fun q hq =>
    setProc_of_ne hq
  refine sim_same ⟨h.own rfl rfl rfl (fun q hq => congrArg Proc.chan (hproc q hq)) ?_
    fun hb => hhandler (h.handler p hb), hinv⟩ rfl rfl rfl rfl ?_ (fun _ => Or.inl rfl) ?_
  · exact (congrArg Proc.chan setProc_self).trans hchan
  · intro x
    by_cases hx : x = .proc p
    · rw [hx, goto_pc_self, hview]
    · rw [goto_pc_of_ne hx]
      rfl
  · intro q hq
    by_cases hqp : q = p
    · rw [hqp]
      exact Or.inr hne
    · rw [hproc q hqp] at hq
      exact Or.inl hq

/-- A process is back in `sleep`. -/
theorem sleepBack {q : Key S} (hpc : s.pc (.proc p) = .switched (.sleep q lk))
    (ht : switched s p (.sleep q lk) = some t) (hinv : t.Inv) : Sim c s t := by
  cases ht
  have hproc : ∀ p', p' ≠ p → (s.setProc p { s.proc p with chan := none }).proc p' = s.proc p' :=
    fun p' hp => setProc_of_ne hp
  have hstate : ∀ p', ((s.setProc p { s.proc p with chan := none }).proc p').state =
      (s.proc p').state := by
    intro p'
    by_cases hp : p' = p
    · rw [hp, setProc_self]
    · rw [hproc p' hp]
  refine ⟨⟨h.own rfl rfl rfl (fun p' hp => congrArg Proc.chan (hproc p' hp)) ?_ ?_, hinv⟩, ?_⟩
  · exact congrArg Proc.chan setProc_self
  · intro hne
    have hhandler := h.handler p hne
    rw [hpc] at hhandler
    exact hhandler.elim
  · have hview : s.obs.view (.proc p) = .down q := congrArg Pc.view hpc
    have hchange := Change.up (c := c) (o := s.obs) p q hview
    convert hchange using 1
    simp only [State.obs, State.goto, view_update, State.setLock, hstate]
    rfl

/-! ## `sched` and the schedulers -/

/-- A processor goes from one stack to another. -/
theorem switch {y : Cpu} (hcpu : t.cpu = update s.cpu c y)
    (hview : ∀ x, (t.pc x).view = (s.pc x).view)
    (hfollows : ∀ p, (s.pc (.proc p)).Follows p (t.pc (.proc p)))
    (hsched : ∀ c', t.pc (.sched c') = s.pc (.sched c')) (hbelow : t.below = s.below)
    (hslock : t.slock = s.slock) (hseen : t.seen = s.seen) (hsleeps : t.sleeps = s.sleeps)
    (hlocked : t.locked = s.locked) (hproc : ∀ p, (t.proc p).chan = (s.proc p).chan)
    (hasleep : ∀ p, (t.proc p).state = .sleeping → (s.proc p).state = .sleeping)
    (hidle : s.pc (.sched c) = .user) (hfrom : (s.pc (s.who c)).view.lk = none)
    (hto : (s.pc (t.who c)).view.lk = none) (hinv : t.Inv) : Sim c s t := by
  refine sim_same ⟨⟨?_, ?_, ?_⟩, hinv⟩ hslock hseen hsleeps hlocked hview ?_
    fun p hp => Or.inl (hasleep p hp)
  · intro p
    rw [hproc, (hfollows p).chan]
    exact h.chan p
  · intro p hp
    rw [hbelow] at hp
    exact (hfollows p).handler (h.handler p hp)
  · intro c' hc'
    rw [hsched]
    by_cases hcc : c' = c
    · rw [hcc]
      exact hidle
    · rw [hcpu, update_of_ne hcc] at hc'
      exact h.idle c' hc'
  · intro c'
    by_cases hcc : c' = c
    · rw [hcc]
      exact Or.inr ⟨hfrom, hto⟩
    · refine Or.inl ?_
      rw [State.who, State.who, hcpu, update_of_ne hcc]

theorem sched (hc : (s.cpu c).loop = .gone p) {r : Ret L S} (hpc : s.pc (.proc p) = .sched r)
    (hstep : sched s c p r = some t) (hinv : t.Inv) : Sim c s t := by
  rw [Sched.sched] at hstep
  split at hstep
  · cases hstep
    have hsame : (Pc.sched r).view = (Pc.switched r).view ∧
        (Pc.sched r).Follows p (.switched r) := by
      cases r with
      | yield => exact ⟨rfl, rfl, fun _ => trivial⟩
      | _ => exact ⟨rfl, rfl, False.elim⟩
    have hidle : s.pc (.sched c) = .user := h.idle c (by simp [hc])
    have hwho : ((s.swtch c p).goto (.proc p) (.switched r)).who c = .sched c := by
      simp [State.who, State.goto, State.swtch]
    refine h.switch (y := { s.cpu c with loop := .back p }) rfl ?_ ?_
      (fun _ => goto_pc_of_ne (by simp)) rfl rfl
      rfl rfl rfl (fun _ => rfl) (fun _ hp => hp) hidle ?_ ?_ hinv
    · intro x
      by_cases hx : x = .proc p
      · rw [hx, goto_pc_self, hpc, hsame.1]
      · rw [goto_pc_of_ne hx]
        rfl
    · intro q
      by_cases hq : q = p
      · rw [hq, goto_pc_self, hpc]
        exact hsame.2
      · rw [goto_pc_of_ne (proc_ne hq)]
        exact ⟨rfl, fun hh => hh⟩
    · rw [who_of_gone hc, hpc]
      cases r <;> rfl
    · rw [hwho, hidle]
      rfl
  · cases hstep

theorem scheduler (hc : (s.cpu c).loop = .scan i) (hpc : s.pc (.sched c) = .user)
    (hstep : scheduler s c i = some t) (hinv : t.Inv) : Sim c s t := by
  have hfrom : (s.pc (s.who c)).view.lk = none := by
    rw [who_of_scan hc, hpc]
    rfl
  have hscan : ∀ {u : State C L S} {j : Nat}, Alike s u →
      ({ u with cpu := update u.cpu c { u.cpu c with loop := .scan j } } : State C L S).Inv →
      Sim c s { u with cpu := update u.cpu c { u.cpu c with loop := .scan j } } := by
    intro u j halike hinv
    refine h.switch (y := { s.cpu c with loop := .scan j }) ?_ ?_ ?_ ?_ halike.below
      halike.slock halike.seen
      halike.sleeps halike.locked halike.chan halike.asleep hpc hfrom ?_ hinv
    · dsimp only
      rw [halike.cpu]
    · intro x
      dsimp only
      rw [halike.pc]
    · intro q
      dsimp only
      rw [halike.pc]
      exact ⟨rfl, fun hh => hh⟩
    · intro c'
      dsimp only
      rw [halike.pc]
    · have hwho : ({ u with cpu := update u.cpu c { u.cpu c with loop := .scan j } } :
          State C L S).who c = .sched c := by
        simp [State.who]
      rw [hwho, hpc]
      rfl
  rw [Sched.scheduler] at hstep
  split at hstep
  · rename_i hi
    dsimp only at hstep
    split at hstep
    · rename_i hrunnable
      obtain ⟨s₁, hacquire, rfl⟩ := Option.map_eq_some_iff.mp hstep
      obtain ⟨hfree, rfl⟩ := acquire_eq_some.mp hacquire
      have halike : Alike s ((s.setLock ⟨i, hi⟩ (some c)).setProc ⟨i, hi⟩
          { s.proc ⟨i, hi⟩ with state := .running }) :=
        ((Alike.refl s).setLock _).setProc rfl (by simp)
      have hoff := Sched.Inv.off_of_open h.inv (open_of_free hfree) (by rw [hrunnable]; simp)
      refine h.switch (y := ⟨some ⟨i, hi⟩, .gone ⟨i, hi⟩⟩) rfl (fun _ => rfl)
        (fun _ => ⟨rfl, fun hh => hh⟩)
        (fun _ => rfl) rfl rfl rfl rfl rfl halike.chan halike.asleep hpc hfrom ?_ hinv
      have hwho : State.who (L := L) (S := S) { (s.setLock ⟨i, hi⟩ (some c)).setProc ⟨i, hi⟩
          { s.proc ⟨i, hi⟩ with state := .running } with
          cpu := update s.cpu c ⟨some ⟨i, hi⟩, .gone ⟨i, hi⟩⟩ } c = .proc ⟨i, hi⟩ := by
        simp [State.who]
      refine (congrArg (fun x => (s.pc x).view.lk) hwho).trans ?_
      rcases Sched.Inv.off h.inv _ hoff with ⟨-, hdead⟩ | ⟨r, hr, -⟩
      · simp only [hdead]
        rfl
      · simp only [hr]
        cases r <;> rfl
    · obtain ⟨s₁, hvisit, rfl⟩ := Option.map_eq_some_iff.mp hstep
      exact hscan (Alike.visit hvisit (fun _ => rfl) fun _ => Or.inl rfl) hinv
  · cases hstep
    exact hscan (Alike.refl s) hinv

theorem schedulerBack (hc : (s.cpu c).loop = .back p) (hinv : (schedulerBack s c p).Inv) :
    Sim c s (schedulerBack s c p) := by
  have hidle : s.pc (.sched c) = .user := h.idle c (by simp [hc])
  refine h.switch (y := ⟨none, .scan (p.val + 1)⟩) rfl (fun _ => rfl) (fun _ => ⟨rfl, fun hh => hh⟩)
    (fun _ => rfl) rfl rfl rfl rfl rfl (fun _ => rfl) (fun _ hp => hp) hidle ?_ ?_ hinv
  · have hwho : s.who c = .sched c := by rw [State.who, hc]
    rw [hwho, hidle]
    rfl
  · have hwho : (Sched.schedulerBack s c p).who c = .sched c := by
      simp [State.who, Sched.schedulerBack]
    rw [hwho, hidle]
    rfl

end

end Calm

end Xv6.Sched
