/-
  Proc/Sections.lean --- every section keeps the invariant.
-/
import Xv6.Proc.Invariant

set_option autoImplicit false

namespace Xv6.Procs

open Function

variable {p q : Pid} {s t : State} {y : Proc} {pc : Pc}

/-! ## Sections that start no process -/

/-- What a section of `p` may make of entry `j`. -/
structure Kept (p : Pid) (pc : Pc) (s : State) (j : Pid) (y : Proc) : Prop where
  change : Change p j (s.proc j) y
  unused : (s.proc j).state = .unused → y.state = .unused
  mine : y.lock = some p ↔ pc.holds p j
  others : ∀ a, a ≠ p → (y.lock = some a ↔ (s.proc j).lock = some a)

theorem inv_kept (hs : Inv s) (hpc : t.pc = update s.pc p pc) (hall : ∀ j, Kept p pc s j (t.proc j))
    (hp : (s.proc p).state ≠ .unused) (hp' : (t.proc p).state ≠ .unused)
    (hinit : p = initproc → (t.proc p).state ≠ .zombie)
    (hzombie : (t.proc p).state = .zombie → (s.proc p).state = .zombie ∨
      s.Given p NPROC ∧ ∃ op, s.Remembers p op ∧ (s.proc op).lock = some p ∧
        ((t.proc op).state = .sleeping → (t.proc op).chan ≠ some (.proc op)))
    (hown : pc.Ok t p) : Inv t := by
  have hself : t.pc p = pc := by rw [hpc, update_self]
  have he : Effect p s t := ⟨fun j => (hall j).change,
    fun j hj => Or.inl ⟨by rw [hpc, update_of_ne hj], (hall j).unused⟩, hzombie⟩
  refine he.inv hs ⟨hp, hp', hinit⟩ ?_ (by rw [hself]; exact hown) (fun j => ?_)
    fun j => (hall j).others
  · rintro ⟨j, hj, hrun⟩
    rw [(hall j).unused hj] at hrun
    cases hrun
  · rw [hself]
    exact (hall j).mine

/-- A section of `p` that changes entry `q` only. -/
structure Touches (p q : Pid) (y : Proc) (pc : Pc) (s t : State) : Prop where
  proc : t.proc = update s.proc q y
  pc : t.pc = update s.pc p pc

namespace Touches

section

variable (h : Touches p q y pc s t)

include h

theorem at_self : t.proc q = y := by rw [h.proc, update_self]

theorem at_ne {j : Pid} (hj : j ≠ q) : t.proc j = s.proc j := by
  rw [h.proc, update_of_ne hj]

/-- The invariant after a section that changes one entry and starts no process. -/
theorem inv (hs : Inv s) (hc : Change p q (s.proc q) y)
    (hunused : (s.proc q).state = .unused → y.state = .unused)
    (hz : q = p → y.state = .zombie → (s.proc p).state = .zombie)
    (hp : (s.proc p).state ≠ .unused) (hpy : q = p → y.state ≠ .unused)
    (hown : pc.Ok t p) (hmine : ∀ j, j ≠ q → ((s.proc j).lock = some p ↔ pc.holds p j))
    (hq : y.lock = some p ↔ pc.holds p q)
    (hrest : ∀ a, a ≠ p → (y.lock = some a ↔ (s.proc q).lock = some a)) : Inv t := by
  have hall : ∀ j, Kept p pc s j (t.proc j) := by
    intro j
    by_cases hj : j = q
    · subst hj
      rw [h.at_self]
      exact ⟨hc, hunused, hq, hrest⟩
    · rw [h.at_ne hj]
      exact ⟨.same rfl rfl rfl, id, hmine j hj, fun _ _ => Iff.rfl⟩
  have hback : (t.proc p).state = .zombie → (s.proc p).state = .zombie := by
    intro hzt
    by_cases hpq : p = q
    · subst hpq
      rw [h.at_self] at hzt
      exact hz rfl hzt
    · rwa [h.at_ne hpq] at hzt
  refine inv_kept hs h.pc hall hp ?_ ?_ (fun hzt => Or.inl (hback hzt)) hown
  · by_cases hpq : p = q
    · subst hpq
      rw [h.at_self]
      exact hpy rfl
    · rw [h.at_ne hpq]
      exact hp
  · rintro rfl hzt
    exact hs.init.2 (hback hzt)

end

end Touches

/-- A section that changes nothing but where the process is. -/
theorem inv_setPc (hs : Inv s) (hp : (s.proc p).state ≠ .unused)
    (hown : pc.Ok (s.setPc p pc) p) (hholds : ∀ j, (s.pc p).holds p j ↔ pc.holds p j) :
    Inv (s.setPc p pc) := by
  have ht : Touches p p (s.proc p) pc s (s.setPc p pc) := ⟨(update_eq_self p s.proc).symm, rfl⟩
  exact ht.inv hs (.same rfl rfl rfl) id (fun _ hz => hz) hp (fun _ => hp) hown
    (fun j _ => (hs.locks p j).trans (hholds j))
      ((hs.locks p p).trans (hholds p)) fun _ _ => Iff.rfl

variable (pc) in
/-- A process changes its own entry, and is alive before and after. -/
theorem inv_own (hs : Inv s) (hp : (s.proc p).state ≠ .unused) (ht : Touches p p y pc s t)
    (hparent : y.parent = (s.proc p).parent) (hy : y.state ≠ .unused) (hz : y.state ≠ .zombie)
    (hown : pc.Ok t p) (hholds : ∀ j, j ≠ p → ((s.pc p).holds p j ↔ pc.holds p j))
    (hlock : y.lock = some p ↔ pc.holds p p)
    (hrest : ∀ a, a ≠ p → (y.lock = some a ↔ (s.proc p).lock = some a)) : Inv t :=
  ht.inv hs (.own rfl hparent hp hy) (fun hu => absurd hu hp) (fun _ hzy => absurd hzy hz) hp
    (fun _ => hy) hown (fun j hj => (hs.locks p j).trans (hholds j hj)) hlock hrest

/-- What a process knows does not depend on where the processes are. -/
theorem Pc.Ok.setPc (h : pc.Ok s p) (pc' : Pc) : pc.Ok (s.setPc q pc') p := by
  cases pc <;> exact h

/-! ## `fork` -/

theorem not_unused_of_running (h : (s.proc p).state = .running) : (s.proc p).state ≠ .unused := by
  rw [h]
  decide

/-- The same, for a process that runs at `k`. -/
theorem inv_goto {k : Pc} (hs : Inv s) (hrun : (s.proc p).state = .running) (hpc : s.pc p = k)
    (hown : pc.Ok (s.setPc p pc) p) (hholds : ∀ j, k.holds p j ↔ pc.holds p j) :
    Inv (s.setPc p pc) := by
  subst hpc
  exact inv_setPc hs (not_unused_of_running hrun) hown hholds

/-- A lock that is free is not held by anyone. -/
theorem lock_of_free (h : s.free q = true) : (s.proc q).lock = none := by
  simpa [State.free] using h

theorem forkInto_self (p q : Pid) (s : State) : (forkInto p q .ok s).proc q = { s.proc q with
    pid := s.nextpid, parent := some p, state := .runnable, gen := s.nextgen } := by
  simp [forkInto, State.setProc, State.setPc]

theorem forkInto_of_ne {j : Pid} (hj : j ≠ q) : (forkInto p q .ok s).proc j = s.proc j := by
  simp [forkInto, State.setProc, State.setPc, hj]

variable {i : Nat}

section

variable (hs : Inv s) (hrun : (s.proc p).state = .running) (hpc : s.pc p = .forkScan i)

include hs hrun hpc

theorem inv_fork_failed (hq : (s.proc q).state = .unused) (ht : Touches p q y .user s t)
    (hlock : y.lock = (s.proc q).lock) (hy : y.state = .unused)
    (hparent : y.parent = (s.proc q).parent ∨ y.parent = none) : Inv t := by
  have hpq : p ≠ q := by
    rintro rfl
    rw [hrun] at hq
    cases hq
  refine ht.inv hs (.failed hq hy hparent) (fun _ => hy) (fun heq => absurd heq.symm hpq)
    (not_unused_of_running hrun) (fun heq => absurd heq.symm hpq) ?_
      (fun j _ => hs.locks_at hpc j) ?_ ?_
  · refine Or.inl (Or.inl ?_)
    rw [ht.at_ne hpq]
    exact hrun
  · rw [hlock]
    exact hs.locks_at hpc q
  · intro a _
    rw [hlock]

theorem inv_forkInto (hq : (s.proc q).state = .unused) (alloc : Alloc) :
    Inv (forkInto p q alloc s) := by
  have hpq : p ≠ q := by
    rintro rfl
    rw [hrun] at hq
    cases hq
  cases alloc with
  | noTrapframe => exact inv_fork_failed hs hrun hpc hq ⟨rfl, rfl⟩ rfl hq (Or.inl rfl)
  | noMemory => exact inv_fork_failed hs hrun hpc hq ⟨rfl, rfl⟩ rfl rfl (Or.inr rfl)
  | ok =>
    set t := forkInto p q .ok s with ht
    have hnew := forkInto_self p q s
    have hold : ∀ j, j ≠ q → t.proc j = s.proc j := fun j => forkInto_of_ne
    rw [← ht] at hnew
    have hpc' : ∀ j, t.pc j = if j = p then .user else if j = q then .user else s.pc j := by
      intro j
      by_cases hjp : j = p
      · simp [ht, forkInto, State.setProc, State.setPc, hjp]
      · by_cases hjq : j = q
        · subst hjq
          simp [ht, forkInto, State.setProc, State.setPc, hjp]
        · simp [ht, forkInto, State.setProc, State.setPc, hjp, hjq]
    have hrun' : (t.proc p).state = .running := by rw [hold p hpq, hrun]
    have hlock : ∀ j, (t.proc j).lock = (s.proc j).lock := by
      intro j
      by_cases hj : j = q
      · rw [hj, hnew]
      · rw [hold j hj]
    have he : Effect p s t := by
      refine ⟨fun j => ?_, fun j hj => ?_, fun hz => ?_⟩
      · by_cases hj : j = q
        · subst hj
          rw [hnew]
          exact .born hq rfl rfl
        · rw [hold j hj]
          exact .same rfl rfl rfl
      · by_cases hjq : j = q
        · subst hjq
          exact Or.inr ⟨hq, by rw [hnew], by rw [hpc', if_neg hj, if_pos rfl]⟩
        · exact Or.inl ⟨by rw [hpc', if_neg hj, if_neg hjq], by rw [hold j hjq]; exact id⟩
      · rw [hrun'] at hz
        cases hz
    have halive : t.Alive p := by
      unfold State.Alive
      rw [hrun']
      exact ⟨by decide, by decide⟩
    refine he.inv hs ⟨not_unused_of_running hrun, halive.1, fun _ => halive.2⟩ (fun _ => halive) ?_
      ?_ ?_
    · rw [hpc', if_pos rfl]
      exact Or.inl (Or.inl hrun')
    · intro j
      rw [hlock, hs.locks_at hpc, hpc', if_pos rfl]
      rfl
    · intro j a _
      rw [hlock]

theorem inv_forkScan {alloc : Alloc} (hx : forkScan p i alloc s = some t) : Inv t := by
  simp only [forkScan] at hx
  split at hx
  · split at hx
    · split at hx
      · rename_i hq
        cases hx
        exact inv_forkInto hs hrun hpc hq alloc
      · cases hx
        exact inv_goto hs hrun hpc (Or.inl hrun) fun _ => Iff.rfl
    · cases hx
  · cases hx
    exact inv_goto hs hrun hpc (Or.inl (Or.inl hrun)) fun _ => Iff.rfl

end

/-! ## `exit` -/

section

variable (hs : Inv s) (hrun : (s.proc p).state = .running)

include hs hrun

variable {status : Int}

theorem inv_wakeInit (hpc : s.pc p = .wakeInit status) (hx : wakeInit p status s = some t) :
    Inv t := by
  have hinit : p ≠ initproc := (hs.ok_at hpc).1
  simp only [wakeInit] at hx
  split at hx
  · cases hx
    by_cases hsleep : (s.proc initproc).chan = some (.proc initproc) ∧
        (s.proc initproc).state = .sleeping
    · have ht : Touches p initproc { s.proc initproc with state := .runnable }
        (.readParent status) s
          ((s.wakeup1 initproc).setPc p (.readParent status)) := by
        rw [State.wakeup1, if_pos hsleep]
        exact ⟨rfl, rfl⟩
      refine ht.inv hs (.woken hsleep.2 rfl rfl) (fun hu => ?_) (fun heq => absurd heq.symm hinit)
        (not_unused_of_running hrun) (fun heq => absurd heq.symm hinit) ⟨hinit, Or.inl ?_⟩
        (fun j _ => hs.locks_at hpc j) (hs.locks_at hpc initproc) fun _ _ => Iff.rfl
      · rw [hsleep.2] at hu
        cases hu
      · rw [ht.at_ne hinit]
        exact hrun
    · rw [State.wakeup1, if_neg hsleep]
      exact inv_goto hs hrun hpc ⟨hinit, Or.inl hrun⟩ fun _ => Iff.rfl
  · cases hx

theorem inv_readParent (hpc : s.pc p = .readParent status) (hx : readParent p status s = some t) :
    Inv t := by
  have hok := hs.ok_at hpc
  simp only [readParent] at hx
  split at hx
  · cases hparent : (s.proc p).parent with
    | none => rw [hparent] at hx; cases hx
    | some op =>
      rw [hparent] at hx
      cases hx
      exact inv_goto hs hrun hpc ⟨hok.1, Or.inl hrun, Or.inl hparent⟩ fun _ => Iff.rfl
  · cases hx

/-- Taking a lock. -/
theorem inv_acquire (hfree : s.free q = true) (hown : pc.Ok (s.acquire p q) p)
    (hholds : ∀ j, pc.holds p j ↔ (s.pc p).holds p j ∨ j = q) :
    Inv ((s.acquire p q).setPc p pc) := by
  have hnone := lock_of_free hfree
  have ht : Touches p q { s.proc q with lock := some p } pc s ((s.acquire p q).setPc p pc) :=
    ⟨rfl, rfl⟩
  refine ht.inv hs (.same rfl rfl rfl) id (fun heq hz => ?_) (not_unused_of_running hrun)
    (fun heq => ?_) (hown.setPc pc) (fun j hj => ?_) ?_ fun a ha => ?_
  · rw [← heq]
    exact hz
  · rw [heq]
    exact not_unused_of_running hrun
  · rw [hs.locks p j, hholds j]
    exact ⟨Or.inl, fun hor => hor.resolve_right hj⟩
  · rw [hholds q]
    exact iff_of_true rfl (Or.inr rfl)
  · rw [hnone]
    exact iff_of_false (fun heq => ha (Option.some.inj heq).symm) (by simp)

variable {op : Pid}

theorem inv_lockParent (hpc : s.pc p = .lockParent status op)
    (hx : lockParent p status op s = some t) : Inv t := by
  have hok := hs.ok_at hpc
  simp only [lockParent] at hx
  split at hx
  · rename_i hfree
    cases hx
    have hsame : ∀ j, ((s.acquire p op).proc j).state = (s.proc j).state ∧
        ((s.acquire p op).proc j).parent = (s.proc j).parent := by
      intro j
      by_cases hj : j = op
      · subst hj; simp [State.acquire, State.setProc]
      · simp [State.acquire, State.setProc, hj]
    refine inv_acquire hs hrun hfree ⟨hok.1, (hsame p).1.trans hrun, ?_⟩ fun j => ?_
    · unfold State.Remembers
      rw [(hsame p).2]
      exact hok.2.2
    · rw [hpc]
      simp [Pc.holds]
  · cases hx

theorem inv_lockSelf (hpc : s.pc p = .lockSelf status op) (hx : lockSelf p status op s = some t) :
    Inv t := by
  have hok := hs.ok_at hpc
  simp only [lockSelf] at hx
  split at hx
  · rename_i hfree
    cases hx
    have hne : op ≠ p := by
      rintro rfl
      have hheld : (s.proc op).lock = some op := (hs.locks_at hpc op).mpr rfl
      rw [lock_of_free hfree] at hheld
      cases hheld
    have hself : (s.acquire p p).proc p = { s.proc p with lock := some p } := by
      simp [State.acquire, State.setProc]
    refine inv_acquire hs hrun hfree ⟨hok.1, by rw [hself]; exact hrun, ?_, hne, ?_⟩ fun j => ?_
    · unfold State.Remembers
      rw [hself]
      exact hok.2.2
    · intro j hj
      exact absurd hj (Nat.not_lt_zero _)
    · rw [hpc]
      rfl
  · cases hx

omit hs hrun in
/-- `wakeup1` changes one entry at most. -/
theorem wakeup1_cases (s : State) (q : Pid) : ∃ y, s.wakeup1 q = s.setProc q y ∧
    (y = { s.proc q with state := .runnable } ∧ (s.proc q).state = .sleeping ∨
      y = s.proc q ∧ ¬ ((s.proc q).chan = some (.proc q) ∧ (s.proc q).state = .sleeping)) := by
  unfold State.wakeup1
  split
  · rename_i hw
    exact ⟨_, rfl, Or.inl ⟨rfl, hw.2⟩⟩
  · rename_i hw
    refine ⟨s.proc q, ?_, Or.inr ⟨rfl, hw⟩⟩
    rw [State.setProc, update_eq_self]

omit hs hrun in
theorem becomeZombie_self (hne : op ≠ p) : (becomeZombie p status op s).proc p =
    { s.proc p with xstate := status, state := .zombie } := by
  obtain ⟨y, hw, -⟩ := wakeup1_cases s op
  simp [becomeZombie, hw, State.setProc, State.setPc, State.release, hne.symm]

/-- The end of `exit`, with all children given away. -/
theorem inv_becomeZombie (hpc : s.pc p = .reparent status op i) (hi : NPROC ≤ i) :
    Inv (becomeZombie p status op s) := by
  have hok := hs.ok_at hpc
  obtain ⟨hinit, -, hop, hne, hgiven⟩ := hok
  have hall' : s.Given p NPROC := fun j hj => hgiven j (by omega)
  have hheld : (s.proc op).lock = some p := (hs.locks_at hpc op).mpr (Or.inl rfl)
  set t := becomeZombie p status op s with ht
  obtain ⟨y, hw, hy⟩ := wakeup1_cases s op
  have hself : t.proc p = { s.proc p with xstate := status, state := .zombie } :=
    becomeZombie_self hne
  have hrest : ∀ j, j ≠ p → j ≠ op → t.proc j = s.proc j := by
    intro j hjp hjop
    simp [ht, becomeZombie, hw, State.setProc, State.setPc, State.release, hjp, hjop]
  have hother : t.proc op = { y with lock := none } := by
    simp [ht, becomeZombie, hw, State.setProc, State.setPc, State.release, hne]
  have hpc' : t.pc = update s.pc p .dying := by
    simp [ht, becomeZombie, hw, State.setProc, State.setPc, State.release]
  have hlock : (t.proc op).lock = none := by rw [hother]
  have hall : ∀ j, Kept p .dying s j (t.proc j) := by
    intro j
    by_cases hjp : j = p
    · subst hjp
      have hmine : (s.proc j).lock = some j := (hs.locks_at hpc j).mpr (Or.inr rfl)
      rw [hself]
      exact ⟨.own rfl rfl (not_unused_of_running hrun) (by simp),
        fun hu => absurd hu (not_unused_of_running hrun), iff_of_true hmine rfl, fun _ _ => Iff.rfl⟩
    · by_cases hjop : j = op
      · subst hjop
        refine ⟨?_, fun hu => ?_, iff_of_false (by simp [hlock]) hjp, fun a ha => ?_⟩
        · rw [hother]
          rcases hy with ⟨rfl, hsleep⟩ | ⟨rfl, -⟩
          · exact .woken hsleep rfl rfl
          · exact .same rfl rfl rfl
        · rw [hother]
          rcases hy with ⟨-, hsleep⟩ | ⟨rfl, -⟩
          · rw [hsleep] at hu; cases hu
          · exact hu
        · rw [hlock, hheld]
          exact iff_of_false (by simp) fun h => ha (Option.some.inj h).symm
      · rw [hrest j hjp hjop]
        refine ⟨.same rfl rfl rfl, id, ?_, fun _ _ => Iff.rfl⟩
        rw [hs.locks_at hpc]
        exact iff_of_false (fun h => h.elim hjop hjp) hjp
  refine inv_kept hs hpc' hall (not_unused_of_running hrun) (by rw [hself]; simp)
    (fun heq => absurd heq hinit) (fun _ => Or.inr ⟨hall', op, hop, hheld, ?_⟩)
    ⟨hinit, by rw [hself]⟩
  rw [hother]
  rcases hy with ⟨rfl, -⟩ | ⟨rfl, hnot⟩
  · intro hs; cases hs
  · exact fun hsleep hchan => hnot ⟨hchan, hsleep⟩

omit hs hrun in
theorem given_succ (h : s.Given p i) (hi : i < NPROC) (hchild : (s.proc ⟨i, hi⟩).parent ≠ some p) :
    s.Given p (i + 1) := by
  intro j hj
  rcases Nat.lt_succ_iff_lt_or_eq.mp hj with hlt | heq
  · exact h j hlt
  · rwa [show j = ⟨i, hi⟩ from Fin.ext heq]

omit hs hrun in
theorem scanned_succ (h : s.Scanned p i) (hi : i < NPROC)
    (hchild : (s.proc ⟨i, hi⟩).parent = some p → (s.proc ⟨i, hi⟩).state ≠ .zombie) :
    s.Scanned p (i + 1) := by
  intro hinit j hj
  rcases Nat.lt_succ_iff_lt_or_eq.mp hj with hlt | heq
  · exact h hinit j hlt
  · rwa [show j = ⟨i, hi⟩ from Fin.ext heq]

theorem inv_reparent (hpc : s.pc p = .reparent status op i) : Inv (reparent p status op i s) := by
  have hok := hs.ok_at hpc
  obtain ⟨hinit, -, hop, hne, hgiven⟩ := hok
  simp only [reparent]
  split
  · rename_i hi
    split
    · rename_i hchild
      exact inv_goto hs hrun hpc ⟨hinit, hrun, hop, hne, hgiven, hchild⟩ fun _ => Iff.rfl
    · rename_i hchild
      exact inv_goto hs hrun hpc
        ⟨hinit, hrun, hop, hne, given_succ hgiven hi hchild⟩ fun _ => Iff.rfl
  · rename_i hi
    exact inv_becomeZombie hs hrun hpc (by omega)

theorem inv_giveAway {op pp : Pid} (hpc : s.pc p = .giveAway status op pp)
    (hx : giveAway p status op pp s = some t) : Inv t := by
  have hok := hs.ok_at hpc
  obtain ⟨hinit, -, hop, hne, hgiven, hchild⟩ := hok
  simp only [giveAway] at hx
  split at hx
  · cases hx
    set t := (s.setProc pp { s.proc pp with parent := some initproc }).setPc p
      (.reparent status op (pp.val + 1)) with htdef
    have ht : Touches p pp { s.proc pp with parent := some initproc }
        (.reparent status op (pp.val + 1)) s t := ⟨rfl, rfl⟩
    have hstate : ∀ j, (t.proc j).state = (s.proc j).state := by
      intro j
      by_cases hj : j = pp
      · subst hj; rw [ht.at_self]
      · rw [ht.at_ne hj]
    refine ht.inv hs (.given hchild rfl rfl rfl) id (fun heq hz => ?_) (not_unused_of_running hrun)
      (fun heq => ?_) ⟨hinit, (hstate p).trans hrun, ?_, hne, ?_⟩ (fun j _ => hs.locks_at hpc j)
      (hs.locks_at hpc pp) fun _ _ => Iff.rfl
    · rw [← heq]
      exact hz
    · rw [heq]
      exact not_unused_of_running hrun
    · by_cases hpp : p = pp
      · refine Or.inr ?_
        rw [hpp, ht.at_self]
      · unfold State.Remembers
        rw [ht.at_ne hpp]
        exact hop
    · intro j hj
      by_cases hjpp : j = pp
      · subst hjpp
        rw [ht.at_self]
        exact fun heq => hinit (Option.some.inj heq).symm
      · rw [ht.at_ne hjpp]
        have hlt : j.val ≠ pp.val := fun h => hjpp (Fin.ext h)
        exact hgiven j (by omega)
  · cases hx

end

/-! ## `wait` -/

section

variable (hs : Inv s) (hrun : (s.proc p).state = .running)

include hs hrun

theorem inv_waitLock {noaddr : Bool}
    (hpc : s.pc p = .waitLock noaddr) (hx : waitLock p noaddr s = some t) : Inv t := by
  simp only [waitLock] at hx
  split at hx
  · rename_i hfree
    cases hx
    refine inv_acquire hs hrun hfree ⟨by simpa [State.acquire, State.setProc] using hrun, ?_⟩
      fun j => ?_
    · intro _ j hj
      exact absurd hj (Nat.not_lt_zero _)
    · rw [hpc]
      simp [Pc.holds]
  · cases hx

/-- `wait` lets go of its lock, and changes its own state with it. -/
theorem inv_waitEnd (hmine : ∀ j, (s.proc j).lock = some p ↔ j = p) (ht : Touches p p y pc s t)
    (hparent : y.parent = (s.proc p).parent) (hy : y.state ≠ .unused) (hz : y.state ≠ .zombie)
    (hlock : y.lock = none) (hown : pc.Ok t p) (hnone : ∀ j, ¬ pc.holds p j) : Inv t := by
  have hheld : (s.proc p).lock = some p := (hmine p).mpr rfl
  refine inv_own _ hs (not_unused_of_running hrun) ht hparent hy hz hown (fun j hj => ?_) ?_
    fun a ha => ?_
  · rw [← hs.locks p j, hmine j]
    exact iff_of_false hj (hnone j)
  · rw [hlock]
    exact iff_of_false (by simp) (hnone p)
  · rw [hlock, hheld]
    exact iff_of_false (by simp) fun h => ha (Option.some.inj h).symm

/-- `wait` returns without a child. -/
theorem inv_waitReturn (hmine : ∀ j, (s.proc j).lock = some p ↔ j = p) :
    Inv ((s.release p).setPc p .user) := by
  have ht : Touches p p { s.proc p with lock := none } .user s ((s.release p).setPc p .user) :=
    ⟨rfl, rfl⟩
  refine inv_waitEnd hs hrun hmine ht rfl (not_unused_of_running hrun) (fun hz => ?_) rfl
    (Or.inl (Or.inl ?_)) fun _ => id
  · rw [hrun] at hz
    cases hz
  · rw [ht.at_self]
    exact hrun

theorem inv_waitScan {noaddr havekids : Bool} (hpc : s.pc p = .waitScan noaddr i havekids) :
    Inv (waitScan p noaddr i havekids s) := by
  have hok := hs.ok_at hpc
  obtain ⟨-, hscan⟩ := hok
  have hmine : ∀ j, (s.proc j).lock = some p ↔ j = p := hs.locks_at hpc
  simp only [waitScan]
  split
  · rename_i hi
    split
    · rename_i hchild
      exact inv_goto hs hrun hpc ⟨hrun, hscan, hchild⟩ fun _ => Iff.rfl
    · rename_i hchild
      exact inv_goto hs hrun hpc
        ⟨hrun, scanned_succ hscan hi fun h => absurd h hchild⟩ fun _ => Iff.rfl
  · rename_i hi
    split
    · exact inv_waitReturn hs hrun hmine
    · set t := (s.setProc p { s.proc p with
          chan := some (.proc p), state := .sleeping, lock := none }).setPc p (.waitSleep noaddr)
        with htdef
      have ht :
        Touches p p { s.proc p with chan := some (.proc p), state := .sleeping, lock := none }
          (.waitSleep noaddr) s t := ⟨rfl, rfl⟩
      refine inv_waitEnd hs hrun hmine ht rfl (by simp) (by simp) rfl (Or.inr ⟨?_, ?_, ?_⟩)
        fun _ => id
      · rw [ht.at_self]
      · rw [ht.at_self]
      · intro hinit j hj hparent
        by_cases hjp : j = p
        · subst hjp
          rw [ht.at_self]
          simp
        · rw [ht.at_ne hjp] at hparent ⊢
          exact hscan hinit j (by omega) hparent

theorem inv_waitChild {noaddr havekids copied : Bool}
    {np : Pid} (hpc : s.pc p = .waitChild noaddr np havekids)
    (hx : waitChild p noaddr np copied s = some t) : Inv t := by
  have hok := hs.ok_at hpc
  obtain ⟨-, hscan, hchild⟩ := hok
  have hmine : ∀ j, (s.proc j).lock = some p ↔ j = p := hs.locks_at hpc
  have hheld : (s.proc p).lock = some p := (hmine p).mpr rfl
  simp only [waitChild] at hx
  split at hx
  · rename_i hfree
    have hnone := lock_of_free hfree
    split at hx
    · rename_i hz
      have hne : np ≠ p := by
        rintro rfl
        rw [hrun] at hz
        cases hz
      split at hx
      · cases hx
        exact inv_waitReturn hs hrun hmine
      · have hx := Option.some.inj hx
        have hself : t.proc p = { s.proc p with lock := none } := by
          rw [← hx]
          simp [State.setProc, State.setPc, State.release, hne.symm]
        have hreaped : t.proc np = freeproc (s.proc np) := by
          rw [← hx]
          simp [State.setProc, State.setPc, State.release, hne]
        have hrest : ∀ j, j ≠ p → j ≠ np → t.proc j = s.proc j := by
          intro j hjp hjn
          rw [← hx]
          simp [State.setProc, State.setPc, State.release, hjp, hjn]
        have hpc' : t.pc = update s.pc p .user := by
          rw [← hx]
          rfl
        have hrun' : (t.proc p).state = .running := by rw [hself]; exact hrun
        have hall : ∀ j, Kept p .user s j (t.proc j) := by
          intro j
          by_cases hjp : j = p
          · subst hjp
            rw [hself]
            refine ⟨.same rfl rfl rfl, id, iff_of_false (by simp) id, fun a ha => ?_⟩
            rw [hheld]
            exact iff_of_false (by simp) fun h => ha (Option.some.inj h).symm
          · by_cases hjn : j = np
            · subst hjn
              rw [hreaped]
              exact ⟨.reaped hz hchild hnone rfl rfl, fun _ => rfl,
                iff_of_false (by simp [freeproc, hnone]) id, fun _ _ => Iff.rfl⟩
            · rw [hrest j hjp hjn]
              refine ⟨.same rfl rfl rfl, id, ?_, fun _ _ => Iff.rfl⟩
              rw [hmine j]
              exact iff_of_false hjp id
        have hzp : (t.proc p).state ≠ .zombie := by
          rw [hrun']
          decide
        exact inv_kept hs hpc' hall (not_unused_of_running hrun) (not_unused_of_running hrun')
          (fun _ => hzp) (fun h => absurd h hzp) (Or.inl (Or.inl hrun'))
    · rename_i hz
      cases hx
      exact inv_goto hs hrun hpc ⟨hrun, scanned_succ hscan np.isLt fun _ => hz⟩ fun _ => Iff.rfl
  · cases hx

end

/-! ## `kill`, and the scheduler -/

theorem inv_killScan (hs : Inv s) (hrun : (s.proc p).state = .running) {pid : Int}
    (hpc : s.pc p = .killScan pid i) (hx : killScan p pid i s = some t) : Inv t := by
  simp only [killScan] at hx
  split at hx
  · rename_i hi
    split at hx
    · split at hx
      · cases hx
        set q : Pid := ⟨i, hi⟩ with hq
        set st : ProcState := if (s.proc q).state = .sleeping then .runnable else (s.proc q).state
          with hst
        set t := (s.setProc q { s.proc q with killed := true, state := st }).setPc p
          .user with htdef
        have ht : Touches p q { s.proc q with killed := true, state := st } .user s t := ⟨rfl, rfl⟩
        have hkeep : ∀ x : ProcState, x ≠ .sleeping → (s.proc q).state = x → st = x := by
          intro x hne hx
          rw [hst, if_neg (by rw [hx]; exact hne), hx]
        have hchange : Change p q (s.proc q) { s.proc q with killed := true, state := st } := by
          by_cases hsleep : (s.proc q).state = .sleeping
          · exact .woken hsleep (by simp [hst, hsleep]) rfl
          · exact .same (hkeep _ hsleep rfl) rfl rfl
        have hself : q = p → st = .running := by
          intro heq
          exact hkeep .running (by decide) (by rw [heq]; exact hrun)
        refine ht.inv hs hchange (hkeep .unused (by decide)) (fun heq hz => ?_)
          (not_unused_of_running hrun) (fun heq => ?_) (Or.inl (Or.inl ?_))
          (fun j _ => hs.locks_at hpc j) (hs.locks_at hpc q) fun _ _ => Iff.rfl
        · have hz : st = .zombie := hz
          rw [hself heq] at hz
          cases hz
        · show st ≠ .unused
          rw [hself heq]
          decide
        · by_cases hpq : p = q
          · have hst' := hself hpq.symm
            rw [hpq, ht.at_self]
            exact hst'
          · rw [ht.at_ne hpq]
            exact hrun
      · cases hx
        exact inv_goto hs hrun hpc (Or.inl hrun) fun _ => Iff.rfl
    · cases hx
  · cases hx
    exact inv_goto hs hrun hpc (Or.inl (Or.inl hrun)) fun _ => Iff.rfl

section

variable (hs : Inv s) (hp : (s.proc p).state = .runnable)

include hs hp

/-- A process that is ready holds no lock, or is running. -/
theorem not_holds_of_runnable (j : Pid) : ¬ (s.pc p).holds p j := by
  intro hh
  rcases hs.state_of_holds hh with h | h <;> cases hp.symm.trans h

omit hs hp in
/-- What a process that can be preempted knows does not depend on whether it is. -/
theorem Pc.Ok.preempt (h : pc.Ok s p) (hpre : pc.preemptible = true)
    (hready : t.Ready p) (hparent : (t.proc p).parent = (s.proc p).parent) : pc.Ok t p := by
  cases pc with
  | user => exact Or.inl hready
  | forkScan i => exact hready
  | waitLock noaddr => exact hready
  | killScan pid i => exact hready
  | wakeInit status => exact ⟨h.1, hready⟩
  | readParent status => exact ⟨h.1, hready⟩
  | lockParent status op =>
    refine ⟨h.1, hready, ?_⟩
    unfold State.Remembers
    rw [hparent]
    exact h.2.2
  | _ => cases hpre

theorem preemptible_of_runnable (hblocked : s.pc p ≠ .blocked)
    (hwait : ∀ noaddr, s.pc p ≠ .waitSleep noaddr) :
    (s.pc p).preemptible = true := by
  cases hpc : s.pc p with
  | lockSelf status op => cases hp.symm.trans (hs.ok_at hpc).2.1
  | reparent status op i => cases hp.symm.trans (hs.ok_at hpc).2.1
  | giveAway status op pp => cases hp.symm.trans (hs.ok_at hpc).2.1
  | dying => cases hp.symm.trans (hs.ok_at hpc).2
  | dead =>
    rcases (hs.ok_at hpc).2 with hz | hu
    · cases hp.symm.trans hz
    · cases hp.symm.trans hu
  | waitScan noaddr i havekids => cases hp.symm.trans (hs.ok_at hpc).1
  | waitChild noaddr np havekids => cases hp.symm.trans (hs.ok_at hpc).1
  | blocked => exact absurd hpc hblocked
  | waitSleep noaddr => exact absurd hpc (hwait noaddr)
  | _ => rfl

theorem inv_resume (hfree : s.free p = true) : Inv (resume p s) := by
  have hnone := lock_of_free hfree
  have hused : (s.proc p).state ≠ .unused := by rw [hp]; decide
  have hholds := not_holds_of_runnable hs hp
  have hplain : ∀ pc' : Pc, (∀ j, ¬ pc'.holds p j) → ∀ y : Proc, ∀ t, Touches p p y pc' s t →
      y.parent = (s.proc p).parent → y.state = .running → y.lock = none → pc'.Ok t p → Inv t := by
    intro pc' hpc' y t ht hparent hy hlock hown
    refine inv_own _ hs hused ht hparent (by rw [hy]; decide) (by rw [hy]; decide) hown
      (fun j _ => iff_of_false (hholds j) (hpc' j)) ?_ fun a _ => ?_
    · rw [hlock]
      exact iff_of_false (by simp) (hpc' p)
    · rw [hlock, hnone]
  unfold resume
  split
  · rename_i noaddr hpc
    refine inv_own _ hs hused ⟨rfl, rfl⟩ rfl (by simp) (by simp) ⟨?_, ?_⟩
      (fun j hj => iff_of_false (hholds j) hj) (iff_of_true rfl rfl) fun a ha => ?_
    · simp [State.setProc, State.setPc]
    · intro _ j hj
      exact absurd hj (Nat.not_lt_zero _)
    · rw [hnone]
      exact iff_of_false (fun h => ha (Option.some.inj h).symm) (by simp)
  · refine hplain .user (fun _ => id) _ _ ⟨rfl, rfl⟩ rfl rfl hnone (Or.inl (Or.inl ?_))
    simp [State.setProc, State.setPc]
  · rename_i hwait hblocked
    have hpre := preemptible_of_runnable hs hp hblocked hwait
    refine hplain (s.pc p) hholds _ _ ⟨rfl, (update_eq_self p s.pc).symm⟩ rfl rfl hnone ?_
    refine (hs.pcs p).preempt hpre (Or.inl ?_) ?_
    · simp [State.setProc]
    · simp [State.setProc]

end

theorem inv_yield (hs : Inv s) (hrun : (s.proc p).state = .running)
    (hpre : (s.pc p).preemptible = true) :
    Inv (s.setProc p { s.proc p with state := .runnable }) := by
  refine inv_own (s.pc p) hs (not_unused_of_running hrun)
    ⟨rfl, (update_eq_self p s.pc).symm⟩ rfl (by simp) (by simp) ?_ (fun _ _ => Iff.rfl)
    (hs.locks p p) fun _ _ => Iff.rfl
  refine (hs.pcs p).preempt hpre (Or.inr ?_) ?_
  · simp [State.setProc]
  · simp [State.setProc]

theorem inv_block (hs : Inv s) (hrun : (s.proc p).state = .running) (hpc : s.pc p = .user)
    (c : Nat) :
    Inv ((s.setProc p { s.proc p with state := .sleeping, chan := some (.other c) }).setPc p
      .blocked) := by
  have hnone : ∀ j, (s.pc p).holds p j ↔ Pc.blocked.holds p j := by
    intro j
    rw [hpc]
    rfl
  refine inv_own _ hs (not_unused_of_running hrun) ⟨rfl, rfl⟩ rfl (by simp) (by simp)
    (Or.inr ⟨?_, c, ?_⟩) (fun j _ => hnone j) ((hs.locks p p).trans (hnone p)) fun _ _ => Iff.rfl
  · simp [State.setProc, State.setPc]
  · simp [State.setProc, State.setPc]

section

variable (hs : Inv s) (hsleep : (s.proc p).state = .sleeping)

include hs hsleep

/-- A process that sleeps is in `sleep`. -/
theorem pc_of_sleeping : s.pc p = .blocked ∧ (∃ c, (s.proc p).chan = some (.other c)) ∨
      (s.proc p).chan = some (.proc p) ∧ s.Scanned p NPROC := by
  have hready : ¬ s.Ready p := by
    rintro (h | h) <;> cases hsleep.symm.trans h
  cases hpc : s.pc p with
  | blocked =>
    rcases hs.ok_at hpc with h | ⟨-, hc⟩
    · cases hsleep.symm.trans h
    · exact Or.inl ⟨rfl, hc⟩
  | waitSleep noaddr =>
    rcases hs.ok_at hpc with h | ⟨-, hc⟩
    · cases hsleep.symm.trans h
    · exact Or.inr hc
  | user =>
    rcases hs.ok_at hpc with h | h
    · exact absurd h hready
    · cases hsleep.symm.trans h
  | forkScan i => exact absurd (hs.ok_at hpc) hready
  | waitLock noaddr => exact absurd (hs.ok_at hpc) hready
  | killScan pid i => exact absurd (hs.ok_at hpc) hready
  | wakeInit status => exact absurd (hs.ok_at hpc).2 hready
  | readParent status => exact absurd (hs.ok_at hpc).2 hready
  | lockParent status op => exact absurd (hs.ok_at hpc).2.1 hready
  | lockSelf status op => cases hsleep.symm.trans (hs.ok_at hpc).2.1
  | reparent status op i => cases hsleep.symm.trans (hs.ok_at hpc).2.1
  | giveAway status op pp => cases hsleep.symm.trans (hs.ok_at hpc).2.1
  | dying => cases hsleep.symm.trans (hs.ok_at hpc).2
  | dead => rcases (hs.ok_at hpc).2 with h | h <;> cases hsleep.symm.trans h
  | waitScan noaddr i havekids => cases hsleep.symm.trans (hs.ok_at hpc).1
  | waitChild noaddr np havekids => cases hsleep.symm.trans (hs.ok_at hpc).1

/-- In `wait`, it has seen that no child is a zombie. -/
theorem asleep_scanned (hchan : (s.proc p).chan = some (.proc p)) : s.Scanned p NPROC := by
  rcases pc_of_sleeping hs hsleep with ⟨-, c, hc⟩ | ⟨-, hscan⟩
  · cases hchan.symm.trans hc
  · exact hscan

theorem inv_unblock {c : Nat} (hchan : (s.proc p).chan = some (.other c)) :
    Inv (s.setProc p { s.proc p with state := .runnable }) := by
  have hpc : s.pc p = .blocked := by
    rcases pc_of_sleeping hs hsleep with ⟨hpc, -⟩ | ⟨hc, -⟩
    · exact hpc
    · cases hchan.symm.trans hc
  refine inv_own (s.pc p) hs (by rw [hsleep]; decide)
    ⟨rfl, (update_eq_self p s.pc).symm⟩ rfl (by simp) (by simp) ?_ (fun _ _ => Iff.rfl)
    (hs.locks p p) fun _ _ => Iff.rfl
  rw [hpc]
  refine Or.inl ?_
  simp [State.setProc]

end

/-- The scheduler lets go of the lock of a process that has exited. -/
theorem inv_buried (hs : Inv s) (hpc : s.pc p = .dying) : Inv ((s.release p).setPc p .dead) := by
  have hok := hs.ok_at hpc
  have hheld : (s.proc p).lock = some p := (hs.locks_at hpc p).mpr rfl
  have hused : (s.proc p).state ≠ .unused := by rw [hok.2]; decide
  have ht : Touches p p { s.proc p with lock := none } .dead s ((s.release p).setPc p .dead) :=
    ⟨rfl, rfl⟩
  refine ht.inv hs (.same rfl rfl rfl) id (fun _ hz => hz) hused (fun _ => hused) ⟨hok.1, Or.inl ?_⟩
    (fun j hj => ?_) (iff_of_false (by simp) id) fun a ha => ?_
  · rw [ht.at_self]
    exact hok.2
  · rw [hs.locks_at hpc]
    exact iff_of_false hj id
  · rw [hheld]
    exact iff_of_false (by simp) fun h => ha (Option.some.inj h).symm

/-! ## Steps -/

theorem inv_runSection (hs : Inv s) (hrun : (s.proc p).state = .running) {alloc : Alloc}
    {copied : Bool} (hx : runSection p alloc copied s = some t) : Inv t := by
  unfold runSection at hx
  cases hpc : s.pc p with
  | forkScan i => rw [hpc] at hx; exact inv_forkScan hs hrun hpc hx
  | wakeInit status => rw [hpc] at hx; exact inv_wakeInit hs hrun hpc hx
  | readParent status => rw [hpc] at hx; exact inv_readParent hs hrun hpc hx
  | lockParent status op => rw [hpc] at hx; exact inv_lockParent hs hrun hpc hx
  | lockSelf status op => rw [hpc] at hx; exact inv_lockSelf hs hrun hpc hx
  | reparent status op i => rw [hpc] at hx; cases hx; exact inv_reparent hs hrun hpc
  | giveAway status op pp => rw [hpc] at hx; exact inv_giveAway hs hrun hpc hx
  | waitLock noaddr => rw [hpc] at hx; exact inv_waitLock hs hrun hpc hx
  | waitScan noaddr i havekids => rw [hpc] at hx; cases hx; exact inv_waitScan hs hrun hpc
  | waitChild noaddr np havekids => rw [hpc] at hx; exact inv_waitChild hs hrun hpc hx
  | killScan pid i => rw [hpc] at hx; exact inv_killScan hs hrun hpc hx
  | _ => rw [hpc] at hx; cases hx

theorem inv_call (hs : Inv s) (hrun : (s.proc p).state = .running) (hpc : s.pc p = .user) {c : Call}
    {pc : Pc} (hc : c.start p = some pc) : Inv (s.setPc p pc) := by
  have hused := not_unused_of_running hrun
  cases c with
  | fork => cases hc; exact inv_goto hs hrun hpc (Or.inl hrun) fun _ => Iff.rfl
  | exit status =>
    simp only [Call.start] at hc
    split at hc
    · cases hc
    · rename_i hinit
      cases hc
      exact inv_goto hs hrun hpc ⟨hinit, Or.inl hrun⟩ fun _ => Iff.rfl
  | wait noaddr => cases hc; exact inv_goto hs hrun hpc (Or.inl hrun) fun _ => Iff.rfl
  | kill pid => cases hc; exact inv_goto hs hrun hpc (Or.inl hrun) fun _ => Iff.rfl

theorem inv_step {a : Action} (hs : Inv s) (hx : step a s = some t) : Inv t := by
  cases a with
  | call p c =>
    simp only [step] at hx
    split at hx
    · rename_i hp
      cases hc : c.start p with
      | none => rw [hc] at hx; cases hx
      | some pc =>
        rw [hc] at hx
        cases hx
        exact inv_call hs hp.1 hp.2 hc
    · cases hx
  | run p alloc copied =>
    simp only [step] at hx
    split at hx
    · rename_i hrun
      exact inv_runSection hs hrun hx
    · split at hx
      · rename_i hpc
        cases hx
        exact inv_buried hs hpc
      · cases hx
  | schedule p =>
    simp only [step] at hx
    split at hx
    · rename_i hp
      cases hx
      exact inv_resume hs hp.1 hp.2
    · cases hx
  | yield p =>
    simp only [step] at hx
    split at hx
    · rename_i hp
      cases hx
      exact inv_yield hs hp.1 hp.2.1
    · cases hx
  | block p c =>
    simp only [step] at hx
    split at hx
    · rename_i hp
      cases hx
      exact inv_block hs hp.1 hp.2.1 c
    · cases hx
  | unblock p =>
    simp only [step] at hx
    split at hx
    · rename_i c hchan
      split at hx
      · rename_i hp
        cases hx
        exact inv_unblock hs hp.1 hchan
      · cases hx
    · cases hx

theorem inv_boot : Inv boot where
  locks p q := by
    refine iff_of_false ?_ id
    by_cases hq : q = initproc
    · subst hq; simp [boot, Proc.zero]
    · simp [boot, Proc.zero, hq]
  pcs p := by
    by_cases hp : p = initproc
    · subst hp
      exact Or.inl (Or.inr (by simp [boot]))
    · exact Or.inr (by simp [boot, Proc.zero, hp])
  init := by
    unfold State.Alive
    simp [boot]
  parents p hp hused := by
    simp [boot, Proc.zero, hp] at hused
  orphan p hp := by
    by_cases hinit : p = initproc
    · subst hinit; simp [boot, Proc.zero]
    · simp [boot, Proc.zero, hinit]

end Xv6.Procs
