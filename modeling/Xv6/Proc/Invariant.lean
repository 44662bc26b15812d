/-
  Proc/Invariant.lean --- what holds of the process table at all times.

  Where a process is says which locks it holds (`Pc.holds`) and what it knows about
  the table (`Pc.Ok`): that the children it went past were given away, or were not
  zombies.  A process's step changes an entry of the table in one of few ways
  (`Change`); from that alone it follows that what the other processes know stays
  true, so a section only has to be looked at for the process that runs it.
-/
import Xv6.Proc.Machine

set_option autoImplicit false

namespace Xv6.Procs

/-! ## What a process has and knows -/

/-- The locks the process holds. -/
def Pc.holds (p : Pid) : Pc → Pid → Prop
  | .lockSelf _ op, q => q = op
  | .reparent _ op _, q | .giveAway _ op _, q => q = op ∨ q = p
  | .dying, q | .waitScan _ _ _, q | .waitChild _ _ _, q => q = p
  | .user, _ | .blocked, _ | .forkScan _, _ | .wakeInit _, _ | .readParent _, _
  | .lockParent _ _, _ | .dead, _ | .waitLock _, _ | .waitSleep _, _ | .killScan _ _, _ => False

/-- The remembered parent is the parent, unless that has given the process to
`initproc`. -/
def State.Remembers (s : State) (p op : Pid) : Prop :=
  (s.proc p).parent = some op ∨ (s.proc p).parent = some initproc

/-- No entry below `i` is a child of `p`. -/
def State.Given (s : State) (p : Pid) (i : Nat) : Prop :=
  ∀ j : Pid, j.val < i → (s.proc j).parent ≠ some p

/-- No entry below `i` is a zombie and a child of `p`. -/
def State.Scanned (s : State) (p : Pid) (i : Nat) : Prop :=
  p ≠ initproc → ∀ j : Pid, j.val < i → (s.proc j).parent = some p → (s.proc j).state ≠ .zombie

/-- The process can run, or is running. -/
def State.Ready (s : State) (p : Pid) : Prop :=
  (s.proc p).state = .running ∨ (s.proc p).state = .runnable

def Pc.Ok (s : State) (p : Pid) : Pc → Prop
  | .user => s.Ready p ∨ (s.proc p).state = .unused
  | .forkScan _ | .waitLock _ | .killScan _ _ => s.Ready p
  | .blocked =>
      (s.proc p).state = .runnable ∨
        (s.proc p).state = .sleeping ∧ ∃ c, (s.proc p).chan = some (.other c)
  | .wakeInit _ | .readParent _ => p ≠ initproc ∧ s.Ready p
  | .lockParent _ op => p ≠ initproc ∧ s.Ready p ∧ s.Remembers p op
  | .lockSelf _ op => p ≠ initproc ∧ (s.proc p).state = .running ∧ s.Remembers p op
  | .reparent _ op i =>
      p ≠ initproc ∧ (s.proc p).state = .running ∧ s.Remembers p op ∧ op ≠ p ∧ s.Given p i
  | .giveAway _ op pp =>
      p ≠ initproc ∧ (s.proc p).state = .running ∧ s.Remembers p op ∧ op ≠ p ∧ s.Given p pp ∧
        (s.proc pp).parent = some p
  | .dying => p ≠ initproc ∧ (s.proc p).state = .zombie
  | .dead => p ≠ initproc ∧ ((s.proc p).state = .zombie ∨ (s.proc p).state = .unused)
  | .waitScan _ i _ => (s.proc p).state = .running ∧ s.Scanned p i
  | .waitChild _ np _ =>
      (s.proc p).state = .running ∧ s.Scanned p np ∧ (s.proc np).parent = some p
  | .waitSleep _ =>
      (s.proc p).state = .runnable ∨
        (s.proc p).state = .sleeping ∧ (s.proc p).chan = some (.proc p) ∧ s.Scanned p NPROC

/-! ## The invariant -/

/-- Neither `UNUSED` nor `ZOMBIE`. -/
def State.Alive (s : State) (p : Pid) : Prop :=
  (s.proc p).state ≠ .unused ∧ (s.proc p).state ≠ .zombie

structure Inv (s : State) : Prop where
  locks : ∀ p q, (s.proc q).lock = some p ↔ (s.pc p).holds p q
  pcs : ∀ p, (s.pc p).Ok s p
  init : s.Alive initproc
  /-- everybody but `initproc` has a parent -/
  parents : ∀ p, p ≠ initproc → (s.proc p).state ≠ .unused →
    ∃ q, (s.proc p).parent = some q ∧ s.Alive q
  orphan : ∀ p, (s.proc p).state = .unused → (s.proc p).parent = none

theorem Inv.ok_at {s : State} {p : Pid} {pc : Pc} (h : Inv s) (hpc : s.pc p = pc) : pc.Ok s p := by
  rw [← hpc]
  exact h.pcs p

theorem Inv.locks_at {s : State} {p : Pid} {pc : Pc} (h : Inv s) (hpc : s.pc p = pc) (q : Pid) :
    (s.proc q).lock = some p ↔ pc.holds p q := by
  rw [← hpc]
  exact h.locks p q

/-- A process that holds a lock runs, or is about to be a zombie. -/
theorem Inv.state_of_holds {s : State} {p q : Pid} (h : Inv s) (hh : (s.pc p).holds p q) :
    (s.proc p).state = .running ∨ (s.proc p).state = .zombie := by
  cases hpc : s.pc p with
  | lockSelf status op => exact Or.inl (h.ok_at hpc).2.1
  | reparent status op i => exact Or.inl (h.ok_at hpc).2.1
  | giveAway status op pp => exact Or.inl (h.ok_at hpc).2.1
  | dying => exact Or.inr (h.ok_at hpc).2
  | waitScan noaddr i havekids => exact Or.inl (h.ok_at hpc).1
  | waitChild noaddr np havekids => exact Or.inl (h.ok_at hpc).1
  | _ => rw [hpc] at hh; exact absurd hh id

/-! ## What a step does to the table -/

/-- What a step of `p` can make of entry `j`, apart from its lock. -/
inductive Change (p j : Pid) (x y : Proc) : Prop where
  | same (hstate : y.state = x.state) (hparent : y.parent = x.parent) (hchan : y.chan = x.chan)
  | woken (hx : x.state = .sleeping) (hy : y.state = .runnable) (hparent : y.parent = x.parent)
  | own (hj : j = p) (hparent : y.parent = x.parent) (hx : x.state ≠ .unused)
      (hy : y.state ≠ .unused)
  | given (hx : x.parent = some p) (hy : y.parent = some initproc) (hstate : y.state = x.state)
      (hchan : y.chan = x.chan)
  | born (hx : x.state = .unused) (hy : y.state = .runnable) (hparent : y.parent = some p)
  | reaped (hx : x.state = .zombie) (hparent : x.parent = some p) (hfree : x.lock = none)
      (hy : y.state = .unused) (hnone : y.parent = none)
  | failed (hx : x.state = .unused) (hy : y.state = .unused)
      (hparent : y.parent = x.parent ∨ y.parent = none)

structure Effect (p : Pid) (s t : State) : Prop where
  change : ∀ j, Change p j (s.proc j) (t.proc j)
  pc : ∀ q, q ≠ p →
    t.pc q = s.pc q ∧ ((s.proc q).state = .unused → (t.proc q).state = .unused) ∨
    (s.proc q).state = .unused ∧ (t.proc q).state = .runnable ∧ t.pc q = .user
  /-- a process that becomes a zombie has no children, holds the lock of its parent, and
  has woken it -/
  zombie : (t.proc p).state = .zombie → (s.proc p).state = .zombie ∨
    s.Given p NPROC ∧ ∃ op, s.Remembers p op ∧ (s.proc op).lock = some p ∧
      ((t.proc op).state = .sleeping → (t.proc op).chan ≠ some (.proc op))

namespace Change

variable {p j q : Pid} {x y : Proc}

/-- A child of another process than `p` and `initproc` was its child before. -/
theorem parent_back (h : Change p j x y) (hq : q ≠ p) (hinit : q ≠ initproc)
    (hy : y.parent = some q) : x.parent = some q := by
  cases h with
  | same _ hparent _ => rw [← hparent, hy]
  | woken _ _ hparent => rw [← hparent, hy]
  | own _ hparent _ _ => rw [← hparent, hy]
  | given _ hgiven _ _ => exact absurd (Option.some.inj (hy.symm.trans hgiven)) hinit
  | born _ _ hparent => exact absurd (Option.some.inj (hy.symm.trans hparent)) hq
  | reaped _ _ _ _ hnone => rw [hnone] at hy; cases hy
  | failed _ _ hparent =>
    rcases hparent with hparent | hnone
    · rw [← hparent, hy]
    · rw [hnone] at hy; cases hy

/-- Nobody makes somebody else a zombie. -/
theorem zombie_back (h : Change p j x y) (hj : j ≠ p) (hy : y.state = .zombie) :
    x.state = .zombie := by
  cases h with
  | same hstate _ _ => rw [← hstate, hy]
  | woken _ hy' _ => rw [hy'] at hy; cases hy
  | own heq _ _ _ => exact absurd heq hj
  | given _ _ hstate _ => rw [← hstate, hy]
  | born _ hy' _ => rw [hy'] at hy; cases hy
  | reaped _ _ _ hy' _ => rw [hy'] at hy; cases hy
  | failed _ hy' _ => rw [hy'] at hy; cases hy

/-- A zombie stays one, unless it is reaped. -/
theorem zombie_fwd (h : Change p j x y) (hj : j ≠ p) (hx : x.state = .zombie) :
    y.state = .zombie ∨ x.lock = none ∧ y.state = .unused := by
  cases h with
  | same hstate _ _ => exact Or.inl (hstate.trans hx)
  | woken hx' _ _ => cases hx.symm.trans hx'
  | own heq _ _ _ => exact absurd heq hj
  | given _ _ hstate _ => exact Or.inl (hstate.trans hx)
  | born hx' _ _ => cases hx.symm.trans hx'
  | reaped _ _ hfree hy _ => exact Or.inr ⟨hfree, hy⟩
  | failed hx' _ _ => cases hx.symm.trans hx'

/-- Somebody else who is alive stays so. -/
theorem alive (h : Change p j x y) (hj : j ≠ p) (hx : x.state ≠ .unused ∧ x.state ≠ .zombie) :
    y.state = x.state ∧ y.chan = x.chan ∨ x.state = .sleeping ∧ y.state = .runnable := by
  cases h with
  | same hstate _ hchan => exact Or.inl ⟨hstate, hchan⟩
  | woken hx hy _ => exact Or.inr ⟨hx, hy⟩
  | own heq _ _ _ => exact absurd heq hj
  | given _ _ hstate hchan => exact Or.inl ⟨hstate, hchan⟩
  | born hx' _ _ => exact absurd hx' hx.1
  | reaped hx' _ _ _ _ => exact absurd hx' hx.2
  | failed hx' _ _ => exact absurd hx' hx.1

/-- The parent of an entry in use stays, or is `initproc` from now on. -/
theorem parent_fwd (h : Change p j x y) (hx : x.state ≠ .unused) (hy : y.state ≠ .unused) :
    y.parent = x.parent ∨ y.parent = some initproc := by
  cases h with
  | same _ hparent _ => exact Or.inl hparent
  | woken _ _ hparent => exact Or.inl hparent
  | own _ hparent _ _ => exact Or.inl hparent
  | given _ hgiven _ _ => exact Or.inr hgiven
  | born hx' _ _ => exact absurd hx' hx
  | reaped _ _ _ hy' _ => exact absurd hy' hy
  | failed hx' _ _ => exact absurd hx' hx

end Change

namespace Effect

variable {p q : Pid} {s t : State}

section

variable (he : Effect p s t)

include he

theorem given (hq : q ≠ p) (hinit : q ≠ initproc) {i : Nat} (h : s.Given q i) : t.Given q i := by
  intro j hj hparent
  exact h j hj ((he.change j).parent_back hq hinit hparent)

theorem remembers {op : Pid} (hs : (s.proc q).state ≠ .unused)
    (ht : (t.proc q).state ≠ .unused) (h : s.Remembers q op) : t.Remembers q op := by
  rcases (he.change q).parent_fwd hs ht with hsame | hinit
  · unfold State.Remembers
    rw [hsame]
    exact h
  · exact Or.inr hinit

/-- A child of another process that is a zombie was one before; or it has just become one, with the
lock of its parent, which it has woken. -/
theorem zombie_cause (hq : q ≠ p) (hinit : q ≠ initproc) {j : Pid}
    (hparent : (t.proc j).parent = some q) (hz : (t.proc j).state = .zombie) :
    (s.proc j).parent = some q ∧ ((s.proc j).state = .zombie ∨ (s.proc q).lock = some p ∧
      ((t.proc q).state = .sleeping → (t.proc q).chan ≠ some (.proc q))) := by
  have hbefore := (he.change j).parent_back hq hinit hparent
  refine ⟨hbefore, ?_⟩
  by_cases hjp : j = p
  · subst hjp
    rcases he.zombie hz with hzs | ⟨-, op, hop, hheld, hwoken⟩
    · exact Or.inl hzs
    · have hopq : op = q := by
        rcases hop with hop | hop
        · exact (Option.some.inj (hbefore.symm.trans hop)).symm
        · exact absurd (Option.some.inj (hbefore.symm.trans hop)) hinit
      subst hopq
      exact Or.inr ⟨hheld, hwoken⟩
  · exact Or.inl ((he.change j).zombie_back hjp hz)

/-- What a process has seen of its children stays true if it holds its own lock. -/
theorem scanned (hq : q ≠ p) (hlock : (s.proc q).lock = some q) {i : Nat}
    (h : s.Scanned q i) : t.Scanned q i := by
  intro hinit j hj hparent hz
  obtain ⟨hbefore, hzs | ⟨hheld, -⟩⟩ := he.zombie_cause hq hinit hparent hz
  · exact h hinit j hj hbefore hzs
  · exact hq (Option.some.inj (hlock.symm.trans hheld))

/-- Or if it is asleep and was not woken. -/
theorem scanned_asleep (hq : q ≠ p) (hsleep : (t.proc q).state = .sleeping)
    (hchan : (t.proc q).chan = some (.proc q)) {i : Nat} (h : s.Scanned q i) : t.Scanned q i := by
  intro hinit j hj hparent hz
  obtain ⟨hbefore, hzs | ⟨-, hwoken⟩⟩ := he.zombie_cause hq hinit hparent hz
  · exact h hinit j hj hbefore hzs
  · exact hwoken hsleep hchan

theorem ready (hq : q ≠ p) (h : s.Ready q) : t.Ready q := by
  have hx : (s.proc q).state ≠ .unused ∧ (s.proc q).state ≠ .zombie := by
    rcases h with h | h <;> rw [h] <;> exact ⟨by decide, by decide⟩
  rcases (he.change q).alive hq hx with ⟨hstate, -⟩ | ⟨-, hrun⟩
  · unfold State.Ready
    rw [hstate]
    exact h
  · exact Or.inr hrun

theorem running (hq : q ≠ p) (h : (s.proc q).state = .running) : (t.proc q).state = .running := by
  rcases (he.change q).alive hq (by rw [h]; exact ⟨by decide, by decide⟩) with ⟨hstate, -⟩ | ⟨hx, -⟩
  · rw [hstate, h]
  · rw [h] at hx; cases hx

end

/-- Only `p` takes a child away from `p`. -/
theorem child (h : Inv s) (he : Effect p s t) (hq : q ≠ p) {j : Pid}
    (hj : (s.proc j).parent = some q) : (t.proc j).parent = some q := by
  have hused : (s.proc j).state ≠ .unused := by
    intro hunused
    rw [h.orphan j hunused] at hj
    cases hj
  cases he.change j with
  | same _ hparent _ => rw [hparent, hj]
  | woken _ _ hparent => rw [hparent, hj]
  | own _ hparent _ _ => rw [hparent, hj]
  | given hx _ _ _ => exact absurd (Option.some.inj (hj.symm.trans hx)) hq
  | born hx _ _ => exact absurd hx hused
  | reaped _ hparent _ _ _ => exact absurd (Option.some.inj (hj.symm.trans hparent)) hq
  | failed hx _ _ => exact absurd hx hused

/-- What the other processes know stays true. -/
theorem others (h : Inv s) (he : Effect p s t) (hq : q ≠ p) : (t.pc q).Ok t q := by
  rcases he.pc q hq with ⟨hpc, hunused⟩ | ⟨-, hrunnable, hpc⟩
  · rw [hpc]
    have hremember : ∀ op, s.Ready q → s.Remembers q op → t.Remembers q op := by
      intro op hready
      apply he.remembers
      · rcases hready with hs | hs <;> rw [hs] <;> decide
      · rcases he.ready hq hready with ht | ht <;> rw [ht] <;> decide
    cases hs : s.pc q with
    | user =>
      exact (h.ok_at hs).imp (he.ready hq) hunused
    | blocked =>
      rcases h.ok_at hs with hready | ⟨hsleep, c, hchan⟩
      · rcases (he.change q).alive hq (by rw [hready]; exact ⟨by decide, by decide⟩) with
          ⟨hstate, -⟩ | ⟨-, hrun⟩
        · exact Or.inl (hstate.trans hready)
        · exact Or.inl hrun
      · rcases (he.change q).alive hq (by rw [hsleep]; exact ⟨by decide, by decide⟩) with
          ⟨hstate, hsame⟩ | ⟨-, hrun⟩
        · exact Or.inr ⟨hstate.trans hsleep, c, hsame.trans hchan⟩
        · exact Or.inl hrun
    | forkScan i => exact he.ready hq (h.ok_at hs)
    | waitLock noaddr => exact he.ready hq (h.ok_at hs)
    | killScan pid i => exact he.ready hq (h.ok_at hs)
    | wakeInit status => exact (h.ok_at hs).imp_right (he.ready hq)
    | readParent status => exact (h.ok_at hs).imp_right (he.ready hq)
    | lockParent status op =>
      obtain ⟨hinit, hready, hop⟩ := h.ok_at hs
      exact ⟨hinit, he.ready hq hready, hremember op hready hop⟩
    | lockSelf status op =>
      obtain ⟨hinit, hrun, hop⟩ := h.ok_at hs
      exact ⟨hinit, he.running hq hrun, hremember op (Or.inl hrun) hop⟩
    | reparent status op i =>
      obtain ⟨hinit, hrun, hop, hne, hgiven⟩ := h.ok_at hs
      exact ⟨hinit, he.running hq hrun, hremember op (Or.inl hrun) hop, hne,
        he.given hq hinit hgiven⟩
    | giveAway status op pp =>
      obtain ⟨hinit, hrun, hop, hne, hgiven, hchild⟩ := h.ok_at hs
      exact ⟨hinit, he.running hq hrun, hremember op (Or.inl hrun) hop, hne,
        he.given hq hinit hgiven, he.child h hq hchild⟩
    | dying =>
      obtain ⟨hinit, hz⟩ := h.ok_at hs
      refine ⟨hinit, ((he.change q).zombie_fwd hq hz).resolve_right fun hreaped => ?_⟩
      cases hreaped.1.symm.trans ((h.locks_at hs q).mpr rfl)
    | dead =>
      obtain ⟨hinit, hz | hu⟩ := h.ok_at hs
      · exact ⟨hinit, ((he.change q).zombie_fwd hq hz).imp_right And.right⟩
      · exact ⟨hinit, Or.inr (hunused hu)⟩
    | waitScan noaddr i havekids =>
      obtain ⟨hrun, hscan⟩ := h.ok_at hs
      exact ⟨he.running hq hrun, he.scanned hq ((h.locks_at hs q).mpr rfl) hscan⟩
    | waitChild noaddr np havekids =>
      obtain ⟨hrun, hscan, hchild⟩ := h.ok_at hs
      exact ⟨he.running hq hrun, he.scanned hq ((h.locks_at hs q).mpr rfl) hscan,
        he.child h hq hchild⟩
    | waitSleep noaddr =>
      rcases h.ok_at hs with hready | ⟨hsleep, hchan, hscan⟩
      · rcases (he.change q).alive hq (by rw [hready]; exact ⟨by decide, by decide⟩) with
          ⟨hstate, -⟩ | ⟨-, hrun⟩
        · exact Or.inl (hstate.trans hready)
        · exact Or.inl hrun
      · rcases (he.change q).alive hq (by rw [hsleep]; exact ⟨by decide, by decide⟩) with
          ⟨hstate, hsame⟩ | ⟨-, hrun⟩
        · have hsleep' := hstate.trans hsleep
          have hchan' := hsame.trans hchan
          exact Or.inr ⟨hsleep', hchan', he.scanned_asleep hq hsleep' hchan' hscan⟩
        · exact Or.inl hrun
  · rw [hpc]
    exact Or.inl (Or.inr hrunnable)

/-! ## From a process's own part to the whole -/

/-- The process itself: it is in use before and after, and a zombie stays one. -/
structure Actor (p : Pid) (s t : State) : Prop where
  before : (s.proc p).state ≠ .unused
  after : (t.proc p).state ≠ .unused
  init : p = initproc → (t.proc p).state ≠ .zombie

theorem alive (he : Effect p s t) (ha : Actor p s t) (hs : s.Alive q)
    (hp : q = p → (t.proc p).state ≠ .zombie) : t.Alive q := by
  by_cases hq : q = p
  · subst hq
    exact ⟨ha.after, hp rfl⟩
  · rcases (he.change q).alive hq hs with ⟨hstate, -⟩ | ⟨-, hrun⟩
    · unfold State.Alive
      rw [hstate]
      exact hs
    · unfold State.Alive
      rw [hrun]
      exact ⟨by decide, by decide⟩

theorem parents (h : Inv s) (he : Effect p s t) (ha : Actor p s t)
    (hfork : (∃ j, (s.proc j).state = .unused ∧ (t.proc j).state = .runnable) → t.Alive p)
    (hinit : t.Alive initproc) {j : Pid} (hj : j ≠ initproc) (hused : (t.proc j).state ≠ .unused) :
    ∃ q, (t.proc j).parent = some q ∧ t.Alive q := by
  -- an entry that keeps its parent
  have hkeep : (s.proc j).state ≠ .unused → (t.proc j).parent = (s.proc j).parent →
      ∃ q, (t.proc j).parent = some q ∧ t.Alive q := by
    intro hbefore hparent
    obtain ⟨q, hq, halive⟩ := h.parents j hj hbefore
    refine ⟨q, by rw [hparent, hq], he.alive ha halive ?_⟩
    rintro rfl hz
    rcases he.zombie hz with hzs | ⟨hgiven, -⟩
    · exact halive.2 hzs
    · exact hgiven j j.isLt hq
  cases he.change j with
  | same hstate hparent _ => exact hkeep (by rw [← hstate]; exact hused) hparent
  | woken hx _ hparent => exact hkeep (by rw [hx]; decide) hparent
  | own _ hparent hx _ => exact hkeep hx hparent
  | given _ hy _ _ => exact ⟨initproc, hy, hinit⟩
  | born hx hy hparent => exact ⟨p, hparent, hfork ⟨j, hx, hy⟩⟩
  | reaped _ _ _ hy _ => exact absurd hy hused
  | failed _ hy _ => exact absurd hy hused

theorem orphan (h : Inv s) (he : Effect p s t) {j : Pid} (hunused : (t.proc j).state = .unused) :
    (t.proc j).parent = none := by
  cases he.change j with
  | same hstate hparent _ =>
    rw [hparent]
    exact h.orphan j (by rw [← hstate]; exact hunused)
  | woken _ hy _ => rw [hy] at hunused; cases hunused
  | own _ _ _ hy => exact absurd hunused hy
  | given hx _ hstate _ =>
    rw [h.orphan j (by rw [← hstate]; exact hunused)] at hx
    cases hx
  | born _ hy _ => rw [hy] at hunused; cases hunused
  | reaped _ _ _ _ hnone => exact hnone
  | failed hx _ hparent =>
    rcases hparent with hparent | hnone
    · rw [hparent]
      exact h.orphan j hx
    · exact hnone

/-- Nobody in an unused entry holds a lock. -/
theorem not_holds_of_unused (h : Inv s) {a : Pid} (hunused : (s.proc a).state = .unused) (q : Pid) :
    ¬ (s.pc a).holds a q := by
  intro hh
  rcases h.state_of_holds hh with hs | hs <;> cases hunused.symm.trans hs

/-- The invariant after a step, from what is particular to it. -/
theorem inv (h : Inv s) (he : Effect p s t) (ha : Actor p s t)
    (hfork : (∃ j, (s.proc j).state = .unused ∧ (t.proc j).state = .runnable) → t.Alive p)
    (hown : (t.pc p).Ok t p)
    (hlocks : ∀ q, (t.proc q).lock = some p ↔ (t.pc p).holds p q)
    (hrest : ∀ q a, a ≠ p → ((t.proc q).lock = some a ↔ (s.proc q).lock = some a)) : Inv t := by
  have hinit : t.Alive initproc := he.alive ha h.init fun hp => ha.init hp.symm
  refine ⟨fun a q => ?_, fun q => ?_, hinit, fun j hj hused => he.parents h ha hfork hinit hj hused,
    fun j hunused => he.orphan h hunused⟩
  · by_cases hap : a = p
    · subst hap
      exact hlocks q
    · rw [hrest q a hap, h.locks a q]
      rcases he.pc a hap with ⟨hpc, -⟩ | ⟨hunused, -, hpc⟩
      · rw [hpc]
      · rw [hpc]
        exact iff_of_false (not_holds_of_unused h hunused q) id
  · by_cases hqp : q = p
    · subst hqp
      exact hown
    · exact he.others h hqp

end Effect

end Xv6.Procs
