/-
  Log/GroupCommitSafety.lean --- what holds in every state of the group-commit
  protocol, and that every operation is installed by one commit.
-/
import Mathlib.Algebra.Order.BigOperators.Group.Finset
import Xv6.Log.GroupCommit

set_option autoImplicit false

namespace Xv6.GroupCommit

open Function List Foundation

/-! ## Reading the history -/

section History

variable {P : Type} [DecidableEq P]

/-- The blocks log_written since the last commit. -/
def since : List (Event P) → List Nat
  | [] => []
  | .committed _ :: _ => []
  | .wrote _ b :: h => b :: since h
  | .begun _ :: h => since h
  | .ended _ :: h => since h

/-- Is the process between a `begin_op` and its `end_op`? -/
def opened (p : P) : List (Event P) → Bool
  | [] => false
  | .begun q :: h => if q = p then true else opened p h
  | .ended q :: h => if q = p then false else opened p h
  | .wrote _ _ :: h => opened p h
  | .committed _ :: h => opened p h

/-- Every block was written by a process in an operation, and every commit was
made while nobody was in one and installed the blocks written since the commit
before. -/
def HistOk : List (Event P) → Prop
  | [] => True
  | .wrote p _ :: h => opened p h = true ∧ HistOk h
  | .committed bs :: h =>
      (∀ p, opened p h = false) ∧ (∀ b, b ∈ bs ↔ b ∈ since h) ∧ HistOk h
  | .begun _ :: h => HistOk h
  | .ended _ :: h => HistOk h

theorem HistOk.tail {e : Event P} {h : List (Event P)} (hok : HistOk (e :: h)) : HistOk h := by
  cases e with
  | begun p => exact hok
  | ended p => exact hok
  | wrote p b => exact hok.2
  | committed bs => exact hok.2.2

variable {h₁ h₂ : List (Event P)}

theorem HistOk.drop (hok : HistOk (h₁ ++ h₂)) : HistOk h₂ := by
  induction h₁ with
  | nil => exact hok
  | cons e h₁ ih => exact ih hok.tail

/-- An operation that is not ended stays open. -/
theorem opened_append {p : P} (hn : .ended p ∉ h₁) (ho : opened p h₂ = true) :
    opened p (h₁ ++ h₂) = true := by
  induction h₁ with
  | nil => exact ho
  | cons e h₁ ih =>
    have ih := ih fun h => hn (mem_cons_of_mem _ h)
    cases e with
    | begun q => simp [opened, ih]
    | wrote q b => simpa [opened] using ih
    | committed bs => simpa [opened] using ih
    | ended q =>
      have hq : q ≠ p := by
        rintro rfl
        exact hn (mem_cons_self ..)
      simpa [opened, hq] using ih

omit [DecidableEq P] in
/-- What was written before is still due if there was no commit. -/
theorem mem_since_append {b : Nat} (hn : ∀ bs, .committed bs ∉ h₁) (hb : b ∈ since h₂) :
    b ∈ since (h₁ ++ h₂) := by
  induction h₁ with
  | nil => exact hb
  | cons e h₁ ih =>
    have ih := ih fun bs h => hn bs (mem_cons_of_mem _ h)
    cases e with
    | begun q => simpa [since] using ih
    | ended q => simpa [since] using ih
    | wrote q c => simp [since, ih]
    | committed bs => exact absurd (mem_cons_self ..) (hn bs)

variable {newer between older : List (Event P)}

/-- No commit falls between two writes of one operation. -/
theorem HistOk.not_split {p : P} {b b' : Nat}
    (hok : HistOk (newer ++ .wrote p b' :: (between ++ .wrote p b :: older)))
    (hn : .ended p ∉ between) (bs : List Nat) : .committed bs ∉ between := by
  intro hc
  obtain ⟨h₁, h₂, rfl⟩ := append_of_mem hc
  have hdrop : HistOk (.committed bs :: (h₂ ++ .wrote p b :: older)) := by
    have := hok.drop.tail
    rw [append_assoc] at this
    exact this.drop
  have hopen : opened p (.wrote p b :: older) = true := by
    have hw : HistOk (.wrote p b :: older) := hdrop.tail.drop
    simpa [opened] using hw.1
  have hstill : opened p (h₂ ++ .wrote p b :: older) = true :=
    opened_append (fun h => hn (mem_append_right _ (mem_cons_of_mem _ h))) hopen
  rw [hdrop.1 p] at hstill
  cases hstill

/-- The first commit after a write installs the block. -/
theorem HistOk.installs {p : P} {b : Nat} {bs : List Nat}
    (hok : HistOk (newer ++ .committed bs :: (between ++ .wrote p b :: older)))
    (hn : ∀ bs', .committed bs' ∉ between) : b ∈ bs := by
  refine (hok.drop.2.1 b).mpr (mem_since_append hn ?_)
  simp [since]

end History

/-! ## The invariant -/

/-- The process counts in `log.outstanding`. -/
def Pc.opens : Pc → Int
  | .inOp => 1
  | .checked _ => 1
  | _ => 0

/-- The process is the one that commits. -/
def Pc.commits : Pc → Nat
  | .commit => 1
  | .installed _ => 1
  | .committed => 1
  | _ => 0

@[simp] theorem Pc.opens_wake (c : Pc) : c.wake.opens = c.opens := by
  cases c <;> rfl

@[simp] theorem Pc.commits_wake (c : Pc) : c.wake.commits = c.commits := by
  cases c <;> rfl

theorem Pc.wake_ne_asleep (c : Pc) : c.wake ≠ .asleep := by
  cases c <;> simp [Pc.wake]

variable {c : Pc}

theorem Pc.wake_of_ne (hc : c ≠ .asleep) : c.wake = c := by
  cases c <;> simp_all [Pc.wake]

theorem Pc.wake_eq {c c' : Pc} (hc : c' ≠ .retry) (h : c.wake = c') : c = c' := by
  cases c <;> simp_all [Pc.wake]

theorem Pc.opens_nonneg (c : Pc) : 0 ≤ c.opens := by
  cases c <;> simp [Pc.opens]

variable {P : Type} [Fintype P] [DecidableEq P] {p : P}

theorem sum_opens_update {pc : P → Pc} (hpc : pc p = c) (c' : Pc) :
    (∑ q, (update pc p c' q).opens) + c.opens = (∑ q, (pc q).opens) + c'.opens :=
  hpc ▸ sum_update_add Pc.opens pc p c'

theorem sum_commits_update {pc : P → Pc} (hpc : pc p = c) (c' : Pc) :
    (∑ q, (update pc p c' q).commits) + c.commits = (∑ q, (pc q).commits) + c'.commits :=
  hpc ▸ sum_update_add Pc.commits pc p c'

structure Inv (s : State P) : Prop where
  outstanding_eq : s.log.outstanding = ∑ p, (s.pc p).opens
  committing_eq : (∑ p, (s.pc p).commits) = if s.log.committing then 1 else 0
  exclusive : s.log.committing = true → s.log.outstanding = 0
  quiescent : s.log.outstanding = 0 → s.log.committing = false → s.log.lh = []
  nodup : s.log.lh.Nodup
  recorded : ∀ b, b ∈ s.log.lh ↔ b ∈ since s.hist
  installed : ∀ p bs, s.pc p = .installed bs → s.log.lh = bs
  committed : ∀ p, s.pc p = .committed → s.log.lh = []
  asleep : ∀ p, s.pc p = .asleep → 0 < s.log.outstanding ∨ s.log.committing = true
  opened_iff : ∀ p, opened p s.hist = true ↔ (s.pc p).opens = 1
  histOk : HistOk s.hist
  panic : ∀ e, s.panic = some e → e = "too big a transaction"

variable {s : State P}

section

variable (hi : Inv s)

include hi

theorem Inv.opens_le (p : P) : (s.pc p).opens ≤ s.log.outstanding := by
  rw [hi.outstanding_eq]
  exact Finset.single_le_sum (fun q _ => (s.pc q).opens_nonneg) (Finset.mem_univ p)

theorem Inv.outstanding_nonneg : 0 ≤ s.log.outstanding := by
  rw [hi.outstanding_eq]
  exact Finset.sum_nonneg fun q _ => (s.pc q).opens_nonneg

/-- Nobody commits while a process is in an operation. -/
theorem Inv.not_committing (hp : (s.pc p).opens = 1) : s.log.committing = false := by
  cases hc : s.log.committing with
  | false => rfl
  | true =>
    have h0 := hi.exclusive hc
    have h1 := hi.opens_le p
    omega

theorem Inv.committing (hp : (s.pc p).commits = 1) : s.log.committing = true := by
  have hle := Finset.single_le_sum (f := fun q => (s.pc q).commits)
    (fun q _ => Nat.zero_le _) (Finset.mem_univ p)
  rw [hi.committing_eq] at hle
  split at hle
  · assumption
  · simp only [hp] at hle; omega

/-- At most one process commits. -/
theorem Inv.committer_unique {p q : P} (hp : (s.pc p).commits = 1) (hq : (s.pc q).commits = 1) :
    q = p := by
  by_contra hne
  have hsum := sum_update_add Pc.commits s.pc p .idle
  have hle := Finset.single_le_sum (f := fun q => (update s.pc p .idle q).commits)
    (fun q _ => Nat.zero_le _) (Finset.mem_univ q)
  have hidle : Pc.idle.commits = 0 := rfl
  rw [hi.committing_eq, hi.committing hp, hp, hidle, if_pos rfl] at hsum
  simp only [update_of_ne hne, hq] at hle
  omega

theorem Inv.no_committer (hc : s.log.committing = false) (p : P) : (s.pc p).commits ≠ 1 := by
  intro hp
  rw [hi.committing hp] at hc
  cases hc

omit hi in
theorem Inv.boot (P : Type) [Fintype P] [DecidableEq P] (start size : Nat) :
    Inv (boot P start size) where
  outstanding_eq := by simp [GroupCommit.boot, Pc.opens]
  committing_eq := by simp [GroupCommit.boot, Pc.commits]
  exclusive h := by cases h
  quiescent _ _ := rfl
  nodup := nodup_nil
  recorded b := Iff.rfl
  installed p bs h := by cases h
  committed p h := by cases h
  asleep p h := by cases h
  opened_iff p := by simp [GroupCommit.boot, opened, Pc.opens]
  histOk := trivial
  panic e h := by cases h

/-- One process moves; the log keeps its blocks, and the history says so. -/
theorem Inv.shift {d : Pc} {l : Log} {hist : List (Event P)} (hpc : s.pc p = d)
    (hout : l.outstanding + d.opens = s.log.outstanding + c.opens)
    (hcommits : (if l.committing then 1 else 0) + d.commits =
      (if s.log.committing then 1 else 0) + c.commits)
    (hlh : l.lh = s.log.lh) (hexcl : l.committing = true → l.outstanding = 0)
    (hquiet : l.outstanding = 0 → l.committing = false → l.lh = [])
    (hinst : ∀ bs, c = .installed bs → s.log.lh = bs) (hcomm : c = .committed → s.log.lh = [])
    (hsleep : ∀ q, update s.pc p c q = .asleep → 0 < l.outstanding ∨ l.committing = true)
    (hsince : since hist = since s.hist) (hself : opened p hist = true ↔ c.opens = 1)
    (hother : ∀ q, q ≠ p → opened q hist = opened q s.hist) (hok : HistOk hist) :
    Inv { s with log := l, pc := update s.pc p c, hist } where
  outstanding_eq := by
    have hsum := sum_opens_update hpc c
    rw [← hi.outstanding_eq] at hsum
    dsimp only
    omega
  committing_eq := by
    have hsum := sum_commits_update hpc c
    rw [hi.committing_eq] at hsum
    dsimp only
    omega
  exclusive := hexcl
  quiescent := hquiet
  nodup := hlh ▸ hi.nodup
  recorded b := by
    dsimp only
    rw [hlh, hsince]
    exact hi.recorded b
  installed q bs h := by
    refine hlh.trans ?_
    by_cases hq : q = p
    · subst hq; exact hinst bs (by simpa using h)
    · exact hi.installed q bs (by simpa [hq] using h)
  committed q h := by
    refine hlh.trans ?_
    by_cases hq : q = p
    · subst hq; exact hcomm (by simpa using h)
    · exact hi.committed q (by simpa [hq] using h)
  asleep := hsleep
  opened_iff q := by
    by_cases hq : q = p
    · subst hq; simpa using hself
    · simpa [hq, hother q hq] using hi.opened_iff q
  histOk := hok
  panic := hi.panic

/-- A step that only moves one process, and not into or out of an operation or a
commit. -/
theorem Inv.move (ho : c.opens = (s.pc p).opens) (hc : c.commits = (s.pc p).commits)
    (hinst : ∀ bs, c = .installed bs → s.log.lh = bs) (hcomm : c = .committed → s.log.lh = [])
    (hsleep : c = .asleep → 0 < s.log.outstanding ∨ s.log.committing = true) :
    Inv { s with pc := update s.pc p c } := by
  refine hi.shift rfl (by rw [ho]) (by rw [hc]) rfl hi.exclusive hi.quiescent hinst hcomm ?_ rfl
    (by rw [ho]; exact hi.opened_iff p) (fun _ _ => rfl) hi.histOk
  intro q h
  by_cases hq : q = p
  · subst hq; exact hsleep (by simpa using h)
  · exact hi.asleep q (by simpa [hq] using h)

/-- All sleepers are woken. -/
theorem Inv.wakeAll : Inv { s with pc := fun q => (s.pc q).wake } :=
  { hi with
    outstanding_eq := by simpa using hi.outstanding_eq
    committing_eq := by simpa using hi.committing_eq
    installed := fun q bs h => hi.installed q bs (Pc.wake_eq (by simp) h)
    committed := fun q h => hi.committed q (Pc.wake_eq (by simp) h)
    asleep := fun q h => absurd h (Pc.wake_ne_asleep _)
    opened_iff := fun q => by simpa using hi.opened_iff q }

omit hi [Fintype P] in
/-- A process stops, and all sleepers are woken. -/
theorem wake_update (pc : P → Pc) (p : P) :
    (fun q => (update pc p .idle q).wake) = update (fun q => (pc q).wake) p .idle := by
  funext q
  by_cases hq : q = p
  · subst hq; simp [Pc.wake]
  · simp [hq]

omit hi [Fintype P] in
theorem not_asleep {pc : P → Pc} {q : P}
    (h : update (fun q => (pc q).wake) p .idle q = .asleep) : False := by
  rw [← wake_update] at h
  exact Pc.wake_ne_asleep _ h

/-! ### One step -/

theorem Inv.enter {l : Log} (hpc : s.pc p = .retry) (hl : s.log.beginOp = some l) : Inv { s with
      log := l, pc := update s.pc p .inOp, hist := .begun p :: s.hist } := by
  obtain ⟨hcom, -, rfl⟩ := Log.beginOp_some hl
  have hnn := hi.outstanding_nonneg
  refine hi.shift hpc (by simp [Pc.opens]) rfl rfl (fun h => by simp [hcom] at h)
    (fun h _ => by simp only at h; omega) (by simp) (by simp) (fun _ _ => Or.inl ?_) rfl
    (by simp [opened, Pc.opens]) (fun q hq => by simp [opened, Ne.symm hq]) hi.histOk
  simp only
  omega

theorem Inv.write {b : Nat} (hpc : s.pc p = .checked b) : Inv { s with
      log := (s.log.absorb b).1
      pc := update s.pc p .inOp
      hist := .wrote p b :: s.hist } := by
  have hopen : (s.pc p).opens = 1 := by rw [hpc]; rfl
  have hcom := hi.not_committing hopen
  have hle := hi.opens_le p
  have hmove : Inv { s with pc := update s.pc p .inOp } :=
    hi.move (by rw [hpc]; rfl) (by rw [hpc]; rfl) (by simp) (by simp) (by simp)
  have hframe : (s.log.absorb b).1.outstanding = s.log.outstanding ∧
      (s.log.absorb b).1.committing = s.log.committing := by
    unfold Log.absorb
    split <;> exact ⟨rfl, rfl⟩
  exact {
    outstanding_eq := hframe.1.trans hmove.outstanding_eq
    committing_eq := by rw [hframe.2]; exact hmove.committing_eq
    exclusive := fun h => by rw [hframe.2, hcom] at h; cases h
    quiescent := fun h _ => by rw [hframe.1] at h; omega
    nodup := Log.absorb_nodup hi.nodup b
    recorded := fun x => by
      rw [Log.absorb_lh, hi.recorded]
      simp [since, or_comm]
    installed := fun q bs h => by
      refine absurd ?_ (hmove.no_committer hcom q)
      rw [h]; rfl
    committed := fun q h => by
      refine absurd ?_ (hmove.no_committer hcom q)
      rw [h]; rfl
    asleep := fun q h => by rw [hframe.1, hframe.2]; exact hmove.asleep q h
    opened_iff := fun q => by simpa [opened] using hmove.opened_iff q
    histOk := ⟨(hi.opened_iff p).mpr hopen, hi.histOk⟩
    panic := hi.panic }

/-- The last operation ends: the process takes on the commit. -/
theorem Inv.endLast {l : Log} (hpc : s.pc p = .inOp) (hl : s.log.endOp = .ok (l, true)) :
    Inv { s with
      log := l, pc := update s.pc p .commit, hist := .ended p :: s.hist } := by
  obtain ⟨hcom, ⟨-, hone, rfl⟩ | ⟨h, -⟩⟩ := Log.endOp_ok hl
  · exact hi.shift hpc (by simp only [Pc.opens]; omega) (by simp [hcom, Pc.commits]) rfl
      (fun _ => rfl) (fun _ h => by cases h) (by simp) (by simp) (fun _ _ => Or.inr rfl) rfl
      (by simp [opened, Pc.opens]) (fun q hq => by simp [opened, Ne.symm hq]) hi.histOk
  · cases h

/-- Another operation ends: the sleepers get to try again. -/
theorem Inv.endOther {l : Log} (hpc : s.pc p = .inOp) (hl : s.log.endOp = .ok (l, false)) :
    Inv { s with
      log := l
      pc := fun q => (update s.pc p .idle q).wake
      hist := .ended p :: s.hist } := by
  obtain ⟨hcom, ⟨h, -⟩ | ⟨-, hone, rfl⟩⟩ := Log.endOp_ok hl
  · cases h
  · have hpos := hi.opens_le p
    have hopen : (s.pc p).opens = 1 := by rw [hpc]; rfl
    rw [wake_update]
    exact hi.wakeAll.shift (d := .inOp) (congrArg Pc.wake hpc) (by simp [Pc.opens]) rfl rfl
      (fun h => by simp [hcom] at h) (fun h _ => by simp only at h; omega) (by simp) (by simp)
      (fun _ h => (not_asleep h).elim) rfl (by simp [opened, Pc.opens])
      (fun q hq => by simp [opened, Ne.symm hq]) hi.histOk

/-- `log.lh.n = 0`. -/
theorem Inv.clear {bs : List Nat} (hpc : s.pc p = .installed bs) : Inv { s with
      log := { s.log with lh := [] }
      pc := update s.pc p .committed
      hist := .committed bs :: s.hist } := by
  have hp : (s.pc p).commits = 1 := by rw [hpc]; rfl
  have hcom := hi.committing hp
  have hzero := hi.exclusive hcom
  have hlh := hi.installed p bs hpc
  exact {
    outstanding_eq := by
      have hsum : _ + (0 : Int) = _ + 0 := sum_opens_update hpc .committed
      have hout := hi.outstanding_eq
      simp only
      omega
    committing_eq := by
      have hsum : _ + 1 = _ + 1 := sum_commits_update hpc .committed
      have hc := hi.committing_eq
      simp only
      omega
    exclusive := hi.exclusive
    quiescent := fun _ _ => rfl
    nodup := nodup_nil
    recorded := fun b => by simp [since]
    installed := fun q bs' h => by
      by_cases hq : q = p
      · subst hq; simp at h
      · have hq' : s.pc q = .installed bs' := by simpa [hq] using h
        exact absurd (hi.committer_unique hp (by rw [hq']; rfl)) hq
    committed := fun _ _ => rfl
    asleep := fun _ _ => Or.inr hcom
    opened_iff := fun q => by
      by_cases hq : q = p
      · subst hq
        have := hi.opened_iff q
        simpa [opened, hpc, Pc.opens] using this
      · simpa [opened, hq] using hi.opened_iff q
    histOk := by
      refine ⟨fun q => ?_, fun b => hlh ▸ hi.recorded b, hi.histOk⟩
      have hle := hi.opens_le q
      have hnot := hi.opened_iff q
      cases ho : opened q s.hist with
      | false => rfl
      | true => have := hnot.mp ho; omega
    panic := hi.panic }

/-- `log.committing = 0`, and the sleepers get to try again. -/
theorem Inv.finish (hpc : s.pc p = .committed) : Inv { s with
      log := s.log.endCommit
      pc := fun q => (update s.pc p .idle q).wake } := by
  have hcom := hi.committing (p := p) (by rw [hpc]; rfl)
  have hopened := hi.opened_iff p
  rw [hpc] at hopened
  rw [wake_update]
  exact hi.wakeAll.shift (d := .committed) (congrArg Pc.wake hpc) rfl
    (by simp [Log.endCommit, hcom, Pc.commits]) rfl (fun h => by cases h)
    (fun _ _ => hi.committed p hpc) (by simp) (by simp) (fun _ h => (not_asleep h).elim) rfl
    hopened (fun _ _ => rfl) hi.histOk

end

theorem Inv.step {a : Action P} {s s' : State P} (hi : Inv s) (h : step a s = some s') :
    Inv s' := by
  cases step_cases h with
  | begin hpc => exact hi.move (by rw [hpc]; rfl) (by rw [hpc]; rfl) (by simp) (by simp) (by simp)
  | enter hpc hl => exact hi.enter hpc hl
  | sleep hpc hl =>
    refine hi.move (by rw [hpc]; rfl) (by rw [hpc]; rfl) (by simp) (by simp) fun _ => ?_
    -- with nobody in an operation and nobody committing there is room
    cases hcom : s.log.committing with
    | true => exact Or.inr rfl
    | false =>
      refine Or.inl ?_
      rcases Log.beginOp_none hl with h | hfull
      · rw [hcom] at h; cases h
      · have hnn := hi.outstanding_nonneg
        by_contra hzero
        have hout : s.log.outstanding = 0 := by omega
        rw [hi.quiescent hout hcom, hout] at hfull
        simp [MAXOPBLOCKS, LOGSIZE] at hfull
  | kill hpc => exact hi.move (by rw [hpc]; rfl) (by rw [hpc]; rfl) (by simp) (by simp) (by simp)
  | @checkPanic p b e hpc hl =>
    refine { hi with panic := fun e he => ?_ }
    cases he
    rcases Log.logWriteCheck_error hl with ⟨rfl, -⟩ | ⟨-, hout⟩
    · rfl
    · have hle := hi.opens_le p
      rw [hpc] at hle
      simp only [Pc.opens] at hle
      omega
  | check hpc hl =>
    exact hi.move (by rw [hpc]; rfl) (by rw [hpc]; rfl) (by simp) (by simp) (by simp)
  | write hpc => exact hi.write hpc
  | endPanic hpc hl =>
    have hcom := hi.not_committing (p := _) (by rw [hpc]; rfl)
    rw [Log.endOp_error hl] at hcom
    cases hcom
  | endLast hpc hl => exact hi.endLast hpc hl
  | endOther hpc hl => exact hi.endOther hpc hl
  | nothing hpc hl =>
    exact hi.move (by rw [hpc]; rfl) (by rw [hpc]; rfl) (by simp) (fun _ => hl) (by simp)
  | install hpc hl =>
    refine hi.move (by rw [hpc]; rfl) (by rw [hpc]; rfl) (fun bs h => ?_) (by simp) (by simp)
    exact Pc.installed.inj h
  | clear hpc => exact hi.clear hpc
  | finish hpc => exact hi.finish hpc

theorem Inv.reachable {ok : Action P → State P → Prop} {start size : Nat}
    (h : Reachable ok (GroupCommit.boot P start size) s) : Inv s := by
  induction h with
  | init => exact Inv.boot P start size
  | step _ _ hs ih => exact ih.step hs

/-! ## All or nothing -/

/-- What the protocol guarantees of a state. -/
structure AllOrNothing (s : State P) : Prop where
  /-- While a commit is under way no operation is, and no `log_write` can happen. -/
  exclusive : s.log.committing = true →
    s.log.outstanding = 0 ∧ ∀ p b, step (.check p b) s = none ∧ step (.write p) s = none
  /-- With no operation and no commit under way, the header is empty. -/
  quiescent : s.log.outstanding = 0 → s.log.committing = false → s.log.lh = []
  /-- The header lists, once each, the blocks written since the last commit. -/
  nodup : s.log.lh.Nodup
  recorded : ∀ b, b ∈ s.log.lh ↔ b ∈ since s.hist
  /-- Two of the three panics never happen. -/
  no_panic : s.panic ≠ some "log.committing" ∧ s.panic ≠ some "log_write outside of trans"
  /-- Whoever sleeps in `begin_op` has somebody to wake them. -/
  waiting : ∀ p, s.pc p = .asleep → 0 < s.log.outstanding ∨ s.log.committing = true
  /-- No commit falls between two writes of one operation. -/
  not_split : ∀ newer between older p b b',
    s.hist = newer ++ .wrote p b' :: (between ++ .wrote p b :: older) →
    .ended p ∉ between → ∀ bs, .committed bs ∉ between
  /-- The first commit after a write installs the block. -/
  installs : ∀ newer between older p b bs,
    s.hist = newer ++ .committed bs :: (between ++ .wrote p b :: older) →
    (∀ bs', .committed bs' ∉ between) → b ∈ bs

theorem Inv.no_log_write (hi : Inv s) (hc : s.log.committing = true) (p : P) (b : Nat) :
    GroupCommit.step (.check p b) s = none ∧ GroupCommit.step (.write p) s = none := by
  have hnot : (s.pc p).opens ≠ 1 := by
    intro hp
    rw [hi.not_committing hp] at hc
    cases hc
  constructor
  · cases h : GroupCommit.step (.check p b) s with
    | none => rfl
    | some s' =>
      cases step_cases h with
      | checkPanic hpc _ => exact absurd (by rw [hpc]; rfl) hnot
      | check hpc _ => exact absurd (by rw [hpc]; rfl) hnot
  · cases h : GroupCommit.step (.write p) s with
    | none => rfl
    | some s' =>
      cases step_cases h with
      | write hpc => exact absurd (by rw [hpc]; rfl) hnot

/-- In every state that any number of processes can reach, in any order of their
steps, group commit is all or nothing. -/
theorem reachable_allOrNothing {start size : Nat} {s : State P}
    (h : Reachable (fun _ _ => True) (GroupCommit.boot P start size) s) : AllOrNothing s := by
  have hi := Inv.reachable h
  exact {
    exclusive := fun hc => ⟨hi.exclusive hc, hi.no_log_write hc⟩
    quiescent := hi.quiescent
    nodup := hi.nodup
    recorded := hi.recorded
    no_panic := by
      constructor
      · intro he
        have := hi.panic _ he
        simp at this
      · intro he
        have := hi.panic _ he
        simp at this
    waiting := hi.asleep
    not_split := fun newer between older p b b' hh hn =>
      HistOk.not_split (hh ▸ hi.histOk) hn
    installs := fun newer between older p b bs hh hn =>
      HistOk.installs (hh ▸ hi.histOk) hn }

/-- Two processes, one commit: both write, the last one to end commits both
blocks, and the one that tries to begin meanwhile sleeps. -/
def twoProcesses : List (Action (Fin 2)) :=
  [.begin 0, .attempt 0, .begin 1, .attempt 1, .check 0 50, .check 1 51, .write 1,
   .write 0, .endOp 0, .begin 0, .endOp 1, .attempt 0, .install 1]

theorem reachable_allOrNothing_two :
    (execute (fun _ _ => true) twoProcesses (GroupCommit.boot (Fin 2) 2 LOGSIZE)).map
        (fun s => (s.pc 0, s.pc 1)) = some (.asleep, .installed [51, 50]) ∧
    ∀ s ∈ execute (fun _ _ => true) twoProcesses (GroupCommit.boot (Fin 2) 2 LOGSIZE),
      AllOrNothing s :=
  ⟨by decide, fun _ hs =>
    reachable_allOrNothing (reachable_execute (fun _ _ _ => trivial) .init hs)⟩

end Xv6.GroupCommit
