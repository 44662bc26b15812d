/-
  Log/Reservation.lean --- how many blocks an operation may write.

  `begin_op` lets an operation in when `MAXOPBLOCKS` blocks for it and for every
  operation under way fit into `LOGSIZE`; `log_write` gives up when the header has
  `log.size - 1` entries, and it looks before it tries to absorb the block.  `mkfs`
  makes `log.size` equal to `LOGSIZE`, and one of those blocks is the header block.
  So the reservation is one block short: it is sound for operations of at most
  `MAXOPBLOCKS - 1` distinct blocks and for no larger bound.
-/
import Mathlib.Algebra.BigOperators.Ring.Finset
import Xv6.Log.GroupCommitSafety

set_option autoImplicit false

namespace Xv6.GroupCommit

open Function List Foundation

section Bound

variable {P : Type} [DecidableEq P]

/-- The distinct blocks the process has log_written in its current operation. -/
def opBlocks (p : P) : List (Event P) → List Nat
  | [] => []
  | .begun q :: h => if q = p then [] else opBlocks p h
  | .wrote q b :: h => if q = p then (opBlocks p h).insert b else opBlocks p h
  | .ended _ :: h => opBlocks p h
  | .committed _ :: h => opBlocks p h

/-- No operation passes more than `K` distinct blocks to `log_write`. -/
def AtMost (K : Nat) (a : Action P) (s : State P) : Prop :=
  match a with
  | .check p b => ((opBlocks p s.hist).insert b).length ≤ K
  | _ => True

instance (K : Nat) (a : Action P) (s : State P) : Decidable (AtMost K a s) :=
  match a with
  | .check p b => inferInstanceAs (Decidable (((opBlocks p s.hist).insert b).length ≤ K))
  | .begin _ | .attempt _ | .kill _ | .write _ | .endOp _ | .install _ | .clear _
  | .finish _ => inferInstanceAs (Decidable True)

theorem AtMost.mono {K K' : Nat} (hK : K ≤ K') {a : Action P} {s : State P}
    (h : AtMost K a s) : AtMost K' a s := by
  cases a <;> first | exact trivial | exact le_trans h hK

theorem Reachable.mono {ok ok' : Action P → State P → Prop} {s₀ s : State P}
    (hok : ∀ a s, ok a s → ok' a s) (h : Reachable ok s₀ s) : Reachable ok' s₀ s := by
  induction h with
  | init => exact .init
  | step _ ha hs ih => exact .step ih (hok _ _ ha) hs

end Bound

/-! ## Nine blocks fit -/

variable {P : Type} [Fintype P] [DecidableEq P]

/-- The blocks an operation under way may still add. -/
def reserve (s : State P) (p : P) : Nat :=
  if (s.pc p).opens = 1 then MAXOPBLOCKS - 1 - (opBlocks p s.hist).length else 0

structure Reserved (s : State P) : Prop where
  /-- What is in the header and what may still come leaves `log_write` its two
  spare entries. -/
  room : s.log.lh.length + ∑ p, reserve s p + 2 ≤ LOGSIZE
  bounded : ∀ p b, s.pc p = .checked b →
    ((opBlocks p s.hist).insert b).length ≤ MAXOPBLOCKS - 1
  logged : ∀ p, (s.pc p).opens = 1 → ∀ b ∈ opBlocks p s.hist, b ∈ s.log.lh
  size : s.log.size = LOGSIZE
  panic : s.panic = none

omit [Fintype P] in
theorem reserve_le (s : State P) (p : P) :
    (reserve s p : Int) ≤ (MAXOPBLOCKS - 1 : Nat) * (s.pc p).opens := by
  unfold reserve
  split
  · rename_i h
    rw [h]
    have : MAXOPBLOCKS - 1 - (opBlocks p s.hist).length ≤ MAXOPBLOCKS - 1 := Nat.sub_le ..
    omega
  · have := (s.pc p).opens_nonneg
    simp only [MAXOPBLOCKS]
    omega

variable {s : State P}

/-- Nobody can have reserved more than nine blocks. -/
theorem sum_reserve_le (hi : Inv s) :
    ((∑ p, reserve s p : Nat) : Int) ≤ (MAXOPBLOCKS - 1 : Nat) * s.log.outstanding := by
  rw [hi.outstanding_eq, Finset.mul_sum, Nat.cast_sum]
  exact Finset.sum_le_sum fun p _ => reserve_le s p

variable {p : P}

/-- The sum of the reservations when one of them changes. -/
theorem sum_reserve_of_update {s s' : State P} (h : ∀ q, q ≠ p → reserve s' q = reserve s q) :
    (∑ q, reserve s' q) + reserve s p = (∑ q, reserve s q) + reserve s' p := by
  have hfun : reserve s' = update (reserve s) p (reserve s' p) := by
    funext q
    by_cases hq : q = p
    · subst hq; simp
    · simp [hq, h q hq]
  have hsum := sum_update_add id (reserve s) p (reserve s' p)
  rw [← hfun] at hsum
  exact hsum

/-- A step that changes neither the log nor the history, nor who is in an
operation. -/
theorem Reserved.move (hr : Reserved s) {pc : P → Pc} (ho : ∀ q, (pc q).opens = (s.pc q).opens)
    (hb : ∀ q b, pc q = .checked b → ((opBlocks q s.hist).insert b).length ≤ MAXOPBLOCKS - 1) :
    Reserved { s with pc := pc } where
  room := by
    have hres : reserve { s with pc := pc } = reserve s := by
      funext q
      unfold reserve
      rw [ho q]
    rw [hres]
    exact hr.room
  bounded := hb
  logged q h := hr.logged q (by rw [← ho q]; exact h)
  size := hr.size
  panic := hr.panic

theorem Reserved.update (hr : Reserved s) {c : Pc} (ho : c.opens = (s.pc p).opens)
    (hb : ∀ b, c = .checked b → ((opBlocks p s.hist).insert b).length ≤ MAXOPBLOCKS - 1) :
    Reserved { s with pc := update s.pc p c } := by
  refine hr.move (fun q => ?_) fun q b h => ?_
  · by_cases hq : q = p
    · subst hq; simpa using ho
    · simp [hq]
  · by_cases hq : q = p
    · subst hq; exact hb b (by simpa using h)
    · exact hr.bounded q b (by simpa [hq] using h)

theorem Reserved.enter (hi : Inv s) (hr : Reserved s) {l : Log} (hpc : s.pc p = .retry)
    (hl : s.log.beginOp = some l) :
    Reserved { s with
      log := l, pc := Function.update s.pc p .inOp, hist := .begun p :: s.hist } := by
  obtain ⟨hcom, hfit, rfl⟩ := Log.beginOp_some hl
  set s' : State P := { s with
    log := { s.log with outstanding := s.log.outstanding + 1 }
    pc := Function.update s.pc p .inOp, hist := .begun p :: s.hist } with hs'
  have hsum : (∑ q, reserve s' q) + reserve s p = (∑ q, reserve s q) + reserve s' p := by
    refine sum_reserve_of_update fun q hq => ?_
    simp [reserve, hs', hq, Ne.symm hq, opBlocks]
  have hold : reserve s p = 0 := by simp [reserve, hpc, Pc.opens]
  have hnew : reserve s' p = MAXOPBLOCKS - 1 := by simp [reserve, hs', opBlocks, Pc.opens]
  have hle := sum_reserve_le hi
  have hnn := hi.outstanding_nonneg
  exact {
    room := by
      -- the first operation starts with an empty header; the admission test pays
      -- one spare block for every further one
      by_cases hfirst : s.log.outstanding = 0
      · have hlh := hi.quiescent hfirst hcom
        simp only [hs', hlh, length_nil, MAXOPBLOCKS, LOGSIZE, hfirst] at *
        omega
      · simp only [hs', MAXOPBLOCKS, LOGSIZE] at *
        omega
    bounded := fun q b h => by
      by_cases hq : q = p
      · subst hq; simp [hs'] at h
      · have := hr.bounded q b (by simpa [hs', hq] using h)
        simpa [hs', opBlocks, Ne.symm hq] using this
    logged := fun q h => by
      by_cases hq : q = p
      · subst hq; simp [hs', opBlocks]
      · have := hr.logged q (by simpa [hs', hq] using h)
        simpa [hs', opBlocks, Ne.symm hq] using this
    size := hr.size
    panic := hr.panic }

/-- A block that is new in the header is new in the operation. -/
theorem Reserved.write (hr : Reserved s) {b : Nat} (hpc : s.pc p = .checked b) : Reserved { s with
      log := (s.log.absorb b).1
      pc := Function.update s.pc p .inOp
      hist := .wrote p b :: s.hist } := by
  have hopen : (s.pc p).opens = 1 := by rw [hpc]; rfl
  have hbound := hr.bounded p b hpc
  set s' : State P := { s with
    log := (s.log.absorb b).1
    pc := Function.update s.pc p .inOp, hist := .wrote p b :: s.hist } with hs'
  have hsum : (∑ q, reserve s' q) + reserve s p = (∑ q, reserve s q) + reserve s' p := by
    refine sum_reserve_of_update fun q hq => ?_
    simp [reserve, hs', hq, Ne.symm hq, opBlocks]
  have hold : reserve s p = MAXOPBLOCKS - 1 - (opBlocks p s.hist).length := by
    simp [reserve, hopen]
  have hnew : reserve s' p = MAXOPBLOCKS - 1 - ((opBlocks p s.hist).insert b).length := by
    simp [reserve, hs', opBlocks, Pc.opens]
  have hroom := hr.room
  exact {
    room := by
      by_cases hb : b ∈ s.log.lh
      · have hlog : s'.log.lh = s.log.lh := by simp [hs', Log.absorb, hb]
        have hlen : (opBlocks p s.hist).length ≤ ((opBlocks p s.hist).insert b).length := by
          rw [length_insert]
          split <;> omega
        rw [hlog]
        omega
      · have hlog : s'.log.lh.length = s.log.lh.length + 1 := by
          simp [hs', Log.absorb, hb]
        have hfresh : b ∉ opBlocks p s.hist := fun h => hb (hr.logged p hopen b h)
        rw [length_insert_of_not_mem hfresh] at hnew hbound
        omega
    bounded := fun q c h => by
      by_cases hq : q = p
      · subst hq; simp [hs'] at h
      · have := hr.bounded q c (by simpa [hs', hq] using h)
        simpa [hs', opBlocks, Ne.symm hq] using this
    logged := fun q h c hc => by
      rw [show s'.log = (s.log.absorb b).1 from rfl, Log.absorb_lh]
      by_cases hq : q = p
      · subst hq
        have hc' : c = b ∨ c ∈ opBlocks q s.hist := by simpa [hs', opBlocks] using hc
        rcases hc' with rfl | hc'
        · exact Or.inr rfl
        · exact Or.inl (hr.logged q hopen c hc')
      · exact Or.inl (hr.logged q (by simpa [hs', hq] using h) c
          (by simpa [hs', opBlocks, Ne.symm hq] using hc))
    size := by
      have : s'.log.size = s.log.size := by
        simp only [hs', Log.absorb]
        split <;> rfl
      rw [this]
      exact hr.size
    panic := hr.panic }

/-- The end of an operation gives its reservation back. -/
theorem Reserved.leave (hr : Reserved s) {l : Log} {pc : P → Pc} (hlh : l.lh = s.log.lh)
    (hsize : l.size = s.log.size) (hp : (pc p).opens = 0)
    (hother : ∀ q, q ≠ p → (pc q).opens = (s.pc q).opens ∧
      ∀ b, pc q = .checked b → s.pc q = .checked b) :
    Reserved { s with log := l, pc := pc, hist := .ended p :: s.hist } := by
  set s' : State P := { s with log := l, pc := pc, hist := .ended p :: s.hist } with hs'
  have hsum : (∑ q, reserve s' q) + reserve s p = (∑ q, reserve s q) + reserve s' p := by
    refine sum_reserve_of_update fun q hq => ?_
    simp [reserve, hs', opBlocks, (hother q hq).1]
  have hnew : reserve s' p = 0 := by simp [reserve, hs', hp]
  exact {
    room := by
      have hroom := hr.room
      rw [show s'.log.lh = s.log.lh from hlh]
      omega
    bounded := fun q b h => by
      by_cases hq : q = p
      · subst hq
        rw [show pc q = .checked b from h] at hp
        cases hp
      · exact hr.bounded q b ((hother q hq).2 b h)
    logged := fun q h => by
      by_cases hq : q = p
      · subst hq
        rw [show (pc q).opens = 1 from h] at hp
        cases hp
      · intro b hb
        rw [show s'.log.lh = s.log.lh from hlh]
        exact hr.logged q (by rw [← (hother q hq).1]; exact h) b hb
    size := hsize.trans hr.size
    panic := hr.panic }

/-- Nobody is in an operation when the header is cleared. -/
theorem Reserved.clear (hi : Inv s) (hr : Reserved s) {bs : List Nat}
    (hpc : s.pc p = .installed bs) :
    Reserved { s with
      log := { s.log with lh := [] }
      pc := Function.update s.pc p .committed
      hist := .committed bs :: s.hist } := by
  have hzero := hi.exclusive (hi.committing (p := p) (by rw [hpc]; rfl))
  have hnone : ∀ q, (Function.update s.pc p .committed q).opens ≠ 1 := by
    intro q
    by_cases hq : q = p
    · subst hq; simp [Pc.opens]
    · have hle := hi.opens_le q
      rw [update_of_ne hq]
      omega
  exact {
    room := by simp [reserve, hnone, LOGSIZE, MAXOPBLOCKS]
    bounded := fun q b h => absurd (by simp only at h; rw [h]; rfl) (hnone q)
    logged := fun q h => absurd h (hnone q)
    size := hr.size
    panic := hr.panic }

theorem Reserved.step {a : Action P} {s s' : State P} (hi : Inv s) (hr : Reserved s)
    (hok : AtMost (MAXOPBLOCKS - 1) a s) (h : step a s = some s') : Reserved s' := by
  cases step_cases h with
  | begin hpc => exact hr.update (by rw [hpc]; rfl) (by simp)
  | enter hpc hl => exact hr.enter hi hpc hl
  | sleep hpc hl => exact hr.update (by rw [hpc]; rfl) (by simp)
  | kill hpc => exact hr.update (by rw [hpc]; rfl) (by simp)
  | @checkPanic p b e hpc hl =>
    have hroom := hr.room
    have hsize := hr.size
    rcases Log.logWriteCheck_error hl with ⟨-, hbig⟩ | ⟨-, hout⟩
    · omega
    · have hle := hi.opens_le p
      rw [hpc] at hle
      simp only [Pc.opens] at hle
      omega
  | check hpc hl =>
    refine hr.update (by rw [hpc]; rfl) fun b hb => ?_
    cases hb
    exact hok
  | write hpc => exact hr.write hpc
  | endPanic hpc hl =>
    have hcom := hi.not_committing (p := _) (by rw [hpc]; rfl)
    rw [Log.endOp_error hl] at hcom
    cases hcom
  | @endLast p l hpc hl =>
    obtain ⟨-, ⟨-, -, rfl⟩ | ⟨h, -⟩⟩ := Log.endOp_ok hl
    · refine hr.leave rfl rfl (by simp [Pc.opens]) fun q hq => ?_
      simp [hq]
    · cases h
  | @endOther p l hpc hl =>
    obtain ⟨-, ⟨h, -⟩ | ⟨-, -, rfl⟩⟩ := Log.endOp_ok hl
    · cases h
    · refine hr.leave rfl rfl (by simp [Pc.opens, Pc.wake]) fun q hq => ?_
      refine ⟨by simp [hq], fun b hb => ?_⟩
      simpa [hq] using Pc.wake_eq (by simp) hb
  | nothing hpc hl => exact hr.update (by rw [hpc]; rfl) (by simp)
  | install hpc hl => exact hr.update (by rw [hpc]; rfl) (by simp)
  | clear hpc => exact hr.clear hi hpc
  | @finish p hpc =>
    have hmove : Reserved { s with
        pc := fun q => (Function.update s.pc p .idle q).wake } := by
      refine hr.move (fun q => ?_) fun q b hb => ?_
      · by_cases hq : q = p
        · subst hq; simp [hpc, Pc.opens, Pc.wake]
        · simp [hq]
      · have hb' := Pc.wake_eq (by simp) hb
        by_cases hq : q = p
        · subst hq; simp at hb'
        · exact hr.bounded q b (by simpa [hq] using hb')
    exact { hmove with room := hmove.room }

theorem Reserved.reachable {start : Nat}
    (h : Reachable (AtMost (MAXOPBLOCKS - 1)) (GroupCommit.boot P start LOGSIZE) s) :
    Reserved s := by
  have hboot : Reserved (GroupCommit.boot P start LOGSIZE) := {
    room := by simp [reserve, GroupCommit.boot, Pc.opens, LOGSIZE, MAXOPBLOCKS]
    bounded := fun _ _ h => by cases h
    logged := fun _ h => by cases h
    size := rfl
    panic := rfl }
  induction h with
  | init => exact hboot
  | step hreach hok hs ih => exact ih.step (Inv.reachable hreach) hok hs

/-! ## Ten do not -/

/-- One operation of process `p`, of the blocks `bs`. -/
def operation (p : Pid) (bs : List Nat) : List (Action Pid) :=
  [.begin p, .attempt p] ++ bs.flatMap (fun b => [.check p b, .write p]) ++ [.endOp p]

/-- Process 0 is in an operation while process 1 makes two of ten blocks each; then
process 0 gets as far as its tenth block. -/
def tooBig : List (Action Pid) :=
  [.begin 0, .attempt 0] ++ operation 1 (range' 100 10) ++
    operation 1 (range' 110 10) ++
    (range' 120 9).flatMap (fun b => [.check 0 b, .write 0]) ++ [.check 0 129]

/-- No operation of that run has more than `MAXOPBLOCKS` blocks, and it panics. -/
theorem execute_tooBig : (execute (fun a s => decide (AtMost MAXOPBLOCKS a s)) tooBig
      (GroupCommit.boot Pid 2 LOGSIZE)).map State.panic = some (some "too big a transaction") := by
  decide +kernel

theorem exists_tooBig {K : Nat} (hK : MAXOPBLOCKS ≤ K) :
    ∃ s, Reachable (AtMost K) (GroupCommit.boot Pid 2 LOGSIZE) s ∧
      s.panic = some "too big a transaction" := by
  have hpanic := execute_tooBig
  cases hrun : execute (fun a s => decide (AtMost MAXOPBLOCKS a s)) tooBig
      (GroupCommit.boot Pid 2 LOGSIZE) with
  | none =>
    rw [hrun] at hpanic
    cases hpanic
  | some s =>
    rw [hrun] at hpanic
    have hreach : Reachable (AtMost K) (GroupCommit.boot Pid 2 LOGSIZE) s :=
      reachable_execute (fun a s h => (of_decide_eq_true h).mono hK) .init hrun
    exact ⟨s, hreach, Option.some.inj hpanic⟩

/-- Operations of at most `MAXOPBLOCKS` blocks each can exhaust the log. -/
theorem maxopblocks_tooBig :
    ∃ s, Reachable (AtMost MAXOPBLOCKS) (GroupCommit.boot Pid 2 LOGSIZE) s ∧
      s.panic = some "too big a transaction" :=
  exists_tooBig le_rfl

/-- On the log that `mkfs` makes, `log_write` never gives up on operations of at
most `K` distinct blocks exactly when `K` is below `MAXOPBLOCKS`. -/
theorem no_tooBig_iff (K : Nat) :
    (∀ s, Reachable (AtMost K) (GroupCommit.boot Pid 2 LOGSIZE) s →
      s.panic ≠ some "too big a transaction") ↔ K ≤ MAXOPBLOCKS - 1 := by
  constructor
  · intro h
    by_contra hK
    have hten : MAXOPBLOCKS ≤ K := by
      simp only [MAXOPBLOCKS] at hK ⊢
      omega
    obtain ⟨s, hreach, hpanic⟩ := exists_tooBig hten
    exact h s hreach hpanic
  · intro hK s h
    rw [(Reserved.reachable (h.mono fun a s => AtMost.mono hK)).panic]
    simp

end Xv6.GroupCommit
