/-
  Log/Commit.lean --- a commit, started in the invariant, runs in the invariant to
  its end, whatever the other processes do meanwhile.
-/
import Xv6.Log.Rules

set_option autoImplicit false

namespace Xv6

open List Foundation

variable {E : Signature} {M : Type}
  {xexec : Pid → (o : E.Op) → M → Outcome Halt M (E.Resp o)}
  {Ok : Pid → KOp E → Kernel M → Prop} {A : Stage → Prop} {C : Config} {p : Pid}
  {hs : List Hold} {pre : Disk} {old : List Event} {lh : List Nat}

theorem Holding.setHold_head {i : BufId} {b : Nat} {d d' : Block}
    {f f' : Bool} (h : ∀ y ∈ hs, y.i ≠ i) :
    Holding.setHold ⟨none, ⟨i, b, d, f⟩ :: hs⟩ i d' f' = ⟨none, ⟨i, b, d', f'⟩ :: hs⟩ := by
  simp only [Holding.setHold, map_cons, if_true, map_setHold_fresh h]

theorem Holding.setHold_second {x : Hold} {i : BufId} {b : Nat}
    {d d' : Block} {f f' : Bool} (hx : x.i ≠ i) (h : ∀ y ∈ hs, y.i ≠ i) :
    Holding.setHold ⟨none, x :: ⟨i, b, d, f⟩ :: hs⟩ i d' f' =
      ⟨none, x :: ⟨i, b, d', f'⟩ :: hs⟩ := by
  simp only [Holding.setHold, map_cons, if_true, if_neg hx, map_setHold_fresh h]

theorem Holding.drop_head {y : Hold} (h : ∀ x ∈ hs, x.i ≠ y.i) :
    (Holding.drop ⟨none, y :: hs⟩ y).withLimbo none = ⟨none, hs⟩ := by
  have hfilter : (y :: hs).filter (fun x => decide (x.i ≠ y.i)) = hs := by
    rw [filter_cons, if_neg (by simp), filter_fresh h]
  simp only [Holding.drop, Holding.withLimbo, hfilter]

theorem Holding.drop_second {x y : Hold} (hx : x.i ≠ y.i) (h : ∀ z ∈ hs, z.i ≠ y.i) :
    (Holding.drop ⟨none, x :: y :: hs⟩ y).withLimbo none = ⟨none, x :: hs⟩ := by
  have hfilter : (x :: y :: hs).filter (fun z => decide (z.i ≠ y.i)) = x :: hs := by
    rw [filter_cons, if_pos (by simpa using hx), filter_cons, if_neg (by simp), filter_fresh h]
  simp only [Holding.drop, Holding.withLimbo, hfilter]

theorem getD_eq_of_lt {t : Nat} (ht : t < lh.length) : lh[t]? = some (lh.getD t 0) := by
  rw [getD_eq_getElem?_getD, List.getElem?_eq_getElem ht]
  rfl

/-- The process may be in all stages of a commit of `lh`. -/
structure MayCommit (A : Stage → Prop) (pre : Disk) (old : List Event) (lh : List Nat) :
    Prop where
  logging : ∀ t, A (.logging pre old lh t)
  installing : ∀ w u, A (.installing old lh w u)
  erasing : A (.erasing old lh)

/-- One turn of the loop of `write_log`. -/
theorem safe_writeLogBlock {t : Nat} (hA : ∀ t, A (.logging pre old lh t)) (ht : t < lh.length) :
    Safe (machine xexec Ok A C) p (writeLogBlock t)
      (fun _ l => l = ⟨⟨none, hs⟩, .commit, .logging pre old lh (t + 1)⟩)
      ⟨⟨none, hs⟩, .commit, .logging pre old lh t⟩ := by
  unfold writeLogBlock
  refine safe_getLog (hA _) rfl fun lg hdev hstart _ _ _ => ?_
  rw [hdev, hstart]
  refine safe_bread (hA _) rfl fun dst dd hdst => ?_
  refine safe_getLog (hA _) rfl fun lg' hdev' _ hlh _ _ => ?_
  rw [hdev', (hlh pre old lh t rfl).1]
  refine safe_bread (hA _) rfl fun src d hsrc => ?_
  simp only [Holding.take] at hsrc ⊢
  have hne : src ≠ dst := fun h => (hsrc _ mem_cons_self).1 h.symm
  have hsrc' : ∀ y ∈ hs, y.i ≠ src := fun y hy => (hsrc y (mem_cons_of_mem _ hy)).1
  have hdst' : ∀ y ∈ hs, y.i ≠ dst := fun y hy => (hdst y hy).1
  refine safe_getData (y := ⟨src, _, d, false⟩) (hA _) rfl mem_cons_self ?_
  refine safe_setData (y := ⟨dst, _, dd, false⟩) (hA _) rfl
    (mem_cons_of_mem _ mem_cons_self) (Or.inr rfl) ?_
  rw [Holding.setHold_second hne hdst']
  refine safe_bwrite (y := ⟨dst, C.start + t + 1, d, true⟩) (hA _) rfl
    (.logging pre old lh (t + 1)) (mem_cons_of_mem _ mem_cons_self)
    (fun s g h hl => h.writeSlot hl rfl ht mem_cons_self (getD_eq_of_lt ht) rfl
      (mem_cons_of_mem _ mem_cons_self) rfl rfl) ?_
  rw [Holding.setHold_second hne hdst']
  refine safe_brelse (y := ⟨src, _, d, false⟩) (hA _) rfl mem_cons_self rfl ?_
  rw [Holding.drop_head fun x hx => by
    rcases mem_cons.mp hx with rfl | hx
    · exact hne.symm
    · exact hsrc' x hx]
  refine safe_brelse_last (y := ⟨dst, _, d, false⟩) (hA _) rfl mem_cons_self rfl ?_
  rw [Holding.drop_head hdst']

theorem safe_writeLog (hA : ∀ t, A (.logging pre old lh t)) : Safe (machine xexec Ok A C) p writeLog
      (fun _ l => l = ⟨⟨none, hs⟩, .commit, .logging pre old lh lh.length⟩)
      ⟨⟨none, hs⟩, .commit, .logging pre old lh 0⟩ := by
  unfold writeLog
  refine safe_getLog (hA _) rfl fun lg _ _ hlh _ _ => ?_
  rw [(hlh pre old lh 0 rfl).1]
  refine Safe.forFrom (I := fun j (l : Ghost) => l = ⟨⟨none, hs⟩, .commit, .logging pre old lh j⟩)
    ?_ _ 0 _ (Nat.zero_add _) rfl
  rintro j l hj rfl
  exact safe_writeLogBlock hA hj

/-- `write_head`, from any stage in which the header is written. -/
theorem safe_writeHead {st : Stage} {pc : GroupCommit.Pc} (st' : Stage) (lh' : List Nat)
    (hA : A st) (hA' : A st') (hpc : pc.commits = 1)
    (hlog : ∀ lg : Log, (∀ pre old lh t, st = .logging pre old lh t → lg.lh = lh ∧ lh ≠ []) →
      (∀ old lh, st = .erasing old lh → lg.lh = []) → lg.lh = lh')
    (hstep : ∀ (s : Kernel M) (g : Pid → Ghost) (l : Ghost) (y : Hold) (d : Block),
      KInv C s g → g p = l → l.pc = pc → l.stage = st → y ∈ l.holds → y.b = C.start →
      y.data = encodeHeader d lh' → KInv C (s.wrote y) (Function.update g p (l.wrote y st'))) :
    Safe (machine xexec Ok A C) p writeHead (fun _ l => l = ⟨⟨none, hs⟩, pc, st'⟩)
      ⟨⟨none, hs⟩, pc, st⟩ := by
  unfold writeHead
  refine safe_getLog hA rfl fun lg hdev hstart _ _ _ => ?_
  rw [hdev, hstart]
  refine safe_bread hA rfl fun i d hi => ?_
  refine safe_getLog hA rfl fun lg' _ _ hlogging _ herasing => ?_
  rw [hlog lg' hlogging herasing]
  have hi' : ∀ y ∈ hs, y.i ≠ i := fun y hy => (hi y hy).1
  refine safe_getData (y := ⟨i, C.start, d, false⟩) hA rfl mem_cons_self ?_
  refine safe_setData (y := ⟨i, C.start, d, false⟩) hA rfl mem_cons_self (Or.inr hpc) ?_
  simp only [Holding.take]
  rw [Holding.setHold_head hi']
  refine safe_bwrite (y := ⟨i, C.start, encodeHeader d lh', true⟩) hA rfl st' mem_cons_self
    (fun s g h hl => hstep s g _ _ d h hl rfl rfl mem_cons_self rfl rfl) ?_
  rw [Holding.setHold_head hi']
  refine safe_brelse_last (y := ⟨i, C.start, encodeHeader d lh', false⟩) hA' rfl
    mem_cons_self rfl ?_
  rw [Holding.drop_head hi']

/-- One turn of the loop of `install_trans`. -/
theorem safe_installBlock {t : Nat} (hA : ∀ w u, A (.installing old lh w u)) (ht : t < lh.length) :
    Safe (machine xexec Ok A C) p (installBlock t)
      (fun _ l => l = ⟨⟨none, hs⟩, .commit, .installing old lh (t + 1) (t + 1)⟩)
      ⟨⟨none, hs⟩, .commit, .installing old lh t t⟩ := by
  unfold installBlock
  refine safe_getLog (hA _ _) rfl fun lg hdev hstart _ _ _ => ?_
  rw [hdev, hstart]
  refine safe_bread (hA _ _) rfl fun lbuf d hlbuf => ?_
  refine safe_getLog (hA _ _) rfl fun lg' hdev' _ _ hlh _ => ?_
  rw [hdev', hlh old lh t t rfl]
  refine safe_bread (hA _ _) rfl fun dbuf dd hdbuf => ?_
  simp only [Holding.take] at hdbuf ⊢
  have hne : lbuf ≠ dbuf := (hdbuf _ mem_cons_self).1
  have hdbuf' : ∀ y ∈ hs, y.i ≠ dbuf := fun y hy => (hdbuf y (mem_cons_of_mem _ hy)).1
  have hlbuf' : ∀ y ∈ hs, y.i ≠ lbuf := fun y hy => (hlbuf y hy).1
  have hdbuf'' : ∀ y ∈ (⟨lbuf, C.start + t + 1, d, false⟩ :: hs : List Hold), y.i ≠ dbuf := by
    intro y hy
    rcases mem_cons.mp hy with rfl | hy
    · exact hne
    · exact hdbuf' y hy
  refine safe_getData (y := ⟨lbuf, _, d, false⟩) (hA _ _) rfl (mem_cons_of_mem _ mem_cons_self) ?_
  refine safe_setData (y := ⟨dbuf, _, dd, false⟩) (hA _ _) rfl mem_cons_self (Or.inr rfl) ?_
  rw [Holding.setHold_head hdbuf'']
  refine safe_bwrite (y := ⟨dbuf, lh.getD t 0, d, true⟩) (hA _ _) rfl
    (.installing old lh (t + 1) t) mem_cons_self
    (fun s g h hl => h.writeHome hl rfl ht (mem_cons_of_mem _ mem_cons_self) rfl rfl
      mem_cons_self (getD_eq_of_lt ht) rfl) ?_
  rw [Holding.setHold_head hdbuf'']
  refine safe_bunpin (y := ⟨dbuf, lh.getD t 0, d, false⟩) (hA _ _) rfl rfl mem_cons_self
    (getD_eq_of_lt ht) ?_
  refine safe_brelse (y := ⟨lbuf, _, d, false⟩) (hA _ _) rfl
    (mem_cons_of_mem _ mem_cons_self) rfl ?_
  rw [Holding.drop_second hne.symm hlbuf']
  refine safe_brelse_last (y := ⟨dbuf, _, d, false⟩) (hA _ _) rfl mem_cons_self rfl ?_
  rw [Holding.drop_head hdbuf']

theorem safe_installTrans (hA : ∀ w u, A (.installing old lh w u)) :
    Safe (machine xexec Ok A C) p installTrans
      (fun _ l => l = ⟨⟨none, hs⟩, .commit, .installing old lh lh.length lh.length⟩)
      ⟨⟨none, hs⟩, .commit, .installing old lh 0 0⟩ := by
  unfold installTrans
  refine safe_getLog (hA _ _) rfl fun lg _ _ _ hlh _ => ?_
  rw [hlh old lh 0 0 rfl]
  refine Safe.forFrom (I := fun j (l : Ghost) => l = ⟨⟨none, hs⟩, .commit, .installing old lh j j⟩)
    ?_ _ 0 _ (Nat.zero_add _) rfl
  rintro j l hj rfl
  exact safe_installBlock hA hj

/-- Where a commit ends: with an empty header in memory and on disk. -/
def CommitDone (hs : List Hold) (l : Ghost) : Prop :=
  ∃ st : Stage, (st = .idle ∨ ∃ old, st = .erased old) ∧ l = ⟨⟨none, hs⟩, .committed, st⟩

/-- `commit()`, once it has found that there is something to commit. -/
theorem safe_commit_body (hA : MayCommit A pre old lh) (hA' : A (.erased old)) :
    Safe (machine xexec Ok A C) p
      (writeLog >>= fun _ => writeHead >>= fun _ => installTrans >>= fun _ =>
        .op (.setLh []) fun _ => writeHead)
      (fun _ l => l = ⟨⟨none, hs⟩, .committed, .erased old⟩)
      ⟨⟨none, hs⟩, .commit, .logging pre old lh 0⟩ := by
  apply Safe.bind
  apply Safe.mono (safe_writeLog hA.logging)
  rintro _ _ rfl
  apply Safe.bind
  refine Safe.mono (safe_writeHead (.installing old lh 0 0) lh (hA.logging _)
    (hA.installing _ _) rfl (fun lg' h _ => (h _ _ _ _ rfl).1)
    fun s g l y d h hl _ hst hy hyb hd => h.writeHeader hl hst hy hyb hd) ?_
  rintro _ _ rfl
  apply Safe.bind
  apply Safe.mono (safe_installTrans hA.installing)
  rintro _ _ rfl
  refine safe_clearLh (hA.installing _ _) rfl rfl ?_
  exact safe_writeHead (.erased old) [] hA.erasing hA' rfl (fun lg' _ h => h _ _ rfl)
    fun s g l y d h hl _ hst hy hyb hd => h.eraseHeader hl hst hy hyb hd

theorem safe_commit (hA : ∀ st, A st) :
    Safe (machine xexec Ok A C) p commit (fun _ l => CommitDone hs l)
      ⟨⟨none, hs⟩, .commit, .idle⟩ := by
  refine safe_getLog_commit (hA _) rfl rfl rfl ?_ ?_
  · intro lg pre old hne
    rw [if_pos (length_pos_iff.mpr hne)]
    apply Safe.mono (safe_commit_body ⟨fun _ => hA _, fun _ _ => hA _, hA _⟩ (hA _))
    rintro _ _ rfl
    exact ⟨.erased old, Or.inr ⟨old, rfl⟩, rfl⟩
  · intro lg hnil
    rw [if_neg (by simp [hnil])]
    exact ⟨.idle, Or.inl rfl, rfl⟩

theorem safe_endOp (hA : ∀ st, A st) (hclean : ∀ y ∈ hs, y.dirty = false) :
    Safe (machine xexec Ok A C) p endOp (fun _ l => l = ⟨⟨none, hs⟩, .idle, .idle⟩)
      ⟨⟨none, hs⟩, .inOp, .idle⟩ := by
  unfold endOp
  refine safe_dropOp (hA _) rfl rfl rfl hclean fun c => ?_
  cases c with
  | false => rfl
  | true =>
    apply Safe.bind
    apply Safe.mono (safe_commit hA)
    rintro _ _ ⟨st, hst, rfl⟩
    exact safe_endCommit (hA _) rfl rfl hst hclean rfl

end Xv6
