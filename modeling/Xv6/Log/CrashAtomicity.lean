/-
  Log/CrashAtomicity.lean --- a crash anywhere in `commit()`, and in any number of
  recoveries after it, loses all of the transaction or none of it.

  The commit point is the first `write_head`: before it the disk is recoverable to
  what it was, after it to what the transaction makes of it (`Config.Recoverable`),
  and recovery keeps whichever it finds.
-/
import Xv6.Log.Commit
import Xv6.Log.Recovery

set_option autoImplicit false

namespace Xv6

open Function List Foundation

/-! ## The state before -/

/-- A transaction is about to be committed: `C.raw` is the disk, and `C.store` is what
it is to become, the blocks of `log.lh` having their contents in the cache. -/
structure Pending {M : Type} (C : Config) (s : Kernel M) : Prop where
  log : s.log = { C.bootLog s.log.lh with committing := true }
  nodup : s.log.lh.Nodup
  lhOk : C.LhOk s.log.lh
  disk : s.disk = C.raw
  header : headerN (C.raw C.start) = 0
  wf : s.bc.Wf
  unlocked : ∀ i, (s.bc.buf i).lock = none
  refs : ∀ i, (s.bc.buf i).refcnt = s.bc.pins s.log.lh i
  cached : ∀ b ∈ s.log.lh, ∃ i, s.bc.Carries i b ∧ (s.bc.buf i).valid = true ∧
    (s.bc.buf i).data = C.store b
  coherent : ∀ i, (s.bc.buf i).dev = ROOTDEV → (s.bc.buf i).valid = true →
    (s.bc.buf i).blockno ∉ s.log.lh → (s.bc.buf i).data = C.raw (s.bc.buf i).blockno
  store : ∀ b, b ∉ s.log.lh → C.store b = C.raw b
  hist : s.hist = []

/-- A history of the protocol in which the transaction was one operation. -/
def oneOperation (p : Pid) (lh : List Nat) : List (GroupCommit.Event Pid) :=
  .ended p :: (lh.map (GroupCommit.Event.wrote p) ++ [.begun p])

theorem opened_oneOperation (p q : Pid) (lh : List Nat) :
    GroupCommit.opened q (oneOperation p lh) = false := by
  have hwrites : ∀ q, GroupCommit.opened q
      (lh.map (GroupCommit.Event.wrote p) ++ [.begun p]) = decide (p = q) := by
    intro q
    induction lh with
    | nil => by_cases hq : p = q <;> simp [GroupCommit.opened, hq]
    | cons b bs ih => simpa [GroupCommit.opened] using ih
  rw [oneOperation, GroupCommit.opened, hwrites]
  by_cases hq : p = q <;> simp [hq]

theorem mem_since_oneOperation (p : Pid) (lh : List Nat) (b : Nat) :
    b ∈ GroupCommit.since (oneOperation p lh) ↔ b ∈ lh := by
  rw [oneOperation, GroupCommit.since]
  induction lh with
  | nil => simp [GroupCommit.since]
  | cons c cs ih => simp [GroupCommit.since, ih]

theorem histOk_oneOperation (p : Pid) (lh : List Nat) : GroupCommit.HistOk (oneOperation p lh) := by
  rw [oneOperation, GroupCommit.HistOk]
  induction lh with
  | nil => simp [GroupCommit.HistOk]
  | cons c cs ih =>
    refine ⟨?_, ih⟩
    refine GroupCommit.opened_append (by simp) ?_
    simp [GroupCommit.opened]

/-- The process that commits, at the start. -/
def committer (C : Config) (lh : List Nat) : Ghost :=
  ⟨.empty, .commit, .logging C.raw [] lh 0⟩

/-- Everybody else is outside. -/
def committing (C : Config) (lh : List Nat) (p : Pid) : Pid → Ghost :=
  update (fun _ => Ghost.outside) p (committer C lh)

variable {E : Signature} {M : Type}
  {xexec : Pid → (o : E.Op) → M → Outcome Halt M (E.Resp o)} {C : Config} {s t : Kernel M}
  {p : Pid}

theorem sum_committing {lh : List Nat} {f : Ghost → Nat} (hf : f Ghost.outside = 0) :
    (∑ q, f (committing C lh p q)) = f (committer C lh) := by
  have := sum_update_add f (fun _ => Ghost.outside) p (committer C lh)
  simp only [hf, Finset.sum_const_zero] at this
  simpa [committing] using this

theorem Pending.kinv (h : Pending C s) (hne : s.log.lh ≠ []) (p : Pid) :
    KInv C s (committing C s.log.lh p) := by
  have hpc : ∀ q, q ≠ p → committing C s.log.lh p q = Ghost.outside := fun q hq => by
    simp [committing, hq]
  have hself : committing C s.log.lh p p = committer C s.log.lh := by simp [committing]
  have hcases : ∀ q, (q = p ∧ committing C s.log.lh p q = committer C s.log.lh) ∨
      committing C s.log.lh p q = Ghost.outside := fun q => by
    by_cases hq : q = p
    · subst hq; exact Or.inl ⟨rfl, hself⟩
    · exact Or.inr (hpc q hq)
  have hholding : holding (committing C s.log.lh p) = fun _ => Holding.empty := by
    funext q
    rcases hcases q with ⟨-, hq⟩ | hq <;> simp only [holding, hq] <;> rfl
  have hpinned : pinned s.log.lh (committing C s.log.lh p) = s.log.lh := by
    unfold pinned
    rw [sum_committing (f := fun l => l.stage.unpinned) rfl]
    rfl
  have hview : ∀ b, b ∉ s.log.lh → C.view s.disk s.hist b = C.raw b := by
    intro b hb
    unfold Config.view
    rw [h.disk, h.hist]
    split
    · rfl
    · exact h.store b hb
  exact {
    dev := by rw [h.log]; rfl
    start := by rw [h.log]; rfl
    size := by rw [h.log]; rfl
    proto := by
      refine ⟨oneOperation p s.log.lh, ?_⟩
      have hout : s.log.outstanding = 0 := by rw [h.log]; rfl
      have hcom : s.log.committing = true := by rw [h.log]
      exact {
        outstanding_eq := by
          refine hout.trans (Finset.sum_eq_zero fun q _ => ?_).symm
          rcases hcases q with ⟨-, hq⟩ | hq <;> simp only [protocol, hq] <;> rfl
        committing_eq := by
          simp only [protocol, hcom, if_true]
          rw [sum_committing (f := fun l => l.pc.commits) rfl]
          rfl
        exclusive := fun _ => hout
        quiescent := fun _ hc => by
          rw [show (protocol s _ _).log.committing = s.log.committing from rfl, hcom] at hc
          cases hc
        nodup := h.nodup
        recorded := fun b => (mem_since_oneOperation p s.log.lh b).symm
        installed := fun q bs hpc => by
          rcases hcases q with ⟨-, hq⟩ | hq <;> simp only [protocol, hq] at hpc <;> cases hpc
        committed := fun q hpc => by
          rcases hcases q with ⟨-, hq⟩ | hq <;> simp only [protocol, hq] at hpc <;> cases hpc
        asleep := fun _ _ => Or.inr hcom
        opened_iff := fun q => by
          simp only [protocol, opened_oneOperation]
          refine iff_of_false (by simp) ?_
          rcases hcases q with ⟨-, hq⟩ | hq <;> simp [hq, committer, Ghost.outside,
            GroupCommit.Pc.opens]
        histOk := histOk_oneOperation p s.log.lh
        panic := fun e he => by cases he }
    awake := fun q => by
      rcases hcases q with ⟨-, hq⟩ | hq <;> rw [hq] <;> simp [committer, Ghost.outside]
    cache := by
      rw [hpinned, hholding]
      exact {
        wf := h.wf
        refs := fun i => by simpa using h.refs i
        locked := fun i q => by
          rw [h.unlocked i]
          exact iff_of_false (by simp) (Holding.not_locks_empty i)
        nodup := fun _ => nodup_nil
        fresh := fun _ _ hx => by cases hx
        limbo := fun _ _ hx => by cases hx
        holds := fun _ _ hy => by cases hy
        coherent := fun i hdev hval _ => by
          by_cases hb : (s.bc.buf i).blockno ∈ s.log.lh
          · obtain ⟨j, hj, -, hdata⟩ := h.cached _ hb
            have hij : i = j := h.wf.uniq i j hdev hj.1 hj.2.symm
            subst hij
            rw [hdata, Config.view, if_neg (h.lhOk.outside _ hb), h.hist]
            rfl
          · rw [hview _ hb]
            exact h.coherent i hdev hval hb
        cached := fun b hb => by
          obtain ⟨i, hi, hv, -⟩ := h.cached b hb
          exact ⟨i, hi, hv⟩ }
    home := fun b hb hpend => by
      have hnot : b ∉ s.log.lh := by
        unfold pending at hpend
        rw [sum_committing (f := fun l => l.stage.written) rfl] at hpend
        exact hpend
      rw [h.disk, h.hist]
      exact (h.store b hnot).symm
    raw := by rw [h.disk, h.hist]; rfl
    lhOk := h.lhOk
    clean := fun q _ _ y hy => by
      rcases hcases q with ⟨-, hq⟩ | hq <;> rw [hq] at hy <;> cases hy
    staged := fun q hst => by
      rcases hcases q with ⟨-, hq⟩ | hq
      · rw [hq]; rfl
      · rw [hq] at hst; exact absurd rfl hst
    stage := fun q => by
      rcases hcases q with ⟨-, hq⟩ | hq
      · rw [hq]
        refine ⟨rfl, rfl, hne, ?_, ?_, ?_, ?_⟩
        · rw [h.disk]; exact h.header
        · intro b _; rw [h.disk]
        · intro j b hj; omega
        · rw [h.hist]
          exact ⟨[], rfl, by simp, by simp⟩
      · rw [hq]; trivial
    header := fun _ => by rw [h.disk]; exact h.header
    reads := by rw [h.hist]; trivial }

/-! ## The crash -/

/-- The stages of this commit. -/
def OfCommit (C : Config) : Stage → Prop
  | .idle => False
  | .logging pre old _ _ => pre = C.raw ∧ old = []
  | .installing old _ _ _ => old = []
  | .erasing old _ => old = []
  | .erased old => old = []

theorem latest_of_not_logged {d : Disk} {h : List Event} (hn : ∀ b x, .logged b x ∉ h) :
    latest d h = d := by
  induction h with
  | nil => rfl
  | cons e h ih =>
    have ih := ih fun b x hx => hn b x (mem_cons_of_mem _ hx)
    cases e with
    | read b x => exact ih
    | wrote b x => exact ih
    | logged b x => exact absurd mem_cons_self (hn b x)

/-- Was the header written? -/
def HeaderWritten (C : Config) (t : Kernel M) : Prop := ∃ d, .wrote C.start d ∈ t.hist

theorem Since.nil {hist : List Event} {written : Prop} (h : C.Since [] hist written) :
    latest C.store hist = C.store ∧ ((∃ d, .wrote C.start d ∈ hist) ↔ written) := by
  obtain ⟨new, rfl, hlog, hiff⟩ := h
  rw [append_nil]
  exact ⟨latest_of_not_logged hlog, hiff⟩

/-- Wherever this commit stands, the disk is recoverable: to what it was as long as
the header is not written, and to what it is to become from then on. -/
theorem KInv.recoverable {g : Pid → Ghost} (h : KInv C t g) (hst : OfCommit C (g p).stage) :
    (HeaderWritten C t ∧ C.Recoverable C.store t.disk) ∨
    (¬ HeaderWritten C t ∧ C.Recoverable C.raw t.disk) := by
  have hok := h.stage p
  have hp : (g p).pc.commits = 1 := by
    refine h.staged p fun hi => ?_
    rw [hi] at hst
    exact hst
  have hsum := h.sum_stage hp (f := Stage.written) rfl
  cases hs : (g p).stage with
  | idle => rw [hs] at hst; exact hst.elim
  | logging pre old lh n =>
    rw [hs] at hst hok
    obtain ⟨rfl, rfl⟩ := hst
    obtain ⟨-, -, -, hhead, hpre, -, hsince⟩ := hok
    obtain ⟨-, hiff⟩ := Since.nil hsince
    refine Or.inr ⟨fun hw => hiff.mp hw, ?_, ?_, ?_⟩ <;> rw [decode_eq_nil hhead]
    · exact C.lhOk_nil
    · intro j b hj
      simp at hj
    · exact fun b hb _ => hpre b hb
  | installing old lh w u =>
    rw [hs] at hst hok
    subst hst
    obtain ⟨-, hlh, hdec, hslots, -, -, hsince⟩ := hok
    obtain ⟨hlatest, hiff⟩ := Since.nil hsince
    refine Or.inl ⟨hiff.mpr trivial, ?_, ?_, ?_⟩ <;> rw [hdec]
    · exact h.lhOk
    · intro j b hj
      rw [← hlatest]
      refine hslots j b ?_ hj
      by_contra hn
      rw [getElem?_eq_none (by omega)] at hj
      cases hj
    · intro b hb hn
      rw [← hlatest]
      exact h.home b hb fun hpend => hn (mem_of_mem_drop hpend)
  | erasing old lh =>
    rw [hs] at hst hok
    subst hst
    obtain ⟨-, hlh, hlhOk, hdec, hslots, hsince⟩ := hok
    obtain ⟨hlatest, hiff⟩ := Since.nil hsince
    refine Or.inl ⟨hiff.mpr trivial, ?_, ?_, ?_⟩ <;> rw [hdec]
    · exact hlhOk
    · intro j b hj
      rw [← hlatest]
      refine hslots j b ?_ hj
      by_contra hn
      rw [getElem?_eq_none (by omega)] at hj
      cases hj
    · intro b hb _
      rw [← hlatest]
      refine h.home b hb ?_
      simp [pending, hlh]
  | erased old =>
    rw [hs] at hst hok
    subst hst
    obtain ⟨-, hlh, hhead, hsince⟩ := hok
    obtain ⟨hlatest, hiff⟩ := Since.nil hsince
    refine Or.inl ⟨hiff.mpr trivial, ?_, ?_, ?_⟩ <;> rw [decode_eq_nil hhead]
    · exact C.lhOk_nil
    · intro j b hj
      simp at hj
    · intro b hb _
      rw [← hlatest]
      refine h.home b hb ?_
      simp [pending, hlh]

/-- A commit cut off anywhere leaves a recoverable disk. -/
theorem commit_recoverable (h : Pending C s) (ht : Prog.Reaches (kexec xexec p) commit s t) :
    (HeaderWritten C t ∧ C.Recoverable C.store t.disk) ∨
    (¬ HeaderWritten C t ∧ C.Recoverable C.raw t.disk) := by
  by_cases hne : s.log.lh = []
  · -- nothing to commit: the state does not change
    have hts : t = s := by
      cases ht with
      | here => rfl
      | step hx rest =>
        cases hx
        simp only [hne, length_nil, Nat.lt_irrefl, if_false] at rest
        cases rest
        rfl
    subst hts
    refine Or.inr ⟨?_, ?_, ?_, ?_⟩
    · rintro ⟨d, hd⟩
      rw [h.hist] at hd
      cases hd
    all_goals rw [h.disk, decode_eq_nil h.header]
    · exact C.lhOk_nil
    · intro j b hj
      simp at hj
    · exact fun b _ _ => rfl
  · have hinv := h.kinv hne p
    have hself : committing C s.log.lh p p = committer C s.log.lh := by simp [committing]
    have hsafe : Safe (machine xexec (fun _ _ _ => True) (OfCommit C) C) p commit
        (fun _ l => OfCommit C l.stage) (committing C s.log.lh p p) := by
      rw [hself]
      refine safe_getLog ⟨rfl, rfl⟩ rfl fun lg _ _ hlh _ _ => ?_
      rw [if_pos (by rw [(hlh _ _ _ _ rfl).1]; exact length_pos_iff.mpr hne)]
      refine Safe.mono (safe_commit_body ⟨fun _ => ⟨rfl, rfl⟩, fun _ _ => rfl, rfl⟩ rfl) ?_
      rintro _ _ rfl
      rfl
    obtain ⟨l, hl, hrest⟩ := Safe.reaches (fun _ _ => trivial) hinv hsafe ht
    refine KInv.recoverable (p := p) hl ?_
    rw [update_self]
    rcases hrest with ⟨o, -, ho⟩ | ⟨-, ha⟩
    · exact ho
    · exact ha

/-- The disk after any number of recoveries that were cut off. -/
inductive Recoveries (xexec : Pid → (o : E.Op) → M → Outcome Halt M (E.Resp o))
    (C : Config) : Disk → Disk → Prop where
  | none (d : Disk) : Recoveries xexec C d d
  | cut {d d' : Disk} {p : Pid} {m : M} {t : Kernel M}
      (h : Prog.Reaches (kexec xexec p) recoverFromLog (boot C.start C.size d m) t)
      (rest : Recoveries xexec C t.disk d') : Recoveries xexec C d d'

theorem Recoveries.recoverable {X d d' : Disk} (h : Recoveries xexec C d d')
    (hd : C.Recoverable X d) : C.Recoverable X d' := by
  induction h with
  | none d => exact hd
  | cut hr _ ih => exact ih ((recwp_recoverFromLog hd).reaches hr)

/-- Crash atomicity: whatever point of `commit()` the machine is stopped at, and
however many recoveries are stopped after that, once one completes the log is empty
and the blocks outside of it are all as before the transaction, or all as after it,
the latter exactly if the first `write_head` had reached the disk. -/
theorem commit_crash_atomic {d : Disk} {q : Pid} {m : M} {s' : Kernel M} (h : Pending C s)
    (ht : Prog.Reaches (kexec xexec p) commit s t) (hd : Recoveries xexec C t.disk d)
    (hr : recoverFromLog.run (kexec xexec q) (boot C.start C.size d m) = .ret () s') :
    headerN (s'.disk C.start) = 0 ∧
    ((HeaderWritten C t ∧ ∀ b, ¬ C.InLog b → s'.disk b = C.store b) ∨
     (¬ HeaderWritten C t ∧ ∀ b, ¬ C.InLog b → s'.disk b = C.raw b)) := by
  rcases commit_recoverable h ht with ⟨hw, hrec⟩ | ⟨hw, hrec⟩
  · have hdone := (recwp_recoverFromLog (hd.recoverable hrec)).run hr
    exact ⟨hdone.header, Or.inl ⟨hw, hdone.home⟩⟩
  · have hdone := (recwp_recoverFromLog (hd.recoverable hrec)).run hr
    exact ⟨hdone.header, Or.inr ⟨hw, hdone.home⟩⟩

/-! ## Two blocks -/

/-- A transaction of two blocks, on a disk of zeros. -/
def twoBlocks : Config where
  start := 2
  size := LOGSIZE
  raw := fun _ _ => 0
  store := fun b _ => if b = 40 then 7 else if b = 41 then 8 else 0
  pos := by decide

/-- Its blocks are in the first two buffers, pinned. -/
def twoBlocksState : Kernel Unit where
  disk := twoBlocks.raw
  bc := (Bcache.binit.set 0
    { valid := true, dev := ROOTDEV, blockno := 40, lock := none, refcnt := 1
      data := fun _ => 7 }).set 1
    { valid := true, dev := ROOTDEV, blockno := 41, lock := none, refcnt := 1
      data := fun _ => 8 }
  log := { twoBlocks.bootLog [40, 41] with committing := true }
  mem := ()
  hist := []

theorem twoBlocksState_buf (i : BufId) :
    i = 0 ∨ i = 1 ∨ twoBlocksState.bc.buf i = Bcache.binit.buf i := by
  by_cases h0 : i = 0
  · exact Or.inl h0
  · refine Or.inr (or_iff_not_imp_left.mpr fun h1 => ?_)
    rw [twoBlocksState, Bcache.set_buf_ne _ _ h1, Bcache.set_buf_ne _ _ h0]

theorem twoBlocks_pending : Pending twoBlocks twoBlocksState where
  log := rfl
  nodup := by decide
  lhOk := by
    refine ⟨?_, ?_, ?_, ?_⟩ <;> decide
  disk := rfl
  header := by decide +kernel
  wf := by
    refine (Bcache.wf_binit.set_fresh rfl fun j hj => by cases hj).set_fresh rfl fun j hj => ?_
    by_cases h0 : j = 0
    · subst h0; decide
    · rw [Bcache.set_buf_ne _ _ h0] at hj
      cases hj
  unlocked i := by
    obtain rfl | rfl | hbuf := twoBlocksState_buf i
    · rfl
    · rfl
    · rw [hbuf]
      rfl
  refs i := by
    obtain rfl | rfl | hbuf := twoBlocksState_buf i
    · rfl
    · rfl
    · rw [Bcache.pins, hbuf]
      rfl
  cached b hb := by
    have hb : b = 40 ∨ b = 41 := by simpa [twoBlocksState, Config.bootLog] using hb
    obtain rfl | rfl := hb
    · exact ⟨0, ⟨rfl, rfl⟩, rfl, rfl⟩
    · exact ⟨1, ⟨rfl, rfl⟩, rfl, rfl⟩
  coherent i hdev _ hb := by
    obtain rfl | rfl | hbuf := twoBlocksState_buf i
    · exact absurd (by decide) hb
    · exact absurd (by decide) hb
    · rw [hbuf] at hdev
      cases hdev
  store b hb := by
    have hb : b ≠ 40 ∧ b ≠ 41 := by simpa [twoBlocksState, Config.bootLog] using hb
    funext x
    simp [twoBlocks, hb]
  hist := rfl

/-- How often the header of the log has been written. -/
def headerWrites (t : Kernel Unit) : Nat :=
  t.hist.countP fun
    | .wrote b _ => b = twoBlocks.start
    | _ => false

theorem headerWritten_of_pos {t : Kernel Unit} (h : 0 < headerWrites t) :
    HeaderWritten twoBlocks t := by
  obtain ⟨e, he, hwrote⟩ := countP_pos_iff.mp h
  cases e with
  | wrote b d =>
    obtain rfl := of_decide_eq_true hwrote
    exact ⟨d, he⟩
  | read b d => cases hwrote
  | logged b d => cases hwrote

/-- The machine stops after 60 requests of `commit`, with one block installed. -/
def stopped : Kernel Unit := commit.runFor (kexec noExt 0) 60 twoBlocksState

/-- The first recovery stops after 30 requests. -/
def stoppedAgain : Kernel Unit :=
  recoverFromLog.runFor (kexec noExt 0) 30 (boot 2 LOGSIZE stopped.disk ())

theorem commit_crash_atomic_twoBlocks : headerWrites stopped = 1 ∧
    stopped.disk 41 ≠ twoBlocks.store 41 ∧ stoppedAgain.disk 41 ≠ twoBlocks.store 41 ∧
    ∃ s', recoverFromLog.run (kexec noExt 0) (boot 2 LOGSIZE stoppedAgain.disk ()) = .ret () s' ∧
      headerN (s'.disk 2) = 0 ∧ s'.disk 40 = twoBlocks.store 40 ∧
      s'.disk 41 = twoBlocks.store 41 := by
  have hcount : headerWrites stopped = 1 := by decide +kernel
  have hhalf : ∀ t : Kernel Unit, t.disk 41 ⟨0, by decide⟩ = 0 →
      t.disk 41 ≠ twoBlocks.store 41 := by
    intro t hzero heq
    rw [heq] at hzero
    cases hzero
  obtain ⟨s', hs'⟩ := Outcome.exists_ret
    (r := recoverFromLog.run (kexec noExt 0) (boot 2 LOGSIZE stoppedAgain.disk ()))
    (by decide +kernel)
  refine ⟨hcount, hhalf _ (by decide +kernel), hhalf _ (by decide +kernel), s', hs', ?_⟩
  have hcut : Recoveries noExt twoBlocks stopped.disk stoppedAgain.disk :=
    .cut (.of_runFor 30 _ _) (.none _)
  obtain ⟨hhead, ⟨-, hhome⟩ | ⟨hnot, -⟩⟩ :=
    commit_crash_atomic twoBlocks_pending (.of_runFor 60 _ _) hcut hs'
  · exact ⟨hhead, hhome 40 (by decide), hhome 41 (by decide)⟩
  · exact absurd (headerWritten_of_pos (hcount ▸ Nat.one_pos)) hnot

end Xv6
