/-
  Log/Rules.lean --- the proof rules of the kernel's requests and routines: what a
  process may do, and what it has afterwards.

  Each rule reads backwards: to show that the process may run a request and then
  `k`, show what the request takes, and that the process may run `k` with what it
  then has.
-/
import Xv6.Log.Steps

set_option autoImplicit false

namespace Xv6

open Function Foundation

/-- What is on its way when a request is made: `acquiresleep` and the two halves of
`brelse` are made only on the buffer in question. -/
def KOp.Pre {E : Signature} : KOp E → Ghost → Prop
  | .acquiresleep i, l => ∃ b, l.limbo = some ⟨i, b, false⟩
  | .put i, l => ∃ b, l.limbo = some ⟨i, b, false⟩
  | .fill i, l => ∃ b, l.limbo = some ⟨i, b, true⟩
  | .bget _ _, l | .getData _, l | .setData _ _, l | .bwrite _, l | .releasesleep _, l
  | .bunpin _, l | .getLog, l | .setLh _, l | .logWrite _, l | .beginOp, l | .dropOp, l
  | .endCommit, l | .panic _, l | .ext _, l => l.limbo = none

/-- The kernel as a system of processes.  `A` is a restriction on the stages a
process may be in, for use with one process in particular. -/
def machine {E : Signature} {M : Type}
    (xexec : Pid → (o : E.Op) → M → Outcome Halt M (E.Resp o))
    (Ok : Pid → KOp E → Kernel M → Prop) (A : Stage → Prop) (C : Config) :
    System (KSig E) Pid Ghost (Kernel M) Halt where
  exec := kexec xexec
  Inv := KInv C
  Pre := fun o l => o.Pre l ∧ A l.stage
  Ok := Ok
  Bad := fun _ => False

section Rules

variable {E : Signature} {M : Type}
  {xexec : Pid → (o : E.Op) → M → Outcome Halt M (E.Resp o)}
  {Ok : Pid → KOp E → Kernel M → Prop} {A : Stage → Prop} {C : Config} {p : Pid} {α : Type}
  {Q : α → Ghost → Prop} {l : Ghost}

/-- The rule behind the others. -/
theorem safe_op {o : KOp E} {k : (KSig E).Resp o → KProg E α} (hpre : o.Pre l) (hA : A l.stage)
    (h : ∀ s g, KInv C s g → g p = l → Ok p o s → ∀ r s', kexec xexec p o s = .ret r s' →
      ∃ l', KInv C s' (update g p l') ∧ Safe (machine xexec Ok A C) p (k r) Q l') :
    Safe (machine xexec Ok A C) p (.op o k) Q l :=
  ⟨⟨hpre, hA⟩,
    fun s g hinv hl hok => ⟨fun r s' hx => h s g hinv hl hok r s' hx, fun _ _ _ hb => hb⟩⟩

/-! ## `bio.c` -/

variable {k : Unit → KProg E α} {b : Nat}

theorem safe_acquiresleep {i : BufId} (hA : A l.stage) (hx : l.limbo = some ⟨i, b, false⟩)
    (hk : Safe (machine xexec Ok A C) p (k ()) Q
      ⟨l.toHolding.withLimbo (some ⟨i, b, true⟩), l.pc, l.stage⟩) :
    Safe (machine xexec Ok A C) p (.op (.acquiresleep i) k) Q l := by
  refine safe_op ⟨b, hx⟩ hA fun s g h hl _ r s' hret => ?_
  simp only [kexec] at hret
  split at hret
  · rename_i hfree
    cases hret
    refine ⟨_, ?_, hk⟩
    subst hl
    exact h.cacheStep rfl rfl (h.cache.acquire hx hfree) (h.clean p)
  · cases hret

/-- What is on disk is current unless the block is pinned. -/
theorem KInv.disk_view {s : Kernel M} {g : Pid → Ghost} (h : KInv C s g)
    (hb : b ∉ pinned s.log.lh g) : s.disk b = C.view s.disk s.hist b := by
  unfold Config.view
  split
  · rfl
  · rename_i hlog
    refine h.home b hlog fun hpend => hb ?_
    -- a block is written home before it is unpinned
    have hle : (∑ q, (g q).stage.unpinned) ≤ ∑ q, (g q).stage.written := by
      refine Finset.sum_le_sum fun q _ => ?_
      have hst := h.stage q
      cases hq : (g q).stage with
      | idle => exact le_rfl
      | logging pre old lh t => exact le_rfl
      | installing old lh w u =>
        rw [hq] at hst
        exact hst.2.2.2.2.2.1
      | erasing old lh => exact le_rfl
      | erased old => exact le_rfl
    exact List.drop_subset_drop_left _ hle hpend

theorem safe_fill {i : BufId} {k : Block → KProg E α} (hA : A l.stage)
    (hx : l.limbo = some ⟨i, b, true⟩) (hk : ∀ d, (∀ y ∈ l.holds, y.i ≠ i ∧ y.b ≠ b) →
      Safe (machine xexec Ok A C) p (k d) Q ⟨l.toHolding.take ⟨i, b, d, false⟩, l.pc, l.stage⟩) :
    Safe (machine xexec Ok A C) p (.op (.fill i) k) Q l := by
  refine safe_op ⟨b, hx⟩ hA fun s g h hl _ d s' hret => ?_
  subst hl
  have hcar : s.bc.Carries i b := h.cache.limbo p _ hx
  have hfresh : ∀ y ∈ (g p).holds, y.i ≠ i ∧ y.b ≠ b := by
    intro y hy
    have hi : y.i ≠ i := h.cache.fresh p _ hx rfl y hy
    refine ⟨hi, ?_⟩
    rintro rfl
    exact hi (h.cache.carries_unique (h.cache.holds p y hy).1 hcar)
  have hblk := hcar.2
  subst hblk
  obtain ⟨hd, hcache⟩ := h.cache.fill hx fun hb => h.disk_view hb
  simp only [kexec] at hret
  rw [hd] at hret hcache
  cases hret
  refine ⟨_, ?_, hk _ hfresh⟩
  have hstep := h.cacheStep (l := ⟨(g p).toHolding.take ⟨i, _, _, false⟩, (g p).pc, (g p).stage⟩)
    rfl rfl hcache fun ho hc y hy => by
      rcases List.mem_cons.mp hy with rfl | hy
      · rfl
      · exact h.clean p ho hc y hy
  exact hstep.addRead rfl

section

variable {y : Hold} (hA : A l.stage) (hnone : l.limbo = none)

include hA hnone

theorem safe_bget {k : BufId → KProg E α} (hk : ∀ i, Safe (machine xexec Ok A C) p (k i) Q
      ⟨l.toHolding.withLimbo (some ⟨i, b, false⟩), l.pc, l.stage⟩) :
    Safe (machine xexec Ok A C) p (.op (.bget ROOTDEV b) k) Q l := by
  refine safe_op hnone hA fun s g h hl _ i s' hx => ?_
  simp only [kexec] at hx
  cases hb : s.bc.bget ROOTDEV b with
  | none => rw [hb] at hx; cases hx
  | some r =>
    obtain ⟨j, c⟩ := r
    rw [hb] at hx
    cases hx
    refine ⟨_, ?_, hk _⟩
    subst hl
    refine h.cacheStep rfl rfl (h.cache.bget hnone hb) (h.clean p)

/-- `bread`: the process gets a buffer it did not have, locked. -/
theorem safe_bread {k : BufId → KProg E α} (hk : ∀ i d, (∀ y ∈ l.holds, y.i ≠ i ∧ y.b ≠ b) →
      Safe (machine xexec Ok A C) p (k i) Q ⟨l.toHolding.take ⟨i, b, d, false⟩, l.pc, l.stage⟩) :
    Safe (machine xexec Ok A C) p (bread ROOTDEV b >>= k) Q l := by
  refine safe_bget hA hnone fun i => ?_
  refine safe_acquiresleep hA rfl ?_
  exact safe_fill hA rfl fun d => hk i d

theorem safe_getData {k : Block → KProg E α}
    (hy : y ∈ l.holds) (hk : Safe (machine xexec Ok A C) p (k y.data) Q l) :
    Safe (machine xexec Ok A C) p (.op (.getData y.i) k) Q l := by
  refine safe_op hnone hA fun s g h hl _ d s' hret => ?_
  subst hl
  cases hret
  refine ⟨g p, by rwa [update_eq_self], ?_⟩
  rw [(h.cache.holds p y hy).2.2]
  exact hk

/-- A process in an operation or in a commit changes a buffer in place. -/
theorem safe_setData {d : Block} (hy : y ∈ l.holds) (hpc : l.pc.opens = 1 ∨ l.pc.commits = 1)
    (hk : Safe (machine xexec Ok A C) p (k ()) Q ⟨l.toHolding.setHold y.i d true, l.pc, l.stage⟩) :
    Safe (machine xexec Ok A C) p (.op (.setData y.i d) k) Q l := by
  refine safe_op hnone hA fun s g h hl _ r s' hret => ?_
  subst hl
  cases hret
  refine ⟨_, ?_, hk⟩
  refine h.cacheStep rfl rfl (h.cache.write hy (fun _ _ => rfl) (by simp)) fun ho hc => ?_
  rcases hpc with hpc | hpc
  · simp only at ho
    omega
  · simp only at hc
    omega

/-- `brelse` of a buffer with nothing to tell. -/
theorem safe_brelse (hy : y ∈ l.holds) (hclean : y.dirty = false)
    (hk : Safe (machine xexec Ok A C) p (k ()) Q
      ⟨(l.toHolding.drop y).withLimbo none, l.pc, l.stage⟩) :
    Safe (machine xexec Ok A C) p (brelse y.i >>= k) Q l := by
  refine safe_op hnone hA fun s g h hl _ r s' hret => ?_
  subst hl
  simp only [kexec] at hret
  have hdrop : ∀ x ∈ ((g p).toHolding.drop y).holds, x ∈ (g p).holds :=
    fun x hx => (List.mem_filter.mp hx).1
  split at hret
  · cases hret
    refine ⟨⟨(g p).toHolding.drop y, (g p).pc, (g p).stage⟩, ?_, ?_⟩
    · exact h.cacheStep rfl rfl (h.cache.release hy hclean hnone)
        fun ho hc x hx => h.clean p ho hc x (hdrop x hx)
    · refine safe_op ⟨y.b, rfl⟩ hA fun s g h hl _ r s' hret => ?_
      cases hret
      refine ⟨_, ?_, hk⟩
      have hx : (g p).limbo = some ⟨y.i, y.b, false⟩ := by rw [hl]; rfl
      have hput := h.cache.put (p := p) hx
      refine h.cacheStep (by rw [hl]) (by rw [hl]) ?_ ?_
      · rw [show holding g p = (g p).toHolding from rfl, hl] at hput
        exact hput
      · have := h.clean p
        rw [hl] at this
        exact this
  · cases hret

theorem safe_brelse_last {Q : Unit → Ghost → Prop} (hy : y ∈ l.holds) (hclean : y.dirty = false)
    (hQ : Q () ⟨(l.toHolding.drop y).withLimbo none, l.pc, l.stage⟩) :
    Safe (machine xexec Ok A C) p (brelse y.i) Q l := by
  rw [← Prog.bind_pure (brelse y.i)]
  exact safe_brelse hA hnone hy hclean hQ

/-! ## `log.c` -/

/-- Outside of a commit, `log.start` and `log.dev` are all there is to know. -/
theorem safe_getLog {k : Log → KProg E α} (hk : ∀ lg : Log, lg.dev = ROOTDEV → lg.start = C.start →
      (∀ pre old lh t, l.stage = .logging pre old lh t → lg.lh = lh ∧ lh ≠ []) →
      (∀ old lh w u, l.stage = .installing old lh w u → lg.lh = lh) →
      (∀ old lh, l.stage = .erasing old lh → lg.lh = []) →
      Safe (machine xexec Ok A C) p (k lg) Q l) :
    Safe (machine xexec Ok A C) p (.op .getLog k) Q l := by
  refine safe_op hnone hA fun s g h hl _ r s' hret => ?_
  cases hret
  refine ⟨l, by rw [← hl, update_eq_self]; exact h, ?_⟩
  have hst := h.stage p
  rw [hl] at hst
  refine hk _ h.dev h.start ?_ ?_ ?_
  · intro pre old lh t hs
    rw [hs] at hst
    exact ⟨hst.2.1, hst.2.1 ▸ hst.2.2.1⟩
  · intro old lh w u hs
    rw [hs] at hst
    exact hst.2.1
  · intro old lh hs
    rw [hs] at hst
    exact hst.2.1

/-- `commit()` looks at `log.lh.n`. -/
theorem safe_getLog_commit {k : Log → KProg E α} (hpc : l.pc = .commit) (hstage : l.stage = .idle)
    (hsome : ∀ (lg : Log) (pre : Disk) (old : List Event), lg.lh ≠ [] →
      Safe (machine xexec Ok A C) p (k lg) Q { l with stage := .logging pre old lg.lh 0 })
    (hnil : ∀ lg : Log, lg.lh = [] →
      Safe (machine xexec Ok A C) p (k lg) Q { l with pc := .committed }) :
    Safe (machine xexec Ok A C) p (.op .getLog k) Q l := by
  refine safe_op hnone hA fun s g h hl _ r s' hret => ?_
  cases hret
  by_cases hlh : s.log.lh = []
  · exact ⟨_, h.noCommit hl hpc hstage hlh, hnil _ hlh⟩
  · exact ⟨_, h.beginCommit hl hpc hstage hlh, hsome _ _ _ hlh⟩

/-- `bwrite`, whatever stage it leads to. -/
theorem safe_bwrite (st : Stage) (hy : y ∈ l.holds)
    (hstep : ∀ (s : Kernel M) (g : Pid → Ghost), KInv C s g → g p = l →
      KInv C (s.wrote y) (update g p (l.wrote y st)))
    (hk : Safe (machine xexec Ok A C) p (k ()) Q ⟨l.toHolding.setHold y.i y.data false, l.pc, st⟩) :
    Safe (machine xexec Ok A C) p (.op (.bwrite y.i) k) Q l := by
  refine safe_op hnone hA fun s g h hl _ r s' hret => ?_
  obtain ⟨hcar, -, hdata⟩ := h.cache.holds p y (by rw [holding, hl]; exact hy)
  simp only [kexec, hcar.2, hdata] at hret
  split at hret
  · cases hret
    exact ⟨_, hstep s g h hl, hk⟩
  · cases hret

theorem safe_bunpin {old : List Event} {lh : List Nat} {w : Nat}
    (hstage : l.stage = .installing old lh (w + 1) w) (hy : y ∈ l.holds) (hyb : lh[w]? = some y.b)
    (hk : Safe (machine xexec Ok A C) p (k ()) Q
      { l with stage := .installing old lh (w + 1) (w + 1) }) :
    Safe (machine xexec Ok A C) p (.op (.bunpin y.i) k) Q l := by
  refine safe_op hnone hA fun s g h hl _ r s' hret => ?_
  cases hret
  exact ⟨_, h.unpin hl hstage hnone hy hyb, hk⟩

theorem safe_clearLh {old : List Event} {lh : List Nat}
    (hstage : l.stage = .installing old lh lh.length lh.length)
    (hk : Safe (machine xexec Ok A C) p (k ()) Q
      { l with pc := .committed, stage := .erasing old lh }) :
    Safe (machine xexec Ok A C) p (.op (.setLh []) k) Q l := by
  refine safe_op hnone hA fun s g h hl _ r s' hret => ?_
  cases hret
  exact ⟨_, h.clearLh hl hstage, hk⟩

theorem safe_beginOp (hpc : l.pc = .idle) (hstage : l.stage = .idle)
    (hk : Safe (machine xexec Ok A C) p (k ()) Q { l with pc := .inOp }) :
    Safe (machine xexec Ok A C) p (.op .beginOp k) Q l := by
  refine safe_op hnone hA fun s g h hl _ r s' hret => ?_
  simp only [kexec] at hret
  cases hlg : s.log.beginOp with
  | none => rw [hlg] at hret; cases hret
  | some lg =>
    rw [hlg] at hret
    cases hret
    exact ⟨_, h.enter hl hpc hstage hlg, hk⟩

theorem safe_dropOp {k : Bool → KProg E α} (hpc : l.pc = .inOp)
    (hstage : l.stage = .idle) (hclean : ∀ y ∈ l.holds, y.dirty = false)
    (hk : ∀ c : Bool, Safe (machine xexec Ok A C) p (k c) Q
      { l with pc := if c then .commit else .idle }) :
    Safe (machine xexec Ok A C) p (.op .dropOp k) Q l := by
  refine safe_op hnone hA fun s g h hl _ r s' hret => ?_
  simp only [kexec] at hret
  cases hlg : s.log.endOp with
  | error e => rw [hlg] at hret; cases hret
  | ok x =>
    obtain ⟨lg, c⟩ := x
    rw [hlg] at hret
    cases hret
    exact ⟨_, h.leave hl hpc hstage hclean hlg, hk _⟩

theorem safe_endCommit (hpc : l.pc = .committed)
    (hstage : l.stage = .idle ∨ ∃ old, l.stage = .erased old)
    (hclean : ∀ y ∈ l.holds, y.dirty = false)
    (hk : Safe (machine xexec Ok A C) p (k ()) Q { l with pc := .idle, stage := .idle }) :
    Safe (machine xexec Ok A C) p (.op .endCommit k) Q l := by
  refine safe_op hnone hA fun s g h hl _ r s' hret => ?_
  cases hret
  exact ⟨_, h.endCommit hl hpc hstage hclean, hk⟩

theorem safe_logWrite (hpc : l.pc = .inOp) (hy : y ∈ l.holds) (hlog : ¬ C.InLog y.b)
    (hint : y.b < 2 ^ 32) (hk : Safe (machine xexec Ok A C) p (k ()) Q
      ⟨l.toHolding.setHold y.i y.data false, l.pc, l.stage⟩) :
    Safe (machine xexec Ok A C) p (.op (.logWrite y.i) k) Q l := by
  refine safe_op hnone hA fun s g h hl _ r s' hret => ?_
  obtain ⟨hcar, -, hdata⟩ := h.cache.holds p y (by rw [holding, hl]; exact hy)
  simp only [kexec, hcar.2, hdata] at hret
  cases hcheck : s.log.logWriteCheck with
  | error e => rw [hcheck] at hret; cases hret
  | ok u =>
    rw [hcheck] at hret
    cases hret
    exact ⟨_, h.logWrite hl hpc hnone hy hlog hint hcheck, hk⟩

theorem safe_panic {msg : String} {k : Empty → KProg E α} :
    Safe (machine xexec Ok A C) p (.op (.panic msg) k) Q l := by
  refine safe_op hnone hA fun s g h hl _ r s' hret => ?_
  cases hret

/-- A request of the layer above, whose replies are known to satisfy `R`. -/
theorem safe_ext {o : E.Op} {R : E.Resp o → Prop} {k : E.Resp o → KProg E α}
    (hR : ∀ s r m, Ok p (.ext o) s → xexec p o s.mem = .ret r m → R r)
    (hk : ∀ r, R r → Safe (machine xexec Ok A C) p (k r) Q l) :
    Safe (machine xexec Ok A C) p (.op (.ext o) k) Q l := by
  refine safe_op hnone hA fun s g h hl hok r s' hret => ?_
  simp only [kexec] at hret
  cases hx : xexec p o s.mem with
  | halt e m => rw [hx] at hret; cases hret
  | ret r' m =>
    rw [hx] at hret
    cases hret
    refine ⟨l, ?_, hk _ (hR s _ m hok hx)⟩
    rw [← hl, update_eq_self]
    exact h.ext m

end

end Rules

end Xv6
