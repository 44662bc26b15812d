/-
  Log/Refcounts.lean --- the reference counts of the buffers, from boot on.

  They are exact if, and only if, the log on disk is empty at boot.  Recovery runs
  `install_trans`, which drops the reference `log_write` took when it pinned the
  block; but at boot nobody has pinned anything.  So every block that recovery
  installs is one reference short, and its count wraps.

  For the "only if" it is enough to add up the counts of all buffers modulo `2 ^ 32`:
  `bread` adds one, `brelse` takes one away, and so does every `bunpin`.
-/
import Mathlib.Data.Int.ModEq
import Xv6.Log.BlockStore

set_option autoImplicit false

namespace Xv6

open List Foundation

variable {E : Signature} {M : Type}
  {xexec : Pid → (o : E.Op) → M → Outcome Halt M (E.Resp o)}

/-! ## Holding and waiting -/

/-- The process has a reference to the buffer and not its lock: it is about to take
the lock, in `bget`, or it has just let go of it, in `brelse`. -/
def waits (m : KProg E Unit) (i : BufId) : Nat :=
  match m with
  | .pure _ => 0
  | .op (.acquiresleep j) _ => if j = i then 1 else 0
  | .op (.put j) _ => if j = i then 1 else 0
  | .op _ _ => 0

/-- The number of processes that hold the buffer: none or one. -/
def Bcache.holders (c : Bcache) (i : BufId) : Nat :=
  if (c.buf i).lock = none then 0 else 1

/-- The reference counts are exact. -/
structure RefcountsExact (c : Pool (KSig E) Pid (Kernel M)) : Prop where
  /-- Each is the number of processes that hold the buffer or wait for it, plus one
  if its block is in `log.lh`.  A commit that runs gives up those references one after
  the other, before it sets `log.lh.n`. -/
  exact : ∃ k, (c.st.log.committing = false → k = 0) ∧ ∀ i, (c.st.bc.buf i).refcnt =
    c.st.bc.holders i + (∑ p, waits (c.prog p) i) + c.st.bc.pins (c.st.log.lh.drop k) i
  /-- None wraps. -/
  bounded : ∀ i, (c.st.bc.buf i).refcnt + 1 < 2 ^ 32
  /-- A buffer that `bget` would recycle is not held and nobody waits for it, and its
  block is not logged, or home already. -/
  unused : ∀ i b bc, c.st.bc.bget ROOTDEV b = some (i, bc) → ¬ c.st.bc.Carries i b →
    c.st.bc.holders i = 0 ∧ (∀ p, waits (c.prog p) i = 0) ∧
    (c.st.log.committing = false → c.st.bc.pins c.st.log.lh i = 0)

namespace Holding

/-- The reference without the lock. -/
def waiting (l : Holding) (i : BufId) : Nat :=
  match l.limbo with
  | some x => if x.i = i ∧ x.locked = false then 1 else 0
  | none => 0

theorem countP_of_nodup {hs : List Hold} (hnodup : (hs.map Hold.i).Nodup) (i : BufId)
    [Decidable (∃ h ∈ hs, h.i = i)] :
    hs.countP (fun h => decide (h.i = i)) = if ∃ h ∈ hs, h.i = i then 1 else 0 := by
  have hcount : hs.countP (fun h => decide (h.i = i)) = (hs.map Hold.i).count i := by
    rw [count, countP_map]
    congr 1
  rw [hcount, List.Nodup.count hnodup]
  simp only [mem_map]

/-- A process's references are the one that waits and the one with the lock. -/
theorem refs_eq {l : Holding} {i : BufId} (hnodup : (l.holds.map Hold.i).Nodup)
    (hfresh : ∀ x, l.limbo = some x → x.locked = true → ∀ h ∈ l.holds, h.i ≠ x.i)
    [Decidable (l.Locks i)] : l.refs i = l.waiting i + if l.Locks i then 1 else 0 := by
  classical
  have hcount := countP_of_nodup hnodup i
  unfold refs waiting
  cases hx : l.limbo with
  | none =>
    have hlocks : l.Locks i ↔ ∃ h ∈ l.holds, h.i = i := by simp [Locks, hx]
    simp only [hcount, hlocks]
  | some x =>
    have hlocks : l.Locks i ↔ (x.i = i ∧ x.locked = true) ∨ ∃ h ∈ l.holds, h.i = i := by
      simp [Locks, hx]
    simp only [hcount, hlocks]
    cases hl : x.locked with
    | false => simp
    | true =>
      by_cases hi : x.i = i
      · have hno : ¬ ∃ h ∈ l.holds, h.i = i := by
          rintro ⟨h, hh, rfl⟩
          exact hfresh x hx hl h hh hi.symm
        simp [hi, hno]
      · simp [hi]

end Holding

/-- The next request tells whether a process waits. -/
theorem waits_eq {m : KProg E Unit} {l : Ghost} (i : BufId)
    (hm : (∃ o k, m = .op o k ∧ KOp.Pre o l) ∨ (m = .pure () ∧ l.limbo = none)) :
    waits m i = l.waiting i := by
  unfold Holding.waiting
  rcases hm with ⟨o, k, rfl, hpre⟩ | ⟨rfl, hnone⟩
  · cases o with
    | acquiresleep j => obtain ⟨b, hb⟩ := hpre; simp [hb, waits]
    | put j => obtain ⟨b, hb⟩ := hpre; simp [hb, waits]
    | fill j => obtain ⟨b, hb⟩ := hpre; simp [hb, waits]
    | _ => rw [show l.limbo = none from hpre]; rfl
  · rw [hnone]; rfl

theorem CacheInv.sum_locks {c : Bcache} {view : Nat → Block} {pinned : List Nat}
    {g : Pid → Holding} (h : CacheInv c view pinned g) (i : BufId)
    [∀ p, Decidable ((g p).Locks i)] :
    (∑ p, if (g p).Locks i then 1 else 0) = c.holders i := by
  have hiff : ∀ p, (if (g p).Locks i then 1 else 0) = if (c.buf i).lock = some p then 1 else 0 :=
    fun p => by simp only [h.locked i p]
  rw [Finset.sum_congr rfl fun p _ => hiff p]
  unfold Bcache.holders
  cases (c.buf i).lock with
  | none => simp
  | some q => simp

/-! ## An empty log -/

variable {C : Config} {s : Kernel M}

/-- Outside of a commit nothing is unpinned. -/
theorem KInv.unpinned_eq_zero {g : Pid → Ghost} (h : KInv C s g) (hc : s.log.committing = false) :
    (∑ p, (g p).stage.unpinned) = 0 := by
  refine Finset.sum_eq_zero fun p _ => ?_
  have hidle : (g p).stage = .idle := by
    by_contra hne
    obtain ⟨hh, hproto⟩ := h.proto
    exact hproto.no_committer hc p (h.staged p hne)
  rw [hidle]
  rfl

/-- The invariant of cache and log has exact reference counts. -/
theorem KInv.refcountsExact {c : Pool (KSig E) Pid (Kernel M)} {g : Pid → Ghost} (h : KInv C c.st g)
    (hprog : ∀ p, (∃ o k, c.prog p = .op o k ∧ KOp.Pre o (g p)) ∨
      (c.prog p = .pure () ∧ (g p).limbo = none)) : RefcountsExact c := by
  classical
  have hrefs : ∀ i p, (holding g p).refs i =
      waits (c.prog p) i + if (holding g p).Locks i then 1 else 0 := by
    intro i p
    rw [waits_eq i (hprog p)]
    exact Holding.refs_eq (h.cache.nodup p) (h.cache.fresh p)
  have hexact : ∀ i, (c.st.bc.buf i).refcnt = c.st.bc.holders i +
      (∑ p, waits (c.prog p) i) + c.st.bc.pins (pinned c.st.log.lh g) i := by
    intro i
    have hsum : (∑ p, (holding g p).refs i) = (∑ p, waits (c.prog p) i) + c.st.bc.holders i := by
      rw [← h.cache.sum_locks i, ← Finset.sum_add_distrib]
      exact Finset.sum_congr rfl fun p _ => hrefs i p
    rw [h.cache.refs i, hsum]
    omega
  refine ⟨⟨_, h.unpinned_eq_zero, hexact⟩, h.cache.refcnt_lt, fun i b bc hget hnew => ?_⟩
  rcases Bcache.bget_cases h.cache.wf.all hget with ⟨hdev, hblk, -⟩ | ⟨-, hzero, -⟩
  · exact absurd ⟨hdev, hblk⟩ hnew
  · have hi := hexact i
    have hzero : (c.st.bc.buf i).refcnt = 0 := by simpa using find?_some hzero
    rw [hzero] at hi
    refine ⟨by omega, fun p => ?_, fun hc => ?_⟩
    · have hle : waits (c.prog p) i ≤ ∑ q, waits (c.prog q) i :=
        Finset.single_le_sum (f := fun q => waits (c.prog q) i) (fun _ _ => Nat.zero_le _)
          (Finset.mem_univ p)
      omega
    · have hpin : pinned c.st.log.lh g = c.st.log.lh := by
        rw [pinned, h.unpinned_eq_zero hc, drop_zero]
      rw [hpin] at hi
      omega

/-! ## A log with blocks in it -/

/-- All references together. -/
def Bcache.total (c : Bcache) : Int := ∑ i, ((c.buf i).refcnt : Int)

theorem incr32_modEq (n : Nat) : (incr32 n : Int) ≡ n + 1 [ZMOD 2 ^ 32] := by
  unfold incr32
  split
  · rename_i h
    have hz : (n : Int) + 1 = 2 ^ 32 := by exact_mod_cast h
    rw [hz]
    exact (Int.modEq_zero_iff_dvd.mpr dvd_rfl).symm
  · push_cast
    exact Int.ModEq.rfl

theorem decr32_modEq (n : Nat) : (decr32 n : Int) ≡ n + -1 [ZMOD 2 ^ 32] := by
  unfold decr32
  split
  · rename_i h
    subst h
    exact Int.modEq_iff_dvd.mpr ⟨-1, by norm_num⟩
  · rename_i h
    rw [Nat.cast_sub (by omega)]
    exact Int.ModEq.rfl

theorem Bcache.total_set (c : Bcache) (i : BufId) (b : Buf) :
    (c.set i b).total = c.total + (b.refcnt - (c.buf i).refcnt) := by
  have hrest : ∀ j ∈ Finset.univ.erase i, (((c.set i b).buf j).refcnt : Int) =
      (c.buf j).refcnt := by
    intro j hj
    rw [Bcache.set_buf_ne _ _ (Finset.ne_of_mem_erase hj)]
  unfold Bcache.total
  rw [← Finset.add_sum_erase _ _ (Finset.mem_univ i), Finset.sum_congr rfl hrest,
    ← Finset.add_sum_erase _ (fun j => ((c.buf j).refcnt : Int)) (Finset.mem_univ i),
    Bcache.set_buf_self]
  omega

/-- Another count for one buffer. -/
theorem Bcache.total_recount {c : Bcache} {i : BufId} {b : Buf} {δ : Int}
    (h : b.refcnt ≡ (c.buf i).refcnt + δ [ZMOD 2 ^ 32]) :
    (c.set i b).total ≡ c.total + δ [ZMOD 2 ^ 32] := by
  rw [Bcache.total_set]
  refine Int.ModEq.add_left _ ?_
  have hsub := h.sub_right ((c.buf i).refcnt : Int)
  rwa [add_sub_cancel_left] at hsub

theorem Bcache.total_bget {c c' : Bcache} {dev b : Nat} {i : BufId}
    (h : c.bget dev b = some (i, c')) : c'.total ≡ c.total + 1 [ZMOD 2 ^ 32] := by
  unfold Bcache.bget at h
  split at h
  · cases h
    exact Bcache.total_recount (incr32_modEq _)
  · split at h
    · rename_i hj
      cases h
      have hzero : (c.buf i).refcnt = 0 := by simpa using find?_some hj
      refine Bcache.total_recount ?_
      rw [hzero]
      exact Int.ModEq.rfl
    · cases h

theorem Bcache.total_bunpin (c : Bcache) (i : BufId) :
    (c.bunpin i).total ≡ c.total + -1 [ZMOD 2 ^ 32] :=
  Bcache.total_recount (decr32_modEq _)

theorem Bcache.total_put (c : Bcache) (i : BufId) :
    (c.put i).total ≡ c.total + -1 [ZMOD 2 ^ 32] := by
  have hput : (c.put i).total = (c.bunpin i).total := by
    unfold Bcache.put
    simp only
    split <;> rfl
  rw [hput]
  exact Bcache.total_bunpin c i

/-- What a request does to the total; `log_write`, which may pin, is left out. -/
def KOp.delta : KOp E → Int
  | .bget _ _ => 1
  | .put _ | .bunpin _ => -1
  | _ => 0

theorem kexec_total {p : Pid} {o : KOp E} {s s' : Kernel M} {r : (KSig E).Resp o}
    (ho : ∀ i, o ≠ .logWrite i) (h : kexec xexec p o s = .ret r s') :
    s'.bc.total ≡ s.bc.total + o.delta [ZMOD 2 ^ 32] := by
  have hkeep : s.bc.total ≡ s.bc.total + 0 [ZMOD 2 ^ 32] := by rw [add_zero]
  have hset : ∀ (i : BufId) (b : Buf), b.refcnt = (s.bc.buf i).refcnt →
      (s.bc.set i b).total ≡ s.bc.total + 0 [ZMOD 2 ^ 32] := by
    intro i b hb
    rw [Bcache.total_set, hb, sub_self]
  cases o with
  | bget dev b =>
    simp only [kexec] at h
    split at h
    · rename_i hb
      cases h
      exact Bcache.total_bget hb
    · cases h
  | acquiresleep i =>
    simp only [kexec] at h
    split at h
    · cases h; exact hset i _ rfl
    · cases h
  | fill i => cases h; exact hset i _ rfl
  | getData i => cases h; exact hkeep
  | setData i d => cases h; exact hset i _ rfl
  | bwrite i =>
    simp only [kexec] at h
    split at h
    · cases h; exact hkeep
    · cases h
  | releasesleep i =>
    simp only [kexec] at h
    split at h
    · cases h; exact hset i _ rfl
    · cases h
  | put i => cases h; exact Bcache.total_put _ _
  | bunpin i => cases h; exact Bcache.total_bunpin _ _
  | getLog => cases h; exact hkeep
  | setLh lh => cases h; exact hkeep
  | logWrite i => exact absurd rfl (ho i)
  | beginOp =>
    simp only [kexec] at h
    split at h
    · cases h; exact hkeep
    · cases h
  | dropOp =>
    simp only [kexec] at h
    split at h
    · cases h
    · cases h; exact hkeep
  | endCommit => cases h; exact hkeep
  | panic msg => cases h
  | ext o =>
    simp only [kexec] at h
    split at h
    · cases h; exact hkeep
    · cases h

section Counts

variable {p : Pid} {α β : Type} {γ δ ε : Int}

/-- A run of the routine changes the total by `δ`. -/
def Counts (xexec : Pid → (o : E.Op) → M → Outcome Halt M (E.Resp o)) (p : Pid)
    (m : KProg E α) (δ : Int) : Prop :=
  ∀ s a s', m.run (kexec xexec p) s = .ret a s' →
    s'.bc.total ≡ s.bc.total + δ [ZMOD 2 ^ 32]

theorem Counts.pure (a : α) : Counts xexec p (.pure a) 0 := by
  intro s b s' h
  cases h
  rw [add_zero]

/-- A request. -/
theorem Counts.op {o : KOp E} {k : (KSig E).Resp o → KProg E α} (ho : ∀ i, o ≠ .logWrite i)
    (hδ : o.delta + ε = δ) (hk : ∀ r, Counts xexec p (k r) ε) : Counts xexec p (.op o k) δ := by
  intro s a s' h
  rw [Prog.run] at h
  cases hx : kexec xexec p o s with
  | halt e t => rw [hx] at h; cases h
  | ret r t =>
    rw [hx] at h
    rw [← hδ, ← add_assoc]
    exact (hk r t a s' h).trans ((kexec_total ho hx).add_right ε)

/-- A request that leaves the counts alone. -/
theorem Counts.skip {o : KOp E} {k : (KSig E).Resp o → KProg E α} (ho : ∀ i, o ≠ .logWrite i)
    (h0 : o.delta = 0) (hk : ∀ r, Counts xexec p (k r) δ) : Counts xexec p (.op o k) δ :=
  Counts.op ho (by rw [h0, zero_add]) hk

theorem Counts.bind {m : KProg E α} {f : α → KProg E β} (hδ : γ + ε = δ)
    (hm : Counts xexec p m γ) (hf : ∀ a, Counts xexec p (f a) ε) :
    Counts xexec p (m >>= f) δ := by
  intro s b t h
  obtain ⟨a, s', h1, h2⟩ := Prog.run_bind_ret h
  rw [← hδ, ← add_assoc]
  exact (hf a s' b t h2).trans ((hm s a s' h1).add_right ε)

theorem Counts.forFrom {f : Nat → KProg E Unit} (hf : ∀ j, Counts xexec p (f j) δ) (n : Nat) :
    ∀ i, Counts xexec p (Prog.forFrom f i n) (n * δ) := by
  induction n with
  | zero =>
    intro i
    rw [Nat.cast_zero, zero_mul]
    exact Counts.pure ()
  | succ n ih =>
    intro i
    exact Counts.bind (by push_cast; ring) (hf i) fun _ => ih (i + 1)

theorem counts_bread (dev b : Nat) : Counts xexec p (bread dev b) 1 :=
  Counts.op (o := .bget dev b) (by simp) (add_zero 1) fun i =>
    Counts.skip (o := .acquiresleep i) (by simp) rfl fun _ =>
      Counts.skip (o := .fill i) (by simp) rfl fun _ => Counts.pure i

theorem counts_brelse (i : BufId) : Counts xexec p (brelse i) (-1) :=
  Counts.skip (o := .releasesleep i) (by simp) rfl fun _ =>
    Counts.op (o := .put i) (by simp) (add_zero (-1)) Counts.pure

/-- Every block that is installed takes a reference away. -/
theorem counts_installBlock (t : Nat) : Counts xexec p (installBlock t) (-1) := by
  refine Counts.skip (o := .getLog) (by simp) rfl fun _ => ?_
  refine Counts.bind (ε := -2) (by norm_num) (counts_bread _ _) fun lbuf => ?_
  refine Counts.skip (o := .getLog) (by simp) rfl fun _ => ?_
  refine Counts.bind (ε := -3) (by norm_num) (counts_bread _ _) fun dbuf => ?_
  refine Counts.skip (o := .getData lbuf) (by simp) rfl fun d => ?_
  refine Counts.skip (o := .setData dbuf d) (by simp) rfl fun _ => ?_
  refine Counts.skip (o := .bwrite dbuf) (by simp) rfl fun _ => ?_
  refine Counts.op (o := .bunpin dbuf) (ε := -2) (by simp) (by norm_num [KOp.delta]) fun _ => ?_
  exact Counts.bind (by norm_num) (counts_brelse lbuf) fun _ => counts_brelse dbuf

theorem counts_readHead : Counts xexec p readHead 0 := by
  refine Counts.skip (o := .getLog) (by simp) rfl fun _ => ?_
  refine Counts.bind (ε := -1) (by norm_num) (counts_bread _ _) fun buf => ?_
  refine Counts.skip (o := .getData buf) (by simp) rfl fun d => ?_
  exact Counts.skip (o := .setLh _) (by simp) rfl fun _ => counts_brelse buf

theorem counts_writeHead : Counts xexec p writeHead 0 := by
  refine Counts.skip (o := .getLog) (by simp) rfl fun _ => ?_
  refine Counts.bind (ε := -1) (by norm_num) (counts_bread _ _) fun buf => ?_
  refine Counts.skip (o := .getLog) (by simp) rfl fun _ => ?_
  refine Counts.skip (o := .getData buf) (by simp) rfl fun d => ?_
  refine Counts.skip (o := .setData buf _) (by simp) rfl fun _ => ?_
  exact Counts.skip (o := .bwrite buf) (by simp) rfl fun _ => counts_brelse buf

end Counts

/-- The header of the log is one that a commit wrote. -/
structure HeaderOk (start size : Nat) (d : Disk) : Prop where
  count : 0 ≤ headerN (d start)
  length : decodeHeader (d start) ≠ [] → (decodeHeader (d start)).length < size
  max : (decodeHeader (d start)).length ≤ LOGSIZE
  nodup : (decodeHeader (d start)).Nodup
  outside : ∀ b ∈ decodeHeader (d start), ¬ (start ≤ b ∧ b < start + size)
  uint : ∀ b ∈ decodeHeader (d start), b < 2 ^ 32

theorem HeaderOk.recoverable {d : Disk} (h : HeaderOk C.start C.size d) :
    ∃ X, C.Recoverable X d := by
  set lh := decodeHeader (d C.start) with hlh
  refine ⟨fun b => if b ∈ lh then d (C.start + lh.idxOf b + 1) else d b,
    ⟨h.outside, h.uint, h.length, h.max⟩, ?_, fun b _ hb => by rw [if_neg hb]⟩
  intro j b hj
  rw [← hlh] at hj
  obtain ⟨hlt, rfl⟩ := List.getElem?_eq_some_iff.mp hj
  rw [if_pos (getElem_mem hlt), h.nodup.idxOf_getElem j hlt]

/-- After recovery as many references are missing as blocks were installed. -/
theorem recovered_total {X d : Disk} {q : Pid} {m : M} (hrec : C.Recoverable X d)
    (hrun : recoverFromLog.run (kexec xexec q) (boot C.start C.size d m) = .ret () s) :
    s.bc.total ≡ -((decodeHeader (d C.start)).length : Int) [ZMOD 2 ^ 32] := by
  obtain ⟨_, s₁, hread, hrun⟩ := Prog.run_bind_ret hrun
  obtain ⟨_, s₂, hinstall, herase⟩ := Prog.run_bind_ret hrun
  have hlog : s₁.log = C.bootLog (decodeHeader (d C.start)) := by
    have hwp : recwp xexec q C X readHead
        (fun _ t => Recovering C X q m (decodeHeader (d C.start)) 0 t)
        (boot C.start C.size d m) := recwp_readHead (Alone.init q d) rfl hrec
    exact (hwp.run hread).log
  have h₀ : (boot C.start C.size d m).bc.total = 0 := by
    simp [Bcache.total, boot, Bcache.binit]
  have h₁ := counts_readHead _ _ _ hread
  have h₂ := Counts.forFrom counts_installBlock s₁.log.lh.length 0 _ _ _ hinstall
  have h₃ := counts_writeHead _ _ _ herase
  rw [hlog] at h₂
  rw [h₀, add_zero] at h₁
  rw [mul_neg_one] at h₂
  rw [add_zero] at h₃
  have h₁₂ := h₁.add_right (-((decodeHeader (d C.start)).length : Int))
  rw [zero_add] at h₁₂
  exact h₃.trans (h₂.trans h₁₂)

/-- A client that has not started waits for nothing. -/
theorem waits_compile (m : FsProg E Unit) (env : Env) (i : BufId) :
    waits (compile m env) i = 0 := by
  cases m with
  | pure a => rfl
  | op o k =>
    cases o with
    | modify b d | logWrite b | brelse b =>
      simp only [compile, handle]
      cases env.lookup b <;> rfl
    | _ => rfl

/-- Exact counts before anybody has started are all zero. -/
theorem RefcountsExact.total_eq_zero {progs : Pid → FsProg E Unit}
    (h : RefcountsExact (clients s progs)) (hlh : s.log.lh = [])
    (hfree : ∀ i, (s.bc.buf i).lock = none) : s.bc.total = 0 := by
  obtain ⟨k, -, hexact⟩ := h.exact
  refine Finset.sum_eq_zero fun i _ => ?_
  have hi : (s.bc.buf i).refcnt = s.bc.holders i +
      (∑ p, waits (compile (progs p) []) i) + s.bc.pins (s.log.lh.drop k) i := hexact i
  have hpins : s.bc.pins (s.log.lh.drop k) i = 0 := by simp [Bcache.pins, hlh]
  have hholders : s.bc.holders i = 0 := if_pos (hfree i)
  simp only [hpins, hholders, waits_compile, Finset.sum_const_zero] at hi
  exact_mod_cast hi

/-- The reference counts are exact from `initlog` on, in every state that clients can
reach, if and only if the log on disk was empty at boot. -/
theorem refcounts_exact_iff {start size : Nat} {d : Disk} {m : M} {s : Kernel M}
    {progs : Pid → FsProg E Unit} (hpos : 0 < size) (hd : HeaderOk start size d)
    (hmount : Mounted xexec start size d m s)
    (hobey : ∀ p, Obeys start size (fun _ _ => True) (progs p)) :
    (∀ c, PoolRun (kexec xexec) (fun _ _ _ => True) (clients s progs) c → RefcountsExact c) ↔
      headerN (d start) = 0 := by
  constructor
  · intro hall
    obtain ⟨q, s', hrun, rfl⟩ := hmount.run
    set C : Config := mountConfig start size hpos d s'
    obtain ⟨X, hrec⟩ := HeaderOk.recoverable (C := C) hd
    have hdone : Recovered C X q m _ s' := (recwp_recoverFromLog hrec).run hrun
    have hzero : s'.bc.total = 0 := by
      have hexact := hall _ .refl
      refine hexact.total_eq_zero ?_ fun i => ?_
      · simp only [hdone.log]; rfl
      · simpa using hdone.alone.locked i
    have htotal := recovered_total hrec hrun
    rw [hzero] at htotal
    -- fewer than `2 ^ 32` blocks were installed, and their number is a multiple of it
    have hdvd := Int.modEq_zero_iff_dvd.mp htotal.symm
    have hmax := hd.max
    have hcount := hd.count
    have hlen : (decodeHeader (d start)).length = (headerN (d start)).toNat := by
      simp [decodeHeader]
    have hsize : LOGSIZE < 2 ^ 32 := by decide
    have hC : C.start = start := rfl
    rw [hC] at hdvd
    omega
  · intro hn c hrun
    obtain ⟨g, hg, hprog⟩ := clients_inv (hmount.kinv hpos hn)
      (R := fun _ _ => True) (fun _ _ _ _ _ _ _ => trivial) hobey hrun
    exact hg.refcountsExact hprog

theorem refcounts_exact_iff_zeros :
    ∃ s, Mounted noExt 2 LOGSIZE (fun _ _ => 0) () s ∧
      ∀ c, PoolRun (kexec noExt) (fun _ _ _ => True) (clients s (only writer)) c →
        RefcountsExact c := by
  have hcheck : mountCheck noExt 2 LOGSIZE (fun _ _ => 0) () writer (fun _ _ => true) = true := by
    decide +kernel
  obtain ⟨s, c, hmount, -⟩ := of_mountCheck hcheck
  have hd : HeaderOk 2 LOGSIZE (fun _ _ => 0) := by
    refine ⟨?_, ?_, ?_, ?_, ?_, ?_⟩ <;> decide +kernel
  exact ⟨s, hmount, (refcounts_exact_iff (by decide) hd hmount (only_obeys writer_obeys)).mpr
    (by decide +kernel)⟩

/-- A disk that was left with block 40 committed and not installed. -/
def crashed : Disk := fun b =>
  if b = 2 then encodeHeader (fun _ => 0) [40] else if b = 3 then fun _ => 7 else fun _ => 0

/-- Change block 40 and log_write it; `end_op` is still to come. -/
def logger : FsProg NoExt Unit :=
  .op .beginOp fun _ =>
  .op (.bread 40) fun _ =>
  .op (.modify 40 fun _ => 8) fun _ =>
  .op (.logWrite 40) fun _ =>
  .op (.brelse 40) .pure

/-- Recovery of that disk leaves the count of block 40 at `2 ^ 32 - 1`.  When the
block is then read, logged and released, the buffer of a logged block is unused, and
`bget` may recycle it. -/
theorem recovery_unpins :
    ∃ s c i, HeaderOk 2 LOGSIZE crashed ∧ Mounted noExt 2 LOGSIZE crashed () s ∧
      PoolRun (kexec noExt) (fun _ _ _ => True) (clients s (only logger)) c ∧
      (s.bc.buf i).refcnt = 2 ^ 32 - 1 ∧ (s.bc.buf i).lock = none ∧
      c.st.log.lh = [40] ∧ c.st.bc.Carries i 40 ∧ (c.st.bc.buf i).refcnt = 0 ∧
      ¬ RefcountsExact c := by
  have hcheck : mountCheck noExt 2 LOGSIZE crashed () logger (fun s t => decide <|
      ∃ i, ((s.bc.buf i).refcnt = 2 ^ 32 - 1 ∧ (s.bc.buf i).lock = none) ∧
        (t.log.lh = [40] ∧ t.log.committing = false) ∧
        t.bc.Carries i 40 ∧ (t.bc.buf i).refcnt = 0) = true := by decide +kernel
  obtain ⟨s, c, hmount, hrun, -, hP⟩ := of_mountCheck hcheck
  obtain ⟨i, ⟨hwrap, hfree⟩, ⟨hlh, hidle⟩, hcar, hzero⟩ := of_decide_eq_true hP
  refine ⟨s, c, i, ?_, hmount, hrun, hwrap, hfree, hlh, hcar, hzero, fun hexact => ?_⟩
  · refine ⟨?_, ?_, ?_, ?_, ?_, ?_⟩ <;> decide +kernel
  · obtain ⟨k, hk, hi⟩ := hexact.exact
    have hpin : c.st.bc.pins (c.st.log.lh.drop k) i = 1 := by
      rw [hk hidle, hlh]
      exact if_pos ⟨hcar.1, by rw [hcar.2]; exact mem_cons_self⟩
    have := hi i
    omega

end Xv6
