/-
  Log/Recovery.lean --- `recover_from_log`, run by one process on a freshly booted
  machine, and cut off anywhere.

  Recovery cannot rely on the cache invariant: it unpins blocks nobody pinned, so
  from its first block on the reference counts are wrong, and `bget` could recycle a
  buffer the process holds.  But then the process waits for its own lock for ever,
  and for the disk that is a cut like any other.  So what is kept here (`Alone`) asks
  for exact reference counts only as long as nothing was unpinned.
-/
import Xv6.Log.Steps

set_option autoImplicit false

namespace Xv6

open Function List Foundation

/-- The cache of a process that is alone, and holds `H` of it. -/
structure Alone (p : Pid) (c : Bcache) (disk : Disk) (H : List Hold) (exact : Prop) :
    Prop where
  wf : c.Wf
  locked : ∀ i, (c.buf i).lock = if i ∈ H.map Hold.i then some p else none
  nodup : (H.map Hold.i).Nodup
  holds : ∀ h ∈ H, c.Carries h.i h.b ∧ (c.buf h.i).valid = true ∧ (c.buf h.i).data = h.data
  coherent : ∀ i, (c.buf i).dev = ROOTDEV → (c.buf i).valid = true →
    (∀ h ∈ H, h.i = i → h.dirty = false) → (c.buf i).data = disk (c.buf i).blockno
  refs : exact → ∀ i, (c.buf i).refcnt = if i ∈ H.map Hold.i then 1 else 0

variable {y : Hold}

namespace Alone

variable {p : Pid} {c : Bcache} {disk : Disk} {H : List Hold} {exact : Prop}

theorem init (p : Pid) (disk : Disk) : Alone p Bcache.binit disk [] True where
  wf := Bcache.wf_binit
  locked i := rfl
  nodup := nodup_nil
  holds h hh := by cases hh
  coherent i h := by cases h
  refs _ i := rfl

section

variable (h : Alone p c disk H exact)

include h

/-- `bread`, as one step: the buffer was not held, and it has what is on disk. -/
theorem bread {c' : Bcache} {i : BufId} {b : Nat}
    (hb : c.bget ROOTDEV b = some (i, c')) (hfree : (c'.buf i).lock = none) :
    (∀ y ∈ H, y.i ≠ i ∧ y.b ≠ b) ∧ (c'.buf i).blockno = b ∧
    (if (c'.buf i).valid then (c'.buf i).data else disk b) = disk b ∧
    ∀ x : Buf, x = { c'.buf i with lock := some p, valid := true, data := disk b } →
      Alone p (c'.set i x) disk (⟨i, b, disk b, false⟩ :: H) exact := by
  have hwf' := Bcache.wf_bget h.wf hb
  -- in both cases the buffers differ in `i` only, and the lock of `i` is as before
  obtain ⟨hlock, hcar, hother, hvalid, hrefs⟩ : (c'.buf i).lock = (c.buf i).lock ∧ c'.Carries i b ∧
      (∀ j, j ≠ i → c'.buf j = c.buf j) ∧
      ((c'.buf i).valid = true → c.Carries i b ∧ (c.buf i).valid = true ∧
        (c'.buf i).data = (c.buf i).data) ∧
      (exact → (c.buf i).refcnt = 0 → (c'.buf i).refcnt = 1) := by
    rcases Bcache.bget_cases h.wf.all hb with ⟨hdev, hblk, rfl⟩ | ⟨-, -, rfl⟩
    · refine ⟨by simp, ⟨by simpa using hdev, by simpa using hblk⟩,
        fun j hj => Bcache.set_buf_ne _ _ hj, ?_, ?_⟩
      · intro hv
        exact ⟨⟨hdev, hblk⟩, by simpa using hv, by simp⟩
      · intro _ h0
        simp [h0, incr32]
    · refine ⟨by simp, ⟨by simp, by simp⟩, fun j hj => Bcache.set_buf_ne _ _ hj, ?_, ?_⟩
      · intro hv
        simp at hv
      · intro _ _
        simp
  have hfresh : ∀ y ∈ H, y.i ≠ i := by
    rintro y hy rfl
    have := h.locked y.i
    rw [if_pos (mem_map.mpr ⟨y, hy, rfl⟩), ← hlock, hfree] at this
    cases this
  have hnotin : i ∉ H.map Hold.i := by
    rw [mem_map]
    rintro ⟨y, hy, hyi⟩
    exact hfresh y hy hyi
  have hcar' : ∀ y ∈ H, c'.Carries y.i y.b := by
    intro y hy
    unfold Bcache.Carries
    rw [hother _ (hfresh y hy)]
    exact (h.holds y hy).1
  refine ⟨?_, hcar.2, ?_, ?_⟩
  · intro y hy
    refine ⟨hfresh y hy, ?_⟩
    rintro rfl
    exact hfresh y hy (hwf'.uniq _ _ (hcar' y hy).1 hcar.1 ((hcar' y hy).2.trans hcar.2.symm))
  · split
    · rename_i hv
      obtain ⟨hc, hv', hd⟩ := hvalid hv
      rw [hd, h.coherent i hc.1 hv', hc.2]
      intro y hy hyi
      exact absurd hyi (hfresh y hy)
    · rfl
  · rintro x rfl
    exact {
      wf := hwf'.set_same rfl rfl
      locked := fun j => by
        by_cases hj : j = i
        · subst hj; simp
        · rw [Bcache.set_buf_ne _ _ hj, hother j hj, h.locked j]
          simp [hj]
      nodup := nodup_cons.mpr ⟨hnotin, h.nodup⟩
      holds := fun y hy => by
        rcases mem_cons.mp hy with rfl | hy
        · exact ⟨⟨by simpa using hcar.1, by simpa using hcar.2⟩, by simp, by simp⟩
        · unfold Bcache.Carries
          rw [Bcache.set_buf_ne _ _ (hfresh y hy), hother _ (hfresh y hy)]
          exact h.holds y hy
      coherent := fun j hdev hval hclean => by
        by_cases hj : j = i
        · subst hj
          simp [hcar.2]
        · rw [Bcache.set_buf_ne _ _ hj, hother j hj] at hdev hval ⊢
          exact h.coherent j hdev hval fun y hy => hclean y (mem_cons_of_mem _ hy)
      refs := fun hex j => by
        by_cases hj : j = i
        · subst hj
          have h0 := h.refs hex j
          rw [if_neg hnotin] at h0
          simp [hrefs hex h0]
        · rw [Bcache.set_buf_ne _ _ hj, hother j hj, h.refs hex j]
          simp [hj] }

/-- The data of a buffer that is held changes; `dirty` false says that the disk
changes with it. -/
theorem write (hy : y ∈ H) {d : Block} {dirty : Bool} {disk' : Disk}
    (hdisk : ∀ b, b ≠ y.b → disk' b = disk b) (hd : dirty = false → disk' y.b = d) :
    Alone p (c.set y.i { c.buf y.i with data := d }) disk'
      (Holding.setHold ⟨none, H⟩ y.i d dirty).holds exact := by
  obtain ⟨hcar, hval, -⟩ := h.holds y hy
  have honly : ∀ x ∈ H, x.i = y.i → x = y := fun x hx hi =>
    inj_on_of_nodup_map h.nodup hx hy hi
  have hmap := Holding.setHold_map_i ⟨none, H⟩ y.i d dirty
  simp only at hmap
  exact {
    wf := h.wf.set_same rfl rfl
    locked := fun j => by
      rw [hmap]
      by_cases hj : j = y.i
      · subst hj; simpa using h.locked y.i
      · rw [Bcache.set_buf_ne _ _ hj]; exact h.locked j
    nodup := by rw [hmap]; exact h.nodup
    holds := fun x hx => by
      rcases Holding.mem_setHold.mp hx with ⟨hx', hne⟩ | ⟨hxd, -, hi, w, hw, hwi, hwb⟩
      · unfold Bcache.Carries
        rw [Bcache.set_buf_ne _ _ hne]
        exact h.holds x hx'
      · rw [honly w hw hwi] at hwb
        unfold Bcache.Carries
        rw [hi, Bcache.set_buf_self, ← hwb]
        exact ⟨hcar, hval, hxd.symm⟩
    coherent := fun j hdev hjval hclean => by
      by_cases hj : j = y.i
      · subst hj
        rw [Bcache.set_buf_self]
        simp only [hcar.2]
        exact (hd (hclean ⟨y.i, y.b, d, dirty⟩
          (Holding.mem_setHold.mpr (Or.inr ⟨rfl, rfl, rfl, y, hy, rfl, rfl⟩)) rfl)).symm
      · rw [Bcache.set_buf_ne _ _ hj] at hdev hjval ⊢
        have hne : (c.buf j).blockno ≠ y.b := fun hb =>
          hj (h.wf.uniq j y.i hdev hcar.1 (hb.trans hcar.2.symm))
        rw [hdisk _ hne]
        refine h.coherent j hdev hjval fun x hx hxj => hclean x ?_ hxj
        exact Holding.mem_setHold.mpr (Or.inl ⟨hx, hxj ▸ hj⟩)
    refs := fun hex j => by
      rw [hmap]
      by_cases hj : j = y.i
      · subst hj; simpa using h.refs hex y.i
      · rw [Bcache.set_buf_ne _ _ hj]; exact h.refs hex j }

/-- `bwrite`: the disk gets the data. -/
theorem sync (hy : y ∈ H) : Alone p c (update disk y.b y.data)
      (Holding.setHold ⟨none, H⟩ y.i y.data false).holds exact := by
  have hw : Alone p (c.set y.i { c.buf y.i with data := y.data })
      (update disk y.b y.data) (Holding.setHold ⟨none, H⟩ y.i y.data false).holds
      exact :=
    h.write hy (fun b hb => update_of_ne hb _ _) fun _ => update_self ..
  have hdata := (h.holds y hy).2.2
  rw [← hdata] at hw ⊢
  rwa [Bcache.set_eq_self] at hw

/-- `bunpin` spoils the reference counts. -/
theorem unpin (i : BufId) : Alone p (c.bunpin i) disk H False := by
  have hbuf : ∀ j, ∃ n, (c.bunpin i).buf j = { c.buf j with refcnt := n } := by
    intro j
    by_cases hj : j = i
    · subst hj; exact ⟨_, by simp [Bcache.bunpin]; rfl⟩
    · exact ⟨(c.buf j).refcnt, by rw [Bcache.bunpin, Bcache.set_buf_ne _ _ hj]⟩
  exact {
    wf := h.wf.set_same rfl rfl
    locked := fun j => by
      obtain ⟨n, hn⟩ := hbuf j
      rw [hn]
      exact h.locked j
    nodup := h.nodup
    holds := fun y hy => by
      obtain ⟨n, hn⟩ := hbuf y.i
      unfold Bcache.Carries
      rw [hn]
      exact h.holds y hy
    coherent := fun j hdev hval hclean => by
      obtain ⟨n, hn⟩ := hbuf j
      rw [hn] at hdev hval ⊢
      exact h.coherent j hdev hval hclean
    refs := fun hf => hf.elim }

/-- `brelse`, as one step. -/
theorem release (hy : y ∈ H) (hclean : y.dirty = false) :
    Alone p ((c.set y.i { c.buf y.i with lock := none }).put y.i) disk
      (H.filter fun x => decide (x.i ≠ y.i)) exact := by
  obtain ⟨hcar, hval, hdata⟩ := h.holds y hy
  have hmem : ∀ j, j ∈ (H.filter fun x => decide (x.i ≠ y.i)).map Hold.i ↔
      j ∈ H.map Hold.i ∧ j ≠ y.i := by
    intro j
    simp only [mem_map, mem_filter]
    constructor
    · rintro ⟨x, ⟨hx, hne⟩, rfl⟩
      exact ⟨⟨x, hx, rfl⟩, by simpa using hne⟩
    · rintro ⟨⟨x, hx, rfl⟩, hne⟩
      exact ⟨x, ⟨hx, by simpa using hne⟩, rfl⟩
  have hother : ∀ j, j ≠ y.i →
      ((c.set y.i { c.buf y.i with lock := none }).put y.i).buf j = c.buf j := by
    intro j hj
    rw [Bcache.put_buf, if_neg hj, Bcache.set_buf_ne _ _ hj]
  have hself : ((c.set y.i { c.buf y.i with lock := none }).put y.i).buf y.i =
      { c.buf y.i with lock := none, refcnt := decr32 (c.buf y.i).refcnt } := by
    rw [Bcache.put_buf, if_pos rfl, Bcache.set_buf_self]
  have hset : (c.set y.i { c.buf y.i with lock := none }).Wf := h.wf.set_same rfl rfl
  exact {
    wf := Bcache.wf_put hset y.i
    locked := fun j => by
      by_cases hj : j = y.i
      · subst hj
        rw [hself, if_neg fun hm => ((hmem _).mp hm).2 rfl]
      · rw [hother j hj, h.locked j]
        simp only [hmem, hj, ne_eq, not_false_eq_true, and_true]
    nodup := h.nodup.sublist (filter_sublist.map _)
    holds := fun x hx => by
      obtain ⟨hx', hne⟩ := mem_filter.mp hx
      have hne : x.i ≠ y.i := by simpa using hne
      unfold Bcache.Carries
      rw [hother _ hne]
      exact h.holds x hx'
    coherent := fun j hdev hjval hcl => by
      by_cases hj : j = y.i
      · subst hj
        rw [hself] at hdev hjval ⊢
        refine h.coherent y.i hdev hval fun x hx hxi => ?_
        rw [inj_on_of_nodup_map h.nodup hx hy hxi]
        exact hclean
      · rw [hother j hj] at hdev hjval ⊢
        refine h.coherent j hdev hjval fun x hx hxj => hcl x ?_ hxj
        exact mem_filter.mpr ⟨hx, by simpa using hxj ▸ hj⟩
    refs := fun hex j => by
      by_cases hj : j = y.i
      · subst hj
        have h1 := h.refs hex y.i
        rw [if_pos (mem_map.mpr ⟨y, hy, rfl⟩)] at h1
        rw [hself, if_neg fun hm => ((hmem _).mp hm).2 rfl]
        simp [h1, decr32]
      · rw [hother j hj, h.refs hex j]
        simp only [hmem, hj, ne_eq, not_false_eq_true, and_true] }

end

theorem weaken {exact' : Prop} (h : Alone p c disk H exact) (hex : exact' → exact) :
    Alone p c disk H exact' :=
  { h with refs := fun h' => h.refs (hex h') }

end Alone

/-! ## `bread` and `brelse` of a process alone -/

section Rules

variable {E : Signature} {M : Type} {α : Type}
  {xexec : Pid → (o : E.Op) → M → Outcome Halt M (E.Resp o)} {p : Pid}
  {Cr : Disk → Prop} {Q : α → Kernel M → Prop} {s : Kernel M} {H : List Hold} {exact : Prop}

/-- What `bread` and `brelse` leave alone. -/
structure SameButCache (s s' : Kernel M) : Prop where
  disk : s'.disk = s.disk
  log : s'.log = s.log
  mem : s'.mem = s.mem

theorem cwp_bread {b : Nat} {k : BufId → KProg E α} (hC : Cr s.disk)
    (h : Alone p s.bc s.disk H exact)
    (hk : ∀ i s', SameButCache s s' → (∀ y ∈ H, y.i ≠ i ∧ y.b ≠ b) →
      Alone p s'.bc s'.disk (⟨i, b, s.disk b, false⟩ :: H) exact →
      Prog.cwp (kexec xexec p) (fun s => Cr s.disk) (k i) Q s') :
    Prog.cwp (kexec xexec p) (fun s => Cr s.disk) (bread ROOTDEV b >>= k) Q s := by
  refine ⟨hC, fun i s₁ h₁ => ?_⟩
  simp only [kexec] at h₁
  cases hb : s.bc.bget ROOTDEV b with
  | none => rw [hb] at h₁; cases h₁
  | some r =>
    obtain ⟨j, c⟩ := r
    rw [hb] at h₁
    cases h₁
    refine ⟨hC, fun _ s₂ h₂ => ?_⟩
    simp only [kexec] at h₂
    split at h₂
    · rename_i hfree
      cases h₂
      obtain ⟨hfresh, hblk, hdata, hnew⟩ := h.bread hb hfree
      refine ⟨hC, fun d s₃ h₃ => ?_⟩
      simp only [kexec, Bcache.set_buf_self, hblk, hdata] at h₃
      cases h₃
      refine hk _ _ ⟨rfl, rfl, rfl⟩ hfresh ?_
      have hset : ∀ x y : Buf, (c.set i x).set i y = c.set i y := by
        intro x y
        unfold Bcache.set
        simp
      simp only [hset]
      refine hnew _ ?_
      rw [← hblk]
    · cases h₂

theorem cwp_brelse {k : Unit → KProg E α} (hC : Cr s.disk) (h : Alone p s.bc s.disk H exact)
    (hy : y ∈ H) (hclean : y.dirty = false) (hk : ∀ s', SameButCache s s' →
      Alone p s'.bc s'.disk (H.filter fun x => decide (x.i ≠ y.i)) exact →
      Prog.cwp (kexec xexec p) (fun s => Cr s.disk) (k ()) Q s') :
    Prog.cwp (kexec xexec p) (fun s => Cr s.disk) (brelse y.i >>= k) Q s := by
  refine ⟨hC, fun _ s₁ h₁ => ?_⟩
  simp only [kexec] at h₁
  split at h₁
  · cases h₁
    refine ⟨hC, fun _ s₂ h₂ => ?_⟩
    cases h₂
    exact hk _ ⟨rfl, rfl, rfl⟩ (h.release hy hclean)
  · cases h₁

theorem cwp_brelse_last {Q : Unit → Kernel M → Prop} (hC : Cr s.disk)
    (h : Alone p s.bc s.disk H exact) (hy : y ∈ H) (hclean : y.dirty = false)
    (hk : ∀ s', SameButCache s s' →
      Alone p s'.bc s'.disk (H.filter fun x => decide (x.i ≠ y.i)) exact → Q () s') :
    Prog.cwp (kexec xexec p) (fun s => Cr s.disk) (brelse y.i) Q s := by
  rw [← Prog.bind_pure (brelse y.i)]
  refine cwp_brelse hC h hy hclean fun s' hs ha => ⟨?_, hk s' hs ha⟩
  simpa only [hs.disk] using hC

/-- A request that leaves the disk alone. -/
theorem cwp_op {o : KOp E} {k : (KSig E).Resp o → KProg E α} {r : (KSig E).Resp o}
    {s' : Kernel M} (hC : Cr s.disk) (hx : kexec xexec p o s = .ret r s')
    (hk : Prog.cwp (kexec xexec p) (fun s => Cr s.disk) (k r) Q s') :
    Prog.cwp (kexec xexec p) (fun s => Cr s.disk) (.op o k : KProg E α) Q s := by
  refine ⟨hC, fun r' s'' hx' => ?_⟩
  rw [hx] at hx'
  cases hx'
  exact hk

theorem cwp_bwrite {k : Unit → KProg E α} (hC : Cr s.disk) (h : Alone p s.bc s.disk H exact)
    (hy : y ∈ H) (hk : Alone p s.bc (update s.disk y.b y.data)
        (Holding.setHold ⟨none, H⟩ y.i y.data false).holds exact →
      Prog.cwp (kexec xexec p) (fun s => Cr s.disk) (k ()) Q { s with
          disk := update s.disk y.b y.data
          hist := .wrote y.b y.data :: s.hist }) :
    Prog.cwp (kexec xexec p) (fun s => Cr s.disk) (.op (.bwrite y.i) k : KProg E α) Q s := by
  obtain ⟨hcar, -, hdata⟩ := h.holds y hy
  have hlock := h.locked y.i
  rw [if_pos (mem_map.mpr ⟨y, hy, rfl⟩)] at hlock
  refine cwp_op hC ?_ (hk (h.sync hy))
  simp only [kexec, hlock, if_true, hcar.2, hdata]

end Rules

/-! ## Recovery -/

/-- A disk from which recovery makes `X`: the header lists blocks whose contents are
in the slots, and all other blocks are as in `X` already. -/
structure Config.Recoverable (C : Config) (X : Disk) (d : Disk) : Prop where
  lhOk : C.LhOk (decodeHeader (d C.start))
  slots : ∀ j b, (decodeHeader (d C.start))[j]? = some b → d (C.start + j + 1) = X b
  home : ∀ b, ¬ C.InLog b → b ∉ decodeHeader (d C.start) → d b = X b

/-- Writing a block home keeps the disk recoverable. -/
theorem Config.Recoverable.install {C : Config} {X d : Disk} (h : C.Recoverable X d) {b : Nat}
    (hb : ¬ C.InLog b) : C.Recoverable X (update d b (X b)) := by
  have hlog : ∀ x, C.InLog x → update d b (X b) x = d x := by
    intro x hx
    have hne : x ≠ b := by
      rintro rfl
      exact hb hx
    exact update_of_ne hne _ _
  have hhead := hlog C.start C.inLog_start
  refine ⟨?_, ?_, ?_⟩
  · rw [hhead]
    exact h.lhOk
  · rw [hhead]
    intro j x hx
    have hj : j < (decodeHeader (d C.start)).length := by
      by_contra hn
      rw [List.getElem?_eq_none (by omega)] at hx
      cases hx
    rw [hlog _ (h.lhOk.inLog_slot hj)]
    exact h.slots j x hx
  · rw [hhead]
    intro x hx hn
    by_cases hxb : x = b
    · subst hxb; simp
    · rw [update_of_ne hxb]
      exact h.home x hx hn

/-- The log of a machine that has just booted. -/
def Config.bootLog (C : Config) (lh : List Nat) : Log :=
  { start := C.start, size := C.size, dev := ROOTDEV, outstanding := 0, committing := false,
    lh }

/-- In the loop of `install_trans`, with `t` blocks written home. -/
structure Recovering {M : Type} (C : Config) (X : Disk) (p : Pid) (m : M) (lh : List Nat)
    (t : Nat) (s : Kernel M) : Prop where
  alone : Alone p s.bc s.disk [] (lh = [])
  log : s.log = C.bootLog lh
  mem : s.mem = m
  lhOk : C.LhOk lh
  header : decodeHeader (s.disk C.start) = lh
  slots : ∀ j b, lh[j]? = some b → s.disk (C.start + j + 1) = X b
  home : ∀ b, ¬ C.InLog b → b ∉ lh.drop t → s.disk b = X b

/-- Recovery is over. -/
structure Recovered {M : Type} (C : Config) (X : Disk) (p : Pid) (m : M) (exact : Prop)
    (s : Kernel M) : Prop where
  alone : Alone p s.bc s.disk [] exact
  log : s.log = C.bootLog []
  mem : s.mem = m
  header : headerN (s.disk C.start) = 0
  home : ∀ b, ¬ C.InLog b → s.disk b = X b

theorem Recovering.recoverable {M : Type} {C : Config} {X : Disk} {p : Pid} {m : M}
    {lh : List Nat} {t : Nat} {s : Kernel M} (h : Recovering C X p m lh t s) :
    C.Recoverable X s.disk where
  lhOk := by rw [h.header]; exact h.lhOk
  slots := by rw [h.header]; exact h.slots
  home b hb hn := by
    rw [h.header] at hn
    exact h.home b hb fun hd => hn (mem_of_mem_drop hd)

section Program

variable {E : Signature} {M : Type}
  {xexec : Pid → (o : E.Op) → M → Outcome Halt M (E.Resp o)} {p : Pid} {C : Config}
  {X : Disk} {m : M} {lh : List Nat}

/-- Every cut of the program leaves a disk from which recovery makes `X`. -/
abbrev recwp {α : Type} (xexec : Pid → (o : E.Op) → M → Outcome Halt M (E.Resp o)) (p : Pid)
    (C : Config) (X : Disk) (prog : KProg E α) (Q : α → Kernel M → Prop) :
    Kernel M → Prop :=
  prog.cwp (kexec xexec p) (fun s => C.Recoverable X s.disk) Q

theorem recwp_readHead {s : Kernel M} (h : Alone p s.bc s.disk [] True)
    (hlog : s.log = C.bootLog []) (hrec : C.Recoverable X s.disk) :
    recwp xexec p C X readHead
      (fun _ t => Recovering C X p s.mem (decodeHeader (s.disk C.start)) 0 t) s := by
  refine cwp_op hrec rfl ?_
  rw [hlog]
  refine cwp_bread (b := C.start) hrec h fun i s₁ hs₁ _ h₁ => ?_
  have hrec₁ : C.Recoverable X s₁.disk := by rw [hs₁.disk]; exact hrec
  have hdata := (h₁.holds _ mem_cons_self).2.2
  refine cwp_op hrec₁ rfl ?_
  refine cwp_op hrec₁ rfl ?_
  refine cwp_brelse_last (y := ⟨i, C.start, s.disk C.start, false⟩) hrec₁ h₁
    mem_cons_self rfl fun s₂ hs₂ h₂ => ?_
  have h₂ : Alone p s₂.bc s₂.disk [] True := by simpa using h₂
  have hdisk : s₂.disk = s.disk := hs₂.disk.trans hs₁.disk
  exact {
    alone := h₂.weaken fun _ => trivial
    log := by
      rw [hs₂.log]
      simp only [hs₁.log, hlog, Config.bootLog, hdata]
    mem := hs₂.mem.trans hs₁.mem
    lhOk := hrec.lhOk
    header := by rw [hdisk]
    slots := by rw [hdisk]; exact hrec.slots
    home := by rw [hdisk]; exact hrec.home }

/-- One turn of the loop of `install_trans`. -/
theorem recwp_installBlock {t : Nat} {s : Kernel M} (ht : t < lh.length)
    (h : Recovering C X p m lh t s) :
    recwp xexec p C X (installBlock t) (fun _ s' => Recovering C X p m lh (t + 1) s') s := by
  have hrec := h.recoverable
  have hget : lh[t]? = some (lh.getD t 0) := by
    rw [getD_eq_getElem?_getD, List.getElem?_eq_getElem ht]
    rfl
  have hmem : lh.getD t 0 ∈ lh := mem_of_getElem? hget
  have hout := h.lhOk.outside _ hmem
  refine cwp_op hrec rfl ?_
  rw [h.log]
  refine cwp_bread (b := C.start + t + 1) hrec h.alone fun lbuf s₁ hs₁ _ h₁ => ?_
  have hrec₁ : C.Recoverable X s₁.disk := by rw [hs₁.disk]; exact hrec
  refine cwp_op hrec₁ rfl ?_
  rw [hs₁.log, h.log]
  refine cwp_bread (b := lh.getD t 0) hrec₁ h₁ fun dbuf s₂ hs₂ hfresh h₂ => ?_
  have hdisk₂ : s₂.disk = s.disk := hs₂.disk.trans hs₁.disk
  have hrec₂ : C.Recoverable X s₂.disk := by rw [hdisk₂]; exact hrec
  have hne : lbuf ≠ dbuf := (hfresh _ mem_cons_self).1
  have hld := (h₂.holds _ (mem_cons_of_mem _ mem_cons_self)).2.2
  simp only [h.slots t _ hget] at hld h₂
  refine cwp_op hrec₂ rfl ?_
  rw [hld]
  -- the buffer of the block gets the contents of the slot, and then so does the disk
  set d := X (lh.getD t 0) with hd
  have h₃ : Alone p (s₂.bc.set dbuf { s₂.bc.buf dbuf with data := d }) s₂.disk
      (Holding.setHold ⟨none, ⟨dbuf, lh.getD t 0, s₁.disk (lh.getD t 0), false⟩ ::
        [⟨lbuf, C.start + t + 1, d, false⟩]⟩ dbuf d true).holds (lh = []) :=
    h₂.write (y := ⟨dbuf, lh.getD t 0, s₁.disk (lh.getD t 0), false⟩) mem_cons_self
      (fun _ _ => rfl) (by simp)
  have hH : (Holding.setHold ⟨none, ⟨dbuf, lh.getD t 0, s₁.disk (lh.getD t 0), false⟩ ::
      [⟨lbuf, C.start + t + 1, d, false⟩]⟩ dbuf d true).holds =
      [⟨dbuf, lh.getD t 0, d, true⟩, ⟨lbuf, C.start + t + 1, d, false⟩] := by
    simp [Holding.setHold, hne]
  rw [hH] at h₃
  refine cwp_op hrec₂ rfl ?_
  refine cwp_bwrite (y := ⟨dbuf, lh.getD t 0, d, true⟩) hrec₂ h₃ mem_cons_self fun h₄ => ?_
  have hH' : (Holding.setHold ⟨none, [⟨dbuf, lh.getD t 0, d, true⟩,
      ⟨lbuf, C.start + t + 1, d, false⟩]⟩ dbuf d false).holds =
      [⟨dbuf, lh.getD t 0, d, false⟩, ⟨lbuf, C.start + t + 1, d, false⟩] := by
    simp [Holding.setHold, hne]
  rw [hH'] at h₄
  simp only [hdisk₂] at h₄ ⊢
  have hrec₄ : C.Recoverable X (update s.disk (lh.getD t 0) d) := hrec.install hout
  have hnil : lh ≠ [] := length_pos_iff.mp (by omega)
  refine cwp_op hrec₄ rfl ?_
  have h₅ := (h₄.unpin dbuf).weaken fun hl => hnil hl
  refine cwp_brelse (y := ⟨lbuf, C.start + t + 1, d, false⟩) hrec₄ h₅
    (mem_cons_of_mem _ mem_cons_self) rfl fun s₆ hs₆ h₆ => ?_
  have hrec₆ : C.Recoverable X s₆.disk := by rw [hs₆.disk]; exact hrec₄
  refine cwp_brelse_last (y := ⟨dbuf, lh.getD t 0, d, false⟩) hrec₆ h₆
    (by simp [hne.symm]) rfl fun s₇ hs₇ h₇ => ?_
  have hdisk₇ : s₇.disk = update s.disk (lh.getD t 0) d := hs₇.disk.trans hs₆.disk
  have hhead : s₇.disk C.start = s.disk C.start := by
    rw [hdisk₇, update_of_ne]
    rintro heq
    exact hout (heq ▸ C.inLog_start)
  have hrec₇ : C.Recoverable X s₇.disk := by rw [hdisk₇]; exact hrec₄
  exact {
    alone := by
      have hH₇ : (([⟨dbuf, lh.getD t 0, d, false⟩, ⟨lbuf, C.start + t + 1, d, false⟩] :
          List Hold).filter (fun x => decide (x.i ≠ lbuf))).filter
          (fun x => decide (x.i ≠ dbuf)) = [] := by
        simp [hne.symm]
      rw [hH₇] at h₇
      exact h₇
    log := by
      rw [hs₇.log, hs₆.log]
      exact (hs₂.log.trans hs₁.log).trans h.log
    mem := by
      rw [hs₇.mem, hs₆.mem]
      exact (hs₂.mem.trans hs₁.mem).trans h.mem
    lhOk := h.lhOk
    header := by rw [hhead]; exact h.header
    slots := by
      have := hrec₇.slots
      rw [hhead, h.header] at this
      exact this
    home := fun b hb hdrop => by
      rw [hdisk₇]
      by_cases hbt : b = lh.getD t 0
      · subst hbt; simp [hd]
      · rw [update_of_ne hbt]
        refine h.home b hb fun hmem' => ?_
        rw [drop_eq_getElem_cons ht] at hmem'
        rcases mem_cons.mp hmem' with heq | hmem'
        · refine hbt (heq.trans ?_)
          rw [List.getElem?_eq_getElem ht] at hget
          exact Option.some.inj hget
        · exact hdrop hmem' }

theorem recwp_installTrans {s : Kernel M} (h : Recovering C X p m lh 0 s) :
    recwp xexec p C X installTrans (fun _ s' => Recovering C X p m lh lh.length s') s := by
  refine cwp_op h.recoverable rfl ?_
  rw [h.log]
  exact Prog.cwp_forFrom (I := fun t s => Recovering C X p m lh t s)
    (fun t s h => h.recoverable) (fun t s ht h => recwp_installBlock ht h) _ 0 s
    (Nat.zero_add _) h

/-- `log.lh.n = 0; write_head()`. -/
theorem recwp_erase {s : Kernel M} (h : Recovering C X p m lh lh.length s) :
    recwp xexec p C X (.op (.setLh []) fun _ => writeHead)
      (fun _ s' => Recovered C X p m (lh = []) s') s := by
  have hrec := h.recoverable
  have hhome : ∀ b, ¬ C.InLog b → s.disk b = X b := fun b hb => h.home b hb (by simp)
  refine cwp_op hrec rfl ?_
  refine cwp_op hrec rfl ?_
  simp only [h.log]
  refine cwp_bread (b := C.start) hrec h.alone fun i s₁ hs₁ _ h₁ => ?_
  have hrec₁ : C.Recoverable X s₁.disk := by rw [hs₁.disk]; exact hrec
  have hdata := (h₁.holds _ mem_cons_self).2.2
  refine cwp_op hrec₁ rfl ?_
  refine cwp_op hrec₁ rfl ?_
  rw [hs₁.log, hdata]
  simp only [Config.bootLog]
  set d := encodeHeader (s.disk C.start) [] with hd
  have h₂ : Alone p (s₁.bc.set i { s₁.bc.buf i with data := d }) s₁.disk
      (Holding.setHold ⟨none, [⟨i, C.start, s.disk C.start, false⟩]⟩ i d true).holds
      (lh = []) :=
    h₁.write (y := ⟨i, C.start, s.disk C.start, false⟩) mem_cons_self (fun _ _ => rfl) (by simp)
  have hH : (Holding.setHold ⟨none, [⟨i, C.start, s.disk C.start, false⟩]⟩ i d true).holds =
      [⟨i, C.start, d, true⟩] := by simp [Holding.setHold]
  rw [hH] at h₂
  refine cwp_op hrec₁ rfl ?_
  refine cwp_bwrite (y := ⟨i, C.start, d, true⟩) hrec₁ h₂ mem_cons_self fun h₃ => ?_
  have hH' : (Holding.setHold ⟨none, [⟨i, C.start, d, true⟩]⟩ i d false).holds =
      [⟨i, C.start, d, false⟩] := by simp [Holding.setHold]
  rw [hH'] at h₃
  simp only [hs₁.disk] at h₃ ⊢
  have hN : headerN d = 0 := headerN_encode (Nat.zero_le _)
  have hhome' : ∀ b, ¬ C.InLog b → update s.disk C.start d b = X b := by
    intro b hb
    rw [update_of_ne]
    · exact hhome b hb
    · rintro rfl
      exact hb C.inLog_start
  have hrec₃ : C.Recoverable X (update s.disk C.start d) := by
    have hdec : decodeHeader (update s.disk C.start d C.start) = [] := by
      rw [update_self]
      exact decode_eq_nil hN
    refine ⟨?_, ?_, fun b hb _ => hhome' b hb⟩
    · rw [hdec]
      exact C.lhOk_nil
    · rw [hdec]
      intro j b hjb
      simp at hjb
  refine cwp_brelse_last (y := ⟨i, C.start, d, false⟩) hrec₃ h₃ mem_cons_self rfl
    fun s₄ hs₄ h₄ => ?_
  have hdisk₄ : s₄.disk = update s.disk C.start d := hs₄.disk
  exact {
    alone := by simpa using h₄
    log := by rw [hs₄.log]; exact hs₁.log
    mem := by
      rw [hs₄.mem]
      exact hs₁.mem.trans h.mem
    header := by rw [hdisk₄, update_self]; exact hN
    home := by rw [hdisk₄]; exact hhome' }

/-- Recovery of a recoverable disk: wherever it is cut off the disk is recoverable,
and to the same contents; if it returns, it has recovered them. -/
theorem recwp_recoverFromLog {d : Disk} (hrec : C.Recoverable X d) :
    recwp xexec p C X recoverFromLog
      (fun _ s' => Recovered C X p m (decodeHeader (d C.start) = []) s')
      (boot C.start C.size d m) := by
  apply Prog.cwp_bind
  apply Prog.cwp_mono (recwp_readHead (Alone.init p d) rfl hrec)
  intro _ s₁ _ h₁
  apply Prog.cwp_bind
  apply Prog.cwp_mono (recwp_installTrans h₁)
  intro _ s₂ _ h₂
  exact recwp_erase h₂


end Program

end Xv6
