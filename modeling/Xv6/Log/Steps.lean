/-
  Log/Steps.lean --- the steps of the log keep the invariant: the writes of a
  commit to the disk, the unpinning, the clearing of the header, and the sections of
  `begin_op`, `log_write` and `end_op`.
-/
import Xv6.Log.Invariant

set_option autoImplicit false

namespace Xv6

open Function List Foundation

theorem Bcache.set_eq_self (c : Bcache) (i : BufId) : c.set i (c.buf i) = c := by
  unfold Bcache.set
  rw [update_eq_self]

/-- The data a process has in a buffer becomes the current contents of the block. -/
theorem CacheInv.publish {c : Bcache} {view view' : Nat → Block} {pinned : List Nat}
    {g : Pid → Holding} {p : Pid} {y : Hold} (h : CacheInv c view pinned g)
    (hy : y ∈ (g p).holds) (hview : ∀ b, b ≠ y.b → view' b = view b)
    (hd : view' y.b = y.data) :
    CacheInv c view' pinned (update g p ((g p).setHold y.i y.data false)) := by
  have hw : CacheInv (c.set y.i { c.buf y.i with data := y.data }) view' pinned
      (update g p ((g p).setHold y.i y.data false)) :=
    h.write hy hview fun _ => hd
  have hdata := (h.holds p y hy).2.2
  rw [← hdata] at hw ⊢
  rwa [Bcache.set_eq_self] at hw

theorem Config.inLog_start (C : Config) : C.InLog C.start :=
  ⟨le_rfl, Nat.lt_add_of_pos_right C.pos⟩

theorem Config.LhOk.inLog_slot {C : Config} {lh : List Nat} (h : C.LhOk lh) {t : Nat}
    (ht : t < lh.length) : C.InLog (C.start + t + 1) := by
  have hne : lh ≠ [] := by
    rintro rfl
    simp at ht
  have := h.fits hne
  constructor <;> omega

theorem Config.lhOk_nil (C : Config) : C.LhOk [] := by
  refine ⟨?_, ?_, ?_, ?_⟩ <;> simp

/-- `bwrite` of a buffer that is held. -/
abbrev Kernel.wrote {M : Type} (s : Kernel M) (y : Hold) : Kernel M :=
  { s with
    disk := Function.update s.disk y.b y.data
    hist := .wrote y.b y.data :: s.hist }

/-- The process that wrote `y` to the disk, now in the stage `st`. -/
abbrev Ghost.wrote (l : Ghost) (y : Hold) (st : Stage) : Ghost :=
  ⟨l.toHolding.setHold y.i y.data false, l.pc, st⟩

namespace KInv

variable {M : Type} {C : Config} {s : Kernel M} {g : Pid → Ghost} {p : Pid} {l : Ghost}

/-- A clean buffer that is held has the current contents of its block. -/
theorem hold_view (h : KInv C s g) {y : Hold} (hy : y ∈ (g p).holds)
    (hclean : y.dirty = false) : y.data = C.view s.disk s.hist y.b := by
  obtain ⟨hcar, hval, hdata⟩ := h.cache.holds p y hy
  rw [← hdata, ← hcar.2]
  refine h.cache.coherent y.i hcar.1 hval fun q x hx hi => ?_
  have hq : q = p := h.cache.locks_unique (p := p) (Or.inr ⟨y, hy, rfl⟩) (Or.inr ⟨x, hx, hi⟩)
  subst hq
  rw [inj_on_of_nodup_map (h.cache.nodup q) hx hy hi]
  exact hclean

section Process

variable (h : KInv C s g) (hl : g p = l)
include h hl

variable {st : Stage}

theorem stage_at (hstage : l.stage = st) : C.StageOk s.disk s.log.lh s.hist l.pc st := by
  rw [← hstage, ← hl]
  exact h.stage p

theorem header_at (hstage : l.stage = .idle) (hother : ∀ q, q ≠ p → (g q).stage = .idle) :
    headerN (s.disk C.start) = 0 := by
  refine h.header fun q => ?_
  by_cases hq : q = p
  · rw [hq, hl]; exact hstage
  · exact hother q hq

/-- The pinned blocks, by the stage of the process that commits. -/
theorem cache_at (hp : l.pc.commits = 1) (hstage : l.stage = st) :
    CacheInv s.bc (C.view s.disk s.hist) (s.log.lh.drop st.unpinned) (holding g) := by
  have hcache := h.cache
  rw [pinned, h.sum_stage (by rw [hl]; exact hp) rfl, hl, hstage] at hcache
  exact hcache

/-- The blocks that are home, by the stage of the process that commits. -/
theorem home_at {b : Nat} (hp : l.pc.commits = 1) (hstage : l.stage = st) (hb : ¬ C.InLog b)
    (hpend : b ∉ s.log.lh.drop st.written) :
    s.disk b = latest C.store s.hist b := by
  refine h.home b hb ?_
  rw [pending, h.sum_stage (by rw [hl]; exact hp) rfl, hl, hstage]
  exact hpend

omit h in
theorem pc_at {k : GroupCommit.Pc} (hpc : l.pc = k) (hh : List (GroupCommit.Event Pid)) :
    (protocol s g hh).pc p = k := by
  rw [← hpc, ← hl]
  rfl

theorem proto_at : ∃ hh, GroupCommit.Inv ⟨s.log, update (fun q => (g q).pc) p l.pc, hh, none⟩ := by
  obtain ⟨hh, hproto⟩ := h.proto
  refine ⟨hh, ?_⟩
  rw [← hl, update_eq_self p fun q => (g q).pc]
  exact hproto

/-- `bwrite` by the process that commits. -/
theorem diskWrite {y : Hold} (hp : l.pc.commits = 1) (hy : y ∈ l.holds) (hne : st ≠ .idle)
    (hunpin : st.unpinned = l.stage.unpinned)
    (hlatest : ¬ C.InLog y.b → latest C.store s.hist y.b = y.data)
    (hhome : ∀ b, ¬ C.InLog b → b ∉ s.log.lh.drop st.written →
      update s.disk y.b y.data b = latest C.store s.hist b)
    (hst : C.StageOk (update s.disk y.b y.data) s.log.lh (.wrote y.b y.data :: s.hist) l.pc st) :
    KInv C (s.wrote y) (update g p (l.wrote y st)) := by
  subst hl
  have hpcs : ∀ q, (update g p ((g p).wrote y st) q).pc = (g q).pc := comp_update_same rfl
  have hidle : ∀ q, q ≠ p → (g q).stage = .idle := fun q hq => h.others_idle hp hq
  have hpinned : pinned s.log.lh (update g p ((g p).wrote y st)) = pinned s.log.lh g := by
    unfold pinned
    rw [h.sum_stage_update hp rfl, h.sum_stage hp rfl, hunpin]
  obtain ⟨hh, hproto⟩ := h.proto
  exact {
    dev := h.dev
    start := h.start
    size := h.size
    proto := ⟨hh, by simpa only [protocol, hpcs] using hproto⟩
    awake := fun q => by rw [hpcs]; exact h.awake q
    cache := by
      rw [hpinned, holding_update]
      refine CacheInv.publish h.cache hy (fun b hb => ?_) ?_
      · simp only [Config.view, update_of_ne hb, latest]
      · simp only [Config.view, update_self, latest]
        split
        · rfl
        · rename_i hlog
          exact hlatest hlog
    home := fun b hb hpend => by
      unfold pending at hpend
      rw [h.sum_stage_update hp rfl] at hpend
      exact hhome b hb hpend
    raw := by
      funext b
      simp only [lastWritten, h.raw]
      by_cases hb : b = y.b
      · subst hb; simp
      · simp [hb, Ne.symm hb]
    lhOk := h.lhOk
    clean := fun q => by
      by_cases hq : q = p
      · subst hq
        intro _ hc
        simp [hp] at hc
      · simpa [hq] using h.clean q
    staged := fun q => by
      by_cases hq : q = p
      · subst hq
        intro _
        simpa using hp
      · simpa [hq] using h.staged q
    stage := fun q => by
      by_cases hq : q = p
      · subst hq; simpa using hst
      · rw [update_of_ne hq, hidle q hq]
        trivial
    header := fun hall => by
      have := hall p
      simp [hne] at this
    reads := h.reads }

/-! ## The writes of a commit -/

variable {lg : Log}

section Commit

variable {pre : Disk} {old : List Event} {lh : List Nat} {x y : Hold}

omit h hl in
theorem slot_ne_start (C : Config) (j : Nat) : C.start ≠ C.start + j + 1 := by omega

/-- `write_log` writes a slot: the block's contents come from a buffer that is held
and clean. -/
theorem writeSlot {t : Nat}
    (hstage : l.stage = .logging pre old lh t) (ht : t < lh.length) (hx : x ∈ l.holds)
    (hxb : lh[t]? = some x.b) (hclean : x.dirty = false) (hy : y ∈ l.holds)
    (hyb : y.b = C.start + t + 1) (hdata : x.data = y.data) :
    KInv C (s.wrote y) (update g p (l.wrote y (.logging pre old lh (t + 1)))) := by
  obtain ⟨hpc, hlh, hne, hhead, hpre, hslots, hnot⟩ := h.stage_at hl hstage
  have hmem : x.b ∈ s.log.lh := hlh ▸ mem_of_getElem? hxb
  have hxlog := h.lhOk.outside x.b hmem
  have hylog : C.InLog y.b := by
    rw [hyb]
    exact h.lhOk.inLog_slot (hlh ▸ ht)
  have hval : y.data = latest C.store s.hist x.b := by
    have := h.hold_view (p := p) (by rw [hl]; exact hx) hclean
    rw [← hdata, this, Config.view, if_neg hxlog]
  have hother : ∀ b, ¬ C.InLog b → b ≠ y.b := by
    rintro b hb rfl
    exact hb hylog
  refine h.diskWrite hl (by rw [hpc]; rfl) hy (by simp) (by rw [hstage]; rfl)
    (fun hn => absurd hylog hn) ?_ ?_
  · intro b hb hpend
    rw [update_of_ne (hother b hb)]
    exact h.home_at hl (by rw [hpc]; rfl) hstage hb hpend
  · refine ⟨hpc, hlh, hne, ?_, ?_, ?_, ?_⟩
    · rw [update_of_ne (by rw [hyb]; exact slot_ne_start C t)]
      exact hhead
    · intro b hb
      rw [update_of_ne (hother b hb)]
      exact hpre b hb
    · intro j b hj hb
      by_cases hjt : j = t
      · subst hjt
        rw [hlh, hxb] at hb
        cases hb
        rw [hyb, update_self]
        exact hval
      · rw [update_of_ne (by omega)]
        exact hslots j b (by omega) hb
    · refine Since.cons hnot (by simp) fun d hd => ?_
      have : y.b = C.start := (Event.wrote.inj hd).1
      exact slot_ne_start C t (this.symm.trans hyb)

/-- The first `write_head`: the commit point. -/
theorem writeHeader {d : Block}
    (hstage : l.stage = .logging pre old lh lh.length) (hy : y ∈ l.holds)
    (hyb : y.b = C.start) (hdata : y.data = encodeHeader d lh) :
    KInv C (s.wrote y) (update g p (l.wrote y (.installing old lh 0 0))) := by
  obtain ⟨hpc, hlh, hne, hhead, hpre, hslots, hnot⟩ := h.stage_at hl hstage
  have hylog : C.InLog y.b := by
    rw [hyb]
    exact C.inLog_start
  refine h.diskWrite hl (by rw [hpc]; rfl) hy (by simp) (by rw [hstage]; rfl)
    (fun hn => absurd hylog hn) ?_ ?_
  · intro b hb hpend
    rw [update_of_ne (by rintro rfl; exact hb hylog)]
    exact h.home_at hl (by rw [hpc]; rfl) hstage hb hpend
  · refine ⟨hpc, hlh, ?_, ?_, Nat.zero_le _, le_rfl, ?_⟩
    · rw [hyb, update_self, hdata, hlh]
      exact decode_encode (hlh ▸ h.lhOk.length) (hlh ▸ h.lhOk.uint)
    · intro j b hj hb
      rw [update_of_ne (by rw [hyb]; exact (slot_ne_start C j).symm)]
      exact hslots j b (by rw [← hlh]; exact hj) hb
    · rw [hyb]
      exact Since.header hnot _

/-- `install_trans` writes a block home: its contents come from the slot. -/
theorem writeHome {w : Nat}
    (hstage : l.stage = .installing old lh w w) (hw : w < lh.length) (hx : x ∈ l.holds)
    (hxb : x.b = C.start + w + 1) (hclean : x.dirty = false) (hy : y ∈ l.holds)
    (hyb : lh[w]? = some y.b) (hdata : x.data = y.data) :
    KInv C (s.wrote y) (update g p (l.wrote y (.installing old lh (w + 1) w))) := by
  obtain ⟨hpc, hlh, hdec, hslots, hwl, huw, hwritten⟩ := h.stage_at hl hstage
  have hmem : y.b ∈ s.log.lh := hlh ▸ mem_of_getElem? hyb
  have hylog := h.lhOk.outside y.b hmem
  have hxlog : C.InLog x.b := by
    rw [hxb]
    exact h.lhOk.inLog_slot (hlh ▸ hw)
  have hval : latest C.store s.hist y.b = y.data := by
    have := h.hold_view (p := p) (by rw [hl]; exact hx) hclean
    rw [← hdata, this, Config.view, if_pos hxlog, hxb]
    exact (hslots w y.b (hlh ▸ hw) (hlh ▸ hyb)).symm
  have hother : ∀ b, C.InLog b → b ≠ y.b := by
    rintro b hb rfl
    exact hylog hb
  refine h.diskWrite hl (by rw [hpc]; rfl) hy (by simp) (by rw [hstage]; rfl)
    (fun _ => hval) ?_ ?_
  · intro b hb hpend
    by_cases hby : b = y.b
    · subst hby
      rw [update_self]
      exact hval.symm
    · rw [update_of_ne hby]
      refine h.home_at hl (by rw [hpc]; rfl) hstage hb fun hdrop => ?_
      have hcons : s.log.lh.drop w = y.b :: s.log.lh.drop (w + 1) := by
        rw [hlh]
        have hget : lh[w] = y.b := by
          rw [List.getElem?_eq_getElem hw] at hyb
          exact Option.some.inj hyb
        rw [drop_eq_getElem_cons hw, hget]
      rw [show Stage.written (.installing old lh w w) = w from rfl, hcons] at hdrop
      rcases mem_cons.mp hdrop with hdrop | hdrop
      · exact hby hdrop
      · exact hpend hdrop
  · refine ⟨hpc, hlh, ?_, ?_, hlh ▸ hw, Nat.le_succ w, ?_⟩
    · rw [update_of_ne (hother _ C.inLog_start)]
      exact hdec
    · intro j b hj hb
      rw [update_of_ne (hother _ (h.lhOk.inLog_slot hj))]
      exact hslots j b hj hb
    · refine Since.cons hwritten (by simp) fun d hd => ?_
      exact hother _ C.inLog_start (Event.wrote.inj hd).1.symm

/-- The second `write_head`. -/
theorem eraseHeader {d : Block}
    (hstage : l.stage = .erasing old lh) (hy : y ∈ l.holds) (hyb : y.b = C.start)
    (hdata : y.data = encodeHeader d []) :
    KInv C (s.wrote y) (update g p (l.wrote y (.erased old))) := by
  obtain ⟨hpc, hlh, -, -, -, hwritten⟩ := h.stage_at hl hstage
  have hylog : C.InLog y.b := by
    rw [hyb]
    exact C.inLog_start
  refine h.diskWrite hl (by rw [hpc]; rfl) hy (by simp) (by rw [hstage]; rfl)
    (fun hn => absurd hylog hn) ?_ ?_
  · intro b hb _
    rw [update_of_ne (by rintro rfl; exact hb hylog)]
    refine h.home b hb ?_
    unfold pending
    rw [hlh]
    simp
  · refine ⟨hpc, hlh, ?_, ?_⟩
    · rw [hyb, update_self, hdata]
      exact headerN_encode (Nat.zero_le _)
    · rw [hyb]
      exact Since.header hwritten _

/-! ## The other steps of a commit -/

/-- The process that commits goes on to another stage; the disk and the history
stay. -/
theorem advance {c : Bcache} {l' : Ghost} (hp : l.pc.commits = 1) (hp' : l'.pc.commits = 1)
    (hhold : l'.toHolding = l.toHolding) (hne : l'.stage ≠ .idle) (hawake : l'.pc ≠ .asleep)
    (hdev : lg.dev = s.log.dev) (hstart : lg.start = s.log.start) (hsize : lg.size = s.log.size)
    (hproto : ∃ hh, GroupCommit.Inv ⟨lg, update (fun q => (g q).pc) p l'.pc, hh, none⟩)
    (hcache : CacheInv c (C.view s.disk s.hist) (lg.lh.drop l'.stage.unpinned) (holding g))
    (hhome : ∀ b, ¬ C.InLog b → b ∉ lg.lh.drop l'.stage.written →
      s.disk b = latest C.store s.hist b) (hlh : C.LhOk lg.lh)
    (hst : C.StageOk s.disk lg.lh s.hist l'.pc l'.stage) :
    KInv C { s with bc := c, log := lg } (update g p l') := by
  subst hl
  obtain ⟨hh, hproto⟩ := hproto
  exact {
    dev := hdev.trans h.dev
    start := hstart.trans h.start
    size := hsize.trans h.size
    proto := ⟨hh, by
      unfold protocol
      rw [comp_update Ghost.pc]
      exact hproto⟩
    awake := fun q => by
      by_cases hq : q = p
      · subst hq; simpa using hawake
      · simpa [hq] using h.awake q
    cache := by
      have hsame : update (holding g) p l'.toHolding = holding g := by
        rw [hhold]
        exact update_eq_self p (holding g)
      rw [holding_update, hsame, pinned, h.sum_stage_update hp rfl]
      exact hcache
    home := fun b hb hpend => by
      unfold pending at hpend
      rw [h.sum_stage_update hp rfl] at hpend
      exact hhome b hb hpend
    raw := h.raw
    lhOk := hlh
    clean := fun q => by
      by_cases hq : q = p
      · subst hq
        intro _ hc
        simp [hp'] at hc
      · simpa [hq] using h.clean q
    staged := fun q => by
      by_cases hq : q = p
      · subst hq
        intro _
        simpa using hp'
      · simpa [hq] using h.staged q
    stage := fun q => by
      by_cases hq : q = p
      · subst hq; simpa using hst
      · rw [update_of_ne hq, h.others_idle hp hq]
        trivial
    header := fun hall => by
      have := hall p
      simp [hne] at this
    reads := h.reads }

/-- `commit()` begins, and there is something to commit. -/
theorem beginCommit (hpc : l.pc = .commit) (hstage : l.stage = .idle) (hne : s.log.lh ≠ []) :
    KInv C s (update g p { l with stage := .logging s.disk s.hist s.log.lh 0 }) := by
  have hp : l.pc.commits = 1 := by rw [hpc]; rfl
  have hheader := h.header_at hl hstage fun q hq => h.others_idle (by rw [hl]; exact hp) hq
  refine h.advance hl (by rw [hpc]; rfl) (by rw [hpc]; rfl) rfl (by simp)
    (by rw [hpc]; simp) rfl rfl rfl ?_ ?_ ?_ h.lhOk ?_
  · have hproto := h.proto_at hl
    exact hproto
  · have hcache := h.cache_at hl hp hstage
    exact hcache
  · exact fun b hb hpend => h.home_at hl hp hstage hb hpend
  · refine ⟨hpc, rfl, hne, hheader, fun b _ => rfl, fun j b hj => ?_, [], rfl, ?_, ?_⟩
    · omega
    · simp
    · simp

/-- `bunpin` in `install_trans`. -/
theorem unpin {w : Nat} (hstage : l.stage = .installing old lh (w + 1) w) (hnone : l.limbo = none)
    (hy : y ∈ l.holds) (hyb : lh[w]? = some y.b) :
    KInv C { s with bc := s.bc.bunpin y.i }
      (update g p { l with stage := .installing old lh (w + 1) (w + 1) }) := by
  obtain ⟨hpc, hlh, hdec, hslots, hwl, huw, hwritten⟩ := h.stage_at hl hstage
  have hp : l.pc.commits = 1 := by rw [hpc]; rfl
  obtain ⟨hh, hproto⟩ := h.proto
  have hnodup : s.log.lh.Nodup := hproto.nodup
  have hcons : s.log.lh.drop w = y.b :: s.log.lh.drop (w + 1) := by
    have hw : w < s.log.lh.length := by omega
    rw [← hlh, List.getElem?_eq_getElem hw] at hyb
    rw [drop_eq_getElem_cons hw, Option.some.inj hyb]
  have hfresh : y.b ∉ s.log.lh.drop (w + 1) := by
    have : (s.log.lh.drop w).Nodup := hnodup.sublist (drop_sublist _ _)
    rw [hcons] at this
    exact (nodup_cons.mp this).1
  have hcache := h.cache_at hl hp hstage
  refine h.advance hl (by rw [hpc]; rfl) (by rw [hpc]; rfl) rfl (by simp)
    (by rw [hpc]; simp) rfl rfl rfl ?_ ?_ ?_ h.lhOk ?_
  · have hproto := h.proto_at hl
    exact hproto
  · refine hcache.unpin (p := p) (by rw [holding, hl]; exact hy) (by rw [holding, hl]; exact hnone)
      ?_ hfresh ?_
    · rw [show Stage.unpinned (.installing old lh (w + 1) w) = w from rfl, hcons]
      exact mem_cons_self
    · intro b hb
      rw [show Stage.unpinned (.installing old lh (w + 1) w) = w from rfl, hcons]
      simp [hb]
      rfl
  · exact fun b hb hpend => h.home_at hl hp hstage hb hpend
  · exact ⟨hpc, hlh, hdec, hslots, hwl, le_rfl, hwritten⟩

/-- `log.lh.n = 0`. -/
theorem clearLh (hstage : l.stage = .installing old lh lh.length lh.length) :
    KInv C { s with log := { s.log with lh := [] } }
      (update g p { l with pc := .committed, stage := .erasing old lh }) := by
  obtain ⟨hpc, hlh, hdec, hslots, hwl, huw, hwritten⟩ := h.stage_at hl hstage
  have hp : l.pc.commits = 1 := by rw [hpc]; rfl
  have hcache := h.cache_at hl hp hstage
  have hdrop : s.log.lh.drop lh.length = [] := by rw [hlh]; simp
  refine h.advance hl (by rw [hpc]; rfl) rfl rfl (by simp) (by simp) rfl rfl rfl ?_ ?_ ?_
    C.lhOk_nil ?_
  · -- the protocol takes two steps: the blocks are installed, and the header cleared
    obtain ⟨hh, hproto⟩ := h.proto
    have hinst : GroupCommit.Inv { protocol s g hh with
        pc := update (fun q => (g q).pc) p (.installed s.log.lh) } :=
      hproto.move (by rw [pc_at hl hpc]; rfl)
        (by rw [pc_at hl hpc]; rfl)
        (fun bs hbs => GroupCommit.Pc.installed.inj hbs) (by simp) (by simp)
    have hpc' : update (fun q => (g q).pc) p (.installed s.log.lh) p =
        .installed s.log.lh := by simp
    have hclear := hinst.clear hpc'
    simp only [update_idem] at hclear
    exact ⟨_, hclear⟩
  · rw [show Stage.unpinned (.installing old lh lh.length lh.length) = lh.length from rfl,
      hdrop] at hcache
    simpa using hcache
  · intro b hb _
    refine h.home_at hl hp hstage hb ?_
    rw [show Stage.written (.installing old lh lh.length lh.length) = lh.length from rfl, hdrop]
    simp
  · exact ⟨rfl, rfl, hlh ▸ h.lhOk, hlh ▸ hdec, hlh ▸ hslots, hwritten⟩

end Commit

/-! ## `begin_op` and `end_op` -/

/-- Only the counters of the log change, and where one process is. -/
theorem recount {l' : Ghost} (hhold : l'.toHolding = l.toHolding) (hstage : l'.stage = .idle)
    (hwritten : l.stage.written = 0) (hunpinned : l.stage.unpinned = 0) (hawake : l'.pc ≠ .asleep)
    (hdev : lg.dev = s.log.dev) (hstart : lg.start = s.log.start) (hsize : lg.size = s.log.size)
    (hlh : lg.lh = s.log.lh) (hproto : ∃ hh, GroupCommit.Inv
      ⟨lg, update (fun q => (g q).pc) p l'.pc, hh, none⟩)
    (hclean : l'.pc.opens = 0 → l'.pc.commits = 0 → ∀ y ∈ l.holds, y.dirty = false)
    (hheader : (∀ q, q ≠ p → (g q).stage = .idle) → headerN (s.disk C.start) = 0) :
    KInv C { s with log := lg } (update g p l') := by
  subst hl
  obtain ⟨hh, hproto⟩ := hproto
  have hsum : ∀ f : Stage → Nat, f (g p).stage = f .idle →
      (∑ q, f (update g p l' q).stage) = ∑ q, f (g q).stage := by
    intro f hf
    have := sum_update_add (fun l : Ghost => f l.stage) g p l'
    simp only [hstage, hf] at this
    exact Nat.add_right_cancel this
  exact {
    dev := hdev.trans h.dev
    start := hstart.trans h.start
    size := hsize.trans h.size
    proto := ⟨hh, by
      unfold protocol
      rw [comp_update Ghost.pc]
      exact hproto⟩
    awake := fun q => by
      by_cases hq : q = p
      · subst hq; simpa using hawake
      · simpa [hq] using h.awake q
    cache := by
      have hsame : update (holding g) p l'.toHolding = holding g := by
        rw [hhold]
        exact update_eq_self p (holding g)
      rw [holding_update, hsame, pinned, hsum _ hunpinned]
      simp only [hlh]
      exact h.cache
    home := by
      rw [pending, hsum _ hwritten]
      simp only [hlh]
      exact h.home
    raw := h.raw
    lhOk := by
      simp only [hlh]
      exact h.lhOk
    clean := fun q => by
      by_cases hq : q = p
      · subst hq
        simpa [hhold] using hclean
      · simpa [hq] using h.clean q
    staged := fun q => by
      by_cases hq : q = p
      · subst hq
        intro hne
        simp [hstage] at hne
      · simpa [hq] using h.staged q
    stage := fun q => by
      by_cases hq : q = p
      · subst hq
        simp only [update_self, hstage]
        trivial
      · rw [update_of_ne hq]
        simp only [hlh]
        exact h.stage q
    header := fun hall => hheader fun q hq => by simpa [hq] using hall q
    reads := h.reads }

/-- `begin_op`. -/
theorem enter (hpc : l.pc = .idle) (hstage : l.stage = .idle) (hlg : s.log.beginOp = some lg) :
    KInv C { s with log := lg } (update g p { l with pc := .inOp }) := by
  obtain ⟨hcom, hroom, rfl⟩ := Log.beginOp_some hlg
  refine h.recount hl rfl hstage (by rw [hstage]; rfl) (by rw [hstage]; rfl) (by simp)
    rfl rfl rfl rfl ?_ ?_ ?_
  · -- the protocol calls `begin_op` and gets in on its first turn
    obtain ⟨hh, hproto⟩ := h.proto
    have hretry : GroupCommit.Inv { protocol s g hh with
        pc := update (fun q => (g q).pc) p .retry } := hproto.move (by rw [pc_at hl hpc]; rfl)
        (by rw [pc_at hl hpc]; rfl) (by simp) (by simp) (by simp)
    have hpc' : update (fun q => (g q).pc) p .retry p = .retry := by simp
    have henter := hretry.enter hpc' hlg
    simp only [update_idem] at henter
    exact ⟨_, henter⟩
  · intro ho
    cases ho
  · exact h.header_at hl hstage

omit hl in
/-- Nobody is asleep, so a wakeup changes nothing. -/
theorem wake_update (p : Pid) (hh : List (GroupCommit.Event Pid)) :
    (fun q => (update (protocol s g hh).pc p .idle q).wake) =
      update (fun q => (g q).pc) p .idle := by
  funext q
  by_cases hq : q = p
  · subst hq; simp [GroupCommit.Pc.wake]
  · simp only [update_of_ne hq, protocol]
    exact GroupCommit.Pc.wake_of_ne (h.awake q)

/-- The first section of `end_op`. -/
theorem leave {doCommit : Bool} (hpc : l.pc = .inOp) (hstage : l.stage = .idle)
    (hclean : ∀ y ∈ l.holds, y.dirty = false) (hlg : s.log.endOp = .ok (lg, doCommit)) :
    KInv C { s with log := lg }
      (update g p { l with pc := if doCommit then .commit else .idle }) := by
  obtain ⟨hh, hproto⟩ := h.proto
  have hpcp : (protocol s g hh).pc p = .inOp := pc_at hl hpc hh
  have hheader := h.header_at hl hstage
  cases doCommit with
  | true =>
    have hlast := hproto.endLast hpcp hlg
    obtain ⟨-, ⟨-, -, rfl⟩ | ⟨hf, -⟩⟩ := Log.endOp_ok hlg
    · exact h.recount hl rfl hstage (by rw [hstage]; rfl) (by rw [hstage]; rfl) (by simp)
        rfl rfl rfl rfl ⟨_, hlast⟩ (fun _ _ => hclean) hheader
    · cases hf
  | false =>
    have hother := hproto.endOther hpcp hlg
    obtain ⟨-, ⟨hf, -⟩ | ⟨-, -, rfl⟩⟩ := Log.endOp_ok hlg
    · cases hf
    · refine h.recount hl rfl hstage (by rw [hstage]; rfl) (by rw [hstage]; rfl) (by simp)
        rfl rfl rfl rfl ⟨.ended p :: hh, ?_⟩ (fun _ _ => hclean) hheader
      rw [h.wake_update] at hother
      exact hother

/-- `commit()` had nothing to do. -/
theorem noCommit (hpc : l.pc = .commit) (hstage : l.stage = .idle) (hlh : s.log.lh = []) :
    KInv C s (update g p { l with pc := .committed }) := by
  refine h.recount hl rfl hstage (by rw [hstage]; rfl) (by rw [hstage]; rfl) (by simp)
    rfl rfl rfl rfl ?_ ?_ ?_
  · obtain ⟨hh, hproto⟩ := h.proto
    exact ⟨hh, hproto.move (by rw [pc_at hl hpc]; rfl)
      (by rw [pc_at hl hpc]; rfl) (by simp) (fun _ => hlh) (by simp)⟩
  · intro _ hc
    cases hc
  · exact h.header_at hl hstage

/-- The second section of `end_op`. -/
theorem endCommit (hpc : l.pc = .committed)
    (hstage : l.stage = .idle ∨ ∃ old, l.stage = .erased old)
    (hclean : ∀ y ∈ l.holds, y.dirty = false) :
    KInv C { s with log := s.log.endCommit }
      (update g p { l with pc := .idle, stage := .idle }) := by
  have hw : l.stage.written = 0 ∧ l.stage.unpinned = 0 := by
    rcases hstage with hs | ⟨old, hs⟩ <;> rw [hs] <;> exact ⟨rfl, rfl⟩
  refine h.recount hl rfl rfl hw.1 hw.2 (by simp) rfl rfl rfl rfl ?_ (fun _ _ => hclean) ?_
  · obtain ⟨hh, hproto⟩ := h.proto
    have hfin := hproto.finish (pc_at hl hpc hh)
    rw [h.wake_update] at hfin
    exact ⟨hh, hfin⟩
  · intro hother
    rcases hstage with hs | ⟨old, hs⟩
    · exact h.header_at hl hs hother
    · exact (h.stage_at hl hs).2.2.1

/-! ## `log_write` -/

/-- `log_write`, by the process that holds the buffer. -/
theorem logWrite {y : Hold} (hpc : l.pc = .inOp)
    (hnone : l.limbo = none) (hy : y ∈ l.holds) (hlog : ¬ C.InLog y.b) (hint : y.b < 2 ^ 32)
    (hcheck : s.log.logWriteCheck = .ok ()) :
    KInv C { s with
        log := (s.log.absorb y.b).1
        bc := if (s.log.absorb y.b).2 then s.bc.bpin y.i else s.bc
        hist := .logged y.b y.data :: s.hist }
      (update g p ⟨l.toHolding.setHold y.i y.data false, l.pc, l.stage⟩) := by
  subst hl
  have hopen : (g p).pc.opens = 1 := by rw [hpc]; rfl
  have hidle := h.all_idle hopen
  obtain ⟨hn, hfits, -⟩ := Log.logWriteCheck_ok hcheck
  set l' : Ghost := ⟨(g p).toHolding.setHold y.i y.data false, (g p).pc, (g p).stage⟩ with hl'
  have hpcs : ∀ q, (update g p l' q).pc = (g q).pc := comp_update_same rfl
  have hstages : ∀ q, (update g p l' q).stage = .idle := by
    have hsame : ∀ q, (update g p l' q).stage = (g q).stage := comp_update_same rfl
    intro q
    rw [hsame, hidle q]
  have hframe : (s.log.absorb y.b).1.dev = s.log.dev ∧
      (s.log.absorb y.b).1.start = s.log.start ∧ (s.log.absorb y.b).1.size = s.log.size := by
    unfold Log.absorb
    split <;> exact ⟨rfl, rfl, rfl⟩
  have hmem : ∀ b, b ∈ (s.log.absorb y.b).1.lh ↔ b ∈ s.log.lh ∨ b = y.b := Log.absorb_lh s.log y.b
  have hpinned : ∀ lh, pinned lh (update g p l') = lh := by
    intro lh
    simp [pinned, hstages, Stage.unpinned]
  exact {
    dev := hframe.1.trans h.dev
    start := hframe.2.1.trans h.start
    size := hframe.2.2.trans h.size
    proto := by
      -- the protocol checks and then writes
      obtain ⟨hh, hproto⟩ := h.proto
      have hmove : GroupCommit.Inv { protocol s g hh with
          pc := update (fun q => (g q).pc) p (.checked y.b) } :=
        hproto.move (by rw [protocol]; simp only; rw [hpc]; rfl)
          (by rw [protocol]; simp only; rw [hpc]; rfl) (by simp) (by simp) (by simp)
      have hpc' : update (fun q => (g q).pc) p (.checked y.b) p = .checked y.b := by
        simp
      have hwrite := hmove.write hpc'
      simp only [update_idem] at hwrite
      refine ⟨.wrote p y.b :: hh, ?_⟩
      unfold protocol
      rw [comp_update Ghost.pc, show l'.pc = .inOp from hpc]
      exact hwrite
    awake := fun q => by rw [hpcs]; exact h.awake q
    cache := by
      rw [hpinned, holding_update]
      have hold : pinned s.log.lh g = s.log.lh := by simp [pinned, hidle, Stage.unpinned]
      have hcache := h.cache
      rw [hold] at hcache
      have hpub : CacheInv s.bc (C.view s.disk (.logged y.b y.data :: s.hist)) s.log.lh
          (update (holding g) p ((holding g p).setHold y.i y.data false)) :=
        hcache.publish hy (fun b hb => by simp [Config.view, latest, Ne.symm hb])
          (by simp [Config.view, latest, hlog])
      by_cases hb : y.b ∈ s.log.lh
      · have habs : s.log.absorb y.b = (s.log, false) := by simp [Log.absorb, hb]
        simp only [habs, Bool.false_eq_true, if_false]
        exact hpub
      · have habs : s.log.absorb y.b = ({ s.log with lh := s.log.lh ++ [y.b] }, true) := by
          simp [Log.absorb, hb]
        simp only [habs, if_true]
        have hy' : (⟨y.i, y.b, y.data, false⟩ : Hold) ∈
            (update (holding g) p ((holding g p).setHold y.i y.data false) p).holds := by
          rw [update_self]
          exact Holding.mem_setHold.mpr (Or.inr ⟨rfl, rfl, rfl, y, hy, rfl, rfl⟩)
        have hpin := hpub.pin hy' (by rw [update_self]; exact hnone) hb
        exact hpin
    home := fun b hb hpend => by
      have hb' : b ∉ (s.log.absorb y.b).1.lh := by
        simpa [pending, hstages, Stage.written] using hpend
      rw [hmem] at hb'
      have hne : y.b ≠ b := fun hyb => hb' (Or.inr hyb.symm)
      simp only [latest, hne, if_false]
      refine h.home b hb ?_
      simp only [pending, hidle, Stage.written, Finset.sum_const_zero, drop_zero]
      exact fun hl => hb' (Or.inl hl)
    raw := h.raw
    lhOk := by
      have hlen : (s.log.absorb y.b).1.lh.length ≤ s.log.lh.length + 1 := by
        unfold Log.absorb
        split <;> simp
      refine ⟨?_, ?_, fun _ => ?_, ?_⟩
      · intro b hb
        rcases (hmem b).mp hb with hb | rfl
        · exact h.lhOk.outside b hb
        · exact hlog
      · intro b hb
        rcases (hmem b).mp hb with hb | rfl
        · exact h.lhOk.uint b hb
        · exact hint
      · have := h.size
        simp only
        omega
      · simp only
        omega
    clean := fun q => by
      by_cases hq : q = p
      · subst hq
        intro ho
        rw [hpcs, hopen] at ho
        cases ho
      · simpa [hq] using h.clean q
    staged := fun q hne => absurd (hstages q) hne
    stage := fun q => by
      rw [hstages]
      trivial
    header := fun _ => h.header hidle
    reads := h.reads }

end Process

/-- A step of the layer above. -/
theorem ext (h : KInv C s g) (m : M) : KInv C { s with mem := m } g where
  dev := h.dev
  start := h.start
  size := h.size
  proto := h.proto
  awake := h.awake
  cache := h.cache
  home := h.home
  raw := h.raw
  lhOk := h.lhOk
  clean := h.clean
  staged := h.staged
  stage := h.stage
  header := h.header
  reads := h.reads

end KInv

end Xv6
