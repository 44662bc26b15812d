/-
  Cache/Steps.lean --- every step of `bio.c` keeps the invariant of the buffer
  cache.
-/
import Xv6.Cache.Invariant

set_option autoImplicit false

namespace Xv6.CacheInv

open Function List Foundation

variable {c c' : Bcache} {view view' : Nat → Block} {pinned pinned' : List Nat}
  {g : Pid → Holding} {p : Pid} {i : BufId} {b : Nat} {l : Holding}

theorem sum_refs_update (g : Pid → Holding) (p : Pid) (l : Holding) (i : BufId) :
    (∑ q, (update g p l q).refs i) + (g p).refs i = (∑ q, (g q).refs i) + l.refs i :=
  sum_update_add (fun l : Holding => l.refs i) g p l

/-! ## Reference counts -/

/-- Buffers that differ in their reference counts only. -/
def SameButRefcnt (c c' : Bcache) : Prop :=
  ∀ j, ∃ n, c'.buf j = { c.buf j with refcnt := n }

theorem SameButRefcnt.carries (hs : SameButRefcnt c c') {j : BufId} {b : Nat} :
    c'.Carries j b ↔ c.Carries j b := by
  obtain ⟨n, hn⟩ := hs j
  unfold Bcache.Carries
  rw [hn]

theorem SameButRefcnt.set (c : Bcache) (i : BufId) (n : Nat) :
    SameButRefcnt c (c.set i { c.buf i with refcnt := n }) := by
  intro j
  by_cases hj : j = i
  · subst hj; exact ⟨n, by simp⟩
  · exact ⟨(c.buf j).refcnt, by rw [Bcache.set_buf_ne _ _ hj]⟩

/-- Only reference counts change, and with them what is on its way in or out of one
process and what is pinned. -/
theorem recount (h : CacheInv c view pinned g) (hwf : c'.Wf) (hs : SameButRefcnt c c')
    (hholds : l.holds = (g p).holds)
    (hnew : ∀ x, l.limbo = some x → x.locked = false ∧ c.Carries x.i x.b)
    (hold : ∀ x, (g p).limbo = some x → x.locked = false)
    (hrefs : ∀ j, (c'.buf j).refcnt = (∑ q, (update g p l q).refs j) + c.pins pinned' j)
    (hcached : ∀ b ∈ pinned', b ∈ pinned ∨ ∃ i, c.Carries i b ∧ (c.buf i).valid = true) :
    CacheInv c' view pinned' (update g p l) := by
  have hlocks : ∀ j, l.Locks j ↔ (g p).Locks j := by
    intro j
    constructor
    · rintro (⟨x, hx, -, hl⟩ | hh)
      · rw [(hnew x hx).1] at hl; cases hl
      · exact Or.inr (hholds ▸ hh)
    · rintro (⟨x, hx, -, hl⟩ | hh)
      · rw [hold x hx] at hl; cases hl
      · exact Or.inr (hholds ▸ hh)
  have hpins : ∀ j, c'.pins pinned' j = c.pins pinned' j := by
    intro j
    obtain ⟨n, hn⟩ := hs j
    unfold Bcache.pins
    rw [hn]
  exact {
    wf := hwf
    refs := fun j => by rw [hpins, hrefs]
    locked := fun j q => by
      obtain ⟨n, hn⟩ := hs j
      rw [hn]
      by_cases hq : q = p
      · subst hq; simpa [hlocks] using h.locked j q
      · simpa [hq] using h.locked j q
    nodup := fun q => by
      by_cases hq : q = p
      · subst hq; simpa [hholds] using h.nodup q
      · simpa [hq] using h.nodup q
    fresh := fun q x hx hl => by
      by_cases hq : q = p
      · subst hq
        rw [update_self] at hx
        rw [(hnew x hx).1] at hl
        cases hl
      · simp only [update_of_ne hq] at hx ⊢
        exact h.fresh q x hx hl
    limbo := fun q x hx => by
      rw [hs.carries]
      by_cases hq : q = p
      · subst hq; exact (hnew x (by simpa using hx)).2
      · exact h.limbo q x (by simpa [hq] using hx)
    holds := fun q y hy => by
      have hy' : y ∈ (g q).holds := by
        by_cases hq : q = p
        · subst hq; simpa [hholds] using hy
        · simpa [hq] using hy
      obtain ⟨n, hn⟩ := hs y.i
      rw [hs.carries, hn]
      exact h.holds q y hy'
    coherent := fun j hdev hval hclean => by
      obtain ⟨n, hn⟩ := hs j
      rw [hn] at hdev hval ⊢
      refine h.coherent j hdev hval fun q y hy hyi => hclean q y ?_ hyi
      by_cases hq : q = p
      · subst hq; simpa [hholds] using hy
      · simpa [hq] using hy
    cached := fun b hb => by
      have hex : ∃ i, c.Carries i b ∧ (c.buf i).valid = true := by
        rcases hcached b hb with hb' | hb'
        · exact h.cached b hb'
        · exact hb'
      obtain ⟨j, hj, hv⟩ := hex
      obtain ⟨n, hn⟩ := hs j
      exact ⟨j, hs.carries.mpr hj, by rw [hn]; exact hv⟩ }

/-- A buffer in limbo counts once. -/
theorem refs_withLimbo {x : Holding} (hnone : x.limbo = none) (i : BufId) (b : Nat) (j : BufId) :
    (x.withLimbo (some ⟨i, b, false⟩)).refs j = x.refs j + if j = i then 1 else 0 := by
  by_cases hj : j = i
  · simp [Holding.refs, Holding.withLimbo, hnone, hj, Nat.add_comm]
  · simp [Holding.refs, Holding.withLimbo, hnone, hj, Ne.symm hj]

variable {y : Hold}

section

variable (h : CacheInv c view pinned g)

include h

/-- `bget` finds the block. -/
theorem bget_hit (hnone : (g p).limbo = none) (hi : c.Carries i b) :
    CacheInv (c.set i { c.buf i with refcnt := incr32 (c.buf i).refcnt }) view pinned
      (update g p ((g p).withLimbo (some ⟨i, b, false⟩))) := by
  refine h.recount (h.wf.set_same rfl rfl) (SameButRefcnt.set c _ _) rfl ?_ ?_ ?_
    (fun b hb => Or.inl hb)
  · intro x hx
    cases hx
    exact ⟨rfl, hi⟩
  · intro x hx
    rw [hnone] at hx
    cases hx
  · intro j
    have hsum := sum_refs_update g p ((g p).withLimbo (some ⟨i, b, false⟩)) j
    have hrefs := h.refs j
    by_cases hj : j = i
    · subst hj
      have hone := refs_withLimbo hnone j b j
      rw [if_pos rfl] at hone
      rw [Bcache.set_buf_self]
      simp only [h.incr_refcnt j]
      omega
    · have hsame := refs_withLimbo hnone i b j
      rw [if_neg hj] at hsame
      rw [Bcache.set_buf_ne _ _ hj]
      omega

/-- The second half of `brelse`. -/
theorem put (hx : (g p).limbo = some ⟨i, b, false⟩) :
    CacheInv (c.put i) view pinned (update g p ((g p).withLimbo none)) := by
  have hs : SameButRefcnt c (c.put i) := by
    intro j
    rw [Bcache.put_buf]
    by_cases hj : j = i
    · subst hj; exact ⟨_, by rw [if_pos rfl]⟩
    · exact ⟨(c.buf j).refcnt, by rw [if_neg hj]⟩
  refine h.recount (Bcache.wf_put h.wf i) hs rfl ?_ ?_ ?_ (fun b hb => Or.inl hb)
  · intro x hx
    cases hx
  · intro x hx'
    rw [hx] at hx'
    cases hx'
    rfl
  · intro j
    have hsum := sum_refs_update g p ((g p).withLimbo none) j
    have hrefs := h.refs j
    rw [Bcache.put_buf]
    by_cases hj : j = i
    · subst hj
      have hone : (g p).refs j = Holding.refs ((g p).withLimbo none) j + 1 := by
        simp [Holding.refs, Holding.withLimbo, hx, Nat.add_comm]
      have hpos : 1 ≤ (c.buf j).refcnt := h.refcnt_pos (p := p) (by omega)
      rw [if_pos rfl]
      simp only [decr_refcnt hpos]
      omega
    · have hsame : (g p).refs j = Holding.refs ((g p).withLimbo none) j := by
        simp [Holding.refs, Holding.withLimbo, hx, Ne.symm hj]
      rw [if_neg hj]
      omega

/-- The holder of a buffer changes its reference count as the pins of its block change. -/
theorem repin {n : Nat} (hy : y ∈ (g p).holds) (hnone : (g p).limbo = none)
    (hmem : ∀ x, x ≠ y.b → (x ∈ pinned' ↔ x ∈ pinned))
    (hn : n + c.pins pinned y.i = (c.buf y.i).refcnt + c.pins pinned' y.i) :
    CacheInv (c.set y.i { c.buf y.i with refcnt := n }) view pinned' g := by
  obtain ⟨hcar, hval, -⟩ := h.holds p y hy
  have hg : update g p (g p) = g := update_eq_self p g
  have hlimbo : ∀ x, (g p).limbo ≠ some x := fun x hx => by cases hnone.symm.trans hx
  rw [← hg]
  refine h.recount (h.wf.set_same rfl rfl) (SameButRefcnt.set c _ _) rfl
    (fun x hx => absurd hx (hlimbo x)) (fun x hx => absurd hx (hlimbo x)) ?_ ?_
  · intro j
    rw [hg]
    have hrefs := h.refs j
    by_cases hj : j = y.i
    · subst hj
      rw [Bcache.set_buf_self]
      dsimp only
      omega
    · have hpins : c.pins pinned' j = c.pins pinned j := by
        unfold Bcache.pins
        by_cases hdev : (c.buf j).dev = ROOTDEV
        · have hne : (c.buf j).blockno ≠ y.b := fun hb => hj (h.carries_unique ⟨hdev, hb⟩ hcar)
          simp only [hdev, true_and, hmem _ hne]
        · simp [hdev]
      rw [Bcache.set_buf_ne _ _ hj]
      omega
  · intro x hx
    by_cases hxb : x = y.b
    · exact Or.inr ⟨y.i, hxb ▸ hcar, hval⟩
    · exact Or.inl ((hmem x hxb).mp hx)

/-- `bpin`, by the process that holds the buffer. -/
theorem pin (hy : y ∈ (g p).holds) (hnone : (g p).limbo = none) (hb : y.b ∉ pinned) :
    CacheInv (c.bpin y.i) view (pinned ++ [y.b]) g := by
  obtain ⟨hcar, -⟩ := h.holds p y hy
  refine h.repin hy hnone (by intro x hx; simp [hx]) ?_
  have h0 : c.pins pinned y.i = 0 := by
    simp [Bcache.pins, hcar.2, hb]
  have h1 : c.pins (pinned ++ [y.b]) y.i = 1 := by
    simp [Bcache.pins, hcar.1, hcar.2]
  rw [h.incr_refcnt y.i, h0, h1]

/-- `bunpin`, by the process that holds the buffer. -/
theorem unpin (hy : y ∈ (g p).holds) (hnone : (g p).limbo = none) (hb : y.b ∈ pinned)
    (hb' : y.b ∉ pinned') (hmem : ∀ x, x ≠ y.b → (x ∈ pinned' ↔ x ∈ pinned)) :
    CacheInv (c.bunpin y.i) view pinned' g := by
  obtain ⟨hcar, -⟩ := h.holds p y hy
  refine h.repin hy hnone hmem ?_
  have h1 : c.pins pinned y.i = 1 := by
    simp [Bcache.pins, hcar.1, hcar.2, hb]
  have h0 : c.pins pinned' y.i = 0 := by
    simp [Bcache.pins, hcar.2, hb']
  have hrefs := h.refs y.i
  rw [decr_refcnt (by omega), h0, h1]
  omega

end

/-! ## Recycling -/

/-- `bget` recycles an unused buffer for a block nobody carries. -/
theorem bget_recycle (h : CacheInv c view pinned g) (hnone : (g p).limbo = none)
    (hnew : ∀ j, (c.buf j).dev = ROOTDEV → (c.buf j).blockno ≠ b)
    (h0 : (c.buf i).refcnt = 0) :
    CacheInv (c.set i { c.buf i with dev := ROOTDEV, blockno := b, valid := false, refcnt := 1 })
      view pinned (update g p ((g p).withLimbo (some ⟨i, b, false⟩))) := by
  obtain ⟨hrefs0, hpins0⟩ := h.refs_eq_zero h0
  have hnolock : ∀ q, ¬ (g q).Locks i := by
    intro q hq
    have := Holding.refs_pos_of_locks hq
    rw [hrefs0 q] at this
    omega
  have hnohold : ∀ q, ∀ y ∈ (g q).holds, y.i ≠ i := fun q y hy hi =>
    hnolock q (Or.inr ⟨y, hy, hi⟩)
  have hbpin : b ∉ pinned := by
    intro hb
    obtain ⟨j, hj, -⟩ := h.cached b hb
    exact hnew j hj.1 hj.2
  have hholds : ∀ q, (update g p ((g p).withLimbo (some ⟨i, b, false⟩)) q).holds = (g q).holds := by
    intro q
    by_cases hq : q = p
    · subst hq; simp [Holding.withLimbo]
    · simp [hq]
  exact {
    wf := h.wf.set_fresh rfl hnew
    refs := fun j => by
      have hsum := sum_refs_update g p ((g p).withLimbo (some ⟨i, b, false⟩)) j
      have hrefs := h.refs j
      by_cases hj : j = i
      · subst hj
        have hone := refs_withLimbo hnone j b j
        rw [if_pos rfl] at hone
        have hp : (c.set j { c.buf j with
            dev := ROOTDEV, blockno := b, valid := false, refcnt := 1 }).pins pinned j = 0 := by
          simp [Bcache.pins, hbpin]
        rw [hp, Bcache.set_buf_self]
        simp only
        omega
      · have hsame := refs_withLimbo hnone i b j
        rw [if_neg hj] at hsame
        unfold Bcache.pins
        rw [Bcache.set_buf_ne _ _ hj, hrefs]
        unfold Bcache.pins at *
        omega
    locked := fun j q => by
      have hiff : (update g p ((g p).withLimbo (some ⟨i, b, false⟩)) q).Locks j ↔
          (g q).Locks j := by
        unfold Holding.Locks
        rw [hholds]
        by_cases hq : q = p
        · subst hq; simp [Holding.withLimbo, hnone]
        · simp [hq]
      rw [hiff, ← h.locked j q]
      by_cases hj : j = i
      · subst hj; simp
      · rw [Bcache.set_buf_ne _ _ hj]
    nodup := fun q => by rw [hholds]; exact h.nodup q
    fresh := fun q x hx hl => by
      rw [hholds]
      by_cases hq : q = p
      · subst hq
        simp only [update_self, Holding.withLimbo, Option.some.injEq] at hx
        subst hx
        cases hl
      · exact h.fresh q x (by simpa [hq] using hx) hl
    limbo := fun q x hx => by
      by_cases hq : q = p
      · subst hq
        simp only [update_self, Holding.withLimbo, Option.some.injEq] at hx
        subst hx
        exact ⟨by simp, by simp⟩
      · have hx' : (g q).limbo = some x := by simpa [hq] using hx
        have hne : x.i ≠ i := by
          rintro rfl
          have := Holding.refs_pos_of_limbo hx'
          rw [hrefs0 q] at this
          omega
        have := h.limbo q x hx'
        unfold Bcache.Carries
        rw [Bcache.set_buf_ne _ _ hne]
        exact this
    holds := fun q y hy => by
      rw [hholds] at hy
      unfold Bcache.Carries
      rw [Bcache.set_buf_ne _ _ (hnohold q y hy)]
      exact h.holds q y hy
    coherent := fun j hdev hval hclean => by
      by_cases hj : j = i
      · subst hj; simp at hval
      · rw [Bcache.set_buf_ne _ _ hj] at hdev hval ⊢
        refine h.coherent j hdev hval fun q y hy => hclean q y ?_
        rw [hholds]
        exact hy
    cached := fun x hx => by
      obtain ⟨j, hj, hv⟩ := h.cached x hx
      have hne : j ≠ i := by
        rintro rfl
        unfold Bcache.pins at hpins0
        rw [if_pos ⟨hj.1, by rw [hj.2]; exact hx⟩] at hpins0
        cases hpins0
      refine ⟨j, ?_, ?_⟩
      · unfold Bcache.Carries
        rw [Bcache.set_buf_ne _ _ hne]
        exact hj
      · rw [Bcache.set_buf_ne _ _ hne]
        exact hv }

theorem bget (h : CacheInv c view pinned g) (hnone : (g p).limbo = none)
    (hb : c.bget ROOTDEV b = some (i, c')) :
    CacheInv c' view pinned (update g p ((g p).withLimbo (some ⟨i, b, false⟩))) := by
  rcases Bcache.bget_cases h.wf.all hb with ⟨hdev, hblk, rfl⟩ | ⟨hnew, h0, rfl⟩
  · exact h.bget_hit hnone ⟨hdev, hblk⟩
  · exact h.bget_recycle hnone hnew (by simpa using find?_some h0)

/-! ## Locks and data -/

section

variable (h : CacheInv c view pinned g)

include h

/-- One process changes the lock, the data or the valid flag of one buffer that no
other process holds, and with them what it has of that buffer. -/
theorem exchange {x : Buf} (hdev : x.dev = (c.buf i).dev) (hblk : x.blockno = (c.buf i).blockno)
    (hcnt : x.refcnt = (c.buf i).refcnt) (hval : (c.buf i).valid = true → x.valid = true)
    (hrefs : ∀ j, l.refs j = (g p).refs j)
    (hkeep : ∀ y : Hold, y.i ≠ i → (y ∈ l.holds ↔ y ∈ (g p).holds))
    (hlimbo : ∀ z : Limbo, z.i ≠ i → (l.limbo = some z ↔ (g p).limbo = some z))
    (hcar : ∀ z, l.limbo = some z → c.Carries z.i z.b)
    (hlock : x.lock = some p ↔ l.Locks i) (hothers : ∀ q, q ≠ p → x.lock ≠ some q)
    (hnolock : ∀ q, q ≠ p → ¬ (g q).Locks i) (hnodup : (l.holds.map Hold.i).Nodup)
    (hfresh : ∀ z, l.limbo = some z → z.locked = true → ∀ y ∈ l.holds, y.i ≠ z.i)
    (hhold : ∀ y ∈ l.holds, y.i = i → c.Carries i y.b ∧ x.valid = true ∧ x.data = y.data)
    (hcoh : (c.buf i).dev = ROOTDEV → x.valid = true →
      (∀ y ∈ l.holds, y.i = i → y.dirty = false) → x.data = view' (c.buf i).blockno)
    (hview : ∀ b, ¬ c.Carries i b → view' b = view b) :
    CacheInv (c.set i x) view' pinned (update g p l) := by
  have hcarries : ∀ j b, (c.set i x).Carries j b ↔ c.Carries j b := by
    intro j b
    unfold Bcache.Carries
    by_cases hj : j = i
    · subst hj; rw [Bcache.set_buf_self, hdev, hblk]
    · rw [Bcache.set_buf_ne _ _ hj]
  have hlocks : ∀ j, j ≠ i → (l.Locks j ↔ (g p).Locks j) := by
    intro j hj
    unfold Holding.Locks
    constructor
    · rintro (⟨z, hz, rfl, hl⟩ | ⟨y, hy, rfl⟩)
      · exact Or.inl ⟨z, (hlimbo z hj).mp hz, rfl, hl⟩
      · exact Or.inr ⟨y, (hkeep y hj).mp hy, rfl⟩
    · rintro (⟨z, hz, rfl, hl⟩ | ⟨y, hy, rfl⟩)
      · exact Or.inl ⟨z, (hlimbo z hj).mpr hz, rfl, hl⟩
      · exact Or.inr ⟨y, (hkeep y hj).mpr hy, rfl⟩
  exact {
    wf := h.wf.set_same hdev hblk
    refs := fun j => by
      have hsum := sum_refs_update g p l j
      have hold := h.refs j
      have hpins : (c.set i x).pins pinned j = c.pins pinned j := by
        unfold Bcache.pins
        by_cases hj : j = i
        · subst hj; rw [Bcache.set_buf_self, hdev, hblk]
        · rw [Bcache.set_buf_ne _ _ hj]
      have hcount : ((c.set i x).buf j).refcnt = (c.buf j).refcnt := by
        by_cases hj : j = i
        · subst hj; rw [Bcache.set_buf_self, hcnt]
        · rw [Bcache.set_buf_ne _ _ hj]
      rw [hpins, hcount]
      have := hrefs j
      omega
    locked := fun j q => by
      by_cases hj : j = i
      · subst hj
        rw [Bcache.set_buf_self]
        by_cases hq : q = p
        · subst hq; simpa using hlock
        · rw [update_of_ne hq]
          exact iff_of_false (hothers q hq) (hnolock q hq)
      · rw [Bcache.set_buf_ne _ _ hj, h.locked j q]
        by_cases hq : q = p
        · subst hq; simpa using (hlocks j hj).symm
        · rw [update_of_ne hq]
    nodup := fun q => by
      by_cases hq : q = p
      · subst hq; simpa using hnodup
      · simpa [hq] using h.nodup q
    fresh := fun q => by
      by_cases hq : q = p
      · subst hq; simpa using hfresh
      · simpa [hq] using h.fresh q
    limbo := fun q z hz => by
      rw [hcarries]
      by_cases hq : q = p
      · subst hq; exact hcar z (by simpa using hz)
      · exact h.limbo q z (by simpa [hq] using hz)
    holds := fun q y hy => by
      rw [hcarries]
      by_cases hi : y.i = i
      · rw [hi, Bcache.set_buf_self]
        by_cases hq : q = p
        · subst hq; exact hhold y (by simpa using hy) hi
        · exact absurd (Or.inr ⟨y, by simpa [hq] using hy, hi⟩) (hnolock q hq)
      · rw [Bcache.set_buf_ne _ _ hi]
        refine h.holds q y ?_
        by_cases hq : q = p
        · subst hq; exact (hkeep y hi).mp (by simpa using hy)
        · simpa [hq] using hy
    coherent := fun j hjdev hjval hclean => by
      by_cases hj : j = i
      · subst hj
        rw [Bcache.set_buf_self] at hjdev hjval ⊢
        rw [hblk]
        exact hcoh (hdev ▸ hjdev) hjval fun y hy => hclean p y (by simpa using hy)
      · rw [Bcache.set_buf_ne _ _ hj] at hjdev hjval ⊢
        rw [hview _ fun hc => hj (h.carries_unique ⟨hjdev, rfl⟩ hc)]
        refine h.coherent j hjdev hjval fun q y hy hyj => hclean q y ?_ hyj
        by_cases hq : q = p
        · subst hq; simpa using (hkeep y (hyj ▸ hj)).mpr hy
        · simpa [hq] using hy
    cached := fun b hb => by
      obtain ⟨j, hj, hv⟩ := h.cached b hb
      refine ⟨j, (hcarries j b).mpr hj, ?_⟩
      by_cases hji : j = i
      · subst hji; rw [Bcache.set_buf_self]; exact hval hv
      · rw [Bcache.set_buf_ne _ _ hji]; exact hv }

/-- `acquiresleep` on a free lock. -/
theorem acquire (hx : (g p).limbo = some ⟨i, b, false⟩) (hfree : (c.buf i).lock = none) :
    CacheInv (c.set i { c.buf i with lock := some p }) view pinned
      (update g p ((g p).withLimbo (some ⟨i, b, true⟩))) := by
  have hnolock : ∀ q, ¬ (g q).Locks i := by
    intro q hq
    rw [(h.locked i q).mpr hq] at hfree
    cases hfree
  have hcar : c.Carries i b := h.limbo p _ hx
  refine h.exchange rfl rfl rfl id ?_ (fun _ _ => Iff.rfl) ?_ ?_ ?_ ?_ (fun q _ => hnolock q)
    (h.nodup p) ?_ ?_ ?_ (fun _ _ => rfl)
  · intro j
    simp [Holding.refs, Holding.withLimbo, hx]
  · intro z hz
    simp only [Holding.withLimbo, hx, Option.some.injEq]
    constructor
    · rintro rfl; exact absurd rfl hz
    · rintro rfl; exact absurd rfl hz
  · intro z hz
    cases hz
    exact hcar
  · exact iff_of_true rfl (Or.inl ⟨⟨i, b, true⟩, rfl, rfl, rfl⟩)
  · intro q hq hp
    exact hq (Option.some.inj hp).symm
  · intro z hz _ y hy
    cases hz
    exact fun hi => hnolock p (Or.inr ⟨y, hy, hi⟩)
  · intro y hy hi
    exact absurd (Or.inr ⟨y, hy, hi⟩) (hnolock p)
  · intro hdev hval _
    exact h.coherent i hdev hval fun q y hy hi => absurd (Or.inr ⟨y, hy, hi⟩) (hnolock q)

/-- The rest of `bread`: the buffer has the current contents of its block, which on
disk is current unless the block is pinned. -/
theorem fill (hx : (g p).limbo = some ⟨i, b, true⟩)
    {dsk : Block} (hdsk : b ∉ pinned → dsk = view b) :
    (if (c.buf i).valid then (c.buf i).data else dsk) = view b ∧
    CacheInv (c.set i { c.buf i with
        valid := true, data := if (c.buf i).valid then (c.buf i).data else dsk })
      view pinned (update g p ((g p).take ⟨i, b, view b, false⟩)) := by
  have hlocks : (g p).Locks i := Or.inl ⟨_, hx, rfl, rfl⟩
  have hcar : c.Carries i b := h.limbo p _ hx
  have hnohold : ∀ y ∈ (g p).holds, y.i ≠ i := h.fresh p _ hx rfl
  have hdata : (if (c.buf i).valid then (c.buf i).data else dsk) = view b := by
    split
    · rename_i hv
      rw [h.coherent i hcar.1 hv, hcar.2]
      intro q y hy hi
      have hq : q = p := h.locks_unique hlocks (Or.inr ⟨y, hy, hi⟩)
      subst hq
      exact absurd hi (hnohold y hy)
    · rename_i hv
      refine hdsk fun hb => ?_
      obtain ⟨j, hj, hvj⟩ := h.cached b hb
      rw [h.carries_unique hj hcar] at hvj
      exact hv hvj
  refine ⟨hdata, ?_⟩
  rw [hdata]
  refine h.exchange rfl rfl rfl (fun _ => rfl) ?_ ?_ ?_ ?_ ?_ ?_ ?_ ?_ ?_ ?_ ?_ (fun _ _ => rfl)
  · intro j
    by_cases hj : j = i
    · subst hj
      simp [Holding.refs, Holding.take, hx, Nat.add_comm]
    · simp [Holding.refs, Holding.take, hx, Ne.symm hj]
  · intro y hi
    simp only [Holding.take, mem_cons]
    constructor
    · rintro (rfl | hy)
      · exact absurd rfl hi
      · exact hy
    · exact Or.inr
  · intro z hz
    simp only [Holding.take, hx, Option.some.injEq]
    constructor
    · intro h; cases h
    · rintro rfl; exact absurd rfl hz
  · intro z hz
    cases hz
  · exact iff_of_true ((h.locked i p).mpr hlocks) (Or.inr ⟨_, mem_cons_self, rfl⟩)
  · intro q hq hp
    exact hq (h.locks_unique hlocks ((h.locked i q).mp hp))
  · intro q hq hp
    exact hq (h.locks_unique hlocks hp)
  · refine nodup_cons.mpr ⟨?_, h.nodup p⟩
    simp only [mem_map, not_exists, not_and]
    exact hnohold
  · intro z hz
    cases hz
  · intro y hy hi
    rcases mem_cons.mp hy with rfl | hy
    · exact ⟨hcar, rfl, rfl⟩
    · exact absurd hi (hnohold y hy)
  · intro _ _ _
    rw [hcar.2]

/-- The first half of `brelse`, of a buffer whose data is current. -/
theorem release (hy : y ∈ (g p).holds) (hclean : y.dirty = false) (hnone : (g p).limbo = none) :
    CacheInv (c.set y.i { c.buf y.i with lock := none }) view pinned
      (update g p ((g p).drop y)) := by
  have hlocks : (g p).Locks y.i := Or.inr ⟨y, hy, rfl⟩
  obtain ⟨hcar, hval, hdata⟩ := h.holds p y hy
  have honly : ∀ y' ∈ (g p).holds, y'.i = y.i → y' = y := by
    intro y' hy' hi
    exact inj_on_of_nodup_map (h.nodup p) hy' hy hi
  have hgone : ∀ y' ∈ ((g p).drop y).holds, y'.i ≠ y.i := by
    intro y' hy'
    simpa using (mem_filter.mp hy').2
  refine h.exchange rfl rfl rfl id ?_ ?_ ?_ ?_ ?_ ?_ ?_ ?_ ?_ ?_ ?_ (fun _ _ => rfl)
  · intro j
    by_cases hj : j = y.i
    · subst hj
      have hone : (g p).holds.countP (fun x => decide (x.i = y.i)) = 1 := by
        have hle := nodup_iff_count_le_one.mp (h.nodup p) y.i
        rw [List.count, countP_map] at hle
        have hpos : 0 < (g p).holds.countP (fun x => decide (x.i = y.i)) :=
          countP_pos_iff.mpr ⟨y, hy, by simp⟩
        have heq : (g p).holds.countP ((· == y.i) ∘ Hold.i) =
            (g p).holds.countP (fun x => decide (x.i = y.i)) := by
          congr 1
        omega
      have hzero : ((g p).drop y).holds.countP (fun x => decide (x.i = y.i)) = 0 := by
        rw [countP_eq_zero]
        intro x hx
        simpa using hgone x hx
      unfold Holding.refs
      rw [hone, hzero, hnone]
      simp [Holding.drop]
    · unfold Holding.refs
      rw [hnone]
      simp only [Holding.drop, Ne.symm hj, if_false, countP_filter]
      congr 1
      apply countP_congr
      intro x _
      by_cases hx : x.i = j
      · simp [hx, hj]
      · simp [hx]
  · intro x hx
    simp [Holding.drop, mem_filter, hx]
  · intro z hz
    simp only [Holding.drop, hnone, Option.some.injEq]
    constructor
    · rintro rfl; exact absurd rfl hz
    · intro h; cases h
  · intro z hz
    cases hz
    exact hcar
  · refine iff_of_false (by simp) ?_
    rintro (⟨z, hz, -, hl⟩ | ⟨x, hx, hxi⟩)
    · cases hz; cases hl
    · exact hgone x hx hxi
  · intro q _
    simp
  · intro q hq hp
    exact hq (h.locks_unique hlocks hp)
  · exact (h.nodup p).sublist (filter_sublist.map _)
  · intro z hz hl
    cases hz
    cases hl
  · intro x hx hi
    exact absurd hi (hgone x hx)
  · intro hdev _ _
    refine h.coherent y.i hdev hval fun q x hx hi => ?_
    have hq : q = p := h.locks_unique hlocks (Or.inr ⟨x, hx, hi⟩)
    subst hq
    rw [honly x hx hi]
    exact hclean

/-- The holder changes the data, and with `dirty` false the change is also one of
the block's current contents. -/
theorem write (hy : y ∈ (g p).holds) {d : Block} {dirty : Bool}
    (hview : ∀ b, b ≠ y.b → view' b = view b) (hd : dirty = false → view' y.b = d) :
    CacheInv (c.set y.i { c.buf y.i with data := d }) view' pinned
      (update g p ((g p).setHold y.i d dirty)) := by
  have hlocks : (g p).Locks y.i := Or.inr ⟨y, hy, rfl⟩
  obtain ⟨hcar, hval, -⟩ := h.holds p y hy
  have honly : ∀ y' ∈ (g p).holds, y'.i = y.i → y' = y := by
    intro y' hy' hi
    exact inj_on_of_nodup_map (h.nodup p) hy' hy hi
  refine h.exchange rfl rfl rfl id (Holding.refs_setHold _ _ · _ _) ?_
    (fun _ _ => Iff.rfl) (h.limbo p) ?_ ?_ ?_ ?_ ?_ ?_ ?_ ?_
  · intro x hx
    rw [Holding.mem_setHold]
    constructor
    · rintro (⟨hx', -⟩ | ⟨-, -, hi, -⟩)
      · exact hx'
      · exact absurd hi hx
    · exact fun hx' => Or.inl ⟨hx', hx⟩
  · rw [Holding.locks_setHold]
    exact h.locked y.i p
  · intro q hq hp
    exact hq (h.locks_unique hlocks ((h.locked y.i q).mp hp))
  · intro q hq hp
    exact hq (h.locks_unique hlocks hp)
  · rw [Holding.setHold_map_i]
    exact h.nodup p
  · intro z hz hl x hx
    rcases Holding.mem_setHold.mp hx with ⟨hx', -⟩ | ⟨-, -, hi, -⟩
    · exact h.fresh p z hz hl x hx'
    · rw [hi]
      exact h.fresh p z hz hl y hy
  · intro x hx hi
    rcases Holding.mem_setHold.mp hx with ⟨-, hne⟩ | ⟨hxd, -, -, w, hw, hwi, hwb⟩
    · exact absurd hi hne
    · rw [honly w hw hwi] at hwb
      exact ⟨hwb ▸ hcar, hval, hxd.symm⟩
  · intro _ _ hcl
    rw [hcar.2]
    exact (hd (hcl ⟨y.i, y.b, d, dirty⟩
      (Holding.mem_setHold.mpr (Or.inr ⟨rfl, rfl, rfl, y, hy, rfl, rfl⟩)) rfl)).symm
  · intro b hb
    exact hview b fun hb' => hb (hb' ▸ hcar)

end

end Xv6.CacheInv
