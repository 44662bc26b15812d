/-
  Umalloc/Free.lean --- `free` keeps the free list in order and joins what touches.
-/
import Xv6.Umalloc.FreeList

set_option autoImplicit false

namespace Xv6.Umalloc

open Function List Foundation

/-! ## Stores -/

namespace Heap

variable (h : Heap) (p q n : Nat)

theorem setPtr_mem_self : (h.setPtr p q).mem p = ⟨q, (h.mem p).size⟩ := update_self ..

theorem setPtr_mem_of_ne {x : Nat} (hx : x ≠ p) : (h.setPtr p q).mem x = h.mem x :=
  update_of_ne hx ..

theorem setPtr_size (x : Nat) : ((h.setPtr p q).mem x).size = (h.mem x).size := by
  by_cases hx : x = p
  · rw [hx, setPtr_mem_self]
  · rw [setPtr_mem_of_ne _ _ _ hx]

theorem next_setPtr : (h.setPtr p q).next = update h.next p q := by
  funext x
  by_cases hx : x = p
  · rw [hx, update_self, next, setPtr_mem_self]
  · rw [update_of_ne hx, next, setPtr_mem_of_ne _ _ _ hx]
    rfl

theorem setSize_mem_self : (h.setSize p n).mem p = ⟨(h.mem p).ptr, n % 2 ^ 32⟩ :=
  update_self ..

theorem setSize_mem_of_ne {x : Nat} (hx : x ≠ p) : (h.setSize p n).mem x = h.mem x :=
  update_of_ne hx ..

theorem next_setSize : (h.setSize p n).next = h.next := by
  funext x
  by_cases hx : x = p
  · rw [hx, next, setSize_mem_self]
    rfl
  · rw [next, setSize_mem_of_ne _ _ _ hx]
    rfl

end Heap

/-- Two blocks that touch are one that is apart from what both are apart from. -/
theorem apart_joined {a b c : Block} (htouch : a.stop = b.addr) (hc : 0 < c.size)
    (ha : Apart c a) (hb : Apart c b) : Apart c ⟨a.addr, a.size + b.size⟩ := by
  unfold Apart Block.stop at *
  simp only [HDR] at *
  omega

theorem stop_joined {a b : Block} (htouch : a.stop = b.addr) :
    (⟨a.addr, a.size + b.size⟩ : Block).stop = b.stop := by
  unfold Block.stop at *
  simp only [HDR] at *
  omega

/-! ## The block above -/

section Join

variable {base : Nat} {h h₁ : Heap} {L R R' : List Block} {V : List Live} {b b' : Block}

/-- What has become of the block `b` and the blocks `R` above it. -/
structure Above (base : Nat) (h h₁ : Heap) (V : List Live) (b : Block) (R : List Block)
    (b' : Block) (R' : List Block) : Prop where
  addr : b'.addr = b.addr
  grown : b.stop ≤ b'.stop
  units : b'.size + total R' = b.size + total R
  suffix : R' <:+ R
  others : ∀ x, x ≠ b.addr → h₁.mem x = h.mem x
  header : h₁.mem b.addr = ⟨(addrs R').headD base, b'.size⟩
  same : h₁.brk = h.brk ∧ h₁.obtained = h.obtained
  gap : ∀ r ∈ R', b'.stop < r.addr
  below : b'.stop ≤ h.brk
  apart : ∀ v ∈ V, Apart v.block b'

theorem WF.next_last (hwf : WF base h (L ++ R) V) :
    h.next ((addrs L).getLastD base) = (addrs R).headD base := by
  have hring := hwf.ring
  rw [addrs_append, Chain.seg_append] at hring
  exact hring.1.next_last

theorem joinAbove_spec (hwf : WF base h (L ++ R) V) (hb : Loose base h (L ++ R) V b)
    (hcut : Cut b L R) (hsum : b.size + total R < 2 ^ 32) :
    ∃ b' R', Above base h (joinAbove h ((addrs L).getLastD base) b.addr) V b R b' R' := by
  have hnext := hwf.next_last
  have hsize := hb.placed.size
  obtain ⟨-, horder, -⟩ := pairwise_append.mp hwf.order
  rw [joinAbove, hnext, hsize]
  by_cases htouch : b.addr + HDR * b.size = (addrs R).headD base
  · rw [if_pos htouch]
    cases R with
    | nil =>
      -- `base` lies below every block
      have := hb.placed.above
      change b.addr + HDR * b.size = base at htouch
      rw [HDR] at *
      omega
    | cons r R =>
      have htouch : b.stop = r.addr := htouch
      have hr := hwf.free r (by simp)
      have hne : r.addr ≠ b.addr := by
        have := WF.addr_lt_stop hb.placed
        rw [HDR] at this
        omega
      rw [total_cons] at hsum
      have hrnext : h.next r.addr = (addrs R).headD base := by
        have hring := hwf.ring
        rw [addrs_append, addrs_cons, Chain.seg_append_cons] at hring
        exact (Chain.seg_iff.mp hring.2).1
      refine ⟨⟨b.addr, b.size + r.size⟩, R, ?_⟩
      have hstop := stop_joined htouch
      refine ⟨rfl, ?_, ?_, ⟨[r], rfl⟩, ?_, ?_, ⟨rfl, rfl⟩, ?_, ?_, ?_⟩
      · rw [hstop, htouch]
        exact Nat.le_add_right _ _
      · rw [total_cons]
        change b.size + r.size + total R = _
        omega
      · intro x hx
        rw [Heap.setPtr_mem_of_ne _ _ _ hx, Heap.setSize_mem_of_ne _ _ _ hx]
      · rw [Heap.setPtr_mem_self, Heap.setSize_mem_self]
        change Header.mk (h.next r.addr) ((b.size + (h.mem r.addr).size) % 2 ^ 32) = _
        rw [hrnext, hr.size, Nat.mod_eq_of_lt (by omega)]
      · intro r' hr'
        rw [hstop]
        exact (pairwise_cons.mp horder).1 r' hr'
      · rw [hstop]
        exact hr.below
      · intro v hv
        exact apart_joined htouch (hwf.live v hv).pos (hb.live v hv)
          (hwf.apart r (by simp) v hv).symm
  · rw [if_neg htouch]
    refine ⟨b, R, rfl, Nat.le_refl _, rfl, suffix_rfl, ?_, ?_, ⟨rfl, rfl⟩, ?_,
      hb.placed.below, hb.live⟩
    · exact fun x hx => Heap.setPtr_mem_of_ne _ _ _ hx
    · rw [Heap.setPtr_mem_self, hsize]
    · intro r hr
      cases R with
      | nil => exact absurd hr not_mem_nil
      | cons r₀ R =>
        have hr₀ : b.stop < r₀.addr := by
          have hle := hcut.above r₀ mem_cons_self
          have hne : b.stop ≠ r₀.addr := htouch
          omega
        rcases mem_cons.mp hr with rfl | hr
        · exact hr₀
        · have := (pairwise_cons.mp horder).1 r hr
          have : r₀.addr ≤ r₀.stop := Nat.le_add_right _ _
          omega

/-! ## The block below -/

/-- What `free` does to the free blocks. -/
structure Freed (base : Nat) (h h' : Heap) (F F' : List Block) (V : List Live) (b : Block) :
    Prop where
  wf : WF base h' F' V
  units : total F' = total F + b.size
  same : h'.brk = h.brk ∧ h'.obtained = h.obtained
  covered : ∃ c ∈ F', b.size ≤ c.size
  length : F'.length ≤ F.length + 1

section

variable (habove : Above base h h₁ V b R b' R')

include habove

/-- The parts of the invariant that do not depend on how the block was linked in. -/
theorem Above.facts (hwf : WF base h (L ++ R) V)
    (hb : Loose base h (L ++ R) V b) (hcut : Cut b L R) :
    (∀ r ∈ R', r ∈ R) ∧ (∀ l ∈ L, l.addr + HDR ≤ b.addr) ∧ (∀ r ∈ R', b.addr + HDR ≤ r.addr) ∧
      (∀ v ∈ V, v.block.addr ≠ b.addr) ∧ base ≠ b.addr ∧
      Chain.Run h₁.next (addrs R') base ∧ b.size ≤ b'.size := by
  have hbpos := WF.addr_lt_stop hb.placed
  have hsub : ∀ r ∈ R', r ∈ R := fun r hr => habove.suffix.subset hr
  have hR' : ∀ r ∈ R', b.addr + HDR ≤ r.addr := by
    intro r hr
    have := hcut.above r (hsub r hr)
    omega
  have hL : ∀ l ∈ L, l.addr + HDR ≤ b.addr := by
    intro l hl
    have := WF.addr_lt_stop (hwf.free l (mem_append_left _ hl))
    have := hcut.below l hl
    omega
  refine ⟨hsub, hL, hR', ?_, ?_, ?_, ?_⟩
  · intro v hv heq
    have := WF.addr_lt_stop (hwf.live v hv)
    have := hb.live v hv
    unfold Apart at this
    rw [HDR] at *
    omega
  · have := hb.placed.above
    rw [HDR] at this
    omega
  · have hring := hwf.ring
    rw [addrs_append, Chain.seg_append] at hring
    have hrun : Chain.Run h.next (addrs R') base := by
      obtain ⟨pre, rfl⟩ := habove.suffix
      have hrun := hring.2
      cases pre with
      | nil => exact hrun
      | cons c pre =>
        rw [cons_append, addrs_cons, addrs_append] at hrun
        exact (Chain.seg_append.mp hrun).2
    refine hrun.congr ?_
    intro x hx
    obtain ⟨r, hr, rfl⟩ := mem_addrs.mp hx
    have := hR' r hr
    rw [HDR] at this
    rw [Heap.next, Heap.next, habove.others r.addr (by omega)]
  · have hgrown := habove.grown
    have haddr := habove.addr
    unfold Block.stop at hgrown
    rw [HDR] at hgrown
    omega

/-- A block of the heap before, in one whose sizes are the same but at `b`. -/
theorem Above.placed {h' : Heap} {c : Block} (hc : Placed base h c) (hne : c.addr ≠ b.addr)
    (hsize : (h'.mem c.addr).size = (h₁.mem c.addr).size) (hbrk : h'.brk = h₁.brk) :
    Placed base h' c := by
  refine ⟨?_, hc.pos, hc.above, ?_⟩
  · rw [hsize, habove.others c.addr hne]
    exact hc.size
  · rw [hbrk, habove.same.1]
    exact hc.below

/-- The block is linked in between. -/
theorem link_spec (hwf : WF base h (L ++ R) V)
    (hb : Loose base h (L ++ R) V b) (hcut : Cut b L R) (hgap : ∀ l ∈ L, l.stop < b.addr) :
    WF base { h₁.setPtr ((addrs L).getLastD base) b.addr with freep := (addrs L).getLastD base }
      (L ++ b' :: R') V := by
  obtain ⟨hsub, hL, hR', hV, hbase, hrun, hgrown⟩ := habove.facts hwf hb hcut
  have hsize : ∀ x, ((h₁.setPtr ((addrs L).getLastD base) b.addr).mem x).size = (h₁.mem x).size :=
    Heap.setPtr_size _ _ _
  have hlastL : (addrs L).getLastD base ∈ base :: addrs L := Chain.getLastD_mem _ _
  have hlast : (addrs L).getLastD base < b.addr := by
    rcases mem_cons.mp hlastL with heq | hmem
    · have := hb.placed.above
      rw [heq]
      rw [HDR] at this
      omega
    · obtain ⟨l, hl, heq⟩ := mem_addrs.mp hmem
      have := hL l hl
      rw [HDR] at this
      omega
  have hpos := hb.placed.pos
  have hring := hwf.ring
  have hnodup := hwf.nodup
  rw [addrs_append] at hring hnodup
  obtain ⟨hlow, -⟩ := Chain.seg_append.mp hring
  refine ⟨?_, ?_, habove.same.1 ▸ hwf.brk, ?_, ?_, ?_, ?_, hwf.enough, ?_, hwf.liveApart⟩
  · change Chain.Seg (h₁.setPtr ((addrs L).getLastD base) b.addr).next _ _ _
    rw [addrs_append, addrs_cons, habove.addr, Heap.next_setPtr]
    refine Chain.seg_append_cons.mpr ⟨?_, Chain.seg_iff.mpr ⟨?_, ?_⟩⟩
    · refine (Chain.Seg.congr hlow ?_).set_last (hnodup.sublist (by simp)) b.addr
      intro x hx
      have hne : x ≠ b.addr := by
        rcases mem_cons.mp hx with rfl | hx
        · exact hbase
        · obtain ⟨l, hl, rfl⟩ := mem_addrs.mp hx
          have := hL l hl
          rw [HDR] at this
          omega
      rw [Heap.next, Heap.next, habove.others x hne]
    · rw [update_of_ne (by omega), Heap.next, habove.header]
    · refine hrun.congr ?_
      intro x hx
      obtain ⟨r, hr, rfl⟩ := mem_addrs.mp hx
      have := hR' r hr
      exact update_of_ne (by omega) ..
  · rw [hsize, habove.others base hbase]
    exact hwf.baseSize
  · intro c hc
    rcases mem_append.mp hc with hc | hc
    · have := hL c hc
      rw [HDR] at this
      exact habove.placed (hwf.free c (mem_append_left _ hc)) (by omega) (hsize _) rfl
    · rcases mem_cons.mp hc with rfl | hc
      · refine ⟨?_, by omega, ?_, ?_⟩
        · rw [hsize, habove.addr, habove.header]
        · rw [habove.addr]
          exact hb.placed.above
        · change c.stop ≤ h₁.brk
          rw [habove.same.1]
          exact habove.below
      · have := hR' c hc
        rw [HDR] at this
        exact habove.placed (hwf.free c (mem_append_right _ (hsub c hc))) (by omega)
          (hsize _) rfl
  · obtain ⟨hlowOrder, hhighOrder, hcross⟩ := pairwise_append.mp hwf.order
    refine pairwise_append.mpr ⟨hlowOrder, pairwise_cons.mpr ⟨habove.gap, ?_⟩, ?_⟩
    · exact hhighOrder.sublist habove.suffix.sublist
    · intro l hl c hc
      rcases mem_cons.mp hc with rfl | hc
      · rw [habove.addr]
        exact hgap l hl
      · exact hcross l hl c (hsub c hc)
  · change (addrs L).getLastD base ∈ _
    rw [addrs_append]
    rcases mem_cons.mp hlastL with heq | hmem
    · rw [heq]
      exact mem_cons_self
    · exact mem_cons_of_mem _ (mem_append_left _ hmem)
  · intro v hv
    exact habove.placed (hwf.live v hv) (hV v hv) (hsize _) rfl
  · intro c hc v hv
    rcases mem_append.mp hc with hc | hc
    · exact hwf.apart c (mem_append_left _ hc) v hv
    · rcases mem_cons.mp hc with rfl | hc
      · exact (habove.apart v hv).symm
      · exact hwf.apart c (mem_append_right _ (hsub c hc)) v hv

end

/-- The block is joined to the one below. -/
theorem merge_spec {l : Block} (habove : Above base h h₁ V b R b' R')
    (hwf : WF base h (L ++ [l] ++ R) V) (hb : Loose base h (L ++ [l] ++ R) V b)
    (hcut : Cut b (L ++ [l]) R) (htouch : l.stop = b.addr)
    (hsum : l.size + b'.size < 2 ^ 32) :
    WF base { (h₁.setSize l.addr (l.size + b'.size)).setPtr l.addr (h₁.next b.addr) with
        freep := l.addr } (L ++ ⟨l.addr, l.size + b'.size⟩ :: R') V := by
  obtain ⟨hsub, hL, hR', hV, hbase, hrun, hgrown⟩ := habove.facts hwf hb hcut
  have hl := hL l (by simp)
  have hlfree := hwf.free l (by simp)
  have hlpos := WF.addr_lt_stop hlfree
  have hlbase := hlfree.above
  have htouch' : l.stop = b'.addr := by rw [habove.addr, htouch]
  have hstop := stop_joined htouch'
  simp only [HDR] at hl hlbase hlpos
  obtain ⟨hlowOrder, hhighOrder, hcross⟩ := pairwise_append.mp hwf.order
  obtain ⟨hLOrder, -, hLl⟩ := pairwise_append.mp hlowOrder
  have hLlt : ∀ c ∈ L, c.addr < l.addr := by
    intro c hc
    have := hLl c hc l (mem_singleton_self _)
    have : c.addr ≤ c.stop := Nat.le_add_right _ _
    omega
  -- the sizes are those of before, but at the two blocks
  have hsize : ∀ x, x ≠ l.addr →
      (((h₁.setSize l.addr (l.size + b'.size)).setPtr l.addr (h₁.next b.addr)).mem x).size =
        (h₁.mem x).size := by
    intro x hx
    rw [Heap.setPtr_size, Heap.setSize_mem_of_ne _ _ _ hx]
  have hring := hwf.ring
  rw [addrs_append, addrs_append, addrs_cons, append_assoc] at hring
  obtain ⟨hlow, -⟩ := Chain.seg_append_cons.mp hring
  refine ⟨?_, ?_, habove.same.1 ▸ hwf.brk, ?_, ?_, ?_, ?_, hwf.enough, ?_, hwf.liveApart⟩
  · change Chain.Seg
      ((h₁.setSize l.addr (l.size + b'.size)).setPtr l.addr (h₁.next b.addr)).next _ _ _
    rw [addrs_append, addrs_cons, Heap.next_setPtr, Heap.next_setSize]
    refine Chain.seg_append_cons.mpr ⟨?_, Chain.seg_iff.mpr ⟨?_, ?_⟩⟩
    · refine hlow.congr ?_
      intro x hx
      have hne : x ≠ l.addr ∧ x ≠ b.addr := by
        rcases mem_cons.mp hx with rfl | hx
        · omega
        · obtain ⟨c, hc, rfl⟩ := mem_addrs.mp hx
          have := hLlt c hc
          omega
      rw [update_of_ne hne.1, Heap.next, Heap.next, habove.others x hne.2]
    · change update h₁.next l.addr (h₁.next b.addr) l.addr = _
      rw [update_self, Heap.next, habove.header]
    · refine hrun.congr ?_
      intro x hx
      obtain ⟨r, hr, rfl⟩ := mem_addrs.mp hx
      have := hR' r hr
      exact update_of_ne (by omega) ..
  · rw [hsize base (by omega), habove.others base hbase]
    exact hwf.baseSize
  · intro c hc
    rcases mem_append.mp hc with hc | hc
    · have := hLlt c hc
      exact habove.placed (hwf.free c (by simp [hc])) (by omega) (hsize _ (by omega)) rfl
    · rcases mem_cons.mp hc with rfl | hc
      · refine ⟨?_, ?_, hlfree.above, ?_⟩
        · change (((h₁.setSize l.addr _).setPtr l.addr _).mem l.addr).size = _
          rw [Heap.setPtr_size, Heap.setSize_mem_self]
          exact Nat.mod_eq_of_lt hsum
        · exact Nat.add_pos_left hlfree.pos _
        · rw [hstop]
          change b'.stop ≤ h₁.brk
          rw [habove.same.1]
          exact habove.below
      · have := hR' c hc
        rw [HDR] at this
        exact habove.placed (hwf.free c (mem_append_right _ (hsub c hc))) (by omega)
          (hsize _ (by omega)) rfl
  · refine pairwise_append.mpr ⟨hLOrder, pairwise_cons.mpr ⟨?_, ?_⟩, ?_⟩
    · intro r hr
      rw [hstop]
      exact habove.gap r hr
    · exact hhighOrder.sublist habove.suffix.sublist
    · intro c hc d hd
      rcases mem_cons.mp hd with rfl | hd
      · exact hLl c hc l (mem_singleton_self _)
      · exact hcross c (by simp [hc]) d (hsub d hd)
  · rw [addrs_append, addrs_cons]
    simp
  · intro v hv
    have hne : v.block.addr ≠ l.addr := by
      have hvpos := WF.addr_lt_stop (hwf.live v hv)
      have := hwf.apart l (by simp) v hv
      unfold Apart at this
      rw [HDR] at hvpos
      omega
    exact habove.placed (hwf.live v hv) (hV v hv) (hsize _ hne) rfl
  · intro c hc v hv
    rcases mem_append.mp hc with hc | hc
    · exact hwf.apart c (by simp [hc]) v hv
    · rcases mem_cons.mp hc with rfl | hc
      · exact (apart_joined htouch' (hwf.live v hv).pos (hwf.apart l (by simp) v hv).symm
          (habove.apart v hv)).symm
      · exact hwf.apart c (mem_append_right _ (hsub c hc)) v hv

theorem joinBelow_spec (habove : Above base h h₁ V b R b' R') (hwf : WF base h (L ++ R) V)
    (hb : Loose base h (L ++ R) V b) (hcut : Cut b L R)
    (hsum : total (L ++ R) + b.size < 2 ^ 32) :
    ∃ F', Freed base h
      { joinBelow h₁ ((addrs L).getLastD base) b.addr with freep := (addrs L).getLastD base }
      (L ++ R) F' V b := by
  obtain ⟨hsub, hL, hR', hV, hbase, hrun, hgrown⟩ := habove.facts hwf hb hcut
  have hunits := habove.units
  have hlen := habove.suffix.length_le
  rw [total_append] at hsum
  rcases eq_nil_or_concat L with rfl | ⟨L₁, l, hL₁⟩
  · -- nothing is below but `base`, which is empty
    have hfree := link_spec habove hwf hb hcut (fun _ h => absurd h not_mem_nil)
    have hno : ¬ (base + HDR * (h₁.mem base).size = b.addr) := by
      rw [habove.others base hbase, hwf.baseSize]
      omega
    refine ⟨[] ++ b' :: R', ?_, ?_, ?_, ⟨b', by simp, hgrown⟩, ?_⟩
    · change WF base { joinBelow h₁ base b.addr with freep := base } _ V
      rw [joinBelow, if_neg hno]
      exact hfree
    · rw [nil_append, nil_append, total_cons]
      omega
    · rw [joinBelow]
      split <;> exact habove.same
    · simp only [nil_append, length_cons]
      omega
  · rw [concat_eq_append] at hL₁
    subst hL₁
    have hlfree := hwf.free l (by simp)
    have hlast : (addrs (L₁ ++ [l])).getLastD base = l.addr := by
      rw [addrs_append, addrs_cons, Chain.getLastD_append]
      rfl
    have hlne : l.addr ≠ b.addr := by
      have := hL l (by simp)
      rw [HDR] at this
      omega
    have hlsize : (h₁.mem l.addr).size = l.size := by
      rw [habove.others l.addr hlne]
      exact hlfree.size
    have htotal : total (L₁ ++ [l]) = total L₁ + l.size := by
      rw [total_append, total_cons]
      rfl
    by_cases htouch : l.stop = b.addr
    · have hfree := merge_spec habove hwf hb hcut htouch (by omega)
      refine ⟨L₁ ++ ⟨l.addr, l.size + b'.size⟩ :: R', ?_, ?_, ?_,
        ⟨⟨l.addr, l.size + b'.size⟩, by simp, ?_⟩, ?_⟩
      · have hyes : l.addr + HDR * (h₁.mem l.addr).size = b.addr := by
          rw [hlsize]
          exact htouch
        rw [hlast, joinBelow, if_pos hyes, hlsize, habove.header]
        exact hfree
      · rw [total_append, total_append, total_cons, htotal]
        change total L₁ + (l.size + b'.size + total R') = _
        omega
      · rw [hlast, joinBelow]
        split <;> exact habove.same
      · change b.size ≤ l.size + b'.size
        omega
      · simp only [length_append, length_cons, length_nil]
        omega
    · have hgap : ∀ c ∈ L₁ ++ [l], c.stop < b.addr := by
        have hle := hcut.below l (by simp)
        intro c hc
        rcases mem_append.mp hc with hc | hc
        · obtain ⟨horder, -, -⟩ := pairwise_append.mp hwf.order
          obtain ⟨-, -, hlow⟩ := pairwise_append.mp horder
          have := hlow c hc l (mem_singleton_self _)
          have : l.addr ≤ l.stop := Nat.le_add_right _ _
          omega
        · rw [mem_singleton.mp hc]
          omega
      have hfree := link_spec habove hwf hb hcut hgap
      refine ⟨L₁ ++ [l] ++ b' :: R', ?_, ?_, ?_, ⟨b', by simp, hgrown⟩, ?_⟩
      · have hno : ¬ (l.addr + HDR * (h₁.mem l.addr).size = b.addr) := by
          rw [hlsize]
          exact htouch
        rw [hlast] at hfree ⊢
        rw [joinBelow, if_neg hno]
        exact hfree
      · rw [total_append _ (b' :: R'), total_append _ R, total_cons]
        omega
      · rw [hlast, joinBelow]
        split <;> exact habove.same
      · simp only [length_append, length_cons, length_nil]
        omega

/-- `free` comes to an end, and the block is on the free list or in a block of it. -/
theorem free_spec {F : List Block} (hwf : WF base h F V) (hb : Loose base h F V b)
    (hsum : total F + b.size < 2 ^ 32) {fuel : Nat} (hfuel : F.length + 1 < fuel) :
    ∃ h' F', free fuel h b.addr = some h' ∧ Freed base h h' F F' V b := by
  obtain ⟨L, R, rfl, hcut, hfind⟩ := find_between hwf hb.placed hb.free hfuel
  have hsumR : b.size + total R < 2 ^ 32 := by
    rw [total_append] at hsum
    omega
  obtain ⟨b', R', habove⟩ := joinAbove_spec hwf hb hcut hsumR
  obtain ⟨F', hfreed⟩ := joinBelow_spec habove hwf hb hcut hsum
  refine ⟨_, F', ?_, hfreed⟩
  rw [free, hfind]

end Join

end Xv6.Umalloc
