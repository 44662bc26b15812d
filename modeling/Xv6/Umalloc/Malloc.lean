/-
  Umalloc/Malloc.lean --- `malloc`, and programs that use it.

  The loop of `malloc` looks at every node once before it is back at `freep`.  After
  `morecore` there is a block that is big enough, so it asks for memory at most once.
-/
import Xv6.Umalloc.Free

set_option autoImplicit false

namespace Xv6.Umalloc

open List Foundation

/-! ## The search -/

section Search

variable {base : Nat} {h : Heap} {F : List Block} {V : List Live}

/-- Along the nodes `P`, of which the last is `freep`: a block that is big enough is
found, or the loop is back at `freep`. -/
theorem mallocLoop_path (nunits : Nat) {P : List Nat} {a e : Nat} (hseg : Chain.Seg h.next a P e)
    (hne : P ≠ []) (hend : ∀ P' q, P = P' ++ [q] → q = h.freep) (hfreep : h.freep ∉ P.dropLast)
    {fuel k : Nat} (hfuel : P.length + k ≤ fuel) (gaps : List (Option Nat)) :
    (∃ P₁ b P₂, P = P₁ ++ b :: P₂ ∧ nunits ≤ (h.mem b).size ∧
      mallocLoop nunits fuel gaps a (h.next a) h =
        some (some (takeBlock h nunits (P₁.getLastD a) b).1,
          (takeBlock h nunits (P₁.getLastD a) b).2)) ∨
    ((∀ b ∈ P, (h.mem b).size < nunits) ∧ ∃ fuel' prevp, k ≤ fuel' ∧
      mallocLoop nunits fuel gaps a (h.next a) h =
        mallocLoop nunits (fuel' + 1) gaps prevp h.freep h) := by
  induction P generalizing a fuel with
  | nil => exact absurd rfl hne
  | cons b P ih =>
    rw [length_cons] at hfuel
    obtain ⟨fuel, rfl⟩ : ∃ k, fuel = k + 1 := ⟨fuel - 1, by omega⟩
    obtain ⟨hab, hseg⟩ := hseg
    rw [hab]
    by_cases hfit : nunits ≤ (h.mem b).size
    · refine .inl ⟨[], b, P, rfl, hfit, ?_⟩
      rw [mallocLoop, if_pos hfit]
      rfl
    · cases P with
      | nil =>
        have hb : b = h.freep := hend [] b rfl
        refine .inr ⟨?_, fuel, a, ?_, by rw [hb]⟩
        · intro c hc
          rw [mem_singleton.mp hc]
          omega
        · simp only [length_nil] at hfuel
          omega
      | cons c P =>
        have hb : b ≠ h.freep := by
          rintro rfl
          exact hfreep (by simp)
        have hloop : mallocLoop nunits (fuel + 1) gaps a b h =
            mallocLoop nunits fuel gaps b (h.next b) h := by
          rw [mallocLoop, if_neg hfit, if_neg hb]
        rw [hloop]
        have hend' : ∀ P' q, c :: P = P' ++ [q] → q = h.freep := by
          intro P' q hP
          exact hend (b :: P') q (by rw [hP]; rfl)
        have hfreep' : h.freep ∉ (c :: P).dropLast := by
          intro hmem
          exact hfreep (by rw [dropLast_cons_of_ne_nil (cons_ne_nil _ _)]
                           exact mem_cons_of_mem _ hmem)
        have hfuel' : (c :: P).length + k ≤ fuel := by omega
        rcases ih hseg (cons_ne_nil _ _) hend' hfreep' hfuel' with
          ⟨P₁, d, P₂, hP, hd, hrun⟩ | ⟨hnone, fuel', prevp, hk, hrun⟩
        · refine .inl ⟨b :: P₁, d, P₂, by rw [hP]; rfl, hd, ?_⟩
          rw [hrun, getLastD_cons]
        · refine .inr ⟨?_, fuel', prevp, hk, hrun⟩
          intro d hd
          rcases mem_cons.mp hd with rfl | hd
          · omega
          · exact hnone d hd

/-- The loop, started at `freep`: a block that is big enough is found, with the node in
front of it, or there is none. -/
theorem mallocLoop_search {nunits : Nat} (hwf : WF base h F V) (hpos : 0 < nunits) {fuel k : Nat}
    (hfuel : F.length + 1 + k ≤ fuel) (gaps : List (Option Nat)) :
    (∃ L b R, F = L ++ b :: R ∧ nunits ≤ b.size ∧
      mallocLoop nunits fuel gaps h.freep (h.next h.freep) h =
        some (some (takeBlock h nunits ((addrs L).getLastD base) b.addr).1,
          (takeBlock h nunits ((addrs L).getLastD base) b.addr).2)) ∨
    ((∀ b ∈ F, b.size < nunits) ∧ ∃ fuel' prevp, k ≤ fuel' ∧
      mallocLoop nunits fuel gaps h.freep (h.next h.freep) h =
        mallocLoop nunits (fuel' + 1) gaps prevp h.freep h) := by
  obtain ⟨L', R', hsplit, hlast⟩ := Chain.exists_split hwf.freep
  obtain ⟨L, R, rfl, rfl, rfl⟩ := map_eq_append_iff.mp hsplit
  have hlast : (addrs L).getLastD base = h.freep := hlast
  have hring := hwf.ring
  have hnodup := hwf.nodup
  rw [addrs_append] at hring hnodup
  have hpath := hring.rotate
  rw [hlast] at hpath
  -- `freep` is the last node of the path, and nowhere before
  have hlastNode : (addrs R ++ base :: addrs L).getLastD 0 = h.freep := by
    rw [Chain.getLastD_append, hlast]
  have hpathNodup : (addrs R ++ base :: addrs L).Nodup := by
    have hperm : (base :: (addrs L ++ addrs R)).Perm (addrs R ++ base :: addrs L) := by
      rw [← cons_append]
      exact perm_append_comm
    exact hperm.nodup_iff.mp hnodup
  have hsplitLast : ∀ P' q, addrs R ++ base :: addrs L = P' ++ [q] → q = h.freep := by
    intro P' q hP
    rw [hP, Chain.getLastD_append] at hlastNode
    exact hlastNode
  have hnot : h.freep ∉ (addrs R ++ base :: addrs L).dropLast := by
    obtain ⟨P', q, hP⟩ : ∃ P' q, addrs R ++ base :: addrs L = P' ++ [q] := by
      rcases eq_nil_or_concat (addrs R ++ base :: addrs L) with hnil | ⟨P', q, hP⟩
      · simp at hnil
      · exact ⟨P', q, by rw [hP, concat_eq_append]⟩
    rw [hP, dropLast_concat, ← hsplitLast P' q hP]
    rw [hP] at hpathNodup
    intro hmem
    exact (nodup_append.mp hpathNodup).2.2 q hmem q (mem_singleton_self _) rfl
  have hlen : (addrs R ++ base :: addrs L).length + k ≤ fuel := by
    simp only [addrs, length_append, length_cons, length_map] at hfuel ⊢
    omega
  rcases mallocLoop_path nunits hpath (by simp) hsplitLast hnot hlen gaps with
    ⟨P₁, a, P₂, hP, hfit, hrun⟩ | ⟨hnone, fuel', prevp, hk, hrun⟩
  · left
    rcases append_eq_append_iff.mp hP with ⟨Q, hP₁, hQ⟩ | ⟨Q, hR, hQ⟩
    · -- the block is behind the wrap
      cases Q with
      | nil =>
        -- it is not `base`, whose size is zero
        rw [nil_append] at hQ
        obtain ⟨rfl, -⟩ := List.cons.inj hQ
        rw [hwf.baseSize] at hfit
        omega
      | cons c Q =>
        rw [cons_append] at hQ
        obtain ⟨rfl, hL⟩ := List.cons.inj hQ
        obtain ⟨L₁, L₂, rfl, hL₁, hL₂⟩ := map_eq_append_iff.mp hL
        obtain ⟨b, L₂, rfl, rfl, rfl⟩ := map_eq_cons_iff.mp hL₂
        have hbsize := (hwf.free b (by simp)).size
        refine ⟨L₁, b, L₂ ++ R, by simp, by omega, ?_⟩
        rw [hrun, hP₁, Chain.getLastD_append, ← hL₁]
        rfl
    · cases Q with
      | nil =>
        rw [nil_append] at hQ
        obtain ⟨rfl, -⟩ := List.cons.inj hQ
        rw [hwf.baseSize] at hfit
        omega
      | cons c Q =>
        rw [cons_append] at hQ
        obtain ⟨rfl, -⟩ := List.cons.inj hQ
        obtain ⟨R₁, R₂, rfl, hR₁, hR₂⟩ := map_eq_append_iff.mp hR
        obtain ⟨b, R₂, rfl, rfl, rfl⟩ := map_eq_cons_iff.mp hR₂
        have hbsize := (hwf.free b (by simp)).size
        refine ⟨L ++ R₁, b, R₂, by simp, by omega, ?_⟩
        have hprev : (addrs (L ++ R₁)).getLastD base = P₁.getLastD h.freep := by
          rw [← hR₁, ← hlast, addrs_append]
          exact Chain.getLastD_getLastD _ _ _
        rw [hrun, hprev]
  · right
    refine ⟨?_, fuel', prevp, hk, hrun⟩
    intro b hb
    have hmem : b.addr ∈ addrs R ++ base :: addrs L := by
      rcases mem_append.mp hb with hb | hb
      · exact mem_append_right _ (mem_cons_of_mem _ (mem_addrs.mpr ⟨b, hb, rfl⟩))
      · exact mem_append_left _ (mem_addrs.mpr ⟨b, hb, rfl⟩)
    have := hnone b.addr hmem
    rw [(hwf.free b hb).size] at this
    exact this

end Search

/-! ## Taking a block -/

section Take

variable {base nunits : Nat} {h h' : Heap} {F L R : List Block} {V : List Live} {b : Block}

/-- The sizes of the blocks are what they were. -/
theorem Placed.keep {c : Block} (hc : Placed base h c)
    (hsize : (h'.mem c.addr).size = (h.mem c.addr).size) (hbrk : h.brk ≤ h'.brk) :
    Placed base h' c :=
  ⟨hsize.trans hc.size, hc.pos, hc.above, hc.below.trans hbrk⟩

theorem Apart.addr_ne {a c : Block} (h : Apart a c) (ha : Placed base h' a)
    (hc : Placed base h' c) :
    a.addr ≠ c.addr := by
  have h₁ := WF.addr_lt_stop ha
  have h₂ := WF.addr_lt_stop hc
  unfold Apart at h
  rw [HDR] at h₁ h₂
  omega

/-- A block that leaves the free list. -/
structure TakenOut (base : Nat) (h h' : Heap) (F F' : List Block) (V : List Live) (v : Block) :
    Prop where
  wf : WF base h' F' V
  loose : Loose base h' F' V v
  units : total F' + v.size = total F
  same : h'.brk = h.brk ∧ h'.obtained = h.obtained

/-- The whole block is taken. -/
theorem takeAll_spec (hwf : WF base h (L ++ b :: R) V) : TakenOut base h
      { h.setPtr ((addrs L).getLastD base) (h.next b.addr) with freep := (addrs L).getLastD base }
      (L ++ b :: R) (L ++ R) V b := by
  have hsize : ∀ x, ((h.setPtr ((addrs L).getLastD base) (h.next b.addr)).mem x).size =
      (h.mem x).size := Heap.setPtr_size _ _ _
  have hb := hwf.free b (by simp)
  have hsub : ∀ c ∈ L ++ R, c ∈ L ++ b :: R := by
    intro c hc
    rcases mem_append.mp hc with hc | hc <;> simp [hc]
  have hring := hwf.ring
  have hnodup := hwf.nodup
  rw [addrs_append, addrs_cons] at hring hnodup
  obtain ⟨hlow, hhigh⟩ := Chain.seg_append_cons.mp hring
  obtain ⟨hnext, hrun⟩ := Chain.seg_iff.mp hhigh
  have hlastL : (addrs L).getLastD base ∈ base :: addrs L := Chain.getLastD_mem _ _
  obtain ⟨hlowOrder, hhighOrder, hcross⟩ := pairwise_append.mp hwf.order
  obtain ⟨hbR, hROrder⟩ := pairwise_cons.mp hhighOrder
  refine ⟨⟨?_, ?_, hwf.brk, ?_, ?_, ?_, ?_, hwf.enough, ?_, hwf.liveApart⟩, ⟨?_, ?_, ?_⟩, ?_,
    ⟨rfl, rfl⟩⟩
  · change Chain.Seg (h.setPtr ((addrs L).getLastD base) (h.next b.addr)).next _ _ _
    rw [addrs_append, Heap.next_setPtr, hnext]
    refine Chain.seg_append.mpr ⟨?_, ?_⟩
    · exact hlow.set_last (hnodup.sublist (by simp)) _
    · refine hrun.congr ?_
      intro x hx
      -- a node above is none of those below
      have hne : x ≠ (addrs L).getLastD base := by
        rintro rfl
        rw [← cons_append] at hnodup
        exact (nodup_append.mp hnodup).2.2 _ hlastL _ (mem_cons_of_mem _ hx) rfl
      exact Function.update_of_ne hne ..
  · rw [hsize]
    exact hwf.baseSize
  · intro c hc
    exact (hwf.free c (hsub c hc)).keep (hsize _) (Nat.le_refl _)
  · refine pairwise_append.mpr ⟨hlowOrder, hROrder, ?_⟩
    exact fun l hl r hr => hcross l hl r (mem_cons_of_mem _ hr)
  · change (addrs L).getLastD base ∈ _
    rw [addrs_append]
    rcases mem_cons.mp hlastL with heq | hmem
    · rw [heq]
      exact mem_cons_self
    · exact mem_cons_of_mem _ (mem_append_left _ hmem)
  · exact fun v hv => (hwf.live v hv).keep (hsize _) (Nat.le_refl _)
  · exact fun c hc v hv => hwf.apart c (hsub c hc) v hv
  · exact hb.keep (hsize _) (Nat.le_refl _)
  · intro c hc
    rcases mem_append.mp hc with hc | hc
    · exact .inl (hcross c hc b mem_cons_self).le
    · exact .inr (hbR c hc).le
  · exact fun v hv => (hwf.apart b (by simp) v hv).symm
  · rw [total_append, total_append, total_cons]
    omega

/-- The block is split, and its upper end is taken. -/
theorem takeTail_spec (hwf : WF base h (L ++ b :: R) V) (hpos : 0 < nunits) (hlt : nunits < b.size)
    (hmax : b.size < 2 ^ 32) :
    TakenOut base h
      { (h.setSize b.addr (b.size - nunits)).setSize (b.addr + HDR * (b.size - nunits)) nunits with
        freep := (addrs L).getLastD base }
      (L ++ b :: R) (L ++ ⟨b.addr, b.size - nunits⟩ :: R) V
      ⟨b.addr + HDR * (b.size - nunits), nunits⟩ := by
  have hb := hwf.free b (by simp)
  have hstop : b.stop = b.addr + HDR * (b.size - nunits) + HDR * nunits := by
    rw [Block.stop, Nat.add_assoc, ← Nat.mul_add]
    congr 2
    omega
  have hgap : b.addr + HDR ≤ b.addr + HDR * (b.size - nunits) := by
    rw [HDR]
    omega
  have htail : b.addr + HDR * (b.size - nunits) + HDR ≤ b.stop := by
    rw [hstop, HDR]
    omega
  generalize htdef : b.addr + HDR * (b.size - nunits) = t at hstop hgap htail ⊢
  have hbabove := hb.above
  obtain ⟨hlowOrder, hhighOrder, hcross⟩ := pairwise_append.mp hwf.order
  obtain ⟨hbR, hROrder⟩ := pairwise_cons.mp hhighOrder
  rw [HDR] at hgap htail hbabove
  -- the sizes are what they were, but at the two halves
  have hsize : ∀ x, x ≠ b.addr → x ≠ t →
      (((h.setSize b.addr (b.size - nunits)).setSize t nunits).mem x).size = (h.mem x).size := by
    intro x hx hx'
    rw [Heap.setSize_mem_of_ne _ _ _ hx', Heap.setSize_mem_of_ne _ _ _ hx]
  have hLow : ∀ l ∈ L, l.addr < b.addr ∧ Placed base h l := by
    intro l hl
    have hl' := hwf.free l (by simp [hl])
    have := WF.addr_lt_stop hl'
    have := hcross l hl b mem_cons_self
    exact ⟨by omega, hl'⟩
  have hHigh : ∀ r ∈ R, t < r.addr ∧ Placed base h r := by
    intro r hr
    have := hbR r hr
    exact ⟨by omega, hwf.free r (by simp [hr])⟩
  have hVne : ∀ v ∈ V, v.block.addr ≠ b.addr ∧ v.block.addr ≠ t := by
    intro v hv
    have hapart := hwf.apart b (by simp) v hv
    have hv' := WF.addr_lt_stop (hwf.live v hv)
    rw [HDR] at hv'
    unfold Apart at hapart
    omega
  have hnext : ({ (h.setSize b.addr (b.size - nunits)).setSize t nunits with
      freep := (addrs L).getLastD base } : Heap).next = h.next := by
    change ((h.setSize b.addr (b.size - nunits)).setSize t nunits).next = h.next
    rw [Heap.next_setSize, Heap.next_setSize]
  have hhead : (⟨b.addr, b.size - nunits⟩ : Block).stop = t := htdef
  have htailStop : (⟨t, nunits⟩ : Block).stop = b.stop := hstop.symm
  refine ⟨⟨?_, ?_, hwf.brk, ?_, ?_, ?_, ?_, hwf.enough, ?_, hwf.liveApart⟩, ⟨?_, ?_, ?_⟩, ?_,
    ⟨rfl, rfl⟩⟩
  · rw [hnext]
    have hring := hwf.ring
    rw [addrs_append, addrs_cons] at hring ⊢
    exact hring
  · rw [hsize base (by omega) (by omega)]
    exact hwf.baseSize
  · intro c hc
    rcases mem_append.mp hc with hc | hc
    · obtain ⟨hlt', hc⟩ := hLow c hc
      exact hc.keep (hsize _ (by omega) (by omega)) (Nat.le_refl _)
    · rcases mem_cons.mp hc with rfl | hc
      · refine ⟨?_, ?_, hb.above, ?_⟩
        · rw [Heap.setSize_mem_of_ne _ _ _ (show b.addr ≠ t by omega), Heap.setSize_mem_self]
          exact Nat.mod_eq_of_lt (by omega)
        · change 0 < b.size - nunits
          omega
        · have := hb.below
          rw [hhead]
          change t ≤ h.brk
          omega
      · obtain ⟨hlt', hc⟩ := hHigh c hc
        exact hc.keep (hsize _ (by omega) (by omega)) (Nat.le_refl _)
  · refine pairwise_append.mpr ⟨hlowOrder, pairwise_cons.mpr ⟨?_, hROrder⟩, ?_⟩
    · intro r hr
      rw [hhead]
      exact (hHigh r hr).1
    · intro l hl c hc
      rcases mem_cons.mp hc with rfl | hc
      · exact hcross l hl b mem_cons_self
      · exact hcross l hl c (mem_cons_of_mem _ hc)
  · change (addrs L).getLastD base ∈ _
    rw [addrs_append]
    rcases mem_cons.mp (Chain.getLastD_mem (addrs L) base) with heq | hmem
    · rw [heq]
      exact mem_cons_self
    · exact mem_cons_of_mem _ (mem_append_left _ hmem)
  · intro v hv
    exact (hwf.live v hv).keep (hsize _ (hVne v hv).1 (hVne v hv).2) (Nat.le_refl _)
  · intro c hc v hv
    rcases mem_append.mp hc with hc | hc
    · exact hwf.apart c (by simp [hc]) v hv
    · rcases mem_cons.mp hc with rfl | hc
      · have hapart := hwf.apart b (by simp) v hv
        unfold Apart at hapart ⊢
        rw [hhead]
        change t ≤ v.block.addr ∨ v.block.stop ≤ b.addr
        omega
      · exact hwf.apart c (by simp [hc]) v hv
  · refine ⟨?_, hpos, ?_, ?_⟩
    · change (((h.setSize b.addr _).setSize t nunits).mem t).size = nunits
      rw [Heap.setSize_mem_self]
      exact Nat.mod_eq_of_lt (by omega)
    · change base + HDR ≤ t
      rw [HDR]
      omega
    · rw [htailStop]
      exact hb.below
  · intro c hc
    unfold Apart
    rw [htailStop]
    change c.stop ≤ t ∨ b.stop ≤ c.addr
    rcases mem_append.mp hc with hc | hc
    · have := hcross c hc b mem_cons_self
      omega
    · rcases mem_cons.mp hc with rfl | hc
      · exact .inl hhead.le
      · exact .inr (hbR c hc).le
  · intro v hv
    have hapart := hwf.apart b (by simp) v hv
    unfold Apart at hapart ⊢
    rw [htailStop]
    change v.block.stop ≤ t ∨ b.stop ≤ v.block.addr
    omega
  · rw [total_append, total_append, total_cons, total_cons]
    change total L + (b.size - nunits + total R) + nunits = _
    omega

/-- A block of the size asked for is taken. -/
theorem takeBlock_spec (hwf : WF base h (L ++ b :: R) V) (hpos : 0 < nunits)
    (hfit : nunits ≤ b.size) (hmax : b.size < 2 ^ 32) :
    ∃ F' v, (takeBlock h nunits ((addrs L).getLastD base) b.addr).1 = v.addr + HDR ∧
      v.size = nunits ∧ F'.length ≤ (L ++ b :: R).length ∧
      TakenOut base h (takeBlock h nunits ((addrs L).getLastD base) b.addr).2
        (L ++ b :: R) F' V v := by
  have hsize := (hwf.free b (by simp)).size
  rw [takeBlock, hsize]
  by_cases hall : b.size = nunits
  · rw [if_pos hall]
    exact ⟨L ++ R, b, rfl, hall, by simp, takeAll_spec hwf⟩
  · have htail := takeTail_spec hwf hpos (by omega) hmax
    have hread : ((h.setSize b.addr (b.size - nunits)).mem b.addr).size = b.size - nunits := by
      rw [Heap.setSize_mem_self]
      exact Nat.mod_eq_of_lt (by omega)
    rw [if_neg hall]
    dsimp only
    rw [hread]
    exact ⟨_, _, rfl, rfl, by simp, htail⟩

end Take

end Xv6.Umalloc
