/-
  Umalloc/FreeList.lean --- the free list, and `free`.

  The free blocks are a list in address order with gaps between them.  In memory they
  are a circular list through `base`, which `freep` points into anywhere.
-/
import Xv6.Umalloc.Machine

set_option autoImplicit false

namespace Xv6.Umalloc

open List Foundation

/-! ## Blocks -/

/-- Blocks that have no byte in common. -/
def Apart (a b : Block) : Prop := a.stop ≤ b.addr ∨ b.stop ≤ a.addr

theorem Apart.symm {a b : Block} (h : Apart a b) : Apart b a := Or.symm h

/-- The headers in all of the blocks. -/
def total (F : List Block) : Nat := (F.map Block.size).sum

theorem total_append (F G : List Block) : total (F ++ G) = total F + total G := by
  rw [total, map_append, sum_append]
  rfl

theorem total_cons (b : Block) (F : List Block) : total (b :: F) = b.size + total F := by
  rw [total, map_cons, sum_cons]
  rfl

/-- The addresses of the blocks. -/
def addrs (F : List Block) : List Nat := F.map Block.addr

theorem addrs_append (F G : List Block) : addrs (F ++ G) = addrs F ++ addrs G := map_append

theorem addrs_cons (b : Block) (F : List Block) : addrs (b :: F) = b.addr :: addrs F := rfl

theorem mem_addrs {F : List Block} {a : Nat} : a ∈ addrs F ↔ ∃ b ∈ F, b.addr = a := mem_map

/-! ## The invariant -/

/-- A block in its place: with its size in its header, above `base`, in a region. -/
structure Placed (base : Nat) (h : Heap) (b : Block) : Prop where
  size : (h.mem b.addr).size = b.size
  pos : 0 < b.size
  above : base + HDR ≤ b.addr
  below : b.stop ≤ h.brk

/-- The heap `h`, with the free blocks `F` and the live blocks `V`. -/
structure WF (base : Nat) (h : Heap) (F : List Block) (V : List Live) : Prop where
  ring : Chain.Seg h.next base (addrs F) base
  baseSize : (h.mem base).size = 0
  brk : base + HDR ≤ h.brk
  free : ∀ b ∈ F, Placed base h b
  /-- in order, and no block ends where the next one begins -/
  order : F.Pairwise fun a b => a.stop < b.addr
  freep : h.freep ∈ base :: addrs F
  live : ∀ v ∈ V, Placed base h v.block
  enough : ∀ v ∈ V, units v.nbytes ≤ v.block.size
  apart : ∀ b ∈ F, ∀ v ∈ V, Apart b v.block
  liveApart : V.Pairwise fun v w => Apart v.block w.block

namespace WF

variable {base : Nat} {h : Heap} {F : List Block} {V : List Live}

theorem addr_lt_stop {b : Block} (hb : Placed base h b) : b.addr + HDR ≤ b.stop := by
  have := hb.pos
  rw [Block.stop, HDR]
  omega

theorem base_lt (hwf : WF base h F V) {a : Nat} (ha : a ∈ addrs F) : base + HDR ≤ a := by
  obtain ⟨b, hb, rfl⟩ := mem_addrs.mp ha
  exact (hwf.free b hb).above

/-- The nodes of the list are different. -/
theorem nodup (hwf : WF base h F V) : (base :: addrs F).Nodup := by
  refine nodup_cons.mpr ⟨?_, ?_⟩
  · intro hmem
    have := hwf.base_lt hmem
    rw [HDR] at this
    omega
  · rw [addrs, List.Nodup, pairwise_map]
    refine List.Pairwise.imp_of_mem ?_ hwf.order
    intro a b ha hb hab heq
    have := addr_lt_stop (hwf.free a ha)
    omega

end WF

/-- A block that is neither free nor live. -/
structure Loose (base : Nat) (h : Heap) (F : List Block) (V : List Live) (b : Block) : Prop where
  placed : Placed base h b
  free : ∀ f ∈ F, Apart f b
  live : ∀ v ∈ V, Apart v.block b

/-! ## The place of a block in the list -/

/-- `L` lies below the block and `R` above it. -/
structure Cut (b : Block) (L R : List Block) : Prop where
  below : ∀ l ∈ L, l.stop ≤ b.addr
  above : ∀ r ∈ R, b.stop ≤ r.addr

theorem exists_cut {F : List Block} {b : Block} (horder : F.Pairwise fun a b => a.stop < b.addr)
    (hapart : ∀ f ∈ F, Apart f b) : ∃ L R, F = L ++ R ∧ Cut b L R := by
  induction F with
  | nil => exact ⟨[], [], rfl, fun _ h => absurd h not_mem_nil, fun _ h => absurd h not_mem_nil⟩
  | cons f F ih =>
    obtain ⟨hf, horder⟩ := pairwise_cons.mp horder
    rcases hapart f mem_cons_self with hbelow | habove
    · obtain ⟨L, R, rfl, hcut⟩ := ih horder fun g hg => hapart g (mem_cons_of_mem _ hg)
      refine ⟨f :: L, R, rfl, ?_, hcut.above⟩
      intro l hl
      rcases mem_cons.mp hl with rfl | hl
      · exact hbelow
      · exact hcut.below l hl
    · refine ⟨[], f :: F, rfl, fun _ h => absurd h not_mem_nil, ?_⟩
      intro r hr
      rcases mem_cons.mp hr with rfl | hr
      · exact habove
      · have := hf r hr
        have : f.addr ≤ f.stop := Nat.le_add_right _ _
        omega

section Search

variable {base : Nat} {h : Heap} {F : List Block} {V : List Live} {b : Block}

theorem between_iff {bp p : Nat} : between h bp p = true ↔
    (p < bp ∧ bp < h.next p) ∨ (h.next p ≤ p ∧ (p < bp ∨ bp < h.next p)) := by
  simp only [between, Bool.or_eq_true, Bool.and_eq_true, decide_eq_true_eq]

/-- At the place of the block the loop of `free` stops. -/
theorem Cut.between {L R : List Block} (hcut : Cut b L R) (hwf : WF base h (L ++ R) V)
    (hb : Placed base h b) : between h b.addr ((addrs L).getLastD base) = true := by
  have hring := hwf.ring
  rw [addrs_append, Chain.seg_append] at hring
  have hnext : h.next ((addrs L).getLastD base) = (addrs R).headD base := hring.1.next_last
  have hlast : base ≤ (addrs L).getLastD base ∧ (addrs L).getLastD base < b.addr := by
    have habove := hb.above
    rcases mem_cons.mp (Chain.getLastD_mem (addrs L) base) with heq | hmem
    · rw [heq]
      rw [HDR] at habove
      omega
    · have hbase := hwf.base_lt (by rw [addrs_append]; exact mem_append_left _ hmem)
      obtain ⟨l, hl, heq⟩ := mem_addrs.mp hmem
      have hstop := hcut.below l hl
      have hpos := WF.addr_lt_stop (hwf.free l (mem_append_left _ hl))
      rw [HDR] at hpos hbase
      omega
  rw [between_iff, hnext]
  cases R with
  | nil => exact .inr ⟨hlast.1, .inl hlast.2⟩
  | cons r R =>
    have habove := hcut.above r mem_cons_self
    have hpos := WF.addr_lt_stop hb
    rw [HDR] at hpos
    have hlt : b.addr < r.addr := by omega
    exact .inl ⟨hlast.2, hlt⟩

/-- Where the loop of `free` stops is the place of the block. -/
theorem cut_of_between {p : Nat} (hwf : WF base h F V) (hb : Placed base h b)
    (hapart : ∀ f ∈ F, Apart f b) (hp : p ∈ base :: addrs F) (hstop : between h b.addr p = true) :
    ∃ L R, F = L ++ R ∧ (addrs L).getLastD base = p ∧ Cut b L R := by
  obtain ⟨L', R', hsplit, hlast⟩ := Chain.exists_split hp
  obtain ⟨L, R, rfl, rfl, rfl⟩ := map_eq_append_iff.mp hsplit
  have hlast : (addrs L).getLastD base = p := hlast
  refine ⟨L, R, rfl, hlast, ?_⟩
  have hring := hwf.ring
  rw [addrs_append, Chain.seg_append] at hring
  have hnext : h.next p = (addrs R).headD base := by
    rw [← hlast]
    exact hring.1.next_last
  have hbase := hb.above
  have hpos := WF.addr_lt_stop hb
  rw [HDR] at hbase hpos
  obtain ⟨-, -, hgap⟩ := pairwise_append.mp hwf.order
  -- the block is between the two it was found between
  have hplace : p < b.addr ∧ ∀ r R', R = r :: R' → b.addr < r.addr := by
    rw [between_iff, hnext] at hstop
    cases R with
    | nil =>
      refine ⟨?_, fun r R' h => by cases h⟩
      change (p < b.addr ∧ b.addr < base) ∨ (base ≤ p ∧ (p < b.addr ∨ b.addr < base)) at hstop
      omega
    | cons r R =>
      change (p < b.addr ∧ b.addr < r.addr) ∨ (r.addr ≤ p ∧ (p < b.addr ∨ b.addr < r.addr)) at hstop
      have hlt : p < r.addr := by
        have hr :=
          hwf.base_lt (by rw [addrs_append, addrs_cons]; simp : r.addr ∈ addrs (L ++ r :: R))
        rw [HDR] at hr
        rw [← hlast]
        rcases mem_cons.mp (Chain.getLastD_mem (addrs L) base) with heq | hmem
        · rw [heq]
          omega
        · obtain ⟨l, hl, heq⟩ := mem_addrs.mp hmem
          have := hgap l hl r mem_cons_self
          have : l.addr ≤ l.stop := Nat.le_add_right _ _
          omega
      refine ⟨by omega, ?_⟩
      intro r' R' heq
      cases heq
      omega
  obtain ⟨hp, hr⟩ := hplace
  refine ⟨?_, ?_⟩
  · -- the last of the lower ones is `p`, and all others are below it
    intro l hl
    obtain ⟨L₁, l', rfl⟩ : ∃ L₁ l', L = L₁ ++ [l'] := by
      rcases eq_nil_or_concat L with rfl | ⟨L₁, l', hL⟩
      · exact absurd hl not_mem_nil
      · exact ⟨L₁, l', by rw [hL, concat_eq_append]⟩
    have hlast' : l'.addr = p := by
      rw [← hlast, addrs_append, addrs_cons, Chain.getLastD_append]
      rfl
    have hl'stop : l'.stop ≤ b.addr := by
      have hmem : l' ∈ (L₁ ++ [l']) ++ R := by simp
      have := WF.addr_lt_stop (hwf.free l' hmem)
      rcases hapart l' hmem with h | h
      · exact h
      · omega
    rcases mem_append.mp hl with hl | hl
    · obtain ⟨horder, -, -⟩ := pairwise_append.mp hwf.order
      obtain ⟨-, -, hlow⟩ := pairwise_append.mp horder
      have := hlow l hl l' (mem_singleton_self _)
      have : l'.addr ≤ l'.stop := Nat.le_add_right _ _
      omega
    · rw [mem_singleton.mp hl]
      exact hl'stop
  · intro r hr'
    cases R with
    | nil => exact absurd hr' not_mem_nil
    | cons r₀ R =>
      have hr₀ := hr r₀ R rfl
      have hr₀stop : b.stop ≤ r₀.addr := by
        have hmem : r₀ ∈ L ++ r₀ :: R := by simp
        have := WF.addr_lt_stop (hwf.free r₀ hmem)
        rcases hapart r₀ hmem with h | h
        · omega
        · exact h
      rcases mem_cons.mp hr' with rfl | hr'
      · exact hr₀stop
      · obtain ⟨-, horder, -⟩ := pairwise_append.mp hwf.order
        have := (pairwise_cons.mp horder).1 r hr'
        have : r₀.addr ≤ r₀.stop := Nat.le_add_right _ _
        omega

/-- The loop of `free` comes to an end, at the place of the block. -/
theorem find_between (hwf : WF base h F V) (hb : Placed base h b) (hapart : ∀ f ∈ F, Apart f b)
    {fuel : Nat} (hfuel : F.length + 1 < fuel) :
    ∃ L R, F = L ++ R ∧ Cut b L R ∧
      Chain.find h.next (between h b.addr) fuel h.freep = some ((addrs L).getLastD base) := by
  obtain ⟨L', R', hsplit, hlast⟩ := Chain.exists_split hwf.freep
  have hring := hwf.ring
  rw [hsplit] at hring
  have hpath := hring.rotate
  rw [hlast] at hpath
  -- the path from `freep` goes through all nodes
  have hnodes : ∀ x, x ∈ h.freep :: (R' ++ base :: L') ↔ x ∈ base :: addrs F := by
    intro x
    rw [hsplit]
    have := hlast ▸ Chain.getLastD_mem L' base
    simp only [mem_cons, mem_append] at this ⊢
    constructor
    · rintro (rfl | h | h | h) <;> tauto
    · tauto
  have hexists : ∃ x ∈ h.freep :: (R' ++ base :: L'), between h b.addr x = true := by
    obtain ⟨L, R, rfl, hcut⟩ := exists_cut hwf.order hapart
    refine ⟨(addrs L).getLastD base, (hnodes _).mpr ?_, hcut.between hwf hb⟩
    have hmem := Chain.getLastD_mem (addrs L) base
    rw [addrs_append]
    rcases mem_cons.mp hmem with heq | hmem
    · rw [heq]
      exact mem_cons_self
    · exact mem_cons_of_mem _ (mem_append_left _ hmem)
  have hlen : (R' ++ base :: L').length < fuel := by
    have := congrArg List.length hsplit
    simp only [addrs, length_map, length_append] at this
    simp only [length_append, length_cons]
    omega
  obtain ⟨p, hp, hstop, hfind⟩ := hpath.find hexists hlen
  obtain ⟨L, R, hF, hlastL, hcut⟩ := cut_of_between hwf hb hapart ((hnodes p).mp hp) hstop
  refine ⟨L, R, hF, hcut, ?_⟩
  rw [hlastL]
  exact hfind

end Search

end Xv6.Umalloc
