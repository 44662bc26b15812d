/-
  Umalloc/Sound.lean --- programs that use `malloc` and `free`.

  As long as `sbrk` has given out fewer than `2 ^ 32` headers in all, which is what a
  `size` can count, the heap of a program that frees only what it holds is in order
  after every call.
-/
import Mathlib.Data.List.Pairwise
import Xv6.Foundation.Runs
import Xv6.Umalloc.Malloc

set_option autoImplicit false

namespace Xv6.Umalloc

open List Foundation

/-- The headers in the live blocks. -/
def liveTotal (V : List Live) : Nat := total (V.map Live.block)

theorem liveTotal_cons (v : Live) (V : List Live) :
    liveTotal (v :: V) = v.block.size + liveTotal V := by
  rw [liveTotal, map_cons, total_cons]
  rfl

/-- The heap is in order, and no header of it is lost. -/
structure Kept (base : Nat) (h : Heap) (F : List Block) (V : List Live) : Prop where
  wf : WF base h F V
  units : total F + liveTotal V = h.obtained

/-- What `morecore` asks for. -/
def request (nunits : Nat) : Nat := if nunits < 4096 then 4096 else nunits

theorem le_request (nunits : Nat) : nunits ≤ request nunits ∧ 0 < request nunits := by
  rw [request]
  split <;> omega

variable {nbytes : UInt32}

section Calls

variable {base nunits : Nat} {h : Heap} {F : List Block} {V : List Live}

theorem WF.addLive {v : Block} (hwf : WF base h F V) (hv : Loose base h F V v)
    (henough : units nbytes ≤ v.size) : WF base h F (⟨v, nbytes⟩ :: V) := by
  refine ⟨hwf.ring, hwf.baseSize, hwf.brk, hwf.free, hwf.order, hwf.freep, ?_, ?_, ?_, ?_⟩
  · intro w hw
    rcases mem_cons.mp hw with rfl | hw
    · exact hv.placed
    · exact hwf.live w hw
  · intro w hw
    rcases mem_cons.mp hw with rfl | hw
    · exact henough
    · exact hwf.enough w hw
  · intro b hb w hw
    rcases mem_cons.mp hw with rfl | hw
    · exact hv.free b hb
    · exact hwf.apart b hb w hw
  · refine pairwise_cons.mpr ⟨?_, hwf.liveApart⟩
    exact fun w hw => (hv.live w hw).symm

/-! ## `morecore` -/

/-- The region that `sbrk` returns, with its size in its header. -/
theorem sbrk_spec (hwf : WF base h F V) {nu : Nat} (hpos : 0 < nu) (hmax : nu < 2 ^ 32)
    (gap : Nat) :
    WF base ((sbrk h nu gap).2.setSize (h.brk + gap) nu) F V ∧
      Loose base ((sbrk h nu gap).2.setSize (h.brk + gap) nu) F V ⟨h.brk + gap, nu⟩ := by
  have hbrk := hwf.brk
  have hlow : ∀ c, Placed base h c → c.addr < h.brk + gap ∧ c.stop ≤ h.brk + gap := by
    intro c hc
    have := WF.addr_lt_stop hc
    have := hc.below
    rw [HDR] at *
    omega
  have hsize : ∀ x < h.brk + gap,
      (((sbrk h nu gap).2.setSize (h.brk + gap) nu).mem x).size = (h.mem x).size := by
    intro x hx
    rw [Heap.setSize_mem_of_ne _ _ _ (by omega)]
    rfl
  have hle : h.brk ≤ ((sbrk h nu gap).2.setSize (h.brk + gap) nu).brk := by
    change h.brk ≤ h.brk + gap + HDR * nu
    omega
  refine ⟨⟨?_, ?_, hbrk.trans hle, ?_, hwf.order, hwf.freep, ?_, hwf.enough, hwf.apart,
    hwf.liveApart⟩, ⟨?_, ?_, ?_, Nat.le_refl _⟩, ?_, ?_⟩
  · rw [Heap.next_setSize]
    exact hwf.ring
  · rw [HDR] at hbrk
    rw [hsize base (by omega)]
    exact hwf.baseSize
  · exact fun c hc => (hwf.free c hc).keep (hsize _ (hlow c (hwf.free c hc)).1) hle
  · exact fun v hv => (hwf.live v hv).keep (hsize _ (hlow _ (hwf.live v hv)).1) hle
  · change (((sbrk h nu gap).2.setSize (h.brk + gap) nu).mem (h.brk + gap)).size = nu
    rw [Heap.setSize_mem_self]
    exact Nat.mod_eq_of_lt hmax
  · exact hpos
  · change base + HDR ≤ h.brk + gap
    omega
  · exact fun c hc => .inl (hlow c (hwf.free c hc)).2
  · exact fun v hv => .inl (hlow _ (hwf.live v hv)).2

theorem morecore_spec (hkept : Kept base h F V) (hmax : h.obtained + request nunits < 2 ^ 32)
    {fuel : Nat} (hfuel : F.length + 1 < fuel) (gap : Nat) :
    ∃ h' F', morecore fuel h nunits gap = some h' ∧ Kept base h' F' V ∧
      h'.obtained = h.obtained + request nunits ∧ (∃ c ∈ F', nunits ≤ c.size) ∧
      F'.length ≤ F.length + 1 := by
  obtain ⟨hle, hpos⟩ := le_request nunits
  have hunits := hkept.units
  obtain ⟨hwf, hloose⟩ := sbrk_spec hkept.wf hpos (by omega) gap
  have hsum : total F + (⟨h.brk + gap, request nunits⟩ : Block).size < 2 ^ 32 := by
    change total F + request nunits < 2 ^ 32
    omega
  obtain ⟨h', F', hfree, hfreed⟩ := free_spec hwf hloose hsum hfuel
  obtain ⟨c, hc, hcsize⟩ := hfreed.covered
  have hobtained : h'.obtained = h.obtained + request nunits := hfreed.same.2
  refine ⟨h', F', hfree, ⟨hfreed.wf, ?_⟩, hobtained, ⟨c, hc, hle.trans hcsize⟩, hfreed.length⟩
  have := hfreed.units
  change total F' = total F + request nunits at this
  omega

/-! ## `malloc` -/

/-- A call of `malloc` that has ended. -/
def Ended (base : Nat) (h : Heap) (V : List Live) (nbytes : UInt32) : Option Nat → Prop
  | none => ∃ F, Kept base h F V
  | some q => ∃ F, Kept base h F (⟨⟨q - HDR, (h.mem (q - HDR)).size⟩, nbytes⟩ :: V)

theorem total_mem {b : Block} (hb : b ∈ F) : b.size ≤ total F := by
  obtain ⟨L, R, rfl⟩ := append_of_mem hb
  rw [total_append, total_cons]
  omega

theorem units_pos (nbytes : UInt32) : 0 < units nbytes := Nat.succ_pos _

theorem take_ended {L R : List Block} {b : Block} (hkept : Kept base h (L ++ b :: R) V)
    (hmax : h.obtained < 2 ^ 32) (hfit : units nbytes ≤ b.size) :
    Ended base (takeBlock h (units nbytes) ((addrs L).getLastD base) b.addr).2 V nbytes
      (some (takeBlock h (units nbytes) ((addrs L).getLastD base) b.addr).1) := by
  have hunits := hkept.units
  have hb : b.size ≤ total (L ++ b :: R) := total_mem (by simp)
  obtain ⟨F', v, hq, hsize, -, htaken⟩ := takeBlock_spec hkept.wf (units_pos nbytes) hfit (by omega)
  generalize takeBlock h (units nbytes) ((addrs L).getLastD base) b.addr = out at hq htaken
  obtain ⟨q, h'⟩ := out
  change q = v.addr + HDR at hq
  have haddr : q - HDR = v.addr := by omega
  have hread : (h'.mem (q - HDR)).size = v.size := by
    rw [haddr]
    exact htaken.loose.placed.size
  refine ⟨F', ?_, ?_⟩
  · change WF base h' F' (⟨⟨q - HDR, (h'.mem (q - HDR)).size⟩, nbytes⟩ :: V)
    rw [hread, haddr]
    exact htaken.wf.addLive htaken.loose hsize.ge
  · have := htaken.units
    have := htaken.same.2
    rw [liveTotal_cons]
    change total F' + ((h'.mem (q - HDR)).size + liveTotal V) = h'.obtained
    change h'.obtained = h.obtained at this
    rw [hread]
    omega

/-- If no free block is big enough, the one at `freep` is not. -/
theorem WF.freep_small (hwf : WF base h F V) (hpos : 0 < nunits)
    (hsmall : ∀ b ∈ F, b.size < nunits) : (h.mem h.freep).size < nunits := by
  rcases mem_cons.mp hwf.freep with heq | hmem
  · rw [heq, hwf.baseSize]
    exact hpos
  · obtain ⟨b, hb, heq⟩ := mem_addrs.mp hmem
    rw [← heq, (hwf.free b hb).size]
    exact hsmall b hb

/-- The loop of `malloc` comes to an end; it gives up only when `sbrk` fails. -/
theorem mallocLoop_spec (hkept : Kept base h F V) (hmax : h.obtained < 2 ^ 32)
    (nbytes : UInt32) (gaps : List (Option Nat))
    (hmore : gaps.head?.join = none ∨ (∃ b ∈ F, units nbytes ≤ b.size) ∨
      h.obtained + request (units nbytes) < 2 ^ 32)
    {fuel : Nat} (hfuel : 3 * F.length + 8 ≤ fuel) :
    ∃ r h', mallocLoop (units nbytes) fuel gaps h.freep (h.next h.freep) h = some (r, h') ∧
      Ended base h' V nbytes r ∧ (r = none → gaps.head?.join = none) := by
  have hsearch := mallocLoop_search hkept.wf (units_pos nbytes)
    (show F.length + 1 + (2 * F.length + 7) ≤ fuel by omega) gaps
  rcases hsearch with ⟨L, b, R, rfl, hfit, hrun⟩ | ⟨hnone, fuel', prevp, hk, hrun⟩
  · exact ⟨_, _, hrun, take_ended hkept hmax hfit, fun h => by cases h⟩
  · have hfreep : ¬ units nbytes ≤ (h.mem h.freep).size :=
      not_le.mpr (hkept.wf.freep_small (units_pos nbytes) hnone)
    rw [hrun, mallocLoop, if_neg hfreep, if_pos rfl]
    cases hgap : gaps.head?.join with
    | none => exact ⟨none, h, rfl, ⟨F, hkept⟩, fun _ => rfl⟩
    | some gap =>
      have hroom : h.obtained + request (units nbytes) < 2 ^ 32 := by
        rcases hmore with hfail | ⟨b, hb, hfit⟩ | hroom
        · rw [hgap] at hfail
          cases hfail
        · exact absurd hfit (not_le.mpr (hnone b hb))
        · exact hroom
      obtain ⟨h', F', hcore, hkept', hobtained, ⟨c, hc, hcfit⟩, hlen⟩ :=
        morecore_spec hkept hroom (show F.length + 1 < fuel' by omega) gap
      have hagain := mallocLoop_search hkept'.wf (units_pos nbytes)
        (show F'.length + 1 + 0 ≤ fuel' by omega) gaps.tail
      rcases hagain with ⟨L, b, R, rfl, hfit, hrun'⟩ | ⟨hnone', -⟩
      · dsimp only
        rw [hcore]
        exact ⟨_, _, hrun', take_ended hkept' (by omega) hfit, fun h => by cases h⟩
      · exact absurd hcfit (not_le.mpr (hnone' c hc))

end Calls

/-! ## More fuel -/

theorem free_mono {fuel fuel' bp : Nat} {h h' : Heap} (hrun : free fuel h bp = some h')
    (hle : fuel ≤ fuel') : free fuel' h bp = some h' := by
  rw [free] at hrun ⊢
  cases hfind : Chain.find h.next (between h bp) fuel h.freep with
  | none =>
    rw [hfind] at hrun
    cases hrun
  | some p =>
    rw [hfind] at hrun
    rw [Chain.find_mono hfind hle]
    exact hrun

variable {gaps : List (Option Nat)}

theorem mallocLoop_mono {nunits fuel fuel' prevp p : Nat} {h : Heap} {out : Option Nat × Heap}
    (hrun : mallocLoop nunits fuel gaps prevp p h = some out) (hle : fuel ≤ fuel') :
    mallocLoop nunits fuel' gaps prevp p h = some out := by
  induction fuel generalizing fuel' gaps prevp p h with
  | zero => cases hrun
  | succ fuel ih =>
    obtain ⟨k, rfl⟩ : ∃ k, fuel' = k + 1 := ⟨fuel' - 1, by omega⟩
    rw [mallocLoop] at hrun ⊢
    split at hrun
    · rename_i hfit
      rw [if_pos hfit]
      exact hrun
    · rename_i hfit
      rw [if_neg hfit]
      split at hrun
      · rename_i hp
        rw [if_pos hp]
        cases hgap : gaps.head?.join with
        | none =>
          rw [hgap] at hrun
          exact hrun
        | some gap =>
          rw [hgap] at hrun
          dsimp only at hrun ⊢
          cases hcore : morecore fuel h nunits gap with
          | none =>
            rw [hcore] at hrun
            cases hrun
          | some h₁ =>
            have hcore' : morecore k h nunits gap = some h₁ := free_mono hcore (by omega)
            rw [hcore] at hrun
            rw [hcore']
            exact ih hrun (by omega)
      · rename_i hp
        rw [if_neg hp]
        exact ih hrun (by omega)

/-! ## What `sbrk` has given out only grows -/

theorem takeBlock_same (h : Heap) (nunits prevp p : Nat) :
    (takeBlock h nunits prevp p).2.brk = h.brk ∧
      (takeBlock h nunits prevp p).2.obtained = h.obtained := by
  rw [takeBlock]
  split <;> exact ⟨rfl, rfl⟩

theorem start_same (h : Heap) (base : Nat) :
    (h.start base).brk = h.brk ∧ (h.start base).obtained = h.obtained := by
  rw [Heap.start]
  split <;> exact ⟨rfl, rfl⟩

theorem free_same {fuel bp : Nat} {h h' : Heap} (hrun : free fuel h bp = some h') :
    h'.brk = h.brk ∧ h'.obtained = h.obtained := by
  rw [free] at hrun
  split at hrun
  · cases hrun
  · cases hrun
    rw [joinBelow, joinAbove]
    split <;> split <;> exact ⟨rfl, rfl⟩

theorem mallocLoop_obtained {nunits fuel prevp p : Nat} {h h' : Heap} {r : Option Nat}
    (hrun : mallocLoop nunits fuel gaps prevp p h = some (r, h')) :
    h.obtained ≤ h'.obtained := by
  induction fuel generalizing gaps prevp p h with
  | zero => cases hrun
  | succ fuel ih =>
    rw [mallocLoop] at hrun
    split at hrun
    · cases hrun
      exact (takeBlock_same ..).2.ge
    · split at hrun
      · split at hrun
        · cases hrun
          exact Nat.le_refl _
        · rename_i gap hgap
          split at hrun
          · cases hrun
          · rename_i h₁ hcore
            have hcore : h₁.obtained = h.obtained + request nunits := (free_same hcore).2
            have := ih hrun
            omega
      · exact ih hrun

/-- A call of `malloc` that returned, whatever fuel it had. -/
theorem mallocLoop_ended {base fuel : Nat} {h h' : Heap} {F : List Block} {V : List Live}
    {r : Option Nat} (hkept : Kept base h F V)
    (hrun : mallocLoop (units nbytes) fuel gaps h.freep (h.next h.freep) h = some (r, h'))
    (hmax : h'.obtained < 2 ^ 32) : Ended base h' V nbytes r := by
  have hle := mallocLoop_obtained hrun
  -- with enough fuel it returns the same
  have hrun' := mallocLoop_mono hrun (Nat.le_add_right fuel (3 * F.length + 8))
  by_cases hmore : gaps.head?.join = none ∨ (∃ b ∈ F, units nbytes ≤ b.size) ∨
      h.obtained + request (units nbytes) < 2 ^ 32
  · obtain ⟨r', h'', hspec, hended, -⟩ :=
      mallocLoop_spec hkept (by omega) nbytes gaps hmore (Nat.le_add_left (3 * F.length + 8) fuel)
    rw [hrun'] at hspec
    cases hspec
    exact hended
  · -- otherwise it has asked for more than there may be
    simp only [not_or] at hmore
    obtain ⟨hgap, hnone, hfull⟩ := hmore
    obtain ⟨gap, hgap⟩ := Option.ne_none_iff_exists'.mp hgap
    have hsearch := mallocLoop_search hkept.wf (units_pos nbytes)
      (show F.length + 1 + 0 ≤ fuel + (3 * F.length + 8) by omega) gaps
    rcases hsearch with ⟨L, b, R, rfl, hfit, -⟩ | ⟨hsmall, fuel', prevp, -, hloop⟩
    · exact absurd ⟨b, by simp, hfit⟩ hnone
    · have hfreep : ¬ units nbytes ≤ (h.mem h.freep).size :=
        not_le.mpr (hkept.wf.freep_small (units_pos nbytes) hsmall)
      rw [hloop, mallocLoop, if_neg hfreep, if_pos rfl, hgap] at hrun'
      dsimp only at hrun'
      split at hrun'
      · cases hrun'
      · rename_i h₁ hcore
        have hcore : h₁.obtained = h.obtained + request (units nbytes) := (free_same hcore).2
        have := mallocLoop_obtained hrun'
        omega

/-! ## Programs -/

/-- The heap of a program: not yet there, or in order. -/
def Good (base : Nat) (s : State) : Prop :=
  (s.heap.freep = 0 ∧ s.live = [] ∧ s.heap.obtained = 0 ∧ base + HDR ≤ s.heap.brk) ∨
    ∃ F, Kept base s.heap F s.live

/-- The first call of `malloc` makes the list, and others find it. -/
theorem Good.start {base : Nat} {s : State} (hbase : 0 < base) (h : Good base s) :
    ∃ F, Kept base (s.heap.start base) F s.live := by
  rcases h with ⟨hfreep, hlive, hobtained, hbrk⟩ | ⟨F, hkept⟩
  · refine ⟨[], ⟨?_, ?_, ?_, ?_, .nil, ?_, ?_, ?_, ?_, ?_⟩, ?_⟩ <;>
      simp only [Heap.start, if_pos hfreep, hlive]
    · change ((s.heap.setPtr base base).setSize base 0).next base = base
      rw [Heap.next_setSize, Heap.next_setPtr, Function.update_self]
    · rw [Heap.setSize_mem_self]
      rfl
    · exact hbrk
    · exact fun b hb => absurd hb not_mem_nil
    · exact mem_cons_self
    · exact fun v hv => absurd hv not_mem_nil
    · exact fun v hv => absurd hv not_mem_nil
    · exact fun b hb => absurd hb not_mem_nil
    · exact .nil
    · exact hobtained.symm
  · have hfreep : s.heap.freep ≠ 0 := by
      rcases mem_cons.mp hkept.wf.freep with heq | hmem
      · omega
      · have := hkept.wf.base_lt hmem
        omega
    rw [Heap.start, if_neg hfreep]
    exact ⟨F, hkept⟩

/-- A live block is taken off the list of live ones. -/
theorem Kept.dropLive {base : Nat} {h : Heap} {F : List Block} {V : List Live} {v : Live}
    (hkept : Kept base h F V) (hv : v ∈ V) :
    let V' := V.filter fun w => w.block.addr + HDR != v.block.addr + HDR
    WF base h F V' ∧ Loose base h F V' v.block ∧
      total F + v.block.size + liveTotal V' = h.obtained := by
  intro V'
  obtain ⟨A, B, rfl⟩ := append_of_mem hv
  have hwf := hkept.wf
  obtain ⟨hA, hB, hcross⟩ := pairwise_append.mp hwf.liveApart
  obtain ⟨hvB, hB⟩ := pairwise_cons.mp hB
  have hplaced := hwf.live v hv
  -- no other live block begins where this one does
  have hkeep : ∀ C : List Live, (∀ w ∈ C, Placed base h w.block ∧ Apart w.block v.block) →
      C.filter (fun w => w.block.addr + HDR != v.block.addr + HDR) = C := by
    intro C hC
    refine filter_eq_self.mpr ?_
    intro w hw
    have hne := (hC w hw).2.addr_ne (hC w hw).1 hplaced
    rw [bne_iff_ne]
    omega
  have hApart : ∀ w ∈ A, Placed base h w.block ∧ Apart w.block v.block := fun w hw =>
    ⟨hwf.live w (by simp [hw]), hcross w hw v mem_cons_self⟩
  have hBpart : ∀ w ∈ B, Placed base h w.block ∧ Apart w.block v.block := fun w hw =>
    ⟨hwf.live w (by simp [hw]), (hvB w hw).symm⟩
  have hV' : V' = A ++ B := by
    change (A ++ v :: B).filter _ = A ++ B
    rw [filter_append, hkeep A hApart, filter_cons_of_neg (by simp), hkeep B hBpart]
  rw [hV']
  have hsub : ∀ w ∈ A ++ B, w ∈ A ++ v :: B := by
    intro w hw
    rcases mem_append.mp hw with hw | hw <;> simp [hw]
  refine ⟨⟨hwf.ring, hwf.baseSize, hwf.brk, hwf.free, hwf.order, hwf.freep,
    fun w hw => hwf.live w (hsub w hw), fun w hw => hwf.enough w (hsub w hw),
    fun b hb w hw => hwf.apart b hb w (hsub w hw), ?_⟩, ⟨hplaced, ?_, ?_⟩, ?_⟩
  · refine pairwise_append.mpr ⟨hA, hB, ?_⟩
    exact fun a ha b hb => hcross a ha b (mem_cons_of_mem _ hb)
  · exact fun b hb => hwf.apart b hb v hv
  · intro w hw
    rcases mem_append.mp hw with hw | hw
    · exact (hApart w hw).2
    · exact (hBpart w hw).2
  · have := hkept.units
    rw [liveTotal, map_append, map_cons, total_append, total_cons] at this
    rw [liveTotal, map_append, total_append]
    omega

/-- What a program writes into its blocks is in no header. -/
theorem Kept.write {base : Nat} {s : State} {F : List Block} (hkept : Kept base s.heap F s.live)
    (mem : Nat → Header) :
    Kept base { s.heap with mem := fun a => if s.inLive a then mem a else s.heap.mem a } F
      s.live := by
  have hwf := hkept.wf
  have hout : ∀ a, (∀ v ∈ s.live, a ≤ v.block.addr ∨ v.block.stop ≤ a) →
      (if s.inLive a then mem a else s.heap.mem a) = s.heap.mem a := by
    intro a ha
    refine if_neg ?_
    intro hin
    obtain ⟨v, hv, hin⟩ := any_eq_true.mp hin
    simp only [Bool.and_eq_true, decide_eq_true_eq] at hin
    have := ha v hv
    omega
  have hbase : ∀ v ∈ s.live, base ≤ v.block.addr ∨ v.block.stop ≤ base := fun v hv =>
    .inl (Nat.le_of_add_right_le (hwf.live v hv).above)
  have hfree : ∀ b ∈ F, ∀ v ∈ s.live, b.addr ≤ v.block.addr ∨ v.block.stop ≤ b.addr := by
    intro b hb v hv
    have hb' := WF.addr_lt_stop (hwf.free b hb)
    rcases hwf.apart b hb v hv with h | h
    · exact .inl (by omega)
    · exact .inr h
  have hlive : ∀ w ∈ s.live, ∀ v ∈ s.live,
      w.block.addr ≤ v.block.addr ∨ v.block.stop ≤ w.block.addr := by
    intro w hw v hv
    by_cases heq : w = v
    · exact .inl (heq ▸ Nat.le_refl _)
    · have hw' := WF.addr_lt_stop (hwf.live w hw)
      have hsymm : Std.Symm fun v w : Live => Apart v.block w.block := ⟨fun _ _ h => h.symm⟩
      have hapart : Apart w.block v.block := hwf.liveApart.forall hw hv heq
      rcases hapart with h | h
      · exact .inl (by omega)
      · exact .inr h
  refine ⟨⟨?_, ?_, hwf.brk, ?_, hwf.order, hwf.freep, ?_, hwf.enough, hwf.apart,
    hwf.liveApart⟩, hkept.units⟩
  · refine hwf.ring.congr ?_
    intro x hx
    have hx' : ∀ v ∈ s.live, x ≤ v.block.addr ∨ v.block.stop ≤ x := by
      rcases mem_cons.mp hx with rfl | hx
      · exact hbase
      · obtain ⟨b, hb, rfl⟩ := mem_addrs.mp hx
        exact hfree b hb
    exact congrArg Header.ptr (hout x hx')
  · exact (congrArg Header.size (hout base hbase)).trans hwf.baseSize
  · exact fun b hb => (hwf.free b hb).keep (congrArg Header.size (hout b.addr (hfree b hb)))
      (Nat.le_refl _)
  · exact fun w hw => (hwf.live w hw).keep
      (congrArg Header.size (hout w.block.addr (hlive w hw))) (Nat.le_refl _)

theorem step_obtained {base fuel : Nat} {s s' : State} {a : Action}
    (hstep : step base fuel s a = some s') : s.heap.obtained ≤ s'.heap.obtained := by
  cases a with
  | malloc nbytes gaps =>
    have hstart := (start_same s.heap base).2
    rw [step] at hstep
    split at hstep
    · cases hstep
    · rename_i h hrun
      cases hstep
      exact hstart ▸ mallocLoop_obtained hrun
    · rename_i p h hrun
      cases hstep
      exact hstart ▸ mallocLoop_obtained hrun
  | free ap =>
    rw [step] at hstep
    split at hstep
    · split at hstep
      · cases hstep
      · rename_i h hrun
        cases hstep
        exact (free_same hrun).2.ge
    · cases hstep
  | write mem =>
    cases hstep
    exact Nat.le_refl _

theorem step_good {base fuel : Nat} {s s' : State} {a : Action} (hbase : 0 < base)
    (h : Good base s) (hstep : step base fuel s a = some s') (hmax : s'.heap.obtained < 2 ^ 32) :
    Good base s' := by
  cases a with
  | malloc nbytes gaps =>
    obtain ⟨F, hkept⟩ := h.start hbase
    rw [step] at hstep
    split at hstep
    · cases hstep
    · rename_i h' hrun
      cases hstep
      exact .inr (mallocLoop_ended hkept hrun hmax)
    · rename_i p h' hrun
      cases hstep
      exact .inr (mallocLoop_ended hkept hrun hmax)
  | free ap =>
    have hle := step_obtained hstep
    rw [step] at hstep
    split at hstep
    · rename_i hlive
      obtain ⟨v, hv, hap⟩ := any_eq_true.mp hlive
      have hap : v.block.addr + HDR = ap := beq_iff_eq.mp hap
      subst hap
      rcases h with ⟨-, hnone, -⟩ | ⟨F, hkept⟩
      · rw [hnone] at hv
        exact absurd hv not_mem_nil
      · obtain ⟨hwf, hloose, hunits⟩ := hkept.dropLive hv
        rw [Nat.add_sub_cancel] at hstep
        split at hstep
        · cases hstep
        · rename_i h' hrun
          cases hstep
          have hrun' := free_mono hrun (Nat.le_add_right fuel (F.length + 2))
          obtain ⟨h'', F', hfree, hfreed⟩ :=
            free_spec hwf hloose (by omega) (show F.length + 1 < fuel + (F.length + 2) by omega)
          rw [hrun'] at hfree
          cases hfree
          refine .inr ⟨F', hfreed.wf, ?_⟩
          have hF' := hfreed.units
          change total F' + liveTotal (s.live.filter _) = h'.obtained
          rw [hfreed.same.2]
          omega
    · cases hstep
  | write mem =>
    cases hstep
    rcases h with ⟨hfreep, hlive, hobtained, hbrk⟩ | ⟨F, hkept⟩
    · exact .inl ⟨hfreep, hlive, hobtained, hbrk⟩
    · exact .inr ⟨F, hkept.write mem⟩

/-- The states a program comes to by calls that return. -/
inductive Reach (base : Nat) (s : State) : State → Prop where
  | refl : Reach base s s
  | step {s' s'' : State} (fuel : Nat) (a : Action) :
      Reach base s s' → step base fuel s' a = some s'' → Reach base s s''

theorem reach_good {base : Nat} (hbase : 0 < base) {mem : Nat → Header} {s : State}
    (h : Reach base (.boot mem base) s) (hmax : s.heap.obtained < 2 ^ 32) : Good base s := by
  induction h with
  | refl => exact .inl ⟨rfl, rfl, rfl, Nat.le_refl _⟩
  | step fuel a _ hstep ih =>
    have := step_obtained hstep
    exact step_good hbase (ih (by omega)) hstep hmax

/-- After any calls of `malloc` and `free`, of live blocks only, and whatever the
program writes into its blocks, as long as `sbrk` has given out fewer than `2 ^ 32`
headers: the list of free blocks is circular, goes through `base`, and is in address
order; blocks are disjoint, free ones are not adjacent, live ones are big enough, and no
header is lost.  `malloc` returns, with 0 only if `sbrk` failed, and `free` returns; what
`malloc` gets from `sbrk`, if it does, is within the bound too. -/
theorem heap_sound {base : Nat} (hbase : 0 < base) {mem : Nat → Header} {s : State}
    (hreach : Reach base (.boot mem base) s) (hmax : s.heap.obtained < 2 ^ 32) :
    Good base s ∧
    (∀ nbytes gaps, (gaps.head?.join = none ∨
        (∃ F, Kept base (s.heap.start base) F s.live ∧ ∃ b ∈ F, units nbytes ≤ b.size) ∨
        s.heap.obtained + request (units nbytes) < 2 ^ 32) →
      ∃ enough, ∀ fuel ≥ enough, ∃ r h', malloc base fuel s.heap nbytes gaps = some (r, h') ∧
        (r = none → gaps.head?.join = none)) ∧
    (∀ v ∈ s.live, ∃ enough, ∀ fuel ≥ enough, ∃ h',
      free fuel s.heap v.block.addr = some h') := by
  have hgood := reach_good hbase hreach hmax
  refine ⟨hgood, ?_, ?_⟩
  · intro nbytes gaps hcase
    have hstart := (start_same s.heap base).2
    obtain ⟨F, hkept, hmore⟩ : ∃ F, Kept base (s.heap.start base) F s.live ∧
        (gaps.head?.join = none ∨ (∃ b ∈ F, units nbytes ≤ b.size) ∨
          (s.heap.start base).obtained + request (units nbytes) < 2 ^ 32) := by
      obtain ⟨F, hkept⟩ := hgood.start hbase
      rcases hcase with hfail | ⟨F', hkept', hfit⟩ | hroom
      · exact ⟨F, hkept, .inl hfail⟩
      · exact ⟨F', hkept', .inr (.inl hfit)⟩
      · exact ⟨F, hkept, .inr (.inr (by omega))⟩
    refine ⟨3 * F.length + 8, fun fuel hfuel => ?_⟩
    obtain ⟨r, h', hrun, -, hnone⟩ := mallocLoop_spec hkept (by omega) nbytes gaps hmore hfuel
    exact ⟨r, h', hrun, hnone⟩
  · intro v hv
    rcases hgood with ⟨-, hnone, -⟩ | ⟨F, hkept⟩
    · rw [hnone] at hv
      exact absurd hv not_mem_nil
    · obtain ⟨hwf, hloose, hunits⟩ := hkept.dropLive hv
      refine ⟨F.length + 2, fun fuel hfuel => ?_⟩
      have hlen : F.length + 1 < fuel := hfuel
      obtain ⟨h', F', hfree, -⟩ := free_spec hwf hloose (by omega) hlen
      exact ⟨h', hfree⟩

/-! ## Programs that run -/

def run (base fuel : Nat) : List Action → State → Option State
  | [], s => some s
  | a :: as, s => (step base fuel s a).bind (run base fuel as)

theorem reach_run {base fuel : Nat} {as : List Action} {s₀ s s' : State} (h : Reach base s₀ s)
    (hrun : run base fuel as s = some s') : Reach base s₀ s' :=
  have hruns : IsRun (fun a s => step base fuel s a) (run base fuel) :=
    ⟨fun _ => rfl, fun _ _ _ => rfl⟩
  hruns.keeps (fun a _ _ h hstep => .step fuel a h hstep) h hrun

/-- A program that calls `malloc(10)` and frees what it gets. -/
theorem heap_sound_malloc_free :
    Good 4096 ((run 4096 20 [.malloc 10 [some 0], .free 69632]
      (.boot (fun _ => ⟨0, 0⟩) 4096)).getD (.boot (fun _ => ⟨0, 0⟩) 4096)) :=
  (heap_sound (by decide) (reach_run .refl (show run 4096 20
      [.malloc 10 [some 0], .free 69632] (.boot (fun _ => ⟨0, 0⟩) 4096) =
      some ((run 4096 20 [.malloc 10 [some 0], .free 69632]
        (.boot (fun _ => ⟨0, 0⟩) 4096)).getD (.boot (fun _ => ⟨0, 0⟩) 4096)) from rfl))
    (by decide)).1

/-- 33 blocks of `2 ^ 27 - 1` headers, in adjacent regions, and then all of them freed. -/
def manyBlocks : List Action :=
  List.replicate 33 (.malloc (2 ^ 31 - 32) [some 0]) ++
    (List.range 33).map fun k => .free (4096 + 16 + k * (16 * (2 ^ 27 - 1)) + 16)

/-- The free block they are joined to has a `size` that has wrapped: headers that
`sbrk` has given out are lost. -/
theorem heap_size_wraps : ∃ s, Reach 4096 (.boot (fun _ => ⟨0, 0⟩) 4096) s ∧ s.live = [] ∧
    s.heap.next 4096 = 4112 ∧ s.heap.next 4112 = 4096 ∧
    (s.heap.mem 4112).size < s.heap.obtained := by
  have hrun : (run 4096 5 manyBlocks (.boot (fun _ => ⟨0, 0⟩) 4096)).map (fun s =>
      (s.live, s.heap.next 4096, s.heap.next 4112, (s.heap.mem 4112).size, s.heap.obtained)) =
      some ([], 4112, 4096, 134217695, 4429184991) := by
    decide +kernel
  obtain ⟨s, hs, hout⟩ := Option.map_eq_some_iff.mp hrun
  simp only [Prod.mk.injEq] at hout
  obtain ⟨hlive, hfirst, hsecond, hsize, hobtained⟩ := hout
  refine ⟨s, reach_run .refl hs, hlive, hfirst, hsecond, ?_⟩
  rw [hsize, hobtained]
  decide

end Xv6.Umalloc
