/-
  Cache/Invariant.lean --- what holds of the buffer cache whatever the processes
  using it do: reference counts are exact, a lock belongs to the process that
  holds the buffer, and the data of a buffer is the current contents of its block
  unless somebody is in the middle of changing it.

  "The current contents" is a parameter, `view`, and so is the list of blocks that
  are pinned; the log decides what they are.  What a process has taken of the cache
  is its `Holding`: at most one buffer on its way in (between the two halves of
  `bread`) or out (between the two halves of `brelse`), and the buffers it has
  locked, with what it knows about them.
-/
import Mathlib.Algebra.Order.BigOperators.Group.Finset
import Xv6.Foundation.Interleave
import Xv6.Kernel.Bio

set_option autoImplicit false

namespace Xv6

open Foundation

/-- A buffer on its way in or out: referenced, and locked or not. -/
structure Limbo where
  i : BufId
  b : Nat
  locked : Bool
  deriving DecidableEq

/-- A buffer a process has locked: the block it carries, its data, and whether the
data was changed without that having been made known to the log or the disk. -/
structure Hold where
  i : BufId
  b : Nat
  data : Block
  dirty : Bool

structure Holding where
  limbo : Option Limbo
  holds : List Hold

namespace Holding

/-- Nothing taken. -/
def empty : Holding := ⟨none, []⟩

/-- The same buffers held, another one on its way. -/
def withLimbo (l : Holding) (x : Option Limbo) : Holding := ⟨x, l.holds⟩

/-- Another view of the data of a buffer that is held. -/
def setHold (l : Holding) (i : BufId) (d : Block) (dirty : Bool) : Holding :=
  ⟨l.limbo, l.holds.map fun h => if h.i = i then ⟨h.i, h.b, d, dirty⟩ else h⟩

/-- A buffer comes in. -/
def take (l : Holding) (h : Hold) : Holding := ⟨none, h :: l.holds⟩

/-- A buffer goes out. -/
def drop (l : Holding) (h : Hold) : Holding :=
  ⟨some ⟨h.i, h.b, false⟩, l.holds.filter fun x => decide (x.i ≠ h.i)⟩

/-- How many references to the buffer the process has. -/
def refs (l : Holding) (i : BufId) : Nat :=
  (match l.limbo with
    | some x => if x.i = i then 1 else 0
    | none => 0) + l.holds.countP (fun h => decide (h.i = i))

/-- The process has the sleep lock of the buffer. -/
def Locks (l : Holding) (i : BufId) : Prop :=
  (∃ x, l.limbo = some x ∧ x.i = i ∧ x.locked = true) ∨ ∃ h ∈ l.holds, h.i = i

@[simp] theorem refs_empty (i : BufId) : empty.refs i = 0 := rfl

theorem not_locks_empty (i : BufId) : ¬ empty.Locks i := by
  rintro (⟨x, hx, -⟩ | ⟨h, hh, -⟩)
  · cases hx
  · cases hh

variable {l : Holding}

theorem refs_pos_of_hold {h : Hold} (hh : h ∈ l.holds) : 1 ≤ l.refs h.i := by
  have : 0 < l.holds.countP (fun x => decide (x.i = h.i)) :=
    List.countP_pos_iff.mpr ⟨h, hh, by simp⟩
  unfold refs
  omega

theorem refs_pos_of_limbo {x : Limbo} (hx : l.limbo = some x) : 1 ≤ l.refs x.i := by
  unfold refs
  rw [hx]
  simp

theorem refs_pos_of_locks {i : BufId} (h : l.Locks i) : 1 ≤ l.refs i := by
  rcases h with ⟨x, hx, rfl, -⟩ | ⟨h, hh, rfl⟩
  · exact refs_pos_of_limbo hx
  · exact refs_pos_of_hold hh

/-- A process that has each buffer once has at most two references to one: the
lock, and a second request that waits for it. -/
theorem refs_le_two (h : (l.holds.map Hold.i).Nodup) (i : BufId) : l.refs i ≤ 2 := by
  have hcount : l.holds.countP (fun x => decide (x.i = i)) ≤ 1 := by
    have := List.nodup_iff_count_le_one.mp h i
    rw [List.count, List.countP_map] at this
    convert this using 2
    funext x
    simp [beq_eq_decide]
  unfold refs
  cases l.limbo with
  | none => simp only; omega
  | some x => simp only; split <;> omega

theorem setHold_map_i (l : Holding) (i : BufId) (d : Block) (dirty : Bool) :
    (l.setHold i d dirty).holds.map Hold.i = l.holds.map Hold.i := by
  rw [setHold, List.map_map]
  apply List.map_congr_left
  intro h _
  simp only [Function.comp]
  split <;> rfl

theorem mem_setHold {i : BufId} {d : Block} {dirty : Bool} {h : Hold} :
    h ∈ (l.setHold i d dirty).holds ↔
      (h ∈ l.holds ∧ h.i ≠ i) ∨ (h.data = d ∧ h.dirty = dirty ∧ h.i = i ∧
        ∃ x ∈ l.holds, x.i = i ∧ x.b = h.b) := by
  simp only [setHold, List.mem_map]
  constructor
  · rintro ⟨x, hx, rfl⟩
    by_cases hi : x.i = i
    · exact Or.inr ⟨by simp [hi], by simp [hi], by simp [hi], x, hx, hi, by simp [hi]⟩
    · exact Or.inl ⟨by simpa [hi] using hx, by simp [hi]⟩
  · rintro (⟨hh, hi⟩ | ⟨rfl, rfl, hi, x, hx, hxi, hxb⟩)
    · exact ⟨h, hh, by rw [if_neg hi]⟩
    · refine ⟨x, hx, ?_⟩
      rw [if_pos hxi, hxi, hxb, ← hi]

theorem refs_setHold (l : Holding) (i j : BufId) (d : Block) (dirty : Bool) :
    (l.setHold i d dirty).refs j = l.refs j := by
  have hcount : ∀ hs : List Hold, hs.countP (fun h => decide (h.i = j)) =
      (hs.map Hold.i).count j := by
    intro hs
    rw [List.count, List.countP_map]
    congr 1
  simp only [refs, hcount, setHold_map_i]
  rfl

theorem locks_setHold (l : Holding) (i j : BufId) (d : Block) (dirty : Bool) :
    (l.setHold i d dirty).Locks j ↔ l.Locks j := by
  have hmem : ∀ l : Holding, (∃ h ∈ l.holds, h.i = j) ↔ j ∈ l.holds.map Hold.i := by
    intro l
    simp
  simp only [Locks, hmem, setHold_map_i]
  rfl

/-- A buffer that is not held is not changed. -/
theorem map_setHold_fresh {hs : List Hold} {i : BufId} {d : Block} {dirty : Bool}
    (h : ∀ y ∈ hs, y.i ≠ i) :
    hs.map (fun h => if h.i = i then (⟨h.i, h.b, d, dirty⟩ : Hold) else h) = hs := by
  conv_rhs => rw [← List.map_id hs]
  apply List.map_congr_left
  intro y hy
  rw [if_neg (h y hy)]
  rfl

/-- A buffer that is not held is not given back. -/
theorem filter_fresh {hs : List Hold} {i : BufId} (h : ∀ y ∈ hs, y.i ≠ i) :
    hs.filter (fun x => decide (x.i ≠ i)) = hs := by
  rw [List.filter_eq_self]
  intro y hy
  simpa using h y hy

end Holding

/-- The buffer carries the block. -/
def Bcache.Carries (c : Bcache) (i : BufId) (b : Nat) : Prop :=
  (c.buf i).dev = ROOTDEV ∧ (c.buf i).blockno = b

instance (c : Bcache) (i : BufId) (b : Nat) : Decidable (c.Carries i b) :=
  inferInstanceAs (Decidable (_ ∧ _))

/-- The reference the log has to the buffer of a pinned block. -/
def Bcache.pins (c : Bcache) (pinned : List Nat) (i : BufId) : Nat :=
  if (c.buf i).dev = ROOTDEV ∧ (c.buf i).blockno ∈ pinned then 1 else 0

/-- The invariant of the buffer cache. -/
structure CacheInv (c : Bcache) (view : Nat → Block) (pinned : List Nat)
    (g : Pid → Holding) : Prop where
  wf : c.Wf
  refs : ∀ i, (c.buf i).refcnt = (∑ p, (g p).refs i) + c.pins pinned i
  locked : ∀ i p, (c.buf i).lock = some p ↔ (g p).Locks i
  nodup : ∀ p, ((g p).holds.map Hold.i).Nodup
  /-- a buffer with the lock on its way is not among those already held -/
  fresh : ∀ p x, (g p).limbo = some x → x.locked = true → ∀ h ∈ (g p).holds, h.i ≠ x.i
  limbo : ∀ p x, (g p).limbo = some x → c.Carries x.i x.b
  holds : ∀ p, ∀ h ∈ (g p).holds,
    c.Carries h.i h.b ∧ (c.buf h.i).valid = true ∧ (c.buf h.i).data = h.data
  coherent : ∀ i, (c.buf i).dev = ROOTDEV → (c.buf i).valid = true →
    (∀ p, ∀ h ∈ (g p).holds, h.i = i → h.dirty = false) →
    (c.buf i).data = view (c.buf i).blockno
  cached : ∀ b ∈ pinned, ∃ i, c.Carries i b ∧ (c.buf i).valid = true

namespace CacheInv

variable {c c' : Bcache} {view : Nat → Block} {pinned : List Nat} {g : Pid → Holding}
  {p q : Pid} {i j : BufId} {b : Nat}

/-! ## Counting -/

theorem refs_le (g : Pid → Holding) (p : Pid) (i : BufId) : (g p).refs i ≤ ∑ q, (g q).refs i :=
  Finset.single_le_sum (f := fun q => (g q).refs i) (fun _ _ => Nat.zero_le _) (Finset.mem_univ p)

theorem pins_le_one (c : Bcache) (pinned : List Nat) (i : BufId) : c.pins pinned i ≤ 1 := by
  unfold Bcache.pins
  split <;> omega

/-- No reference count comes near 32 bits. -/
theorem refcnt_lt (h : CacheInv c view pinned g) (i : BufId) : (c.buf i).refcnt + 1 < 2 ^ 32 := by
  have hsum : (∑ q, (g q).refs i) ≤ ∑ _q : Pid, 2 :=
    Finset.sum_le_sum fun q _ => Holding.refs_le_two (h.nodup q) i
  have hpins := pins_le_one c pinned i
  have hcard : (∑ _q : Pid, 2) = 128 := by simp [NPROC]
  rw [h.refs i]
  omega

theorem incr_refcnt (h : CacheInv c view pinned g) (i : BufId) :
    incr32 (c.buf i).refcnt = (c.buf i).refcnt + 1 := by
  have := h.refcnt_lt i
  unfold incr32
  rw [if_neg (by omega)]

theorem decr_refcnt {n : Nat} (h : 1 ≤ n) : decr32 n = n - 1 := by
  unfold decr32
  rw [if_neg (by omega)]

section

variable (h : CacheInv c view pinned g)

include h

theorem refcnt_pos (hp : 1 ≤ (g p).refs i) : 1 ≤ (c.buf i).refcnt := by
  have hle := refs_le g p i
  rw [h.refs i]
  omega

/-- An unused buffer is not in anybody's hands and not pinned. -/
theorem refs_eq_zero (h0 : (c.buf i).refcnt = 0) :
    (∀ p, (g p).refs i = 0) ∧ c.pins pinned i = 0 := by
  have hsum := h.refs i
  constructor
  · intro p
    have := refs_le g p i
    omega
  · omega

/-- Two buffers that carry one block are one. -/
theorem carries_unique (hi : c.Carries i b) (hj : c.Carries j b) : i = j :=
  h.wf.uniq i j hi.1 hj.1 (hi.2.trans hj.2.symm)

/-- Two processes do not hold one buffer. -/
theorem locks_unique (hp : (g p).Locks i) (hq : (g q).Locks i) : q = p := by
  have h1 := (h.locked i p).mpr hp
  have h2 := (h.locked i q).mpr hq
  rw [h1] at h2
  exact (Option.some.inj h2).symm

end

end CacheInv

end Xv6
