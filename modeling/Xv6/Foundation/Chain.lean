/-
  Foundation/Chain.lean --- linked lists.

  `next` is where each node points.  `Seg next a l e` says that from `a` the pointers
  lead through the nodes `l` and then to `e`.  A circular list with `a` on it is
  `Seg next a l a`, and can be read from any of its nodes.

  Nothing here mentions the kernel.
-/
import Mathlib.Data.List.Basic

set_option autoImplicit false

namespace Xv6.Foundation.Chain

open Function List

variable {A : Type} {next next' : A → A} {a b e e' : A} {l r : List A}

/-- From `a` through `l` to `e`. -/
def Seg (next : A → A) : A → List A → A → Prop
  | a, [], e => next a = e
  | a, b :: l, e => next a = b ∧ Seg next b l e

/-- The nodes `l`, however they were come to, and then `e`. -/
def Run (next : A → A) : List A → A → Prop
  | [], _ => True
  | b :: l, e => Seg next b l e

theorem seg_iff : Seg next a l e ↔ next a = l.headD e ∧ Run next l e := by
  cases l with
  | nil => simp [Seg, Run]
  | cons b l => rfl

theorem seg_append : Seg next a (l ++ r) e ↔ Seg next a l (r.headD e) ∧ Run next r e := by
  induction l generalizing a with
  | nil => exact seg_iff
  | cons b l ih =>
    rw [cons_append, Seg, Seg, ih, and_assoc]

theorem seg_append_cons : Seg next a (l ++ b :: r) e ↔ Seg next a l b ∧ Seg next b r e :=
  seg_append

namespace Seg

/-- The last node points to the end. -/
theorem next_last (h : Seg next a l e) : next (l.getLastD a) = e := by
  induction l generalizing a with
  | nil => exact h
  | cons b l ih =>
    rw [getLastD_cons]
    exact ih h.2

/-- Only the pointers of the nodes matter. -/
theorem congr (h : Seg next a l e) (hnext : ∀ x ∈ a :: l, next' x = next x) : Seg next' a l e := by
  induction l generalizing a with
  | nil => exact (hnext a mem_cons_self).trans h
  | cons b l ih =>
    refine ⟨(hnext a mem_cons_self).trans h.1, ih h.2 ?_⟩
    exact fun x hx => hnext x (mem_cons_of_mem _ hx)

end Seg

theorem Run.congr (h : Run next l e) (hnext : ∀ x ∈ l, next' x = next x) : Run next' l e := by
  cases l with
  | nil => trivial
  | cons b l => exact Seg.congr h hnext

theorem getLastD_mem (l : List A) (a : A) : l.getLastD a ∈ a :: l := by
  induction l generalizing a with
  | nil => exact mem_singleton_self a
  | cons b l ih =>
    rw [getLastD_cons]
    exact mem_cons_of_mem _ (ih b)

theorem getLastD_append (l : List A) (b : A) (r : List A) (a : A) :
    (l ++ b :: r).getLastD a = r.getLastD b := by
  induction l generalizing a with
  | nil => exact getLastD_cons ..
  | cons c l ih =>
    rw [cons_append, getLastD_cons]
    exact ih c

theorem getLastD_getLastD (l r : List A) (a : A) :
    (l ++ r).getLastD a = r.getLastD (l.getLastD a) := by
  induction l generalizing a with
  | nil => rfl
  | cons b l ih =>
    rw [cons_append, getLastD_cons, getLastD_cons]
    exact ih b

/-- Every node is the last of the nodes up to it. -/
theorem exists_split {x : A} (h : x ∈ a :: l) : ∃ l₁ l₂, l = l₁ ++ l₂ ∧ l₁.getLastD a = x := by
  rcases mem_cons.mp h with rfl | h
  · exact ⟨[], l, rfl, rfl⟩
  · obtain ⟨l₁, l₂, rfl⟩ := append_of_mem h
    refine ⟨l₁ ++ [x], l₂, by rw [append_assoc]; rfl, ?_⟩
    rw [getLastD_append]
    rfl

/-- The last pointer is changed. -/
theorem Seg.set_last [DecidableEq A] (h : Seg next a l e) (hnodup : (a :: l).Nodup) (e' : A) :
    Seg (update next (l.getLastD a) e') a l e' := by
  induction l generalizing a with
  | nil => exact update_self ..
  | cons b l ih =>
    rw [getLastD_cons]
    obtain ⟨ha, hnodup⟩ := nodup_cons.mp hnodup
    refine ⟨?_, ih h.2 hnodup⟩
    have hne : a ≠ l.getLastD b := fun heq => ha (heq ▸ getLastD_mem l b)
    rw [update_of_ne hne]
    exact h.1

/-- A circular list, read from the last node of its first part. -/
theorem Seg.rotate (h : Seg next a (l ++ r) a) :
    Seg next (l.getLastD a) (r ++ a :: l) (r.headD a) := by
  obtain ⟨hl, hr⟩ := seg_append.mp h
  refine seg_append_cons.mpr ⟨?_, hl⟩
  exact seg_iff.mpr ⟨hl.next_last, hr⟩

/-! ## Looking along a list -/

/-- The first node, from `a` on, that `stop` holds of. -/
def find (next : A → A) (stop : A → Bool) : Nat → A → Option A
  | 0, _ => none
  | fuel + 1, a => if stop a then some a else find next stop fuel (next a)

/-- What was found is found with more fuel. -/
theorem find_mono {stop : A → Bool} {fuel fuel' : Nat} {x : A}
    (h : find next stop fuel a = some x) (hle : fuel ≤ fuel') :
    find next stop fuel' a = some x := by
  induction fuel generalizing a fuel' with
  | zero => cases h
  | succ fuel ih =>
    obtain ⟨k, rfl⟩ : ∃ k, fuel' = k + 1 := ⟨fuel' - 1, by omega⟩
    rw [find] at h ⊢
    split at h
    · rename_i hstop
      rw [if_pos hstop]
      exact h
    · rename_i hstop
      rw [if_neg hstop]
      exact ih h (by omega)

/-- If `stop` holds of some node of a list, one is found. -/
theorem Seg.find {stop : A → Bool} (h : Seg next a l e) (hstop : ∃ x ∈ a :: l, stop x = true)
    {fuel : Nat} (hfuel : l.length < fuel) :
    ∃ x ∈ a :: l, stop x = true ∧ Chain.find next stop fuel a = some x := by
  induction l generalizing a fuel with
  | nil =>
    obtain ⟨x, hx, hstop⟩ := hstop
    obtain ⟨fuel, rfl⟩ := Nat.exists_eq_add_of_lt hfuel
    cases mem_singleton.mp hx
    refine ⟨a, hx, hstop, ?_⟩
    rw [length_nil, Nat.zero_add, Chain.find, if_pos hstop]
  | cons b l ih =>
    obtain ⟨k, rfl⟩ : ∃ k, fuel = k + 1 := ⟨fuel - 1, by omega⟩
    by_cases ha : stop a = true
    · exact ⟨a, mem_cons_self, ha, by rw [Chain.find, if_pos ha]⟩
    · obtain ⟨x, hx, hstop⟩ := hstop
      have hx : x ∈ b :: l := by
        rcases mem_cons.mp hx with rfl | hx
        · exact absurd hstop ha
        · exact hx
      rw [length_cons] at hfuel
      obtain ⟨y, hy, hystop, hfind⟩ := ih h.2 ⟨x, hx, hstop⟩ (show l.length < k by omega)
      refine ⟨y, mem_cons_of_mem _ hy, hystop, ?_⟩
      rw [Chain.find, if_neg ha, h.1]
      exact hfind

end Xv6.Foundation.Chain
