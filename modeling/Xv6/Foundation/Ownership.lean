/-
  Foundation/Ownership.lean --- allocation maps: who has which unit of a resource.

  A resource has units `0`, ..., `size - 1`; those below `first` are always taken.  A
  map says which units are in use, and pointers `v` say where they are used, zero
  being no unit.  `Owns` is the invariant of an allocator and everything that holds
  units of it: no unit has two pointers, and the units in use are those that have one.
  `X` are units in transit: taken from the map, or taken off a pointer, and not yet
  attached or given back.

  Nothing here mentions the kernel.
-/
import Mathlib.Data.Set.Insert
import Mathlib.Tactic.Tauto

set_option autoImplicit false

namespace Xv6.Foundation

open Function

variable {ι : Type} {first size b : Nat} {used used' : Nat → Prop} {v v' : ι → Nat}
  {X : Set Nat}

structure Owns (first size : Nat) (used : Nat → Prop) (v : ι → Nat) (X : Set Nat) : Prop where
  inj : ∀ i j, v i = v j → v i ≠ 0 → i = j
  range : ∀ i, v i ≠ 0 → first ≤ v i ∧ v i < size
  loose : ∀ b ∈ X, first ≤ b ∧ b < size
  apart : ∀ b ∈ X, ∀ i, v i ≠ b
  low : ∀ b, b < first → b < size → used b
  used : ∀ b, first ≤ b → b < size → (used b ↔ b ∈ X ∨ ∃ i, v i = b)

namespace Owns

section

variable (h : Owns first size used v X)

include h

/-- The same map and the same pointers, given in another way. -/
theorem congr (hused : ∀ b, b < size → (used' b ↔ used b))
    (hv : ∀ i, v' i = v i) : Owns first size used' v' X := by
  have hv : v' = v := funext hv
  subst hv
  exact { h with
    low := fun b hb hs => (hused b hs).mpr (h.low b hb hs)
    used := fun b hb hs => (hused b hs).trans (h.used b hb hs) }

/-- A free unit has no pointer. -/
theorem free (hb : b < size) (hfree : ¬ used b) : first ≤ b ∧ b ∉ X ∧ ∀ i, v i ≠ b := by
  have hfirst : first ≤ b := by
    by_contra hlt
    exact hfree (h.low b (by omega) hb)
  have hnot := mt (h.used b hfirst hb).mpr hfree
  exact ⟨hfirst, fun hX => hnot (Or.inl hX), fun i hi => hnot (Or.inr ⟨i, hi⟩)⟩

/-- A free unit is taken. -/
theorem take (hb : b < size) (hfree : ¬ used b)
    (hused : ∀ c, c < size → (used' c ↔ used c ∨ c = b)) :
    Owns first size used' v (insert b X) := by
  obtain ⟨hfirst, -, hv⟩ := h.free hb hfree
  refine ⟨h.inj, h.range, ?_, ?_, ?_, ?_⟩
  · rintro c (rfl | hc)
    · exact ⟨hfirst, hb⟩
    · exact h.loose c hc
  · rintro c (rfl | hc) i
    · exact hv i
    · exact h.apart c hc i
  · exact fun c hc hs => (hused c hs).mpr (Or.inl (h.low c hc hs))
  · intro c hc hs
    rw [hused c hs, h.used c hc hs, Set.mem_insert_iff]
    tauto

end

/-- A unit in transit gets a pointer that had none. -/
theorem attach [DecidableEq ι] (h : Owns first size used v X) (hpos : 0 < first) {i : ι}
    (hi : v i = 0) (hb : b ∈ X) : Owns first size used (update v i b) (X \ {b}) := by
  have hrange := h.loose b hb
  have hne : ∀ j, j ≠ i → update v i b j = v j := fun j hj => update_of_ne hj _ _
  have hself : update v i b i = b := update_self ..
  have hother : ∀ j, v j ≠ b := h.apart b hb
  refine ⟨?_, ?_, fun c hc => h.loose c hc.1, ?_, h.low, ?_⟩
  · intro j k hjk hj
    by_cases hji : j = i <;> by_cases hki : k = i
    · rw [hji, hki]
    · rw [hji, hself, hne k hki] at hjk
      exact absurd hjk.symm (hother k)
    · rw [hki, hself, hne j hji] at hjk
      exact absurd hjk (hother j)
    · rw [hne j hji] at hj hjk
      rw [hne k hki] at hjk
      exact h.inj j k hjk hj
  · intro j hj
    by_cases hji : j = i
    · rw [hji, hself]
      exact hrange
    · rw [hne j hji] at hj ⊢
      exact h.range j hj
  · rintro c ⟨hcX, hcb⟩ j
    by_cases hji : j = i
    · rw [hji, hself]
      exact fun hbc => hcb hbc.symm
    · rw [hne j hji]
      exact h.apart c hcX j
  · intro c hc hs
    rw [h.used c hc hs]
    constructor
    · rintro (hcX | ⟨j, hj⟩)
      · by_cases hcb : c = b
        · exact Or.inr ⟨i, by rw [hself, hcb]⟩
        · exact Or.inl ⟨hcX, hcb⟩
      · refine Or.inr ⟨j, ?_⟩
        rw [hne j ?_, hj]
        rintro rfl
        omega
    · rintro (⟨hcX, -⟩ | ⟨j, hj⟩)
      · exact Or.inl hcX
      · by_cases hji : j = i
        · rw [hji, hself] at hj
          exact Or.inl (hj ▸ hb)
        · exact Or.inr ⟨j, by rw [← hne j hji]; exact hj⟩

end Owns

end Xv6.Foundation
