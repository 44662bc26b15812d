/-
  Foundation/Refcount.lean --- reference counts.

  Objects `κ` have a count; the entries of a finite table refer to objects.  Besides the
  table there may be references in transit: `hand k` of them, less those that have been
  put into the table before they were counted.  `Counted` is the invariant that a count is
  the number of references; every step of a program that keeps counts is one of its rules.

  Nothing here mentions the kernel.
-/
import Mathlib.Algebra.Group.Pi.Lemmas
import Mathlib.Algebra.Order.BigOperators.Group.Finset
import Mathlib.Algebra.Ring.Int.Defs
import Xv6.Foundation.Interleave

set_option autoImplicit false

namespace Xv6.Foundation

open Function

variable {ι κ : Type} [Fintype ι] [DecidableEq κ]

/-- The references to `k` in a table. -/
def refs (tbl : ι → Option κ) (k : κ) : Nat := ∑ i, if tbl i = some k then 1 else 0

/-- An entry refers to something else now. -/
theorem refs_update [DecidableEq ι] (tbl : ι → Option κ) (i : ι) (v : Option κ) (k : κ) :
    refs (update tbl i v) k + (if tbl i = some k then 1 else 0)
      = refs tbl k + if v = some k then 1 else 0 :=
  sum_update_add (fun x => if x = some k then 1 else 0) tbl i v

variable {k : κ}

theorem refs_pos {tbl : ι → Option κ} (i : ι) (h : tbl i = some k) : 0 < refs tbl k := by
  have hle := Finset.single_le_sum (f := fun j => if tbl j = some k then 1 else 0)
    (fun j _ => Nat.zero_le _) (Finset.mem_univ i)
  rw [if_pos h] at hle
  exact hle

/-- Every count is the number of references. -/
def Counted (ref : κ → Int) (tbl : ι → Option κ) (hand : κ → Int) : Prop :=
  ∀ k, ref k = refs tbl k + hand k

namespace Counted

variable {ref : κ → Int} {tbl : ι → Option κ} {hand : κ → Int}

section

variable (h : Counted ref tbl hand)

include h

/-- An object that is referred to has a positive count, unless it is owed one. -/
theorem pos_of_entry {i : ι} (hi : tbl i = some k) (hhand : 0 ≤ hand k) : 0 < ref k := by
  have hpos := refs_pos i hi
  have hk := h k
  omega

theorem pos_of_hand (hhand : 0 < hand k) : 0 < ref k := by
  have hk := h k
  omega

/-- A count goes up or down, and so do the references in hand. -/
theorem add (k : κ) (d : Int) : Counted (update ref k (ref k + d)) tbl (hand + Pi.single k d) := by
  intro j
  by_cases hj : j = k
  · subst hj
    rw [update_self, h j, Pi.add_apply, Pi.single_eq_same]
    omega
  · rw [update_of_ne hj, h j, Pi.add_apply, Pi.single_eq_of_ne hj, add_zero]

/-- A reference in hand is put into an empty entry. -/
theorem put [DecidableEq ι] {i : ι} (hi : tbl i = none) (k : κ) :
    Counted ref (update tbl i (some k)) (hand - Pi.single k 1) := by
  intro j
  have hrefs := refs_update tbl i (some k) j
  rw [hi, if_neg (by simp)] at hrefs
  rw [h j, Pi.sub_apply]
  by_cases hj : j = k
  · subst hj
    rw [if_pos rfl] at hrefs
    rw [Pi.single_eq_same]
    omega
  · rw [if_neg (by simpa using Ne.symm hj)] at hrefs
    rw [Pi.single_eq_of_ne hj]
    omega

/-- The reference of an entry is taken in hand. -/
theorem take [DecidableEq ι] {i : ι} (hi : tbl i = some k) :
    Counted ref (update tbl i none) (hand + Pi.single k 1) := by
  intro j
  have hrefs := refs_update tbl i none j
  rw [hi, if_neg (c := none = some j) (by simp)] at hrefs
  rw [h j, Pi.add_apply]
  by_cases hj : j = k
  · subst hj
    rw [if_pos rfl] at hrefs
    rw [Pi.single_eq_same]
    omega
  · rw [if_neg (by simpa using Ne.symm hj)] at hrefs
    rw [Pi.single_eq_of_ne hj]
    omega

end

end Counted

end Xv6.Foundation
