/-
  Foundation/Radix.lean --- trees of nodes that are found by following words.

  A memory gives each node its words; a word may point to a node.  A tree has no data
  structure of its own: it is what is reached from a root by following words, index by
  index.  The lemmas say when a write to the memory leaves what is reached alone, and
  what linking a blank node into a tree does.

  Nothing here mentions the kernel.
-/
import Mathlib.Data.List.Infix

set_option autoImplicit false

namespace Xv6.Foundation

open List

variable {N I W : Type} {child : W → Option N} {mem mem' : N → I → W}

/-- The node reached from `n` along the indices of a path. -/
def descend (child : W → Option N) (mem : N → I → W) : List I → N → Option N
  | [], n => some n
  | i :: p, n => (child (mem n i)).bind (descend child mem p)

theorem descend_append (p q : List I) (n : N) :
    descend child mem (p ++ q) n = (descend child mem p n).bind (descend child mem q) := by
  induction p generalizing n with
  | nil => rfl
  | cons i p ih =>
    rw [cons_append, descend, descend]
    cases child (mem n i) with
    | none => rfl
    | some m => exact ih m

theorem descend_snoc (p : List I) (i : I) (n : N) :
    descend child mem (p ++ [i]) n = (descend child mem p n).bind fun m => child (mem m i) := by
  have hone : descend child mem [i] = fun m => child (mem m i) := by
    funext m
    simp [descend]
  rw [descend_append, hone]

/-- Two memories that agree on the words a path follows lead to the same node. -/
theorem descend_congr {p : List I} {root : N}
    (h : ∀ q j m, q ++ [j] <+: p → descend child mem q root = some m → mem' m j = mem m j) :
    descend child mem' p root = descend child mem p root := by
  induction p using List.reverseRecOn with
  | nil => rfl
  | append_singleton p i ih =>
    have hp : descend child mem' p root = descend child mem p root :=
      ih fun q j m hq => h q j m (hq.trans (prefix_append p [i]))
    rw [descend_snoc, descend_snoc, hp]
    cases hm : descend child mem p root with
    | none => rfl
    | some m => simp only [Option.bind_some, h p i m prefix_rfl hm]

/-- A blank node `r` is linked into a word that pointed nowhere, of a node `n` that no
other path of length at most `h` reaches: `r` is reached where it was linked, and
nothing else changes. -/
theorem descend_link {root n r : N} {p : List I} {i : I} {h : Nat}
    (hn : descend child mem p root = some n)
    (honly : ∀ q, q.length ≤ h → descend child mem q root = some n → q = p)
    (hfresh : ∀ q, q.length ≤ h → descend child mem q root ≠ some r)
    (hempty : child (mem n i) = none) (hlink : child (mem' n i) = some r)
    (hblank : ∀ j, child (mem' r j) = none)
    (hrest : ∀ m j, m ≠ r → m ≠ n ∨ j ≠ i → mem' m j = mem m j)
    {q : List I} (hq : q.length ≤ h) :
    (q = p ++ [i] → descend child mem' q root = some r) ∧
      (q ≠ p ++ [i] → descend child mem' q root = descend child mem q root) := by
  induction q using List.reverseRecOn with
  | nil => exact ⟨fun hnil => absurd hnil (by simp), fun _ => rfl⟩
  | append_singleton q j ih =>
    rw [length_append, length_singleton] at hq
    obtain ⟨ihself, ihne⟩ := ih (by omega)
    by_cases hqp : q = p ++ [i]
    · -- below the new node there is nothing, before and after
      have hold : descend child mem (q ++ [j]) root = none := by
        rw [descend_snoc, hqp, descend_snoc, hn]
        simp [hempty]
      refine ⟨fun heq => ?_, fun _ => ?_⟩
      · have hlen := congrArg List.length (heq.symm.trans (by rw [hqp]))
        simp at hlen
      · rw [hold, descend_snoc, ihself hqp]
        exact hblank j
    · rw [descend_snoc, descend_snoc, ihne hqp]
      cases hm : descend child mem q root with
      | none =>
        refine ⟨fun heq => ?_, fun _ => rfl⟩
        obtain ⟨rfl, -⟩ := append_inj' heq rfl
        rw [hn] at hm
        cases hm
      | some m =>
        have hmr : m ≠ r := by
          rintro rfl
          exact hfresh q (by omega) hm
        constructor
        · intro heq
          obtain ⟨rfl, hj⟩ := append_inj' heq rfl
          obtain rfl : m = n := Option.some.inj (hm.symm.trans hn)
          obtain rfl : j = i := singleton_inj.mp hj
          exact hlink
        · intro hne
          have hword : m ≠ n ∨ j ≠ i := by
            by_contra hboth
            obtain ⟨rfl, rfl⟩ : m = n ∧ j = i := by tauto
            exact hne (by rw [honly q (by omega) hm])
          simp only [Option.bind_some, hrest m j hmr hword]

end Xv6.Foundation
