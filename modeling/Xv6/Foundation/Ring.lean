/-
  Foundation/Ring.lean --- a ring buffer whose counters wrap.

  Two counters say how many elements were put in and how many were taken out, both
  modulo `W`; element number `k` is in cell `k % N`.  `N` divides `W`, so a counter
  finds its cell after it has wrapped, and `N < W`, so a full ring and an empty one can
  be told apart.  `Holds` relates the cells and the counters to the whole history of
  the ring.

  Nothing here mentions the kernel.
-/
import Mathlib.Data.Fin.Basic
import Mathlib.Data.List.Infix
import Mathlib.Data.Nat.ModEq

set_option autoImplicit false

namespace Xv6.Foundation.Ring

open Function List

variable {α : Type} {N W : Nat} [NeZero N]

/-- The cells and counters of a ring that `sent` went into and `taken` came out of. -/
structure Holds (N W : Nat) [NeZero N] (data : Fin N → α) (r w : Nat) (sent taken : List α) :
    Prop where
  written : w = sent.length % W
  read : r = taken.length % W
  front : taken <+: sent
  room : sent.length ≤ taken.length + N
  cell : ∀ k (h : k < sent.length), taken.length ≤ k → data (Fin.ofNat N k) = sent[k]

variable {data : Fin N → α} {r w : Nat} {sent taken : List α}

theorem holds_nil (data : Fin N → α) : Holds N W data 0 0 [] [] where
  written := by simp
  read := by simp
  front := prefix_rfl
  room := Nat.zero_le _
  cell k h := absurd h (Nat.not_lt_zero k)

/-- Numbers less than `W` apart are equal if they are equal modulo `W`. -/
theorem eq_of_mod_eq {a b : Nat} (hab : a ≤ b) (hlt : b < a + W) (hmod : a % W = b % W) :
    a = b := by
  by_contra hne
  have hle : W ≤ b - a := Nat.le_of_dvd (by omega) ((Nat.modEq_iff_dvd' hab).mp hmod)
  omega

/-- A wrapped counter finds the cell of the number it counts to. -/
theorem ofNat_mod (hW : N ∣ W) (k : Nat) : Fin.ofNat N (k % W) = Fin.ofNat N k := by
  apply Fin.ext
  simp only [Fin.val_ofNat]
  exact Nat.mod_mod_of_dvd k hW

theorem ofNat_inj {a b : Nat} (hab : a ≤ b) (hlt : b < a + N)
    (h : Fin.ofNat N a = Fin.ofNat N b) : a = b := by
  have hmod : a % N = b % N := by simpa only [Fin.val_ofNat] using congrArg Fin.val h
  exact eq_of_mod_eq hab hlt hmod

theorem succ_mod (k : Nat) : (k % W + 1) % W = (k + 1) % W := Nat.mod_add_mod k W 1

namespace Holds

theorem le (h : Holds N W data r w sent taken) : taken.length ≤ sent.length := h.front.length_le

section

variable (hlt : N < W) (h : Holds N W data r w sent taken)

include hlt h

/-- The test for an empty ring. -/
theorem empty_iff : r = w ↔ sent.length = taken.length := by
  rw [h.read, h.written]
  constructor
  · intro hmod
    have := h.room
    exact (eq_of_mod_eq h.le (by omega) hmod).symm
  · intro heq
    rw [heq]

/-- The test for a full ring. -/
theorem full_iff : w = (r + N) % W ↔ sent.length = taken.length + N := by
  rw [h.read, h.written, Nat.mod_add_mod]
  constructor
  · intro hmod
    have := h.le
    exact eq_of_mod_eq h.room (by omega) hmod
  · intro heq
    rw [heq]

/-- The counters tell how many elements there are. -/
theorem count : (w + (W - r)) % W = sent.length - taken.length := by
  have hW : 0 < W := by omega
  have hle := h.le
  have hroom := h.room
  have hr : r < W := by rw [h.read]; exact Nat.mod_lt _ hW
  have hdiv := Nat.div_add_mod taken.length W
  rw [← h.read] at hdiv
  have hsum : sent.length + (W - r) =
      (sent.length - taken.length) + W * (taken.length / W + 1) := by
    rw [Nat.mul_add]
    omega
  rw [h.written, Nat.mod_add_mod, hsum, Nat.add_mul_mod_self_left]
  exact Nat.mod_eq_of_lt (by omega)

end

/-- An element is put into a ring that is not full. -/
theorem push (hW : N ∣ W) (hlt : N < W) (h : Holds N W data r w sent taken)
    (hfull : w ≠ (r + N) % W) (x : α) :
    Holds N W (update data (Fin.ofNat N w) x) r ((w + 1) % W) (sent ++ [x]) taken := by
  have hroom : sent.length < taken.length + N := by
    have hle := h.room
    have hne := mt (h.full_iff hlt).mpr hfull
    omega
  have hcell : Fin.ofNat N w = Fin.ofNat N sent.length := by rw [h.written, ofNat_mod hW]
  refine ⟨?_, h.read, h.front.trans (prefix_append _ _), ?_, ?_⟩
  · rw [h.written, succ_mod, length_append, length_singleton]
  · rw [length_append, length_singleton]
    omega
  · intro k hk hle
    rw [length_append, length_singleton] at hk
    rw [hcell]
    by_cases hnew : k = sent.length
    · subst hnew
      simp
    · have hne : Fin.ofNat N k ≠ Fin.ofNat N sent.length := fun heq =>
        hnew (ofNat_inj (by omega) (by omega) heq)
      rw [update_of_ne hne, h.cell k (by omega) hle, getElem_append_left (by omega)]

/-- An element is taken out of a ring that is not empty. -/
theorem pop (hW : N ∣ W) (hlt : N < W) (h : Holds N W data r w sent taken) (hempty : r ≠ w) :
    Holds N W data ((r + 1) % W) w sent (taken ++ [data (Fin.ofNat N r)]) := by
  have hmore : taken.length < sent.length := by
    have hle := h.le
    have hne := mt (h.empty_iff hlt).mpr hempty
    omega
  have hcell : data (Fin.ofNat N r) = sent[taken.length] := by
    rw [h.read, ofNat_mod hW]
    exact h.cell _ hmore le_rfl
  refine ⟨h.written, ?_, ?_, ?_, ?_⟩
  · rw [h.read, succ_mod, length_append, length_singleton]
  · rw [hcell]
    obtain ⟨rest, hrest⟩ := h.front
    cases rest with
    | nil => simp [← hrest] at hmore
    | cons y ys =>
      refine ⟨ys, ?_⟩
      have hy : sent[taken.length] = y := by simp [← hrest]
      rw [hy, append_assoc]
      exact hrest
  · have := h.room
    rw [length_append]
    omega
  · intro k hk hle
    rw [length_append, length_singleton] at hle
    exact h.cell k hk (by omega)

end Holds

/-! ## The elements from one place on -/

/-- From cell `start` on a ring has these elements. -/
def Window (data : Fin N → α) (start : Nat) (q : List α) : Prop :=
  ∀ k (h : k < q.length), data (Fin.ofNat N (start + k)) = q[k]

variable {start : Nat} {q : List α} {x : α}

theorem window_nil (data : Fin N → α) (start : Nat) : Window data start [] :=
  fun k h => absurd h (Nat.not_lt_zero k)

theorem ofNat_add_congr {a b : Nat} (h : Fin.ofNat N a = Fin.ofNat N b) (k : Nat) :
    Fin.ofNat N (a + k) = Fin.ofNat N (b + k) := by
  have hmod : a % N = b % N := by simpa only [Fin.val_ofNat] using congrArg Fin.val h
  apply Fin.ext
  simp only [Fin.val_ofNat]
  exact Nat.ModEq.add_right k hmod

namespace Window

/-- Only the cell of the start matters. -/
theorem congr {start' : Nat} (h : Window data start q)
    (hstart : Fin.ofNat N start' = Fin.ofNat N start) : Window data start' q := by
  intro k hk
  rw [ofNat_add_congr hstart k]
  exact h k hk

theorem head (h : Window data start (x :: q)) : data (Fin.ofNat N start) = x :=
  h 0 (Nat.succ_pos _)

theorem tail (h : Window data start (x :: q)) : Window data (start + 1) q := by
  intro k hk
  rw [Nat.add_assoc, Nat.add_comm 1 k]
  exact h (k + 1) (Nat.succ_lt_succ hk)

/-- One more element, which is in its cell already. -/
theorem snoc (h : Window data start q) (hx : data (Fin.ofNat N (start + q.length)) = x) :
    Window data start (q ++ [x]) := by
  intro k hk
  by_cases hlast : k < q.length
  · rw [getElem_append_left hlast]
    exact h k hlast
  · rw [length_append, length_singleton] at hk
    have hk : k = q.length := by omega
    subst hk
    simpa using hx

/-- The elements of the first part. -/
theorem left {q' : List α} (h : Window data start (q ++ q')) : Window data start q := by
  intro k hk
  rw [h k (by rw [length_append]; omega), getElem_append_left hk]

/-- The elements of the second part. -/
theorem right {q' : List α} (h : Window data start (q ++ q')) :
    Window data (start + q.length) q' := by
  intro k hk
  rw [Nat.add_assoc, h (q.length + k) (by rw [length_append]; omega),
    getElem_append_right (by omega)]
  simp only [Nat.add_sub_cancel_left]

/-- The cell after the last element may be written, if the ring is not full. -/
theorem update_end (h : Window data start q) (hroom : q.length < N) :
    Window (update data (Fin.ofNat N (start + q.length)) x) start q := by
  intro k hk
  have hne : Fin.ofNat N (start + k) ≠ Fin.ofNat N (start + q.length) := by
    intro heq
    have := ofNat_inj (by omega) (by omega) heq
    omega
  rw [update_of_ne hne]
  exact h k hk

end Window

end Xv6.Foundation.Ring
