/-
  Kernel/Memmove.lean --- the two versions of `memmove`.

  Both copy byte by byte, in place, and choose the direction by a test of their own.
  Addresses are 64-bit and wrap.
-/
import Mathlib.Data.UInt
import Xv6.Foundation.Bytes

set_option autoImplicit false

namespace Xv6.Strings

open Function List Foundation

abbrev Addr : Type := BitVec 64

abbrev Memory : Type := Addr → UInt8

/-- `while(n-- > 0) *d++ = *s++;` -/
def forward : Nat → Addr → Addr → Memory → Memory
  | 0, _, _, m => m
  | n + 1, d, s, m => forward n (d + 1) (s + 1) (update m d (m s))

/-- `while(n-- > 0) *--d = *--s;` -/
def backward : Nat → Addr → Addr → Memory → Memory
  | 0, _, _, m => m
  | n + 1, d, s, m => backward n (d - 1) (s - 1) (update m (d - 1) (m (s - 1)))

/-- `memmove` of the kernel, which takes a `uint`. -/
def memmove (dst src : Addr) (n : BitVec 32) (m : Memory) : Addr × Memory :=
  let len := n.setWidth 64
  (dst, if src < dst ∧ dst < src + len then backward n.toNat (dst + len) (src + len) m
    else forward n.toNat dst src m)

/-- `memmove` of the user library, which takes an `int`. -/
def ulibMemmove (dst src : Addr) (n : BitVec 32) (m : Memory) : Addr × Memory :=
  let len := n.signExtend 64
  (dst, if dst < src then forward n.toInt.toNat dst src m
    else backward n.toInt.toNat (dst + len) (src + len) m)

/-- The address of byte `i`. -/
def byteAddr (p : Addr) (i : Nat) : Addr := p + BitVec.ofNat 64 i

/-- The `n` bytes at `src` are at `dst`, and no other byte has changed. -/
structure Moved (dst src : Addr) (n : Nat) (m m' : Memory) : Prop where
  copied : ∀ i, i < n → m' (byteAddr dst i) = m (byteAddr src i)
  frame : ∀ a, (∀ i, i < n → a ≠ byteAddr dst i) → m' a = m a

/-! ## The loops -/

variable {dst src : Addr} {n : Nat} {m : Memory}

theorem byteAddr_succ (p : Addr) (i : Nat) : byteAddr p i + 1 = byteAddr p (i + 1) := by
  rw [byteAddr, byteAddr, BitVec.ofNat_add, BitVec.add_assoc]
  rfl

theorem byteAddr_succ_sub (p : Addr) (i : Nat) : byteAddr p (i + 1) - 1 = byteAddr p i := by
  rw [← byteAddr_succ, BitVec.add_sub_cancel]

theorem toNat_byteAddr {p : Addr} {i : Nat} (h : p.toNat + i < 2 ^ 64) :
    (byteAddr p i).toNat = p.toNat + i := by
  rw [byteAddr, BitVec.toNat_add, BitVec.toNat_ofNat, Nat.add_mod_mod, Nat.mod_eq_of_lt h]

theorem forward_eq (dst src : Addr) (n k : Nat) (m : Memory) :
    forward n (byteAddr dst k) (byteAddr src k) m =
      copyEach (byteAddr dst) (byteAddr src) (List.range' k n) m := by
  induction n generalizing k m with
  | zero => rfl
  | succ n ih => rw [forward, byteAddr_succ, byteAddr_succ, ih, range'_succ, copyEach]

theorem backward_eq (n : Nat) (m : Memory) :
    backward n (byteAddr dst n) (byteAddr src n) m =
      copyEach (byteAddr dst) (byteAddr src) (List.range n).reverse m := by
  induction n generalizing m with
  | zero => rfl
  | succ n ih =>
    rw [backward, byteAddr_succ_sub, byteAddr_succ_sub, ih, range_succ, reverse_concat, copyEach]

section

variable (hd : dst.toNat + n ≤ 2 ^ 64) (hs : src.toNat + n ≤ 2 ^ 64)

include hd hs

/-- A byte is not written to before it is read, whatever the order, if it is another one. -/
theorem moved_copyEach {l : List Nat} (hl : ∀ i, i ∈ l ↔ i < n) (hnodup : l.Nodup)
    (hpair : l.Pairwise fun i j => dst.toNat + i ≠ src.toNat + j) :
    Moved dst src n m (copyEach (byteAddr dst) (byteAddr src) l m) where
  copied i hi := by
    have hne : ∀ {p q : Addr} {i j : Nat}, i ∈ l → j ∈ l → p.toNat + n ≤ 2 ^ 64 →
        q.toNat + n ≤ 2 ^ 64 → p.toNat + i ≠ q.toNat + j → byteAddr p i ≠ byteAddr q j := by
      intro p q i j hi hj hp hq hne heq
      have hi := (hl i).mp hi
      have hj := (hl j).mp hj
      have := congrArg BitVec.toNat heq
      rw [toNat_byteAddr (by omega), toNat_byteAddr (by omega)] at this
      exact hne this
    refine copyEach_at ?_ ?_ ((hl i).mpr hi)
    · exact hpair.imp_of_mem fun hi hj h => hne hi hj hd hs h
    · exact hnodup.imp_of_mem fun hi hj h => hne hi hj hd hd fun heq => h (Nat.add_left_cancel heq)
  frame a ha := copyEach_outside fun i hi => ha i ((hl i).mp hi)

theorem moved_forward (h : src.toNat + n ≤ dst.toNat ∨ dst.toNat ≤ src.toNat) :
    Moved dst src n m (forward n dst src m) := by
  have heq := forward_eq dst src n 0 m
  rw [byteAddr, byteAddr, BitVec.add_zero, BitVec.add_zero, ← range_eq_range'] at heq
  rw [heq]
  refine moved_copyEach hd hs (fun i => mem_range) nodup_range ?_
  refine pairwise_lt_range.imp_of_mem fun hi hj hlt => ?_
  rw [mem_range] at hi hj
  omega

theorem moved_backward (h : src.toNat ≤ dst.toNat) :
    Moved dst src n m (backward n (byteAddr dst n) (byteAddr src n) m) := by
  rw [backward_eq]
  refine moved_copyEach hd hs (fun i => mem_reverse.trans mem_range)
    (nodup_reverse.mpr nodup_range) ?_
  refine pairwise_reverse.mpr (pairwise_lt_range.imp_of_mem fun hi hj hlt => ?_)
  omega

end

/-! ## The routines -/

/-- Both versions move the bytes as if all were read first, for every length and whether
or not the ranges overlap. -/
theorem memmove_moves (dst src : Addr) (n : BitVec 32) (m : Memory) :
    (dst.toNat + n.toNat ≤ 2 ^ 64 → src.toNat + n.toNat ≤ 2 ^ 64 →
      (memmove dst src n m).1 = dst ∧ Moved dst src n.toNat m (memmove dst src n m).2) ∧
    (0 ≤ n.toInt → dst.toNat + n.toInt ≤ 2 ^ 64 → src.toNat + n.toInt ≤ 2 ^ 64 →
      (ulibMemmove dst src n m).1 = dst ∧
        Moved dst src n.toInt.toNat m (ulibMemmove dst src n m).2) := by
  constructor
  · intro hd hs
    refine ⟨rfl, ?_⟩
    have hlen : ∀ p : Addr, p + n.setWidth 64 = byteAddr p n.toNat := by
      intro p
      rw [byteAddr, BitVec.ofNat_toNat]
    simp only [memmove, hlen]
    split
    · rename_i h
      exact moved_backward hd hs (BitVec.le_of_lt h.1)
    · rename_i h
      refine moved_forward hd hs ?_
      rw [not_and_or, BitVec.not_lt, BitVec.not_lt, BitVec.le_def, BitVec.le_def] at h
      rcases h with h | h
      · exact Or.inr h
      · -- the source ends before the destination does, so its end has not wrapped
        by_cases hlt : dst.toNat ≤ src.toNat
        · exact Or.inr hlt
        · rw [toNat_byteAddr (by omega)] at h
          exact Or.inl h
  · intro hn hd hs
    refine ⟨rfl, ?_⟩
    obtain ⟨len, hlen⟩ := Int.eq_ofNat_of_zero_le hn
    have hend : ∀ p : Addr, p + n.signExtend 64 = byteAddr p len := by
      intro p
      rw [byteAddr, ← BitVec.ofInt_toInt (x := n.signExtend 64),
        BitVec.toInt_signExtend_of_le (by decide), hlen]
      rfl
    rw [hlen] at hd hs
    simp only [ulibMemmove, hend, hlen, Int.toNat_natCast]
    split
    · rename_i h
      exact moved_forward (by omega) (by omega) (Or.inr (BitVec.le_of_lt h))
    · rename_i h
      exact moved_backward (by omega) (by omega) (BitVec.not_lt.mp h)

/-- Two bytes, moved up by one. -/
theorem memmove_moves_overlap :
    Moved 1 0 2 (fun a => a.toNat.toUInt8) (memmove 1 0 2 fun a => a.toNat.toUInt8).2 ∧
      Moved 1 0 2 (fun a => a.toNat.toUInt8) (ulibMemmove 1 0 2 fun a => a.toNat.toUInt8).2 :=
  ⟨((memmove_moves 1 0 2 _).1 (by decide) (by decide)).2,
    ((memmove_moves 1 0 2 _).2 (by decide) (by decide) (by decide)).2⟩

end Xv6.Strings
