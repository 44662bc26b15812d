/-
  Foundation/Bytes.lean --- byte arrays of a fixed length and the little-endian
  fields laid out in them.

  On-disk structures are read and written by casting a block to a C struct.  The
  model keeps the block as what it is, an array of bytes, and a field as a
  position and a width.  The lemmas are the two every codec needs: a field that
  was written is read back, and a write leaves every disjoint field alone.

  Nothing here mentions the kernel.
-/
import Mathlib.Data.Fintype.Pi
import Mathlib.Tactic.Ring

set_option autoImplicit false

namespace Xv6.Foundation

open Function List

/-- An array of `n` bytes. -/
abbrev Bytes (n : Nat) : Type := Fin n → UInt8

variable {n : Nat}

/-- The byte at position `i`; positions past the end read as zero. -/
def getByte (b : Bytes n) (i : Nat) : UInt8 := if h : i < n then b ⟨i, h⟩ else 0

/-- Store a byte at position `i`; positions past the end are not stored. -/
def setByte (b : Bytes n) (i : Nat) (v : UInt8) : Bytes n :=
  fun j => if j.val = i then v else b j

/-- The little-endian number in the `w` bytes at `off`. -/
def getLE (b : Bytes n) : Nat → Nat → Nat
  | 0, _ => 0
  | w + 1, off => (getByte b off).toNat + 256 * getLE b w (off + 1)

/-- Store a number little-endian in the `w` bytes at `off`. -/
def putLE (b : Bytes n) : Nat → Nat → Nat → Bytes n
  | 0, _, _ => b
  | w + 1, off, v => setByte (putLE b w (off + 1) (v / 256)) off (UInt8.ofNat v)

variable {b : Bytes n}

theorem getByte_setByte_self {i : Nat} {v : UInt8} (h : i < n) : getByte (setByte b i v) i = v := by
  simp [getByte, setByte, h]

theorem getByte_setByte_ne {i j : Nat} {v : UInt8} (h : j ≠ i) :
    getByte (setByte b i v) j = getByte b j := by
  simp [getByte, setByte, h]

/-- A store leaves every byte outside the field alone. -/
theorem getByte_putLE {w off v i : Nat} (h : i < off ∨ off + w ≤ i) :
    getByte (putLE b w off v) i = getByte b i := by
  induction w generalizing off v with
  | zero => rfl
  | succ w ih =>
    rw [putLE, getByte_setByte_ne (by omega), ih (by omega)]

/-- A field depends on its own bytes only. -/
theorem getLE_congr {b c : Bytes n} {w off : Nat}
    (h : ∀ i, off ≤ i → i < off + w → getByte b i = getByte c i) :
    getLE b w off = getLE c w off := by
  induction w generalizing off with
  | zero => rfl
  | succ w ih =>
    rw [getLE, getLE, h off (by omega) (by omega), ih fun i hi hlt => h i (by omega) (by omega)]

/-- A store leaves every disjoint field alone. -/
theorem getLE_putLE_ne {w w' off off' v : Nat} (h : off' + w' ≤ off ∨ off + w ≤ off') :
    getLE (putLE b w off v) w' off' = getLE b w' off' :=
  getLE_congr fun i hi hlt => getByte_putLE (by omega)

/-- A field that was stored is read back, cut to its width. -/
theorem getLE_putLE {w off v : Nat} (h : off + w ≤ n) :
    getLE (putLE b w off v) w off = v % 256 ^ w := by
  induction w generalizing off v with
  | zero => simp [getLE, Nat.mod_one]
  | succ w ih =>
    rw [getLE, putLE, getByte_setByte_self (by omega)]
    have htail : getLE (setByte (putLE b w (off + 1) (v / 256)) off (UInt8.ofNat v)) w (off + 1)
        = getLE (putLE b w (off + 1) (v / 256)) w (off + 1) :=
      getLE_congr fun i hi _ => getByte_setByte_ne (by omega)
    rw [htail, ih (by omega), pow_succ', Nat.mod_mul]
    simp

theorem getLE_lt (b : Bytes n) (w off : Nat) : getLE b w off < 256 ^ w := by
  induction w generalizing off with
  | zero => simp [getLE]
  | succ w ih =>
    have h1 := ih (off + 1)
    have h2 : (getByte b off).toNat < 256 := UInt8.toNat_lt _
    rw [getLE, pow_succ']
    omega

/-! ## Runs of bytes -/

/-- The `k` bytes at `off`. -/
def bytesAt (b : Bytes n) (off k : Nat) : List UInt8 :=
  (List.range k).map fun i => getByte b (off + i)

/-- Store bytes one after the other from `off` on. -/
def storeBytes (b : Bytes n) (off : Nat) : List UInt8 → Bytes n
  | [] => b
  | x :: xs => storeBytes (setByte b off x) (off + 1) xs

theorem length_bytesAt (b : Bytes n) (off k : Nat) : (bytesAt b off k).length = k := by
  rw [bytesAt, length_map, length_range]

theorem bytesAt_add (b : Bytes n) (off k l : Nat) :
    bytesAt b off (k + l) = bytesAt b off k ++ bytesAt b (off + k) l := by
  rw [bytesAt, bytesAt, bytesAt, range_add, map_append, map_map]
  congr 1
  refine map_congr_left fun i _ => ?_
  rw [comp_apply, Nat.add_assoc]

variable {xs : List UInt8}

theorem getByte_storeBytes_lt : ∀ {b : Bytes n} {off i : Nat}, i < off →
    getByte (storeBytes b off xs) i = getByte b i := by
  induction xs with
  | nil => exact fun _ => rfl
  | cons x xs ih =>
    intro b off i hi
    rw [storeBytes, ih (by omega), getByte_setByte_ne (by omega)]

theorem getByte_storeBytes_ge : ∀ {b : Bytes n} {off i : Nat}, off + xs.length ≤ i →
    getByte (storeBytes b off xs) i = getByte b i := by
  induction xs with
  | nil => exact fun _ => rfl
  | cons x xs ih =>
    intro b off i hi
    rw [length_cons] at hi
    rw [storeBytes, ih (by omega), getByte_setByte_ne (by omega)]

theorem getByte_storeBytes : ∀ {b : Bytes n} {off i : Nat}, off + xs.length ≤ n →
    off ≤ i → i < off + xs.length → getByte (storeBytes b off xs) i = xs.getD (i - off) 0 := by
  induction xs with
  | nil =>
    intro b off i _ hle hlt
    rw [length_nil] at hlt
    omega
  | cons x xs ih =>
    intro b off i hroom hle hlt
    rw [length_cons] at hroom hlt
    rw [storeBytes]
    by_cases hi : i = off
    · rw [hi, getByte_storeBytes_lt (by omega), getByte_setByte_self (by omega), Nat.sub_self]
      rfl
    · have hsub : i - off = i - (off + 1) + 1 := by omega
      rw [ih (by omega) (by omega) (by omega), hsub, getD_cons_succ]

theorem getByte_storeBytes_add {off t : Nat} {x : UInt8} (hroom : off + xs.length ≤ n)
    (hx : xs[t]? = some x) :
    getByte (storeBytes b off xs) (off + t) = x := by
  have ht := (List.getElem?_eq_some_iff.mp hx).1
  rw [getByte_storeBytes hroom (by omega) (by omega), Nat.add_sub_cancel_left,
    getD_eq_getElem?_getD, hx]
  rfl

/-- What is stored is read again. -/
theorem bytesAt_storeBytes : ∀ {b : Bytes n} {off : Nat}, off + xs.length ≤ n →
    bytesAt (storeBytes b off xs) off xs.length = xs := by
  induction xs with
  | nil => exact fun _ => rfl
  | cons x xs ih =>
    intro b off hfits
    rw [length_cons] at hfits
    rw [length_cons, Nat.add_comm, bytesAt_add, storeBytes, ih (by omega)]
    have hfirst : bytesAt (storeBytes (setByte b off x) (off + 1) xs) off 1 = [x] := by
      rw [bytesAt, range_one, map_singleton, getByte_storeBytes_lt (by omega)]
      exact congrArg (fun y => [y]) (getByte_setByte_self (by omega))
    rw [hfirst, singleton_append]

/-! ## Arrays of 32-bit integers -/

/-- Store a list of 32-bit integers one after the other. -/
def putInts (b : Bytes n) : Nat → List Nat → Bytes n
  | _, [] => b
  | off, x :: xs => putInts (putLE b 4 off x) (off + 4) xs

/-- A store leaves every byte outside the array alone. -/
theorem getByte_putInts {xs : List Nat} {off i : Nat} (h : i < off ∨ off + 4 * xs.length ≤ i) :
    getByte (putInts b off xs) i = getByte b i := by
  induction xs generalizing b off with
  | nil => rfl
  | cons x xs ih =>
    rw [length_cons] at h
    rw [putInts, ih (by omega), getByte_putLE (by omega)]

theorem getLE_putInts_ne {xs : List Nat} {off w o : Nat}
    (h : o + w ≤ off ∨ off + 4 * xs.length ≤ o) :
    getLE (putInts b off xs) w o = getLE b w o :=
  getLE_congr fun i hi hlt => getByte_putInts (by omega)

/-- An element that was stored is read back, cut to 32 bits. -/
theorem getLE_putInts {xs : List Nat} {off i x : Nat} (hroom : off + 4 * xs.length ≤ n)
    (hi : xs[i]? = some x) :
    getLE (putInts b off xs) 4 (off + 4 * i) = x % 2 ^ 32 := by
  induction xs generalizing b off i with
  | nil => simp at hi
  | cons y ys ih =>
    rw [length_cons] at hroom
    cases i with
    | zero =>
      have hxy : y = x := by simpa using hi
      have hoff : off + 4 * 0 = off := by omega
      have h4 : (256 : Nat) ^ 4 = 2 ^ 32 := by norm_num
      rw [putInts, hoff, getLE_putInts_ne (by omega), getLE_putLE (by omega), hxy, h4]
    | succ i =>
      have hoff : off + 4 * (i + 1) = off + 4 + 4 * i := by omega
      rw [putInts, hoff]
      exact ih (by omega) (by simpa using hi)

/-! ## Copying in place -/

variable {ι A β : Type} [DecidableEq A] {dst src : ι → A} {l : List ι} {m : A → β}

/-- The cells `src i` are copied to `dst i` in the order of the list. -/
def copyEach (dst src : ι → A) : List ι → (A → β) → A → β
  | [], m => m
  | i :: l, m => copyEach dst src l (update m (dst i) (m (src i)))

theorem copyEach_outside {a : A} (ha : ∀ i ∈ l, a ≠ dst i) : copyEach dst src l m a = m a := by
  induction l generalizing m with
  | nil => rfl
  | cons k l ih =>
    rw [forall_mem_cons] at ha
    rw [copyEach, ih ha.2, update_of_ne ha.1]

/-- No cell is overwritten before it is copied, so all are copied as they were. -/
theorem copyEach_at {i : ι} (hsrc : l.Pairwise fun i j => dst i ≠ src j)
    (hdst : l.Pairwise fun i j => dst i ≠ dst j) (hi : i ∈ l) :
    copyEach dst src l m (dst i) = m (src i) := by
  induction l generalizing m with
  | nil => cases hi
  | cons k l ih =>
    rw [pairwise_cons] at hsrc hdst
    rw [copyEach]
    rcases mem_cons.mp hi with rfl | hl
    · rw [copyEach_outside hdst.1, update_self]
    · rw [ih hsrc.2 hdst.2 hl, update_of_ne (hsrc.1 i hl).symm]

end Xv6.Foundation
