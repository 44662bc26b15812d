/-
  Kernel/Log.lean --- the in-memory log of `kernel/log.c`: the header block's
  format, and the sections of `begin_op`, `end_op` and `log_write` that run under
  `log.lock`.

  `lh.block[0..n)` is a list, `lh.n` its length: the entries of `block` past `n`
  are never read.  The routines that write the log to disk are in
  `Kernel/Machine.lean`.
-/
import Xv6.Kernel.Layout

set_option autoImplicit false

namespace Xv6

open List Foundation

/-! ## The header block -/

/-- A 32-bit pattern read as a signed `int`. -/
def toInt32 (x : Nat) : Int := if x < 2 ^ 31 then x else (x : Int) - 2 ^ 32

/-- `((struct logheader *) data)->n`. -/
def headerN (b : Block) : Int := toInt32 (getLE b 4 0)

/-- What `write_head` makes of the header block's old contents. -/
def encodeHeader (old : Block) (lh : List Nat) : Block :=
  putInts (putLE old 4 0 lh.length) 4 lh

/-- What `read_head` copies out of the header block: nothing when `n` is negative. -/
def decodeHeader (b : Block) : List Nat :=
  (range (headerN b).toNat).map fun i => getLE b 4 (4 + 4 * i)

theorem headerN_encode {old : Block} {lh : List Nat} (hlen : lh.length ≤ LOGSIZE) :
    headerN (encodeHeader old lh) = lh.length := by
  have hl : lh.length < 2 ^ 31 := by
    have : LOGSIZE < 2 ^ 31 := by decide
    omega
  have h4 : (256 : Nat) ^ 4 = 2 ^ 32 := by norm_num
  have hb : 0 + 4 ≤ BSIZE := by decide
  rw [headerN, encodeHeader, getLE_putInts_ne (by omega), getLE_putLE hb, h4,
    Nat.mod_eq_of_lt (by omega), toInt32, if_pos hl]

/-- A header that was written is read back. -/
theorem decode_encode {old : Block} {lh : List Nat} (hlen : lh.length ≤ LOGSIZE)
    (hint : ∀ b ∈ lh, b < 2 ^ 32) : decodeHeader (encodeHeader old lh) = lh := by
  have hroom : 4 + 4 * lh.length ≤ BSIZE := by
    have : 4 + 4 * LOGSIZE ≤ BSIZE := by decide
    omega
  rw [decodeHeader, headerN_encode hlen, Int.toNat_natCast]
  apply ext_getElem?
  intro i
  rw [getElem?_map]
  by_cases hi : i < lh.length
  · have hx : lh[i]? = some lh[i] := getElem?_eq_getElem hi
    rw [getElem?_range hi, Option.map_some, hx, encodeHeader, getLE_putInts hroom hx,
      Nat.mod_eq_of_lt (hint _ (getElem_mem hi))]
  · rw [getElem?_eq_none (by simpa using hi), getElem?_eq_none (by omega)]
    rfl

theorem decode_eq_nil {b : Block} (h : headerN b = 0) : decodeHeader b = [] := by
  rw [decodeHeader, h]
  rfl

/-! ## `struct log` -/

/-- `struct log`, less its spin lock. -/
structure Log where
  start : Nat
  size : Nat
  dev : Nat
  /-- How many file-system calls are executing. -/
  outstanding : Int
  /-- In `commit()`, please wait. -/
  committing : Bool
  /-- `lh.block[0..lh.n)`. -/
  lh : List Nat
  deriving DecidableEq, Repr

namespace Log

/-- One turn of the loop of `begin_op`; `none` is the `sleep`. -/
def beginOp (l : Log) : Option Log :=
  if l.committing then none
  else if (l.lh.length : Int) + (l.outstanding + 1) * MAXOPBLOCKS > LOGSIZE then
    -- this op might exhaust log space; wait for commit
    none
  else some { l with outstanding := l.outstanding + 1 }

/-- The first section of `end_op`: drop the operation, and take on the commit if it
was the last one. -/
def endOp (l : Log) : Except String (Log × Bool) :=
  let l := { l with outstanding := l.outstanding - 1 }
  if l.committing then .error "log.committing"
  else if l.outstanding = 0 then .ok ({ l with committing := true }, true)
  else .ok (l, false)

/-- The second section of `end_op`, after `commit()`. -/
def endCommit (l : Log) : Log := { l with committing := false }

/-- The two checks at the top of `log_write`, made before `log.lock` is taken. -/
def logWriteCheck (l : Log) : Except String Unit :=
  if LOGSIZE ≤ l.lh.length ∨ l.size ≤ l.lh.length + 1 then .error "too big a transaction"
  else if l.outstanding < 1 then .error "log_write outside of trans"
  else .ok ()

/-- The section of `log_write` under `log.lock`: record the block, absorbing it if
it is already there.  The flag says that the block is new and is to be pinned. -/
def absorb (l : Log) (blockno : Nat) : Log × Bool :=
  if blockno ∈ l.lh then (l, false) else ({ l with lh := l.lh ++ [blockno] }, true)

theorem beginOp_some {l l' : Log} (h : l.beginOp = some l') : l.committing = false ∧
    (l.lh.length : Int) + (l.outstanding + 1) * MAXOPBLOCKS ≤ LOGSIZE ∧
    l' = { l with outstanding := l.outstanding + 1 } := by
  unfold beginOp at h
  split at h
  · cases h
  · rename_i hc
    split at h
    · cases h
    · rename_i hn
      exact ⟨by simpa using hc, by omega, (Option.some.inj h).symm⟩

variable {l : Log}

/-- The room test of `begin_op` always lets the first operation in. -/
theorem beginOp_none (h : l.beginOp = none) : l.committing = true ∨
    (LOGSIZE : Int) < (l.lh.length : Int) + (l.outstanding + 1) * MAXOPBLOCKS := by
  unfold beginOp at h
  split at h
  · rename_i hc
    exact Or.inl hc
  · split at h
    · rename_i hn
      exact Or.inr hn
    · cases h

theorem endOp_ok {l l' : Log} {b : Bool} (h : l.endOp = .ok (l', b)) : l.committing = false ∧
    ((b = true ∧ l.outstanding = 1 ∧ l' = { l with outstanding := 0, committing := true }) ∨
     (b = false ∧ l.outstanding ≠ 1 ∧ l' = { l with outstanding := l.outstanding - 1 })) := by
  unfold endOp at h
  simp only at h
  split at h
  · cases h
  · rename_i hc
    split at h
    · rename_i ho
      simp only [Except.ok.injEq, Prod.mk.injEq] at h
      obtain ⟨rfl, rfl⟩ := h
      exact ⟨by simpa using hc, Or.inl ⟨rfl, by omega, by rw [ho]⟩⟩
    · rename_i ho
      simp only [Except.ok.injEq, Prod.mk.injEq] at h
      obtain ⟨rfl, rfl⟩ := h
      exact ⟨by simpa using hc, Or.inr ⟨rfl, by omega, rfl⟩⟩

theorem endOp_error {e : String} (h : l.endOp = .error e) : l.committing = true := by
  unfold endOp at h
  simp only at h
  split at h
  · rename_i hc
    exact hc
  · split at h <;> cases h

theorem logWriteCheck_ok (h : l.logWriteCheck = .ok ()) :
    l.lh.length < LOGSIZE ∧ l.lh.length + 1 < l.size ∧ 1 ≤ l.outstanding := by
  unfold logWriteCheck at h
  split at h
  · cases h
  · split at h
    · cases h
    · omega

theorem logWriteCheck_error {e : String} (h : l.logWriteCheck = .error e) :
    (e = "too big a transaction" ∧ (LOGSIZE ≤ l.lh.length ∨ l.size ≤ l.lh.length + 1)) ∨
    (e = "log_write outside of trans" ∧ l.outstanding < 1) := by
  unfold logWriteCheck at h
  split at h
  · rename_i hbig
    exact Or.inl ⟨(Except.error.inj h).symm, hbig⟩
  · split at h
    · rename_i hout
      exact Or.inr ⟨(Except.error.inj h).symm, hout⟩
    · cases h

theorem absorb_lh (l : Log) (b x : Nat) : x ∈ (l.absorb b).1.lh ↔ x ∈ l.lh ∨ x = b := by
  unfold absorb
  split
  · rename_i hb
    constructor
    · exact Or.inl
    · rintro (h | rfl)
      · exact h
      · exact hb
  · simp [mem_append]

theorem absorb_nodup (h : l.lh.Nodup) (b : Nat) : (l.absorb b).1.lh.Nodup := by
  unfold absorb
  split
  · exact h
  · rename_i hb
    simp only [nodup_append, h, nodup_singleton, true_and]
    intro x hx y hy
    have : y = b := by simpa using hy
    subst this
    rintro rfl
    exact hb hx

end Log

end Xv6
