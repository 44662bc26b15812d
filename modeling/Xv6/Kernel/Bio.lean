/-
  Kernel/Bio.lean --- the buffer cache of `kernel/bio.c`.

  The cache is modelled with the fields the code reads: per buffer the flags, the
  block it carries, its sleep lock, its 32-bit reference count and its data, and
  over all buffers the list through `prev`/`next`, most recently used first.

  The definitions are the sections of `bio.c` that run under `bcache.lock`, each
  a function of the cache; the routines built from them (`bread`, `brelse`, ...)
  are in `Kernel/Machine.lean`.
-/
import Xv6.Kernel.Layout

set_option autoImplicit false

namespace Xv6

open List

/-- A buffer: its index in `bcache.buf`. -/
abbrev BufId : Type := Fin NBUF

instance : NeZero NBUF := ⟨by decide⟩

/-- `struct buf`, less the fields of the disk driver and the list links. -/
structure Buf where
  /-- Has data been read from disk? -/
  valid : Bool
  dev : Nat
  blockno : Nat
  /-- The process holding the sleep lock. -/
  lock : Option Pid
  /-- An unsigned 32-bit count. -/
  refcnt : Nat
  data : Block

/-- `bcache`: the buffers, and the list from `head.next` to `head.prev`. -/
structure Bcache where
  buf : BufId → Buf
  lru : List BufId

/-- `refcnt++` on 32 bits. -/
def incr32 (n : Nat) : Nat := if n + 1 = 2 ^ 32 then 0 else n + 1
/-- `refcnt--` on 32 bits. -/
def decr32 (n : Nat) : Nat := if n = 0 then 2 ^ 32 - 1 else n - 1

namespace Bcache

/-- Replace one buffer. -/
def set (c : Bcache) (i : BufId) (b : Buf) : Bcache :=
  { c with buf := Function.update c.buf i b }

@[simp] theorem set_buf_self (c : Bcache) (i : BufId) (b : Buf) : (c.set i b).buf i = b := by
  simp [set]

theorem set_buf_ne (c : Bcache) {i j : BufId} (b : Buf) (h : j ≠ i) :
    (c.set i b).buf j = c.buf j := by
  simp [set, h]

@[simp] theorem set_lru (c : Bcache) (i : BufId) (b : Buf) : (c.set i b).lru = c.lru := rfl

/-- `binit()`: every buffer zero, linked in at the front one after the other. -/
def binit : Bcache where
  buf := fun _ =>
    { valid := false, dev := 0, blockno := 0, lock := none, refcnt := 0, data := fun _ => 0 }
  lru := (List.finRange NBUF).reverse

/-- Does the buffer carry this block? -/
def carries (c : Bcache) (dev blockno : Nat) (i : BufId) : Bool :=
  (c.buf i).dev == dev && (c.buf i).blockno == blockno

/-- The section of `bget` under `bcache.lock`: the buffer that carries the block,
or else the least recently used unused one, recycled.  `none` is the panic. -/
def bget (c : Bcache) (dev blockno : Nat) : Option (BufId × Bcache) :=
  match c.lru.find? (c.carries dev blockno) with
  | some i => some (i, c.set i { c.buf i with refcnt := incr32 (c.buf i).refcnt })
  | none =>
      -- not cached: scan from `head.prev`
      match c.lru.reverse.find? (fun i => (c.buf i).refcnt == 0) with
      | some i =>
          some (i, c.set i { c.buf i with dev, blockno, valid := false, refcnt := 1 })
      | none => none

/-- The section of `brelse` under `bcache.lock`: drop the reference and, if it was
the last one, move the buffer to the front of the list. -/
def put (c : Bcache) (i : BufId) : Bcache :=
  let b := { c.buf i with refcnt := decr32 (c.buf i).refcnt }
  let c' := c.set i b
  if b.refcnt = 0 then { c' with lru := i :: c.lru.erase i } else c'

/-- `bpin`. -/
def bpin (c : Bcache) (i : BufId) : Bcache :=
  c.set i { c.buf i with refcnt := incr32 (c.buf i).refcnt }

/-- `bunpin`. -/
def bunpin (c : Bcache) (i : BufId) : Bcache :=
  c.set i { c.buf i with refcnt := decr32 (c.buf i).refcnt }

/-! ## The shape of the cache -/

/-- Every buffer is on the list exactly once, every buffer that was ever used
belongs to the one disk there is, and no two carry the same block. -/
structure Wf (c : Bcache) : Prop where
  nodup : c.lru.Nodup
  all : ∀ i, i ∈ c.lru
  dev : ∀ i, (c.buf i).dev = 0 ∨ (c.buf i).dev = ROOTDEV
  uniq : ∀ i j, (c.buf i).dev = ROOTDEV → (c.buf j).dev = ROOTDEV →
    (c.buf i).blockno = (c.buf j).blockno → i = j

theorem wf_binit : Wf binit := by
  refine ⟨?_, ?_, fun i => Or.inl rfl, ?_⟩
  · exact nodup_reverse.mpr (nodup_finRange NBUF)
  · intro i
    exact mem_reverse.mpr (mem_finRange i)
  · intro i j hi
    cases hi

variable {c : Bcache} {i : BufId}

section

variable {d : Nat} {b : Buf}

/-- No two buffers carry the same block of a device. -/
def Uniq (c : Bcache) (d : Nat) : Prop :=
  ∀ i j, (c.buf i).dev = d → (c.buf j).dev = d → (c.buf i).blockno = (c.buf j).blockno → i = j

theorem Uniq.set_same (h : c.Uniq d) (hdev : b.dev = (c.buf i).dev)
    (hblk : b.blockno = (c.buf i).blockno) : (c.set i b).Uniq d := by
  have hsame : ∀ j, ((c.set i b).buf j).dev = (c.buf j).dev ∧
      ((c.set i b).buf j).blockno = (c.buf j).blockno := by
    intro j
    by_cases hj : j = i
    · subst hj
      rw [set_buf_self]
      exact ⟨hdev, hblk⟩
    · rw [set_buf_ne _ _ hj]
      exact ⟨rfl, rfl⟩
  intro j k
  rw [(hsame j).1, (hsame j).2, (hsame k).1, (hsame k).2]
  exact h j k

theorem Uniq.set_fresh (h : c.Uniq d)
    (hnew : ∀ j, (c.buf j).dev = b.dev → (c.buf j).blockno ≠ b.blockno) : (c.set i b).Uniq d := by
  intro j k hj hk hjk
  by_cases hji : j = i
  · by_cases hki : k = i
    · rw [hji, hki]
    · rw [hji, set_buf_self] at hj hjk
      rw [set_buf_ne _ _ hki] at hk hjk
      exact absurd hjk.symm (hnew k (hk.trans hj.symm))
  · rw [set_buf_ne _ _ hji] at hj hjk
    by_cases hki : k = i
    · rw [hki, set_buf_self] at hk hjk
      exact absurd hjk (hnew j (hj.trans hk.symm))
    · rw [set_buf_ne _ _ hki] at hk hjk
      exact h j k hj hk hjk

/-- Replacing a buffer by one that carries the same block keeps the shape. -/
theorem Wf.set_same (h : c.Wf) (hdev : b.dev = (c.buf i).dev)
    (hblk : b.blockno = (c.buf i).blockno) : (c.set i b).Wf := by
  refine ⟨h.nodup, h.all, fun j => ?_, Uniq.set_same h.uniq hdev hblk⟩
  by_cases hj : j = i
  · rw [hj, set_buf_self, hdev]
    exact h.dev i
  · rw [set_buf_ne _ _ hj]
    exact h.dev j

/-- Recycling a buffer for a block that nobody carries keeps the shape. -/
theorem Wf.set_fresh (h : c.Wf) (hdev : b.dev = ROOTDEV)
    (hnew : ∀ j, (c.buf j).dev = ROOTDEV → (c.buf j).blockno ≠ b.blockno) : (c.set i b).Wf := by
  refine ⟨h.nodup, h.all, fun j => ?_, Uniq.set_fresh h.uniq (hdev ▸ hnew)⟩
  by_cases hj : j = i
  · rw [hj, set_buf_self]
    exact Or.inr hdev
  · rw [set_buf_ne _ _ hj]
    exact h.dev j

end

theorem Wf.move (h : c.Wf) (i : BufId) : Wf { c with lru := i :: c.lru.erase i } := by
  refine ⟨?_, ?_, h.dev, h.uniq⟩
  · exact nodup_cons.mpr ⟨h.nodup.not_mem_erase, h.nodup.erase i⟩
  · intro j
    by_cases hj : j = i
    · subst hj; exact mem_cons_self
    · exact mem_cons_of_mem _ ((mem_erase_of_ne hj).mpr (h.all j))

/-- What `bget` does: it finds the block, or it recycles an unused buffer, the last one on the
list, for a block nobody carried. -/
theorem bget_cases {c c' : Bcache} (hall : ∀ i, i ∈ c.lru) {dev blockno : Nat}
    (h : c.bget dev blockno = some (i, c')) :
    ((c.buf i).dev = dev ∧ (c.buf i).blockno = blockno ∧
      c' = c.set i { c.buf i with refcnt := incr32 (c.buf i).refcnt }) ∨
    ((∀ j, (c.buf j).dev = dev → (c.buf j).blockno ≠ blockno) ∧
      (c.lru.reverse.find? fun i => (c.buf i).refcnt == 0) = some i ∧
      c' = c.set i { c.buf i with dev, blockno, valid := false, refcnt := 1 }) := by
  unfold bget at h
  cases hf : c.lru.find? (c.carries dev blockno) with
  | some j =>
    rw [hf] at h
    have hj := List.find?_some hf
    simp only [carries, Bool.and_eq_true, beq_iff_eq] at hj
    simp only [Option.some.injEq, Prod.mk.injEq] at h
    obtain ⟨rfl, rfl⟩ := h
    exact Or.inl ⟨hj.1, hj.2, rfl⟩
  | none =>
    rw [hf] at h
    cases hr : c.lru.reverse.find? (fun i => (c.buf i).refcnt == 0) with
    | none => rw [hr] at h; cases h
    | some j =>
      rw [hr] at h
      simp only [Option.some.injEq, Prod.mk.injEq] at h
      obtain ⟨rfl, rfl⟩ := h
      refine Or.inr ⟨?_, rfl, rfl⟩
      intro k hdev hblk
      rw [List.find?_eq_none] at hf
      apply hf k (hall k)
      simp [carries, hdev, hblk]

theorem wf_bget {c c' : Bcache} (hw : c.Wf) {blockno : Nat}
    (h : c.bget ROOTDEV blockno = some (i, c')) : c'.Wf := by
  rcases bget_cases hw.all h with ⟨_, _, rfl⟩ | ⟨hnew, _, rfl⟩
  · exact hw.set_same rfl rfl
  · exact hw.set_fresh rfl hnew

theorem wf_put (hw : c.Wf) (i : BufId) : (c.put i).Wf := by
  have hset : (c.set i { c.buf i with refcnt := decr32 (c.buf i).refcnt }).Wf := hw.set_same rfl rfl
  unfold put
  simp only
  split
  · exact hset.move i
  · exact hset

/-- Dropping a reference changes one reference count and no other field. -/
theorem put_buf (c : Bcache) (i j : BufId) : (c.put i).buf j =
      if j = i then { c.buf i with refcnt := decr32 (c.buf i).refcnt } else c.buf j := by
  have hset : ∀ b : Buf, (c.set i b).buf j = if j = i then b else c.buf j := by
    intro b
    by_cases hj : j = i
    · subst hj; simp
    · simp [set_buf_ne _ _ hj, hj]
  unfold put
  simp only
  split
  · exact hset _
  · exact hset _

end Bcache

end Xv6
