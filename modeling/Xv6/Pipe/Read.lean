/-
  Pipe/Read.lean --- `piperead` with the memory it copies to.

  `pi->nread` is moved on before `copyout` is tried.  A read that comes to an address
  that is not mapped has taken one byte more than it delivers.
-/
import Xv6.Pipe.Machine

set_option autoImplicit false

namespace Xv6.Pipes

open Function

variable {P : Type}

/-- The memory of a process: the byte at each address that is mapped for the user. -/
abbrev UserMem : Type := UInt64 → Option UInt8

/-- `copyout(pagetable, va, &ch, 1)`. -/
def copyoutByte (mem : UserMem) (va : UInt64) (ch : UInt8) : Option UserMem :=
  match mem va with
  | none => none
  | some _ => some (Function.update mem va (some ch))

/-- `data[(nread + j) % PIPESIZE]`: the byte `j` places after the next one. -/
def Pipe.ahead (pi : Pipe) (j : Nat) : UInt8 :=
  pi.data (Fin.ofNat PIPESIZE (pi.nread + UInt32.ofNat j).toNat)

/-- The second loop of `piperead`, with `m` bytes to go and the memory of the process. -/
def pipereadCopyLoop (addr : UInt64) :
    Nat → Nat → State P → UserMem → State P × UserMem × Stop
  | 0, i, s, mem => (s.wakeup .nwrite, mem, .ret i)
  | m + 1, i, s, mem =>
      if s.pipe.empty = true then (s.wakeup .nwrite, mem, .ret i)
      else
        match copyoutByte mem (addr + UInt64.ofNat i) (s.pipe.ahead 0) with
        | some mem => pipereadCopyLoop addr m (i + 1) s.take mem
        | none => (s.take.wakeup .nwrite, mem, .ret i)

/-- `piperead`, from where it has taken the lock, with the memory of the process. -/
def pipereadCopy (p : P) (addr : UInt64) (n : Int) (s : State P) (mem : UserMem) :
    State P × UserMem × Stop :=
  if s.pipe.empty = true ∧ s.pipe.writeopen = true then
    if (s.proc p).killed = true then (s, mem, .ret (-1))
    else (s, mem, .sleep .nread (.reading (fun i => (mem (addr + UInt64.ofNat i)).isSome) n))
  else pipereadCopyLoop addr n.toNat 0 s mem

/-! ## It is `piperead` -/

theorem isSome_copyoutByte {mem mem' : UserMem} {va : UInt64} {ch : UInt8}
    (h : copyoutByte mem va ch = some mem') (a : UInt64) : (mem' a).isSome = (mem a).isSome := by
  rw [copyoutByte] at h
  split at h
  · cases h
  · rename_i b hb
    cases h
    by_cases ha : a = va
    · rw [ha, update_self, hb]
      rfl
    · rw [update_of_ne ha]

theorem pipereadCopyLoop_eq (addr : UInt64) (m i : Nat) (s : State P) (mem : UserMem) :
    pipereadLoop (fun i => (mem (addr + UInt64.ofNat i)).isSome) m i s =
      ((pipereadCopyLoop addr m i s mem).1, (pipereadCopyLoop addr m i s mem).2.2) := by
  induction m generalizing i s mem with
  | zero => rfl
  | succ m ih =>
    rw [pipereadLoop, pipereadCopyLoop]
    by_cases hempty : s.pipe.empty = true
    · simp only [if_pos hempty]
    · simp only [if_neg hempty]
      cases hcopy : copyoutByte mem (addr + UInt64.ofNat i) (s.pipe.ahead 0) with
      | none =>
        have hnone : (mem (addr + UInt64.ofNat i)).isSome = false := by
          rw [copyoutByte] at hcopy
          split at hcopy
          · rename_i h
            rw [h]
            rfl
          · cases hcopy
        rw [hnone]
        rfl
      | some mem' =>
        have hsame := isSome_copyoutByte hcopy
        have hsome : (mem (addr + UInt64.ofNat i)).isSome = true := by
          rw [copyoutByte] at hcopy
          split at hcopy
          · cases hcopy
          · rename_i b h
            rw [h]
            rfl
        rw [if_pos hsome]
        dsimp only
        rw [← ih]
        congr 1
        funext j
        exact (hsame _).symm

/-- With the mapped addresses as the buffer, the machine's `piperead` does the same. -/
theorem pipereadCopy_eq (p : P) (addr : UInt64) (n : Int) (s : State P) (mem : UserMem) :
    piperead p (fun i => (mem (addr + UInt64.ofNat i)).isSome) n s =
      ((pipereadCopy p addr n s mem).1, (pipereadCopy p addr n s mem).2.2) := by
  rw [piperead, pipereadCopy]
  by_cases hempty : s.pipe.empty = true ∧ s.pipe.writeopen = true
  · simp only [if_pos hempty]
    split <;> rfl
  · simp only [if_neg hempty]
    exact pipereadCopyLoop_eq addr n.toNat 0 s mem

/-! ## What a read takes and what it delivers -/

/-- A read that has delivered `d` bytes from index `i` on, of the `m` bytes it was to
deliver from there or those in the pipe. -/
structure Delivered (addr : UInt64) (i m d : Nat) (s s' : State P) (mem mem' : UserMem) : Prop where
  most : d ≤ min m s.pipe.count
  /-- the bytes of the pipe are in the buffer -/
  bytes : ∀ j < d, mem' (addr + UInt64.ofNat (i + j)) = some (s.pipe.ahead j)
  others : ∀ a, (∀ j < d, a ≠ addr + UInt64.ofNat (i + j)) → mem' a = mem a
  mapped : ∀ j < d, mem (addr + UInt64.ofNat (i + j)) ≠ none
  /-- it has stopped at an address that is not mapped -/
  stopped : d < min m s.pipe.count → mem (addr + UInt64.ofNat (i + d)) = none
  /-- and has then taken one byte more -/
  nread : s'.pipe.nread =
    s.pipe.nread + UInt32.ofNat d + if d < min m s.pipe.count then 1 else 0

/-- Nothing is delivered, because nothing was asked for or nothing is there. -/
theorem Delivered.nothing {addr : UInt64} {i m : Nat} {s : State P} {mem : UserMem}
    (h : min m s.pipe.count = 0) : Delivered addr i m 0 s (s.wakeup .nwrite) mem mem := by
  refine ⟨Nat.zero_le _, fun j hj => absurd hj (Nat.not_lt_zero _), fun _ _ => rfl,
    fun j hj => absurd hj (Nat.not_lt_zero _), fun hlt => absurd h hlt.ne', ?_⟩
  rw [h, if_neg (Nat.lt_irrefl _)]
  exact (UInt32.add_zero _).symm.trans (UInt32.add_zero _).symm

theorem addr_ne (addr : UInt64) {i j : Nat} (hij : i < j) (hj : j < 2 ^ 64) :
    addr + UInt64.ofNat i ≠ addr + UInt64.ofNat j := by
  intro heq
  have h := (UInt64.add_right_inj addr).mp heq
  have := congrArg UInt64.toNat h
  rw [UInt64.toNat_ofNat', UInt64.toNat_ofNat', Nat.mod_eq_of_lt (by omega),
    Nat.mod_eq_of_lt hj] at this
  omega

theorem pipereadCopyLoop_delivered (addr : UInt64) {m i : Nat} (s : State P) (mem : UserMem)
    (hlen : i + m < 2 ^ 64) :
    ∃ d, (pipereadCopyLoop addr m i s mem).2.2 = .ret (i + d : Nat) ∧
      Delivered addr i m d s (pipereadCopyLoop addr m i s mem).1 mem
        (pipereadCopyLoop addr m i s mem).2.1 := by
  induction m generalizing i s mem with
  | zero => exact ⟨0, rfl, .nothing (Nat.zero_min _)⟩
  | succ m ih =>
    rw [pipereadCopyLoop]
    by_cases hempty : s.pipe.empty = true
    · rw [if_pos hempty]
      refine ⟨0, rfl, .nothing ?_⟩
      rw [s.pipe.empty_iff_count.mp hempty, Nat.min_zero]
    · rw [if_neg hempty]
      have htake := s.count_take (mt s.pipe.empty_iff_count.mpr hempty)
      cases hmem : mem (addr + UInt64.ofNat i) with
      | none =>
        -- the byte is taken, and the copy fails
        have hcopy : copyoutByte mem (addr + UInt64.ofNat i) (s.pipe.ahead 0) = none := by
          rw [copyoutByte, hmem]
        rw [hcopy]
        refine ⟨0, rfl, Nat.zero_le _, fun j hj => absurd hj (Nat.not_lt_zero _),
          fun _ _ => rfl, fun j hj => absurd hj (Nat.not_lt_zero _), fun _ => hmem, ?_⟩
        rw [if_pos (by omega)]
        change s.pipe.nread + 1 = _
        rw [show UInt32.ofNat 0 = 0 from rfl, UInt32.add_zero]
      | some old =>
        have hcopy : copyoutByte mem (addr + UInt64.ofNat i) (s.pipe.ahead 0) =
            some (update mem (addr + UInt64.ofNat i) (some (s.pipe.ahead 0))) := by
          rw [copyoutByte, hmem]
        rw [hcopy]
        obtain ⟨d, hret, hmost, hbytes, hothers, hmapped, hstopped, hnread⟩ := ih s.take
          (update mem (addr + UInt64.ofNat i) (some (s.pipe.ahead 0)))
          (show i + 1 + m < 2 ^ 64 by omega)
        have hcount : ∀ j : Nat, s.take.pipe.nread + UInt32.ofNat j =
            s.pipe.nread + UInt32.ofNat (j + 1) := by
          intro j
          change s.pipe.nread + 1 + UInt32.ofNat j = _
          rw [UInt32.ofNat_add, UInt32.add_assoc, UInt32.add_comm 1]
          rfl
        have hshift : ∀ j : Nat, i + 1 + j = i + (j + 1) := fun j => by omega
        have hlater : ∀ j ≤ d, update mem (addr + UInt64.ofNat i) (some (s.pipe.ahead 0))
            (addr + UInt64.ofNat (i + 1 + j)) = mem (addr + UInt64.ofNat (i + (j + 1))) := by
          intro j hj
          rw [update_of_ne (addr_ne addr (by omega) (by omega)).symm, hshift]
        refine ⟨d + 1, ?_, by omega, ?_, ?_, ?_, ?_, ?_⟩
        · dsimp only
          rw [hret, hshift]
        · intro j hj
          cases j with
          | zero =>
            dsimp only
            rw [hothers, Nat.add_zero, update_self]
            intro j' hj'
            exact addr_ne addr (by omega) (by omega)
          | succ j =>
            have := hbytes j (by omega)
            rw [hshift] at this
            dsimp only
            rw [this, Pipe.ahead, hcount]
            rfl
        · intro a ha
          dsimp only
          rw [hothers]
          · rw [update_of_ne]
            have := ha 0 (by omega)
            rw [Nat.add_zero] at this
            exact this
          · intro j hj
            have := ha (j + 1) (by omega)
            rw [← hshift] at this
            exact this
        · intro j hj
          cases j with
          | zero =>
            rw [Nat.add_zero, hmem]
            exact nofun
          | succ j =>
            rw [← hlater j (by omega)]
            exact hmapped j (by omega)
        · intro hlt
          rw [← hlater d (Nat.le_refl d)]
          exact hstopped (by omega)
        · dsimp only
          rw [hnread, hcount]
          congr 1
          exact if_congr (by omega) rfl rfl

/-- A read has consumed what it delivered: `nread` has moved by what was returned, and
the bytes from `addr` on are the next ones of the pipe. -/
def Consumed (addr : UInt64) (r : Nat) (s s' : State P) (mem' : UserMem) : Prop :=
  s'.pipe.nread = s.pipe.nread + UInt32.ofNat r ∧
    ∀ j < r, mem' (addr + UInt64.ofNat j) = some (s.pipe.ahead j)

/-- A read that returns `r ≥ 0` has consumed what it delivered exactly if every address is
mapped that it has a byte for: those from `addr` on, as many as it asked for or are in the
pipe. -/
theorem piperead_consumes_iff (p : P) (addr : UInt64) {n : Int} (hn : n < 2 ^ 31) (s : State P)
    (mem : UserMem) {r : Nat} (hret : (pipereadCopy p addr n s mem).2.2 = .ret r) :
    Consumed addr r s (pipereadCopy p addr n s mem).1 (pipereadCopy p addr n s mem).2.1 ↔
      ∀ j < min n.toNat (s.pipe.nwrite - s.pipe.nread).toNat,
        mem (addr + UInt64.ofNat j) ≠ none := by
  rw [pipereadCopy] at hret ⊢
  by_cases hwait : s.pipe.empty = true ∧ s.pipe.writeopen = true
  · -- a call that waits does not return, and one that was killed returns -1
    rw [if_pos hwait] at hret
    split at hret
    · injection hret with hret
      omega
    · cases hret
  · rw [if_neg hwait] at hret ⊢
    obtain ⟨d, hd, hmost, hbytes, -, hmapped, hstopped, hnread⟩ :=
      pipereadCopyLoop_delivered addr s mem (show 0 + n.toNat < 2 ^ 64 by omega)
    rw [hd] at hret
    injection hret with hret
    obtain rfl : d = r := by omega
    simp only [Nat.zero_add] at hbytes hmapped hstopped
    have hgot : ∀ j < d, (pipereadCopyLoop addr n.toNat 0 s mem).2.1 (addr + UInt64.ofNat j) =
        some (s.pipe.ahead j) := hbytes
    rw [Consumed, hnread, and_iff_left hgot, ← Pipe.count]
    by_cases hfault : d < min n.toNat s.pipe.count
    · rw [if_pos hfault]
      refine iff_of_false (fun h => ?_) fun hall => hall d hfault (hstopped hfault)
      rw [UInt32.add_eq_left] at h
      cases h
    · rw [if_neg hfault]
      exact iff_of_true (UInt32.add_zero _) fun j hj => hmapped j (by omega)

/-- A pipe with the bytes 1 and 2 in it, whose write end is closed. -/
def twoBytes : State Unit :=
  { State.init (fun k => UInt8.ofNat (k.val + 1)) with
    pipe := ⟨fun k => UInt8.ofNat (k.val + 1), 0, 2, true, false⟩ }

/-- Memory that is mapped below 4096. -/
def onePage : UserMem := fun a => if a < 4096 then some 0 else none

/-- A read of both bytes into one page. -/
theorem piperead_consumes_two :
    Consumed 0 2 twoBytes (pipereadCopy () 0 2 twoBytes onePage).1
      (pipereadCopy () 0 2 twoBytes onePage).2.1 :=
  (piperead_consumes_iff () 0 (by decide) twoBytes onePage rfl).mpr (by decide)

/-- A read whose second byte is beyond the page returns 1 and has taken both bytes: a
read after it finds the pipe empty. -/
theorem piperead_loses_byte :
    (pipereadCopy () 4095 2 twoBytes onePage).2.2 = .ret 1 ∧
      (pipereadCopy () 4095 2 twoBytes onePage).1.pipe.nread = 2 ∧
      (pipereadCopy () 0 2 (pipereadCopy () 4095 2 twoBytes onePage).1 onePage).2.2 = .ret 0 :=
  ⟨rfl, rfl, rfl⟩

end Xv6.Pipes
