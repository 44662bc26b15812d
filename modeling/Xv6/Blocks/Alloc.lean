/-
  Blocks/Alloc.lean --- `balloc`.

  `balloc` finds the first clear bit of the free map, whatever the number of its blocks.
  What it does to the disk is `ballocDisk`.
-/
import Xv6.Blocks.Invariant
import Xv6.Kernel.Store

set_option autoImplicit false

namespace Xv6

open Function Foundation

/-- The free blocks. -/
def Superblock.freeBlocks (sb : Superblock) (disk : Disk) : Finset Nat :=
  (Finset.range sb.size).filter fun b => sb.inUse disk b = false

/-- The file system on blocks. -/
def fsTheory (strict : Prop) (InLog : Nat → Prop) (Ends : Halt → Prop) :
    Theory (MemSig Addrs) (FsMem Addrs) where
  xexec := mexec
  strict := strict
  InLog := InLog
  Ends := Ends

/-- What the kernel says when the disk is full. -/
def outOfBlocks : Halt := .panic "balloc: out of blocks"

/-- The kernel gives up because the disk is full. -/
def DiskFull (e : Halt) : Prop := e = outOfBlocks

theorem diskFull : DiskFull outOfBlocks := rfl

/-- The log comes before the inodes, and a client that has to keep the rules is in an operation. -/
structure Writing (sb : Superblock) (strict : Prop) (InLog : Nat → Prop) (inOp : Bool) : Prop where
  inOp : strict → inOp = true
  log : ∀ b, InLog b → b < sb.inodestart

variable {sb : Superblock} {strict : Prop} {InLog : Nat → Prop} {Ends : Halt → Prop} {p : Pid}
  {disk : Disk} {inOp : Bool} {held : List Held} {mem : FsMem Addrs} {α : Type} {b : Nat}

theorem Writing.allowed (h : Writing sb strict InLog inOp) (hb : sb.inodestart ≤ b) :
    strict → inOp = true ∧ ¬ InLog b :=
  fun hs => ⟨h.inOp hs, fun hlog => absurd (h.log b hlog) (by omega)⟩

section

variable {Q : α → Store (FsMem Addrs) → Prop} {c : Client} {ip : Slot}

theorem swp_getInode {k : Inode Addrs → BProg α}
    (hk : swp (fsTheory strict InLog Ends) p (k (mem.inode ip)) Q ⟨disk, c, mem⟩) :
    swp (fsTheory strict InLog Ends) p (.op (.ext (.getInode ip)) k) Q ⟨disk, c, mem⟩ :=
  swp_ext hk

theorem swp_setDinode {d : Dinode Addrs} {k : Unit → BProg α}
    (hk : swp (fsTheory strict InLog Ends) p (k ()) Q ⟨disk, c, mem.setDinode ip d⟩) :
    swp (fsTheory strict InLog Ends) p (.op (.ext (.setDinode ip d)) k) Q ⟨disk, c, mem⟩ :=
  swp_ext hk

end

/-! ## The free map -/

theorem mem_freeBlocks {b : Nat} :
    b ∈ sb.freeBlocks disk ↔ b < sb.size ∧ sb.inUse disk b = false := by
  rw [Superblock.freeBlocks, Finset.mem_filter, Finset.mem_range]

theorem freeBlocks_congr {disk' : Disk}
    (h : ∀ c, c < sb.size → disk' (sb.bblock c) = disk (sb.bblock c)) :
    sb.freeBlocks disk' = sb.freeBlocks disk := by
  ext c
  rw [mem_freeBlocks, mem_freeBlocks]
  refine and_congr_right fun hc => ?_
  rw [inUse_congr (h c hc)]

/-- One block less is free, unless it was the free map that was zeroed. -/
theorem freeBlocks_balloc (hb : ∀ c, c < sb.size → b ≠ sb.bblock c) :
    sb.freeBlocks (ballocDisk sb disk b) = (sb.freeBlocks disk).erase b := by
  ext c
  rw [Finset.mem_erase, mem_freeBlocks, mem_freeBlocks]
  constructor
  · rintro ⟨hc, hfree⟩
    rw [ballocDisk, inUse_update_ne (hb c hc), inUse_setBit, Bool.or_eq_false_iff,
      decide_eq_false_iff_not] at hfree
    exact ⟨fun h => hfree.2 h.symm, hc, hfree.1⟩
  · rintro ⟨hne, hc, hfree⟩
    refine ⟨hc, ?_⟩
    rw [ballocDisk, inUse_update_ne (hb c hc), inUse_setBit, hfree, Bool.false_or,
      decide_eq_false_iff_not]
    exact fun h => hne h.symm

/-- The bit of block `b + bi` in the block of the free map that starts at `b`. -/
theorem inUse_add (sb : Superblock) {bi : Nat} (hb : b % BPB = 0) (hbi : bi < BPB) :
    sb.bblock (b + bi) = sb.bblock b ∧ (b + bi) % BPB = bi := by
  have hdiv : (b + bi) / BPB = b / BPB := by
    have hmul : b = BPB * (b / BPB) := by
      have := Nat.div_add_mod b BPB
      omega
    rw [hmul, Nat.mul_add_div (by decide), Nat.mul_div_cancel_left _ (by decide),
      Nat.div_eq_of_lt hbi]
    omega
  refine ⟨?_, ?_⟩
  · rw [Superblock.bblock, Superblock.bblock, hdiv]
  · rw [Nat.add_mod, hb, Nat.zero_add, Nat.mod_mod, Nat.mod_eq_of_lt hbi]

theorem findFree_eq_some {bi : Nat} (hb : b % BPB = 0)
    (h : findFree sb b (disk (sb.bblock b)) = some bi) :
    b + bi ∈ sb.freeBlocks disk ∧ bi < BPB ∧ ∀ c, b ≤ c → c < b + bi → sb.inUse disk c = true := by
  rw [findFree, List.find?_range_eq_some] at h
  obtain ⟨hbit, hmem, hbefore⟩ := h
  rw [List.mem_range] at hmem
  have hbi : bi < BPB := by omega
  obtain ⟨hblock, hmod⟩ := inUse_add sb hb hbi
  refine ⟨?_, hbi, ?_⟩
  · rw [mem_freeBlocks, Superblock.inUse, hblock, hmod]
    exact ⟨by omega, by simpa using hbit⟩
  · intro c hbc hc
    obtain ⟨hblock, hmod⟩ := inUse_add sb hb (show c - b < BPB by omega)
    have hc' : b + (c - b) = c := by omega
    rw [hc'] at hblock hmod
    rw [Superblock.inUse, hblock, hmod]
    simpa using hbefore (c - b) (by omega)

theorem findFree_eq_none (hb : b % BPB = 0)
    (h : findFree sb b (disk (sb.bblock b)) = none) {c : Nat}
    (hbc : b ≤ c) (hc : c < b + BPB) (hsize : c < sb.size) : sb.inUse disk c = true := by
  rw [findFree, List.find?_eq_none] at h
  obtain ⟨hblock, hmod⟩ := inUse_add sb hb (show c - b < BPB by omega)
  have hc' : b + (c - b) = c := by omega
  rw [hc'] at hblock hmod
  rw [Superblock.inUse, hblock, hmod]
  simpa using h (c - b) (List.mem_range.mpr (by omega))

/-! ## The routines -/

/-- The blocks a client has while it calls `balloc` are data blocks in use. -/
def DataHeld (sb : Superblock) (disk : Disk) (held : List Held) : Prop :=
  ∀ h ∈ held, sb.nmeta ≤ h.b ∧ sb.inUse disk h.b = true

theorem DataHeld.fresh_low (h : DataHeld sb disk held) (hb : b < sb.nmeta) :
    ∀ x ∈ held, x.b ≠ b := by
  intro x hx
  have := (h x hx).1
  omega

theorem DataHeld.fresh_free (h : DataHeld sb disk held) (hb : sb.inUse disk b = false) :
    ∀ x ∈ held, x.b ≠ b := by
  rintro x hx rfl
  rw [(h x hx).2] at hb
  cases hb

theorem dataHeld_nil : DataHeld sb disk [] := by
  intro h hh
  cases hh

section

variable {T : Theory (MemSig Addrs) (FsMem Addrs)} {Q : α → Store (FsMem Addrs) → Prop}

theorem swp_bzero {Q : Unit → Store (FsMem Addrs) → Prop}
    (hop : T.strict → inOp = true ∧ ¬ T.InLog b) (hb : b < 2 ^ 32) (hfresh : ∀ h ∈ held, h.b ≠ b)
    (hQ : Q () ⟨update disk b fun _ => 0, ⟨inOp, held⟩, mem⟩) :
    swp T p (bzero b) Q ⟨disk, ⟨inOp, held⟩, mem⟩ :=
  swp_bread hb hfresh (swp_writeBack hop hfresh hQ)

end

variable {Q : Nat → Store (FsMem Addrs) → Prop}

/-- `n` blocks of the free map to go, and all blocks below `b` in use. -/
theorem swp_ballocFrom (hsb : sb.Ok) (hlow : ∀ c, c < sb.nmeta → sb.inUse disk c = true)
    (hw : Writing sb strict InLog inOp) (hheld : DataHeld sb disk held)
    (hroom : Ends outOfBlocks ∨ (sb.freeBlocks disk).Nonempty)
    (hQ : ∀ b ∈ sb.freeBlocks disk, (∀ c, c < b → sb.inUse disk c = true) →
      Q b ⟨ballocDisk sb disk b, ⟨inOp, held⟩, mem⟩) :
    ∀ (n b : Nat), b % BPB = 0 → sb.size ≤ b + n * BPB → b + n * BPB < sb.size + BPB →
      (∀ c, c < b → c < sb.size → sb.inUse disk c = true) →
      swp (fsTheory strict InLog Ends) p (ballocFrom sb n b) Q ⟨disk, ⟨inOp, held⟩, mem⟩ := by
  intro n
  induction n with
  | zero =>
    intro b _ hsize _ hbelow
    refine swp_panic (hroom.resolve_right ?_)
    rintro ⟨c, hc⟩
    obtain ⟨hlt, hfree⟩ := mem_freeBlocks.mp hc
    rw [hbelow c (by omega) hlt] at hfree
    cases hfree
  | succ n ih =>
    intro b hb hsize hlast hbelow
    rw [Nat.succ_mul] at hsize hlast
    have hbb : sb.bblock b < sb.nmeta := hsb.bitmap b (by omega)
    have hnmeta : sb.nmeta ≤ sb.size := Nat.sub_le _ _
    have huint := hsb.uint
    have hfresh := hheld.fresh_low hbb
    have hstart : sb.inodestart ≤ sb.bblock b := le_trans hsb.inodes (Nat.le_add_left _ _)
    refine swp_bread (by omega) hfresh ?_
    cases hfind : findFree sb b (disk (sb.bblock b)) with
    | none =>
      refine swp_brelse hfresh (ih (b + BPB) ?_ (by omega) (by omega) ?_)
      · rw [Nat.add_mod_right, hb]
      · intro c hc hcs
        by_cases hcb : c < b
        · exact hbelow c hcb hcs
        · exact findFree_eq_none hb hfind (by omega) hc hcs
    | some bi =>
      obtain ⟨hmem, hbi, hbefore⟩ := findFree_eq_some hb hfind
      obtain ⟨hlt, hfree⟩ := mem_freeBlocks.mp hmem
      obtain ⟨hblock, hmod⟩ := inUse_add sb hb hbi
      have hdata : sb.nmeta ≤ b + bi := by
        by_contra hmeta
        rw [hlow (b + bi) (by omega)] at hfree
        cases hfree
      refine swp_writeBack (hw.allowed hstart) hfresh ?_
      refine swp_bind (swp_bzero (hw.allowed (by omega)) (by omega) (hheld.fresh_free hfree) ?_)
      have hdisk : ballocDisk sb disk (b + bi) = update (update disk (sb.bblock b)
          (setBit (disk (sb.bblock b)) bi)) (b + bi) fun _ => 0 := by
        rw [ballocDisk, hblock, hmod]
      have hall : ∀ c, c < b + bi → sb.inUse disk c = true := by
        intro c hc
        by_cases hcb : c < b
        · exact hbelow c hcb (by omega)
        · exact hbefore c (by omega) hc
      have hq := hQ (b + bi) hmem hall
      rw [hdisk] at hq
      exact hq

theorem rounds_of_size (size : Nat) : size ≤ 0 + (size + (BPB - 1)) / BPB * BPB ∧
    0 + (size + (BPB - 1)) / BPB * BPB < size + BPB := by
  unfold BPB BSIZE
  omega

/-- `balloc` returns the first free block, and panics if there is none. -/
theorem swp_balloc (hsb : sb.Ok) (hlow : ∀ c, c < sb.nmeta → sb.inUse disk c = true)
    (hw : Writing sb strict InLog inOp) (hheld : DataHeld sb disk held)
    (hroom : Ends outOfBlocks ∨ (sb.freeBlocks disk).Nonempty)
    (hQ : ∀ b ∈ sb.freeBlocks disk, (∀ c, c < b → sb.inUse disk c = true) →
      Q b ⟨ballocDisk sb disk b, ⟨inOp, held⟩, mem⟩) :
    swp (fsTheory strict InLog Ends) p (balloc sb) Q ⟨disk, ⟨inOp, held⟩, mem⟩ := by
  obtain ⟨hsize, hlast⟩ := rounds_of_size sb.size
  exact swp_ballocFrom hsb hlow hw hheld hroom hQ _ 0 (Nat.zero_mod _) hsize hlast
    fun c hc => absurd hc (Nat.not_lt_zero c)

theorem writing_free (inOp : Bool) : Writing sb False (fun _ => False) inOp :=
  ⟨False.elim, fun _ => False.elim⟩

end Xv6
