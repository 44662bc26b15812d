/-
  Blocks/Fresh.lean --- a file system without files.

  The free map of a fresh disk is as `mkfs` writes it: the bits of the first blocks are set, one
  after the other.
-/
import Xv6.Blocks.Inode

set_option autoImplicit false

namespace Xv6

open Function Foundation

variable {sb : Superblock} {i : Nat}

/-! ## The layout of `mkfs` -/

/-- Number of inodes `mkfs` reckons with. -/
def NINODES : Nat := 200

/-- The super block `mkfs` writes. -/
def mkfsSuper : Superblock :=
  let nbitmap := FSSIZE / (BSIZE * 8) + 1
  let ninodeblocks := NINODES / IPB + 1
  let nlog := LOGSIZE
  let nmeta := 2 + nlog + ninodeblocks + nbitmap
  { magic := FSMAGIC
    size := FSSIZE
    nblocks := FSSIZE - nmeta
    ninodes := NINODES
    nlog
    logstart := 2
    inodestart := 2 + nlog
    bmapstart := 2 + nlog + ninodeblocks }

theorem mkfsSuper_ok : mkfsSuper.Ok where
  log := by decide
  inodes := by decide
  ninodes := by decide
  bitmap b hb := by
    have hdiv : b / BPB = 0 := Nat.div_eq_of_lt (lt_trans hb (by decide))
    rw [Superblock.bblock, hdiv]
    decide
  nblocks := by decide
  nonempty := by decide
  uint := by decide

/-! ## No files -/

/-- An empty disk, with the first `n` blocks marked as used. -/
def markUsed (sb : Superblock) : Nat → Disk
  | 0 => fun _ _ => 0
  | n + 1 => Function.update (markUsed sb n) (sb.bblock n)
    (setBit (markUsed sb n (sb.bblock n)) (n % BPB))

theorem inUse_markUsed (n c : Nat) : sb.inUse (markUsed sb n) c = decide (c < n) := by
  induction n with
  | zero => exact bitAt_zero _
  | succ n ih =>
    rw [markUsed, inUse_setBit, ih, ← Bool.decide_or]
    refine decide_eq_decide.mpr ?_
    omega

/-- Blocks before the free map are empty. -/
theorem markUsed_of_lt {b : Nat} (hb : b < sb.bmapstart) (n : Nat) :
    markUsed sb n b = fun _ => 0 := by
  induction n with
  | zero => rfl
  | succ n ih =>
    have hle : sb.bmapstart ≤ sb.bblock n := Nat.le_add_left _ _
    have hne : b ≠ sb.bblock n := by omega
    rw [markUsed, update_of_ne hne, ih]

/-- The disk of a file system without files. -/
def freshDisk (sb : Superblock) : Disk := markUsed sb sb.nmeta

/-- The first entry of the inode cache. -/
def firstSlot : Slot := ⟨0, NINODE_pos⟩

/-- The memory when the kernel has started. -/
def freshMem : FsMem Addrs where
  inode _ := { dev := 0, inum := 0, ref := 0, lock := none, valid := false, d := Dinode.zero }
  file _ :=
    { type := .none, ref := 0, readable := false, writable := false, ip := firstSlot, off := 0,
      major := 0 }
  cwd _ := firstSlot
  ofile _ _ := none

theorem ptrs_zero (disk : Disk) (P : Ptr) : ptrs disk (fun _ => Dinode.zero) P = 0 := by
  cases P with
  | addr i k => rfl
  | entry i j => simp [ptrs, Dinode.zero, Dinode.indirect]

theorem freshDisk_inv (hsb : sb.Ok) :
    FsInv sb ∅ ∅ ∅ (fun _ => Dinode.zero) (freshDisk sb) freshMem where
  own :=
    { inj := fun P Q _ hne => absurd (ptrs_zero _ P) hne
      range := fun P hne => absurd (ptrs_zero _ P) hne
      loose := fun _ hb => absurd hb (Set.notMem_empty _)
      apart := fun _ hb => absurd hb (Set.notMem_empty _)
      low := fun b hb _ => by
        rw [freshDisk, inUse_markUsed]
        exact decide_eq_true hb
      used := fun b hb _ => by
        have hpos := hsb.nmeta_pos
        rw [freshDisk, inUse_markUsed, decide_eq_true_iff]
        refine ⟨fun hlt => absurd hlt (by omega), ?_⟩
        rintro (hX | ⟨P, hP⟩)
        · exact absurd hX (Set.notMem_empty _)
        · rw [ptrs_zero] at hP
          omega }
  fits _ := ⟨by decide, by decide, by decide, by decide, by norm_num [Dinode.zero],
    fun _ => by norm_num [Dinode.zero]⟩
  free _ _ := rfl
  outside _ _ := rfl
  holes _ := noHoles_of_size_zero rfl
  dev _ href := absurd href (lt_irrefl _)
  uniq _ _ href := absurd href (lt_irrefl _)
  cached _ hu := absurd hu.ref (lt_irrefl _)
  behind _ hip := absurd hip (Set.notMem_empty _)
  stored i hi _ := by
    rw [Superblock.stored, freshDisk, markUsed_of_lt (hsb.iblock_lt hi), readDinode_zero]

/-- Inode `i` is in an entry of the cache. -/
def withInode (mem : FsMem Addrs) (ip : Slot) (i : Nat) (d : Dinode Addrs) : FsMem Addrs :=
  mem.setInode ip { dev := ROOTDEV, inum := i, ref := 1, lock := none, valid := true, d }

theorem freshInode_inv (hsb : sb.Ok) (hi : i < sb.inodeCap) {type : Int}
    (htype : IsShort type) (ip : Slot) :
    FsInv sb ∅ ∅ ∅ (update (fun _ => Dinode.zero) i { Dinode.zero with type })
      (putInode sb (freshDisk sb) i { Dinode.zero with type })
      (withInode freshMem ip i { Dinode.zero with type }) := by
  have hstored : (sb.stored (freshDisk sb) i).type = 0 := by
    rw [(freshDisk_inv hsb).stored i hi fun jp hjp => absurd hjp (Set.notMem_empty _)]
    rfl
  have hinv := ((freshDisk_inv hsb).tryAlloc hsb hi hstored
    (fun jp hjp => absurd hjp.ref (lt_irrefl _)) htype).2
  refine hinv.setEntry (fun _ => rfl) (fun _ jp _ hjp => absurd hjp (lt_irrefl _))
    (fun _ _ _ => ⟨hi, ?_⟩) fun hip => absurd hip (Set.notMem_empty _)
  rw [update_self]

end Xv6
