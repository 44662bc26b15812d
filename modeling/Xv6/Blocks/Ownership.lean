/-
  Blocks/Ownership.lean --- which inode has which block.

  The pointers of the file system are the addresses in the inodes and the entries of
  indirect blocks; the free map is the map of units in use.  What the routines do to
  the disk is said once, as a function on disks (`ballocDisk`), with a lemma about the owners.

  Inodes are given as a function of the inode number: of an inode that a process is
  working on, the copy in memory counts and not the one on disk.
-/
import Xv6.Foundation.Ownership
import Xv6.Fs.Content

set_option autoImplicit false

namespace Xv6

open Function Foundation

/-! ## Pointers -/

/-- An address in an inode, or an entry of its indirect block. -/
inductive Ptr where
  | addr (i : Nat) (k : Fin (NDIRECT + 1))
  | entry (i : Nat) (j : Fin NINDIRECT)
  deriving DecidableEq

/-- The block a pointer points to. -/
def ptrs (disk : Disk) (ino : Nat → Dinode Addrs) : Ptr → Nat
  | .addr i k => (ino i).addrs k
  | .entry i j =>
      if (ino i).indirect = 0 then 0 else indirectEntry (disk (ino i).indirect) j.val

/-- The free map and the pointers agree, except for the blocks `X` in transit. -/
def Own (sb : Superblock) (disk : Disk) (ino : Nat → Dinode Addrs) (X : Set Nat) : Prop :=
  Owns sb.nmeta sb.size (fun b => sb.inUse disk b = true) (ptrs disk ino) X

variable {sb : Superblock} {disk disk' : Disk} {ino ino' : Nat → Dinode Addrs} {X : Set Nat}
  {b c i : Nat} {d : Block}

/-! ## The free map -/

theorem inUse_congr (h : disk' (sb.bblock c) = disk (sb.bblock c)) :
    sb.inUse disk' c = sb.inUse disk c := by
  unfold Superblock.inUse
  rw [h]

theorem inUse_update_ne (h : b ≠ sb.bblock c) : sb.inUse (update disk b d) c = sb.inUse disk c :=
  inUse_congr (update_of_ne h.symm _ _)

/-- Two blocks with one position in the free map are one. -/
theorem bblock_inj (h : sb.bblock b = sb.bblock c) (hmod : b % BPB = c % BPB) : b = c := by
  unfold Superblock.bblock at h
  have hdiv : b / BPB = c / BPB := by omega
  rw [← Nat.div_add_mod b BPB, ← Nat.div_add_mod c BPB, hdiv, hmod]

theorem mod_BPB_lt (b : Nat) : b % BPB < BPB := Nat.mod_lt _ (by decide)

/-- One bit of the free map changes, as `f` says. -/
theorem inUse_update {f : Bool → Bool → Bool} (hf : ∀ x, f x false = x)
    (hbit : ∀ bj, bitAt d bj = f (bitAt (disk (sb.bblock b)) bj) (decide (b % BPB = bj))) :
    sb.inUse (update disk (sb.bblock b) d) c = f (sb.inUse disk c) (decide (b = c)) := by
  unfold Superblock.inUse
  by_cases hblk : sb.bblock c = sb.bblock b
  · have hiff : b % BPB = c % BPB ↔ b = c := ⟨bblock_inj hblk.symm, fun h => by rw [h]⟩
    rw [hblk, update_self, hbit]
    simp only [hiff]
  · have hne : b ≠ c := by
      rintro rfl
      exact hblk rfl
    rw [update_of_ne hblk, decide_eq_false hne, hf]

theorem inUse_setBit :
    sb.inUse (update disk (sb.bblock b) (setBit (disk (sb.bblock b)) (b % BPB))) c =
      (sb.inUse disk c || decide (b = c)) :=
  inUse_update Bool.or_false fun _ => bitAt_setBit (mod_BPB_lt b)

/-- What `balloc` makes of the disk when it allocates `b`. -/
def ballocDisk (sb : Superblock) (disk : Disk) (b : Nat) : Disk :=
  update
    (update disk (sb.bblock b) (setBit (disk (sb.bblock b)) (b % BPB))) b fun _ => 0

/-- What `balloc` leaves alone. -/
theorem ballocDisk_of_ne (hsb : sb.Ok) (hb : b < sb.size) (hc : sb.nmeta ≤ c) (hne : c ≠ b) :
    ballocDisk sb disk b c = disk c := by
  have := hsb.bitmap b hb
  rw [ballocDisk, update_of_ne hne, update_of_ne (by omega)]

/-! ## What does not change the owners -/

/-- The entries of an indirect block depend on that block. -/
theorem ptrs_congr (h : ∀ i, (ino i).indirect ≠ 0 → disk' (ino i).indirect = disk (ino i).indirect)
    (P : Ptr) : ptrs disk' ino P = ptrs disk ino P := by
  cases P with
  | addr i k => rfl
  | entry i j =>
    simp only [ptrs]
    split
    · rfl
    · rename_i hne
      rw [h i hne]

namespace Own

variable {k : Fin (NDIRECT + 1)}

theorem addr_range (h : Own sb disk ino X) (hk : (ino i).addrs k ≠ 0) :
    sb.nmeta ≤ (ino i).addrs k ∧ (ino i).addrs k < sb.size :=
  h.range (.addr i k) hk

/-- An indirect block is a data block. -/
theorem indirect_range (h : Own sb disk ino X) (hi : (ino i).indirect ≠ 0) :
    sb.nmeta ≤ (ino i).indirect ∧ (ino i).indirect < sb.size :=
  h.addr_range hi

/-- Writing to blocks that are neither in the free map nor indirect blocks. -/
theorem frame (h : Own sb disk ino X)
    (hmap : ∀ c, c < sb.size → disk' (sb.bblock c) = disk (sb.bblock c))
    (hind : ∀ i, (ino i).indirect ≠ 0 → disk' (ino i).indirect = disk (ino i).indirect) :
    Own sb disk' ino X :=
  h.congr (fun c hc => by rw [inUse_congr (hmap c hc)]) (ptrs_congr hind)

section

variable (hsb : sb.Ok) (h : Own sb disk ino X)

include hsb h

/-- Writing to an inode block. -/
theorem frame_iblock (hi : i < sb.inodeCap) : Own sb (update disk (sb.iblock i) d) ino X := by
  refine h.frame (fun c _ => update_of_ne (hsb.iblock_ne_bblock hi).symm _ _) ?_
  intro j hj
  have := (h.indirect_range hj).1
  have := hsb.iblock_meta hi
  exact update_of_ne (by omega) _ _

/-! ## Allocating -/

theorem balloc (hb : b < sb.size) (hfree : sb.inUse disk b = false) :
    Own sb (ballocDisk sb disk b) ino (insert b X) := by
  obtain ⟨hfirst, -, hv⟩ := h.free hb (by simp [hfree])
  have hmap : ∀ c, c < sb.size → b ≠ sb.bblock c := by
    intro c hc
    have := hsb.bitmap c hc
    omega
  have htake : Owns sb.nmeta sb.size (fun c => sb.inUse (ballocDisk sb disk b) c = true)
      (ptrs disk ino) (insert b X) := by
    refine h.take hb (by simp [hfree]) fun c hc => ?_
    rw [ballocDisk, inUse_update_ne (hmap c hc), inUse_setBit, Bool.or_eq_true, decide_eq_true_iff]
    exact or_congr Iff.rfl eq_comm
  refine htake.congr (fun _ _ => Iff.rfl) (ptrs_congr fun i hi => ?_)
  exact ballocDisk_of_ne hsb hb (h.indirect_range hi).1 (hv (.addr i (Fin.last NDIRECT)))

end

/-! ## Attaching -/

theorem ptrs_addr_update (ino : Nat → Dinode Addrs) (i : Nat) (d : Dinode Addrs) (j : Nat)
    (l : Fin (NDIRECT + 1)) :
    ptrs disk (update ino i d) (.addr j l) = if j = i then d.addrs l else (ino j).addrs l := by
  by_cases hj : j = i
  · subst hj; simp [ptrs]
  · simp [ptrs, hj]

/-- The pointers once an address of an inode was set. -/
theorem ptrs_setAddr {P : Ptr} (hentry : k = Fin.last NDIRECT → ∀ j, P ≠ .entry i j) :
    ptrs disk (update ino i ((ino i).setAddr k b)) P = update (ptrs disk ino) (.addr i k) b P := by
  cases P with
  | addr j l =>
    rw [ptrs_addr_update]
    by_cases hj : j = i
    · subst hj
      by_cases hl : l = k
      · subst hl; simp [Dinode.setAddr]
      · simp [Dinode.setAddr, hl, ptrs]
    · simp [hj, ptrs]
  | entry j l =>
    rw [update_of_ne (by simp)]
    by_cases hj : j = i
    · subst hj
      have hk : Fin.last NDIRECT ≠ k := fun hk => hentry hk.symm l rfl
      have hind : ((ino j).setAddr k b).indirect = (ino j).indirect := by
        simp [Dinode.setAddr, Dinode.indirect, hk]
      simp only [ptrs, update_self, hind]
    · simp [ptrs, hj]

section

variable (hsb : sb.Ok) (h : Own sb disk ino X)

include hsb h

/-- A block becomes a direct block. -/
theorem attach_direct (hk : k ≠ Fin.last NDIRECT) (h0 : (ino i).addrs k = 0) (hb : b ∈ X) :
    Own sb disk (update ino i ((ino i).setAddr k b)) (X \ {b}) :=
  (h.attach hsb.nmeta_pos (i := .addr i k) h0 hb).congr (fun _ _ => Iff.rfl)
    fun _ => ptrs_setAddr fun hlast => absurd hlast hk

omit hsb h in
theorem indirectEntry_zero (j : Nat) : indirectEntry (fun _ => 0) j = 0 := by
  have hbyte : ∀ i, getByte (fun _ => 0 : Block) i = 0 := by
    intro i
    unfold getByte
    split <;> rfl
  simp [indirectEntry, getLE, hbyte]

/-- A block of zeros becomes the indirect block. -/
theorem attach_indirect (h0 : (ino i).indirect = 0) (hb : b ∈ X) (hzero : disk b = fun _ => 0) :
    Own sb disk (update ino i ((ino i).setAddr (Fin.last NDIRECT) b)) (X \ {b}) := by
  refine (h.attach hsb.nmeta_pos (i := .addr i (Fin.last NDIRECT)) h0 hb).congr
    (fun _ _ => Iff.rfl) fun P => ?_
  by_cases hP : ∃ j, P = .entry i j
  · obtain ⟨j, rfl⟩ := hP
    have hind : ((ino i).setAddr (Fin.last NDIRECT) b).indirect = b := by
      simp [Dinode.setAddr, Dinode.indirect]
    rw [update_of_ne (by simp)]
    simp only [ptrs, update_self, hind, hzero, indirectEntry_zero, h0, if_true]
    split <;> rfl
  · exact ptrs_setAddr fun _ j hj => hP ⟨j, hj⟩

/-- A block becomes an entry of the indirect block. -/
theorem attach_entry {j : Fin NINDIRECT} (hind : (ino i).indirect ≠ 0)
    (h0 : indirectEntry (disk (ino i).indirect) j.val = 0) (hb : b ∈ X) :
    Own sb (update disk (ino i).indirect
      (putLE (disk (ino i).indirect) 4 (4 * j.val) b)) ino (X \ {b}) := by
  have hv0 : ptrs disk ino (.entry i j) = 0 := by simp [ptrs, h0]
  have hrange := h.indirect_range hind
  have hbr := h.loose b hb
  have huint := hsb.uint
  refine (h.attach hsb.nmeta_pos hv0 hb).congr (fun c hc => ?_) fun P => ?_
  · have := hsb.bitmap c hc
    rw [inUse_update_ne (by omega)]
  · cases P with
    | addr l k => rw [update_of_ne (by simp)]; rfl
    | entry l k =>
      by_cases hl : l = i
      · subst hl
        by_cases hk : k = j
        · subst hk
          have hroom : 4 * k.val + 4 ≤ BSIZE := by
            have := k.isLt
            simp only [NINDIRECT] at this
            omega
          have h4 : (256 : Nat) ^ 4 = 2 ^ 32 := by norm_num
          simp only [ptrs, if_neg hind, update_self, indirectEntry]
          rw [getLE_putLE hroom, h4, Nat.mod_eq_of_lt (by omega)]
        · have hkj : k.val ≠ j.val := fun he => hk (Fin.ext he)
          rw [update_of_ne (by simp [hk])]
          simp only [ptrs, if_neg hind, update_self, indirectEntry]
          rw [getLE_putLE_ne (by omega)]
      · rw [update_of_ne (by simp [hl])]
        by_cases hlz : (ino l).indirect = 0
        · simp [ptrs, hlz]
        · have hne : (ino l).indirect ≠ (ino i).indirect := by
            intro heq
            have := h.inj (.addr l (Fin.last NDIRECT)) (.addr i (Fin.last NDIRECT)) heq hlz
            cases this
            exact hl rfl
          simp only [ptrs, update_of_ne hne]

end

end Own

end Xv6
