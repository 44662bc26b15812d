/-
  Blocks/Invariant.lean --- the invariant of the file system on blocks.

  Besides the owners of the blocks it is about the three copies of an inode: the one
  on disk, the one in the inode cache, and `ino`, which is what the inode is.  A valid
  copy in the cache is right, unless the inode has just been freed and the cache entry
  not been given up (`Z`); the one on disk is behind while a process has changed the
  inode and not called `iupdate` yet (`D`).
-/
import Xv6.Blocks.Ownership

set_option autoImplicit false

namespace Xv6

open Function Foundation

/-! ## Blocks of a file -/

/-- The address of the `bn`th block of an inode, or zero. -/
def mapped (disk : Disk) (d : Dinode Addrs) (bn : Nat) : Nat :=
  if h : bn < NDIRECT then d.addrs ⟨bn, Nat.lt_succ_of_lt h⟩
  else if bn - NDIRECT < NINDIRECT ∧ d.indirect ≠ 0 then
    indirectEntry (disk d.indirect) (bn - NDIRECT)
  else 0

/-- The file has a block wherever it has a byte. -/
def NoHoles (disk : Disk) (d : Dinode Addrs) : Prop :=
  ∀ bn, bn * BSIZE < d.size → mapped disk d bn ≠ 0

theorem mapped_congr {disk disk' : Disk} {d : Dinode Addrs}
    (h : d.indirect ≠ 0 → disk' d.indirect = disk d.indirect) (bn : Nat) :
    mapped disk' d bn = mapped disk d bn := by
  unfold mapped
  split
  · rfl
  · by_cases hind : d.indirect = 0
    · simp [hind]
    · rw [h hind]

theorem NoHoles.congr {disk disk' : Disk} {d : Dinode Addrs} (hn : NoHoles disk d)
    (h : d.indirect ≠ 0 → disk' d.indirect = disk d.indirect) : NoHoles disk' d := by
  intro bn hbn
  rw [mapped_congr h]
  exact hn bn hbn

theorem noHoles_of_size_zero {disk : Disk} {d : Dinode Addrs} (h : d.size = 0) :
    NoHoles disk d := by
  intro bn hbn
  omega

/-- The inode and the index of the block a pointer is for, if it is not that of an indirect
block. -/
def Ptr.place : Ptr → Option (Nat × Nat)
  | .addr i k => if k = Fin.last NDIRECT then none else some (i, k.val)
  | .entry i j => some (i, NDIRECT + j.val)

/-- A block of a file has a pointer. -/
theorem mapped_ptr {disk : Disk} {ino : Nat → Dinode Addrs} {i bn : Nat}
    (h : mapped disk (ino i) bn ≠ 0) :
    ∃ P : Ptr, P.place = some (i, bn) ∧ ptrs disk ino P = mapped disk (ino i) bn := by
  unfold mapped at h ⊢
  by_cases hbn : bn < NDIRECT
  · exact ⟨.addr i ⟨bn, Nat.lt_succ_of_lt hbn⟩, if_neg (Fin.ne_of_lt hbn), by simp [hbn, ptrs]⟩
  · simp only [hbn, dite_false] at h ⊢
    by_cases hind : bn - NDIRECT < NINDIRECT ∧ (ino i).indirect ≠ 0
    · refine ⟨.entry i ⟨bn - NDIRECT, hind.1⟩, ?_, by simp [ptrs, hind.1, hind.2]⟩
      rw [Ptr.place, Nat.add_sub_cancel' (Nat.not_lt.mp hbn)]
    · simp [hind] at h

/-- Byte `o` of a file; where it has no block there is a zero. -/
def byteAt (disk : Disk) (d : Dinode Addrs) (o : Nat) : UInt8 :=
  if mapped disk d (o / BSIZE) = 0 then 0
  else getByte (disk (mapped disk d (o / BSIZE))) (o % BSIZE)

/-! ## The invariant -/

/-- The inode as it is on disk. -/
def Superblock.stored (sb : Superblock) (disk : Disk) (i : Nat) : Dinode Addrs :=
  readDinode (disk (sb.iblock i)) (i % IPB)

/-- The entry of the inode cache is in use, and its copy of the inode can be relied on. -/
structure Usable (Z : Set Slot) (mem : FsMem Addrs) (ip : Slot) : Prop where
  ref : 0 < (mem.inode ip).ref
  valid : (mem.inode ip).valid = true
  right : ip ∉ Z

structure FsInv (sb : Superblock) (X : Set Nat) (D Z : Set Slot) (ino : Nat → Dinode Addrs)
    (disk : Disk) (mem : FsMem Addrs) : Prop where
  own : Own sb disk ino X
  fits : ∀ i, (ino i).Fits
  /-- a free inode has no blocks -/
  free : ∀ i, (ino i).type = 0 → (ino i).addrs = fun _ => 0
  outside : ∀ i, sb.inodeCap ≤ i → ino i = Dinode.zero
  holes : ∀ i, NoHoles disk (ino i)
  dev : ∀ ip, 0 < (mem.inode ip).ref → (mem.inode ip).dev = ROOTDEV
  uniq : ∀ ip jp, 0 < (mem.inode ip).ref → 0 < (mem.inode jp).ref →
    (mem.inode ip).inum = (mem.inode jp).inum → ip = jp
  cached : ∀ ip, Usable Z mem ip →
    (mem.inode ip).inum < sb.inodeCap ∧ (mem.inode ip).d = ino (mem.inode ip).inum
  /-- an inode that was changed is allocated on disk -/
  behind : ∀ ip ∈ D, Usable Z mem ip ∧ (sb.stored disk (mem.inode ip).inum).type ≠ 0
  stored : ∀ i, i < sb.inodeCap → (∀ ip ∈ D, (mem.inode ip).inum ≠ i) → sb.stored disk i = ino i

namespace FsInv

variable {sb : Superblock} {X X' : Set Nat} {D Z : Set Slot} {ino : Nat → Dinode Addrs}
  {disk disk' : Disk} {mem : FsMem Addrs} {ip : Slot} {d : Dinode Addrs} {i bn : Nat}

/-- A block of a file is a data block. -/
theorem mapped_range (h : FsInv sb X D Z ino disk mem) (hd : ino i = d)
    (hm : mapped disk d bn ≠ 0) :
    sb.nmeta ≤ mapped disk d bn ∧ mapped disk d bn < sb.size := by
  subst hd
  obtain ⟨P, -, hP⟩ := mapped_ptr hm
  rw [← hP] at hm ⊢
  exact h.own.range P hm

/-- A block of a file is not an indirect block. -/
theorem mapped_ne_indirect (h : FsInv sb X D Z ino disk mem) (hd : ino i = d)
    (hm : mapped disk d bn ≠ 0) (j : Nat) : (ino j).indirect ≠ mapped disk d bn := by
  subst hd
  intro heq
  obtain ⟨P, hP, hptr⟩ := mapped_ptr hm
  rw [h.own.inj P (.addr j (Fin.last NDIRECT)) (hptr.trans heq.symm) (by rw [hptr]; exact hm),
    Ptr.place, if_pos rfl] at hP
  cases hP

theorem fits_self (h : FsInv sb X D Z (update ino i d) disk mem) : d.Fits := by
  have hfits := h.fits i
  rwa [update_self] at hfits

/-- A cached inode that is allocated is allocated on disk. -/
theorem stored_type (h : FsInv sb X D Z ino disk mem) (hip : Usable Z mem ip)
    (htype : (ino (mem.inode ip).inum).type ≠ 0) :
    (sb.stored disk (mem.inode ip).inum).type ≠ 0 := by
  by_cases hD : ip ∈ D
  · exact (h.behind ip hD).2
  · rw [h.stored _ (h.cached ip hip).1 ?_]
    · exact htype
    · intro jp hjp heq
      have hjp' := (h.behind jp hjp).1
      exact hD (h.uniq jp ip hjp'.ref hip.ref heq ▸ hjp)

/-- The disk changes, and no inode. -/
theorem setDisk (h : FsInv sb X D Z ino disk mem) (hown : Own sb disk' ino X')
    (hholes : ∀ i, NoHoles disk' (ino i))
    (hino : ∀ i, i < sb.inodeCap → disk' (sb.iblock i) = disk (sb.iblock i)) :
    FsInv sb X' D Z ino disk' mem := by
  have hstored : ∀ i, i < sb.inodeCap → sb.stored disk' i = sb.stored disk i := by
    intro i hi
    rw [Superblock.stored, hino i hi, Superblock.stored]
  exact { h with
    own := hown
    holes := hholes
    behind := fun ip hip => by
      rw [hstored _ (h.cached ip (h.behind ip hip).1).1]
      exact h.behind ip hip
    stored := fun i hi hD => by rw [hstored i hi]; exact h.stored i hi hD }

section

variable (hsb : sb.Ok) (h : FsInv sb X D Z ino disk mem)

include hsb h

/-- The data of a file changes. -/
theorem setData {data : Block} (hd : ino i = d) (hm : mapped disk d bn ≠ 0) :
    FsInv sb X D Z ino (update disk (mapped disk d bn) data) mem := by
  have hrange := h.mapped_range hd hm
  have hind : ∀ j, (ino j).indirect ≠ 0 →
      update disk (mapped disk d bn) data (ino j).indirect = disk (ino j).indirect :=
    fun j _ => update_of_ne (h.mapped_ne_indirect hd hm j) _ _
  refine h.setDisk (h.own.frame (fun c hc => ?_) hind) (fun j => (h.holes j).congr (hind j))
    fun j hj => ?_
  · have := hsb.bitmap c hc
    exact update_of_ne (by omega) _ _
  · have := hsb.iblock_meta hj
    exact update_of_ne (by omega) _ _

/-- Another free block is taken, or one in transit is given back. -/
theorem balloc {b : Nat} (hb : b < sb.size) (hfree : sb.inUse disk b = false) :
    FsInv sb (insert b X) D Z ino (ballocDisk sb disk b) mem := by
  obtain ⟨hfirst, -, hv⟩ := h.own.free hb (by simp [hfree])
  refine h.setDisk (h.own.balloc hsb hb hfree)
    (fun i => (h.holes i).congr fun hi => ?_) fun i hi => ?_
  · exact ballocDisk_of_ne hsb hb (h.own.indirect_range hi).1 (hv (.addr i (Fin.last NDIRECT)))
  · have := hsb.iblock_meta hi
    rw [ballocDisk, update_of_ne (by omega), update_of_ne (hsb.iblock_ne_bblock hi)]

end

/-! ## An inode in memory changes -/

theorem setDinode_inode (mem : FsMem Addrs) (ip jp : Slot) (d : Dinode Addrs) :
    (mem.setDinode ip d).inode jp = if jp = ip then { mem.inode ip with d } else mem.inode jp := by
  by_cases hj : jp = ip
  · subst hj; simp [FsMem.setDinode, FsMem.setInode]
  · simp [FsMem.setDinode, FsMem.setInode, hj]

theorem dinode_setDinode (mem : FsMem Addrs) (ip : Slot) (d : Dinode Addrs) :
    ((mem.setDinode ip d).inode ip).d = d := by
  rw [setDinode_inode, if_pos rfl]

/-- Only the fields that are on disk change. -/
theorem setDinode_same (mem : FsMem Addrs) (ip jp : Slot) (d : Dinode Addrs) :
    ((mem.setDinode ip d).inode jp).ref = (mem.inode jp).ref ∧
      ((mem.setDinode ip d).inode jp).inum = (mem.inode jp).inum ∧
      ((mem.setDinode ip d).inode jp).valid = (mem.inode jp).valid ∧
      ((mem.setDinode ip d).inode jp).dev = (mem.inode jp).dev := by
  rw [setDinode_inode]
  split
  · rename_i hj; subst hj; exact ⟨rfl, rfl, rfl, rfl⟩
  · exact ⟨rfl, rfl, rfl, rfl⟩

theorem usable_setDinode {jp : Slot} : Usable Z (mem.setDinode ip d) jp ↔ Usable Z mem jp := by
  obtain ⟨hr, -, hv, -⟩ := setDinode_same mem ip jp d
  constructor
  · rintro ⟨href, hvalid, hZ⟩
    exact ⟨hr ▸ href, hv ▸ hvalid, hZ⟩
  · rintro ⟨href, hvalid, hZ⟩
    exact ⟨hr.symm ▸ href, hv.symm ▸ hvalid, hZ⟩

/-- The inode a process works on changes, and the disk with it. -/
theorem setDinode (h : FsInv sb X D Z ino disk mem) (hip : Usable Z mem ip)
    (htype : (ino (mem.inode ip).inum).type ≠ 0)
    (hown : Own sb disk' (update ino (mem.inode ip).inum d) X') (hfits : d.Fits)
    (hfree : d.type = 0 → d.addrs = fun _ => 0) (hholes : NoHoles disk' d)
    (hrest : ∀ j, j ≠ (mem.inode ip).inum → (ino j).indirect ≠ 0 →
      disk' (ino j).indirect = disk (ino j).indirect)
    (hino : ∀ j, j < sb.inodeCap → disk' (sb.iblock j) = disk (sb.iblock j)) :
    FsInv sb X' (insert ip D) Z (update ino (mem.inode ip).inum d) disk' (mem.setDinode ip d) := by
  have hcap := (h.cached ip hip).1
  have hstored : ∀ i, i < sb.inodeCap → sb.stored disk' i = sb.stored disk i := by
    intro i hi
    rw [Superblock.stored, hino i hi, Superblock.stored]
  refine ⟨hown, (forall_update_iff ino fun _ x => x.Fits).mpr ⟨hfits, fun j _ => h.fits j⟩,
    (forall_update_iff ino fun _ x => x.type = 0 → x.addrs = fun _ => 0).mpr
      ⟨hfree, fun j _ => h.free j⟩,
    ?_, (forall_update_iff ino fun _ x => NoHoles disk' x).mpr
      ⟨hholes, fun j hj => (h.holes j).congr (hrest j hj)⟩,
    ?_, ?_, ?_, ?_, ?_⟩
  · intro j hj
    rw [update_of_ne (by omega)]
    exact h.outside j hj
  · intro jp hjp
    obtain ⟨hr, -, -, hd⟩ := setDinode_same mem ip jp d
    rw [hd]
    exact h.dev jp (by omega)
  · intro jp kp hjp hkp hinum
    obtain ⟨hr, hi, -, -⟩ := setDinode_same mem ip jp d
    obtain ⟨hr', hi', -, -⟩ := setDinode_same mem ip kp d
    exact h.uniq jp kp (by omega) (by omega) (by omega)
  · intro jp hjp
    have hc := h.cached jp (usable_setDinode.mp hjp)
    rw [(setDinode_same mem ip jp d).2.1]
    refine ⟨hc.1, ?_⟩
    by_cases hj : jp = ip
    · subst hj
      rw [setDinode_inode]
      simp
    · have hne : (mem.inode jp).inum ≠ (mem.inode ip).inum := fun he =>
        hj (h.uniq jp ip (usable_setDinode.mp hjp).ref hip.ref he)
      rw [setDinode_inode, if_neg hj, update_of_ne hne]
      exact hc.2
  · intro jp hjp
    rw [usable_setDinode, (setDinode_same mem ip jp d).2.1]
    rcases hjp with rfl | hjp
    · rw [hstored _ hcap]
      exact ⟨hip, h.stored_type hip htype⟩
    · rw [hstored _ (h.cached jp (h.behind jp hjp).1).1]
      exact h.behind jp hjp
  · intro j hj hD
    have hne : j ≠ (mem.inode ip).inum := by
      intro he
      have := hD ip (Set.mem_insert ip D)
      rw [(setDinode_same mem ip ip d).2.1] at this
      exact this he.symm
    rw [hstored j hj, update_of_ne hne]
    refine h.stored j hj fun jp hjp => ?_
    have := hD jp (Set.mem_insert_of_mem ip hjp)
    rwa [(setDinode_same mem ip jp d).2.1] at this

end FsInv

end Xv6
