/-
  Blocks/Map.lean --- `bmap`: the blocks of a file, and how it gets more of them.

  A block that `bmap` allocates is full of zeros, so no byte of any file changes; what changes is
  where the file can be written to.
-/
import Mathlib.Order.Interval.Finset.Nat
import Xv6.Blocks.Alloc

set_option autoImplicit false

namespace Xv6

open Function Foundation

variable {sb : Superblock} {D Z : Set Slot} {ino : Nat → Dinode Addrs} {disk disk' : Disk}
  {mem : FsMem Addrs} {ip : Slot} {d d' : Dinode Addrs} {b i : Nat}

/-! ## Which block is where -/

variable {bn : Nat}

theorem mapped_direct (h : bn < NDIRECT) :
    mapped disk d bn = d.addrs ⟨bn, Nat.lt_succ_of_lt h⟩ := by
  rw [mapped, dif_pos h]

theorem mapped_entry (h : ¬ bn < NDIRECT) (hlt : bn - NDIRECT < NINDIRECT) (hind : d.indirect ≠ 0) :
    mapped disk d bn = indirectEntry (disk d.indirect) (bn - NDIRECT) := by
  rw [mapped, dif_neg h, if_pos ⟨hlt, hind⟩]

theorem mapped_unmapped (h : ¬ bn < NDIRECT) (hind : d.indirect = 0) : mapped disk d bn = 0 := by
  rw [mapped, dif_neg h, if_neg fun hc => hc.2 hind]

/-- The direct address of a block is set. -/
theorem mapped_setAddr (h : bn < NDIRECT) (k : Nat) :
    mapped disk (d.setAddr ⟨bn, Nat.lt_succ_of_lt h⟩ b) k = if k = bn then b
      else mapped disk d k := by
  have hind : (d.setAddr ⟨bn, Nat.lt_succ_of_lt h⟩ b).indirect = d.indirect :=
    update_of_ne (Fin.ne_of_gt h) _ _
  by_cases hk : k < NDIRECT
  · rw [mapped_direct hk, mapped_direct hk]
    by_cases hkb : k = bn
    · subst hkb
      rw [if_pos rfl]
      exact update_self ..
    · rw [if_neg hkb]
      exact update_of_ne (fun heq => hkb (congrArg Fin.val heq)) _ _
  · have hkb : k ≠ bn := by omega
    rw [if_neg hkb, mapped, mapped, dif_neg hk, dif_neg hk, hind]

theorem addrs_setAddr_self (k : Fin (NDIRECT + 1)) : (d.setAddr k b).addrs k = b := by
  simp [Dinode.setAddr]

theorem addrs_setAddr_of_ne {k l : Fin (NDIRECT + 1)} (h : l ≠ k) :
    (d.setAddr k b).addrs l = d.addrs l := by
  simp [Dinode.setAddr, h]

theorem indirect_setAddr_last : (d.setAddr (Fin.last NDIRECT) b).indirect = b := by
  simp [Dinode.setAddr, Dinode.indirect]

/-- A block of zeros as indirect block. -/
theorem mapped_setAddr_last (hind : d.indirect = 0) (hzero : disk b = fun _ => 0) (k : Nat) :
    mapped disk (d.setAddr (Fin.last NDIRECT) b) k = mapped disk d k := by
  by_cases hk : k < NDIRECT
  · rw [mapped_direct hk, mapped_direct hk]
    exact update_of_ne (Fin.ne_of_lt hk) _ _
  · rw [mapped_unmapped hk hind, mapped, dif_neg hk, indirect_setAddr_last, hzero]
    split
    · exact Own.indirectEntry_zero _
    · rfl

/-- An entry of the indirect block is set. -/
theorem mapped_putLE (hbn : ¬ bn < NDIRECT) (hlt : bn - NDIRECT < NINDIRECT) (hind : d.indirect ≠ 0)
    (hb : b < 2 ^ 32) (k : Nat) :
    mapped (update disk d.indirect (putLE (disk d.indirect) 4 (4 * (bn - NDIRECT)) b)) d k =
      if k = bn then b else mapped disk d k := by
  have h4 : (256 : Nat) ^ 4 = 2 ^ 32 := by norm_num
  have hroom : 4 * (bn - NDIRECT) + 4 ≤ BSIZE := by
    simp only [NINDIRECT] at hlt
    omega
  by_cases hkb : k = bn
  · subst hkb
    rw [if_pos rfl, mapped_entry hbn hlt hind, update_self, indirectEntry, getLE_putLE hroom, h4,
      Nat.mod_eq_of_lt hb]
  · rw [if_neg hkb]
    by_cases hk : k < NDIRECT
    · rw [mapped_direct hk, mapped_direct hk]
    · by_cases hkl : k - NDIRECT < NINDIRECT
      · rw [mapped_entry hk hkl hind, mapped_entry hk hkl hind, update_self, indirectEntry,
          indirectEntry, getLE_putLE_ne (by omega)]
      · rw [mapped, mapped, dif_neg hk, dif_neg hk, if_neg fun hc => hkl hc.1,
          if_neg fun hc => hkl hc.1]

/-- The bytes of a file, when each of its blocks stays, or is new and empty. -/
theorem byteAt_congr (h : ∀ k, mapped disk' d' k = mapped disk d k ∧
        (mapped disk d k ≠ 0 → disk' (mapped disk d k) = disk (mapped disk d k)) ∨
      mapped disk d k = 0 ∧ disk' (mapped disk' d' k) = fun _ => 0) (o : Nat) :
    byteAt disk' d' o = byteAt disk d o := by
  unfold byteAt
  rcases h (o / BSIZE) with ⟨hsame, hdisk⟩ | ⟨hnone, hzero⟩
  · rw [hsame]
    split
    · rfl
    · rename_i hne
      rw [hdisk hne]
  · rw [if_pos hnone]
    split
    · rfl
    · rw [hzero]
      unfold getByte
      split <;> rfl

/-! ## Another block for a file -/

/-- An inode has got a block, and nothing else has changed. -/
structure Grown (ino : Nat → Dinode Addrs) (disk : Disk) (i : Nat) (d' : Dinode Addrs)
    (disk' : Disk) :
    Prop where
  same : d' = { ino i with addrs := d'.addrs }
  keep : ∀ k, mapped disk (ino i) k ≠ 0 → mapped disk' d' k = mapped disk (ino i) k
  bytes : ∀ j o, byteAt disk' (update ino i d' j) o = byteAt disk (ino j) o

namespace Grown

theorem refl : Grown ino disk i (ino i) disk where
  same := rfl
  keep _ _ := rfl
  bytes j o := by rw [update_eq_self]

theorem trans {disk₂ : Disk} {d₂ : Dinode Addrs} (h : Grown ino disk i d' disk')
    (h₂ : Grown (update ino i d') disk' i d₂ disk₂) : Grown ino disk i d₂ disk₂ where
  same := by
    have hsame := h₂.same
    rw [update_self] at hsame
    rw [hsame, h.same]
  keep k hk := by
    have hkeep := h.keep k hk
    have hkeep₂ := h₂.keep k
    rw [update_self, hkeep] at hkeep₂
    exact hkeep₂ hk
  bytes j o := by
    have hbytes := h₂.bytes j o
    rw [update_idem] at hbytes
    rw [hbytes, h.bytes]

end Grown

variable {k : Fin (NDIRECT + 1)}

namespace FsInv

/-- A free block is nobody's block. -/
theorem free_apart (h : FsInv sb ∅ D Z ino disk mem) (hb : b ∈ sb.freeBlocks disk) :
    sb.nmeta ≤ b ∧ b < sb.size ∧ (∀ j, (ino j).indirect ≠ b) ∧
      ∀ j k, mapped disk (ino j) k ≠ 0 → mapped disk (ino j) k ≠ b := by
  obtain ⟨hlt, hfree⟩ := mem_freeBlocks.mp hb
  obtain ⟨hfirst, -, hv⟩ := h.own.free hlt (by simp [hfree])
  refine ⟨hfirst, hlt, fun j => hv (.addr j (Fin.last NDIRECT)), ?_⟩
  intro j k hk
  obtain ⟨P, -, hP⟩ := mapped_ptr hk
  rw [← hP]
  exact hv P

/-- After `balloc` the blocks of the other files are where they were, with the same contents. -/
theorem mapped_balloc (hsb : sb.Ok) (h : FsInv sb ∅ D Z ino disk mem) (hb : b ∈ sb.freeBlocks disk)
    (j k : Nat) : mapped (ballocDisk sb disk b) (ino j) k = mapped disk (ino j) k ∧
      (mapped disk (ino j) k ≠ 0 →
        ballocDisk sb disk b (mapped disk (ino j) k) = disk (mapped disk (ino j) k)) := by
  obtain ⟨-, hlt, hind, hmap⟩ := h.free_apart hb
  refine ⟨mapped_congr (fun hne => ?_) k, fun hne => ?_⟩
  · exact ballocDisk_of_ne hsb hlt (h.own.indirect_range hne).1 (hind j)
  · exact ballocDisk_of_ne hsb hlt (h.mapped_range rfl hne).1 (hmap j k hne)

theorem fits_setAddr (hd : d.Fits) (k : Fin (NDIRECT + 1)) (hb : b < 2 ^ 32) :
    (d.setAddr k b).Fits := by
  refine { hd with addrs := fun l => ?_ }
  change update d.addrs k b l < 2 ^ 32
  by_cases hl : l = k
  · rw [hl, update_self]
    exact hb
  · rw [update_of_ne hl]
    exact hd.addrs l

section

variable (hsb : sb.Ok) (h : FsInv sb ∅ D Z ino disk mem)

include hsb h

/-- Where the blocks of an inode are when a free block has become one of its addresses. -/
theorem mapped_growAddr (h0 : (ino i).addrs k = 0) (hb : b ∈ sb.freeBlocks disk) (l : Nat) :
    mapped (ballocDisk sb disk b) ((ino i).setAddr k b) l =
      if l = k.val ∧ k.val < NDIRECT then b else mapped disk (ino i) l := by
  have hmap := (h.mapped_balloc hsb hb i l).1
  by_cases hk : k.val < NDIRECT
  · have hset : mapped (ballocDisk sb disk b) ((ino i).setAddr k b) l = _ := mapped_setAddr hk l
    rw [hset, hmap]
    simp only [hk, and_true]
  · have hlast : k = Fin.last NDIRECT :=
      Fin.ext (by have := k.isLt; simp only [Fin.val_last]; omega)
    subst hlast
    have hzero : ballocDisk sb disk b b = fun _ => 0 := update_self ..
    rw [mapped_setAddr_last h0 hzero, hmap, if_neg fun hc => hk hc.2]

/-- A free block becomes an address of the inode. -/
theorem growAddr (hip : Usable Z mem ip) (htype : (ino (mem.inode ip).inum).type ≠ 0)
    (h0 : (ino (mem.inode ip).inum).addrs k = 0) (hb : b ∈ sb.freeBlocks disk) :
    FsInv sb ∅ (insert ip D) Z
      (update ino (mem.inode ip).inum ((ino (mem.inode ip).inum).setAddr k b))
      (ballocDisk sb disk b) (mem.setDinode ip ((ino (mem.inode ip).inum).setAddr k b)) ∧
    Grown ino disk (mem.inode ip).inum ((ino (mem.inode ip).inum).setAddr k b)
      (ballocDisk sb disk b) := by
  set i := (mem.inode ip).inum with hi
  obtain ⟨hlt, hfree⟩ := mem_freeBlocks.mp hb
  obtain ⟨hdata, -, -, -⟩ := h.free_apart hb
  have huint := hsb.uint
  have h₁ := h.balloc hsb hlt hfree
  have hzero : ballocDisk sb disk b b = fun _ => 0 := update_self ..
  have hmap := h.mapped_balloc hsb hb
  have hmapped : ∀ l,
      mapped (ballocDisk sb disk b) ((ino i).setAddr k b) l = mapped disk (ino i) l ∨
      mapped disk (ino i) l = 0 ∧ mapped (ballocDisk sb disk b) ((ino i).setAddr k b) l = b := by
    intro l
    rw [h.mapped_growAddr hsb h0 hb l]
    by_cases hl : l = k.val ∧ k.val < NDIRECT
    · rw [if_pos hl]
      refine Or.inr ⟨?_, rfl⟩
      rw [hl.1, mapped_direct hl.2]
      exact h0
    · rw [if_neg hl]
      exact Or.inl rfl
  have hown : Own sb (ballocDisk sb disk b) (update ino i ((ino i).setAddr k b)) ∅ := by
    rw [← Set.insert_sdiff_self_of_notMem (Set.notMem_empty b)]
    by_cases hk : k = Fin.last NDIRECT
    · subst hk
      exact h₁.own.attach_indirect hsb h0 (Set.mem_insert b ∅) hzero
    · exact h₁.own.attach_direct hsb hk h0 (Set.mem_insert b ∅)
  refine ⟨?_, rfl, ?_, ?_⟩
  · refine h₁.setDinode hip htype hown (fits_setAddr (h.fits i) k (by omega))
      (fun ht => absurd ht htype) ?_ (fun _ _ _ => rfl) fun _ _ => rfl
    intro bn hbn
    rcases hmapped bn with hsame | ⟨hnone, -⟩
    · rw [hsame]
      exact h.holes i bn hbn
    · exact absurd hnone (h.holes i bn hbn)
  · intro l hl
    exact (hmapped l).resolve_right fun hnone => hl hnone.1
  · intro j o
    by_cases hj : j = i
    · rw [hj, update_self]
      refine byteAt_congr (fun l => ?_) o
      rcases hmapped l with hsame | ⟨hnone, hnew⟩
      · exact Or.inl ⟨hsame, (hmap i l).2⟩
      · refine Or.inr ⟨hnone, ?_⟩
        rw [hnew]
        exact hzero
    · rw [update_of_ne hj]
      exact byteAt_congr (fun l => Or.inl (hmap j l)) o

/-- A free block becomes an entry of the indirect block. -/
theorem growEntry (hd : ino i = d) (hbn : ¬ bn < NDIRECT) (hlt : bn - NDIRECT < NINDIRECT)
    (hind : d.indirect ≠ 0) (h0 : mapped disk d bn = 0) (hb : b ∈ sb.freeBlocks disk)
    (hdisk' : disk' = update (ballocDisk sb disk b) d.indirect
      (putLE (disk d.indirect) 4 (4 * (bn - NDIRECT)) b)) :
    FsInv sb ∅ D Z ino disk' mem ∧ Grown ino disk i d disk' ∧
      ∀ k, mapped disk' d k = if k = bn then b else mapped disk d k := by
  subst hd
  set ind := (ino i).indirect with hindirect
  obtain ⟨hblt, hfree⟩ := mem_freeBlocks.mp hb
  obtain ⟨hdata, -, hother, hapart⟩ := h.free_apart hb
  have huint := hsb.uint
  have hrange := h.own.indirect_range hind
  have h₁ := h.balloc hsb hblt hfree
  have hsame : ballocDisk sb disk b ind = disk ind := ballocDisk_of_ne hsb hblt hrange.1 (hother i)
  have hmap := h.mapped_balloc hsb hb
  have hzero : ballocDisk sb disk b b = fun _ => 0 := update_self ..
  rw [← hsame] at hdisk'
  set disk₁ := ballocDisk sb disk b with hdisk₁
  have hnone : mapped disk₁ (ino i) bn = 0 := (hmap i bn).1.trans h0
  have hmapped : ∀ k, _ = if k = bn then b else mapped disk₁ (ino i) k :=
    mapped_putLE hbn hlt hind (by omega)
  rw [← hindirect, ← hdisk'] at hmapped
  have hne : ∀ c, c ≠ ind → disk' c = disk₁ c := by
    intro c hc
    rw [hdisk', update_of_ne hc]
  -- no other inode has this indirect block, and no file has it as a block of its own
  have hinds : ∀ j, j ≠ i → (ino j).indirect ≠ 0 → (ino j).indirect ≠ ind := by
    intro j hj hj0 heq
    cases h.own.inj (.addr j (Fin.last NDIRECT)) (.addr i (Fin.last NDIRECT)) heq hj0
    exact hj rfl
  have hown : Own sb disk' ino ∅ := by
    rw [← Set.insert_sdiff_self_of_notMem (Set.notMem_empty b)]
    have hentry : indirectEntry (disk₁ (ino i).indirect) (bn - NDIRECT) = 0 := by
      rw [← mapped_entry hbn hlt hind]
      exact hnone
    rw [hdisk']
    exact h₁.own.attach_entry hsb (j := ⟨bn - NDIRECT, hlt⟩) hind hentry (Set.mem_insert b ∅)
  have hkeep : ∀ k, mapped disk (ino i) k ≠ 0 → mapped disk' (ino i) k = mapped disk (ino i) k := by
    intro k hk
    have hkb : k ≠ bn := by
      rintro rfl
      exact hk h0
    rw [hmapped, if_neg hkb]
    exact (hmap i k).1
  refine ⟨?_, ⟨rfl, hkeep, ?_⟩, ?_⟩
  · refine h₁.setDisk hown (fun j => ?_) fun j hj => ?_
    · by_cases hj : j = i
      · intro k hk
        rw [hj] at hk ⊢
        have hk0 := h.holes i k hk
        rw [hkeep k hk0]
        exact hk0
      · exact (h₁.holes j).congr fun hj0 => hne _ (hinds j hj hj0)
    · have := hsb.iblock_meta hj
      exact hne _ (by omega)
  · intro j o
    rw [update_eq_self]
    refine byteAt_congr (fun k => ?_) o
    have hstay : mapped disk (ino j) k ≠ 0 →
        disk' (mapped disk (ino j) k) = disk (mapped disk (ino j) k) := by
      intro hk
      rw [hne _ (h.mapped_ne_indirect rfl hk i).symm]
      exact (hmap j k).2 hk
    by_cases hj : j = i
    · rw [hj] at hstay ⊢
      by_cases hkb : k = bn
      · refine Or.inr ⟨by rw [hkb]; exact h0, ?_⟩
        rw [hmapped, if_pos hkb, hne b (hother i).symm]
        exact hzero
      · refine Or.inl ⟨?_, hstay⟩
        rw [hmapped, if_neg hkb]
        exact (hmap i k).1
    · refine Or.inl ⟨?_, hstay⟩
      exact (mapped_congr (fun hj0 => hne _ (hinds j hj hj0)) k).trans (hmap j k).1
  · intro k
    rw [hmapped, (hmap i k).1]

end

end FsInv

/-! ## `bmap` -/

/-- The blocks that a file lacks for its block indices from `lo` up to `hi`. -/
def needed (disk : Disk) (d : Dinode Addrs) (lo hi : Nat) : Nat :=
  ((Finset.Ico lo hi).filter fun bn => mapped disk d bn = 0).card +
    if d.indirect = 0 ∧ NDIRECT < hi ∧ lo < hi then 1 else 0

/-- The blocks for the first index, and those for the rest. -/
theorem needed_succ {lo hi : Nat} (hlt : lo < hi)
    (hrest : ∀ k, k ≠ lo → mapped disk' d' k = mapped disk d k)
    (hind : d'.indirect = 0 ↔ d.indirect = 0 ∧ lo < NDIRECT) :
    needed disk d lo hi = needed disk d lo (lo + 1) + needed disk' d' (lo + 1) hi := by
  have hunion : Finset.Ico lo hi = insert lo (Finset.Ico (lo + 1) hi) := by
    ext k
    simp only [Finset.mem_Ico, Finset.mem_insert]
    omega
  have hfilter : (Finset.Ico (lo + 1) hi).filter (fun bn => mapped disk' d' bn = 0) =
      (Finset.Ico (lo + 1) hi).filter fun bn => mapped disk d bn = 0 := by
    refine Finset.filter_congr fun k hk => ?_
    rw [Finset.mem_Ico] at hk
    rw [hrest k (by omega)]
  have hcard : ((Finset.Ico lo hi).filter fun bn => mapped disk d bn = 0).card =
      (({lo} : Finset Nat).filter fun bn => mapped disk d bn = 0).card +
        ((Finset.Ico (lo + 1) hi).filter fun bn => mapped disk d bn = 0).card := by
    rw [hunion, Finset.insert_eq, Finset.filter_union, Finset.card_union_of_disjoint]
    refine Finset.disjoint_filter_filter ?_
    rw [Finset.disjoint_singleton_left, Finset.mem_Ico]
    omega
  have hone : (if d.indirect = 0 ∧ NDIRECT < hi ∧ lo < hi then 1 else 0) =
      (if d.indirect = 0 ∧ NDIRECT < lo + 1 ∧ lo < lo + 1 then 1 else 0) +
        if d'.indirect = 0 ∧ NDIRECT < hi ∧ lo + 1 < hi then 1 else 0 := by
    by_cases hd : d.indirect = 0
    · by_cases hl : lo < NDIRECT
      · simp only [hind, hd, hl, true_and, and_true]
        split_ifs <;> omega
      · simp only [hind, hd, hl, true_and, and_false, false_and, if_false]
        split_ifs <;> omega
    · simp only [hind, hd, false_and, if_false]
  rw [needed, needed, needed, hfilter, Nat.Ico_succ_singleton, hcard, hone]
  omega

theorem needed_one_le {lo hi : Nat} (hlt : lo < hi) :
    needed disk d lo (lo + 1) ≤ needed disk d lo hi := by
  refine Nat.add_le_add (Finset.card_le_card (Finset.filter_subset_filter _ ?_)) ?_
  · exact Finset.Ico_subset_Ico_right hlt
  · split_ifs <;> omega

/-- The blocks for one index. -/
theorem needed_one (bn : Nat) : needed disk d bn (bn + 1) =
    (if mapped disk d bn = 0 then 1 else 0) + if d.indirect = 0 ∧ NDIRECT ≤ bn then 1 else 0 := by
  have hiff : (d.indirect = 0 ∧ NDIRECT < bn + 1 ∧ bn < bn + 1) ↔
      (d.indirect = 0 ∧ NDIRECT ≤ bn) := by
    omega
  rw [needed, Nat.Ico_succ_singleton, Finset.filter_singleton]
  simp only [hiff]
  split_ifs <;> rfl

theorem FsMem.setDinode_self (mem : FsMem Addrs) (ip : Slot) :
    mem.setDinode ip (mem.inode ip).d = mem := by
  rw [FsMem.setDinode, FsMem.setInode]
  have hupdate : update mem.inode ip { mem.inode ip with d := (mem.inode ip).d } = mem.inode :=
    update_eq_self ..
  rw [hupdate]

theorem FsMem.setDinode_setDinode (mem : FsMem Addrs) (ip : Slot) (d d' : Dinode Addrs) :
    (mem.setDinode ip d).setDinode ip d' = mem.setDinode ip d' := by
  simp only [FsMem.setDinode, FsMem.setInode, update_self, update_idem]

namespace FsInv

/-- An inode that was not changed may be regarded as changed. -/
theorem dirty (h : FsInv sb ∅ D Z ino disk mem) (hip : Usable Z mem ip)
    (htype : (ino (mem.inode ip).inum).type ≠ 0) : FsInv sb ∅ (insert ip D) Z ino disk mem := by
  refine { h with behind := ?_, stored := ?_ }
  · rintro jp (rfl | hjp)
    · exact ⟨hip, h.stored_type hip htype⟩
    · exact h.behind jp hjp
  · intro i hi hD
    exact h.stored i hi fun jp hjp => hD jp (Set.mem_insert_of_mem ip hjp)

theorem meta_inUse (h : FsInv sb ∅ D Z ino disk mem) (c : Nat) (hc : c < sb.nmeta) :
    sb.inUse disk c = true :=
  h.own.low c hc (lt_of_lt_of_le hc (Nat.sub_le _ _))

end FsInv

section Routines

variable {strict : Prop} {InLog : Nat → Prop} {Ends : Halt → Prop} {p : Pid} {inOp : Bool}
  {held : List Held} {Q : Nat → Store (FsMem Addrs) → Prop}

/-- An address that is there is found, and nothing changes. -/
theorem swp_addrOrAlloc_some (hk : (mem.inode ip).d.addrs k ≠ 0)
    (hQ : Q ((mem.inode ip).d.addrs k) ⟨disk, ⟨inOp, held⟩, mem⟩) :
    swp (fsTheory strict InLog Ends) p (addrOrAlloc sb ip k) Q ⟨disk, ⟨inOp, held⟩, mem⟩ := by
  refine swp_getInode ?_
  rw [if_neg hk]
  exact hQ

/-- What `addrOrAlloc` and `bmap` give. -/
structure Mapping (sb : Superblock) (D Z : Set Slot) (ino : Nat → Dinode Addrs) (disk : Disk)
    (mem : FsMem Addrs) (ip : Slot) (d' : Dinode Addrs) (disk' : Disk) : Prop where
  inv : FsInv sb ∅ (insert ip D) Z (update ino (mem.inode ip).inum d') disk' (mem.setDinode ip d')
  grown : Grown ino disk (mem.inode ip).inum d' disk'

theorem Mapping.refl (h : FsInv sb ∅ D Z ino disk mem) (hip : Usable Z mem ip)
    (htype : (ino (mem.inode ip).inum).type ≠ 0) :
    Mapping sb D Z ino disk mem ip (ino (mem.inode ip).inum) disk := by
  refine ⟨?_, Grown.refl⟩
  rw [update_eq_self, ← (h.cached ip hip).2, FsMem.setDinode_self]
  exact h.dirty hip htype

section

variable (hsb : sb.Ok) (h : FsInv sb ∅ D Z ino disk mem)

include hsb h

/-- One block less is free. -/
theorem card_freeBlocks_balloc (hb : b ∈ sb.freeBlocks disk) :
    (sb.freeBlocks (ballocDisk sb disk b)).card + 1 = (sb.freeBlocks disk).card := by
  rw [freeBlocks_balloc, Finset.card_erase_add_one hb]
  intro c hc
  have := hsb.bitmap c hc
  have := (h.free_apart hb).1
  omega

theorem swp_addrOrAlloc (hip : Usable Z mem ip) (htype : (ino (mem.inode ip).inum).type ≠ 0)
    (hw : Writing sb strict InLog inOp)
    (hroom : Ends outOfBlocks ∨
      ((ino (mem.inode ip).inum).addrs k = 0 → 0 < (sb.freeBlocks disk).card))
    (hQ : ∀ d' disk', Mapping sb D Z ino disk mem ip d' disk' → d'.addrs k ≠ 0 →
      (∀ l, l ≠ k → d'.addrs l = (ino (mem.inode ip).inum).addrs l) →
      (∀ l, l ≠ k.val ∨ k = Fin.last NDIRECT →
        mapped disk' d' l = mapped disk (ino (mem.inode ip).inum) l) →
      (sb.freeBlocks disk').card + (if (ino (mem.inode ip).inum).addrs k = 0 then 1 else 0) =
        (sb.freeBlocks disk).card → Q (d'.addrs k) ⟨disk', ⟨inOp, []⟩, mem.setDinode ip d'⟩) :
    swp (fsTheory strict InLog Ends) p (addrOrAlloc sb ip k) Q ⟨disk, ⟨inOp, []⟩, mem⟩ := by
  have hd := (h.cached ip hip).2
  by_cases hk : (mem.inode ip).d.addrs k = 0
  · refine swp_getInode ?_
    rw [if_pos hk]
    have h0 : (ino (mem.inode ip).inum).addrs k = 0 := by rw [← hd]; exact hk
    refine swp_bind (swp_balloc hsb h.meta_inUse hw dataHeld_nil ?_ ?_)
    · exact hroom.imp_right fun hr => Finset.card_pos.mp (hr h0)
    · intro b hb _
      refine swp_bind (swp_getInode (swp_setDinode ?_))
      rw [hd]
      obtain ⟨hinv, hgrown⟩ := h.growAddr hsb hip htype h0 hb
      have hself := addrs_setAddr_self (d := ino (mem.inode ip).inum) (b := b) k
      have hpos : b ≠ 0 := by
        have := (h.free_apart hb).1
        have := hsb.nmeta_pos
        omega
      have hq := hQ _ _ ⟨hinv, hgrown⟩ (by rw [hself]; exact hpos)
        (fun l hl => addrs_setAddr_of_ne hl) ?_ ?_
      · rw [hself] at hq
        exact hq
      · intro l hl
        rw [h.mapped_growAddr hsb h0 hb l, if_neg]
        rintro ⟨hlk, hlt⟩
        rcases hl with hne | hlast
        · exact hne hlk
        · rw [hlast] at hlt
          exact absurd hlt (by simp)
      · rw [if_pos h0]
        exact card_freeBlocks_balloc hsb h hb
  · refine swp_addrOrAlloc_some hk ?_
    have h0 : ¬ (ino (mem.inode ip).inum).addrs k = 0 := by rw [← hd]; exact hk
    have hq := hQ _ _ (Mapping.refl h hip htype) h0 (fun _ _ => rfl) (fun _ _ => rfl)
      (by rw [if_neg h0]; rfl)
    rw [← hd, FsMem.setDinode_self] at hq
    exact hq

omit hsb h in
/-- An indirect block is in use. -/
theorem FsInv.indirect_inUse (h : FsInv sb ∅ D Z ino disk mem) (hind : (ino i).indirect ≠ 0) :
    sb.inUse disk (ino i).indirect = true := by
  obtain ⟨hlow, hlt⟩ := h.own.indirect_range hind
  exact (h.own.used _ hlow hlt).mpr (Or.inr ⟨.addr i (Fin.last NDIRECT), rfl⟩)

/-- The second half of `bmap`: the block of an index behind the direct ones, once there is an
indirect block. -/
theorem swp_bmap_entry (hd : ino i = d) (hw : Writing sb strict InLog inOp) (hbn : ¬ bn < NDIRECT)
    (hlt : bn - NDIRECT < NINDIRECT) (hind : d.indirect ≠ 0)
    (hroom : Ends outOfBlocks ∨ (mapped disk d bn = 0 → 0 < (sb.freeBlocks disk).card))
    (hQ : ∀ disk', FsInv sb ∅ D Z ino disk' mem → Grown ino disk i d disk' →
      mapped disk' d bn ≠ 0 → (∀ k, k ≠ bn → mapped disk' d k = mapped disk d k) →
      (sb.freeBlocks disk').card + (if mapped disk d bn = 0 then 1 else 0) =
        (sb.freeBlocks disk).card → Q (mapped disk' d bn) ⟨disk', ⟨inOp, []⟩, mem⟩) :
    swp (fsTheory strict InLog Ends) p (.op (.bread d.indirect) fun (a : Block) =>
        if indirectEntry a (bn - NDIRECT) = 0 then
          balloc sb >>= fun addr =>
          .op (.modify d.indirect (putLE a 4 (4 * (bn - NDIRECT)) addr)) fun _ =>
          .op (.logWrite d.indirect) fun _ =>
          .op (.brelse d.indirect) fun _ => .pure addr
        else .op (.brelse d.indirect) fun _ => .pure (indirectEntry a (bn - NDIRECT)))
      Q ⟨disk, ⟨inOp, []⟩, mem⟩ := by
  subst hd
  have hrange := h.own.indirect_range hind
  have hmapped : mapped disk (ino i) bn = _ := mapped_entry hbn hlt hind
  refine swp_bread (lt_trans hrange.2 hsb.uint) (by simp) ?_
  by_cases h0 : indirectEntry (disk (ino i).indirect) (bn - NDIRECT) = 0
  · rw [if_pos h0]
    rw [← hmapped] at h0
    have hheld : DataHeld sb disk [⟨(ino i).indirect, disk (ino i).indirect, false⟩] := by
      intro x hx
      rw [List.mem_singleton.mp hx]
      exact ⟨hrange.1, h.indirect_inUse hind⟩
    refine swp_bind (swp_balloc hsb h.meta_inUse hw hheld ?_ ?_)
    · exact hroom.imp_right fun hr => Finset.card_pos.mp (hr h0)
    · intro b hb _
      refine swp_writeBack (hw.allowed (hsb.inodestart_le hrange.1)) (by simp) ?_
      obtain ⟨hinv, hgrown, hmap⟩ := h.growEntry hsb rfl hbn hlt hind h0 hb rfl
      have hpos : b ≠ 0 := by
        have := (h.free_apart hb).1
        have := hsb.nmeta_pos
        omega
      have hnew := hmap bn
      rw [if_pos rfl] at hnew
      have hq :=
        hQ _ hinv hgrown (by rw [hnew]; exact hpos) (fun k hk => by rw [hmap k, if_neg hk]) ?_
      · rw [hnew] at hq
        exact hq
      · rw [if_pos h0, ← card_freeBlocks_balloc hsb h hb]
        congr 2
        refine freeBlocks_congr fun c hc => ?_
        have := hsb.bitmap c hc
        exact update_of_ne (by omega) _ _
  · rw [if_neg h0]
    refine swp_brelse (by simp) ?_
    rw [← hmapped] at h0 ⊢
    exact hQ disk h Grown.refl h0 (fun _ _ => rfl) (by rw [if_neg h0]; rfl)

/-- `bmap` finds the block, or gets one. -/
theorem swp_bmap (hip : Usable Z mem ip) (htype : (ino (mem.inode ip).inum).type ≠ 0)
    (hw : Writing sb strict InLog inOp) (hbn : bn < MAXFILE) (hroom : Ends outOfBlocks ∨
      needed disk (ino (mem.inode ip).inum) bn (bn + 1) ≤ (sb.freeBlocks disk).card)
    (hQ : ∀ d' disk', Mapping sb D Z ino disk mem ip d' disk' → mapped disk' d' bn ≠ 0 →
      (∀ k, k ≠ bn → mapped disk' d' k = mapped disk (ino (mem.inode ip).inum) k) →
      (d'.indirect = 0 ↔ (ino (mem.inode ip).inum).indirect = 0 ∧ bn < NDIRECT) →
      (sb.freeBlocks disk').card + needed disk (ino (mem.inode ip).inum) bn (bn + 1) =
        (sb.freeBlocks disk).card →
      Q (mapped disk' d' bn) ⟨disk', ⟨inOp, []⟩, mem.setDinode ip d'⟩) :
    swp (fsTheory strict InLog Ends) p (bmap sb ip bn) Q ⟨disk, ⟨inOp, []⟩, mem⟩ := by
  set i := (mem.inode ip).inum with hi
  rw [needed_one] at hroom
  rw [needed_one] at hQ
  unfold bmap
  by_cases hdirect : bn < NDIRECT
  · have hnind : ¬ ((ino i).indirect = 0 ∧ NDIRECT ≤ bn) := fun hc => absurd hc.2 (by omega)
    rw [if_neg hnind] at hroom hQ
    rw [dif_pos hdirect]
    have hmapped : ∀ {disk : Disk} {d : Dinode Addrs}, mapped disk d bn = d.addrs ⟨bn, _⟩ :=
      fun {_ _} => mapped_direct hdirect
    refine swp_addrOrAlloc hsb h hip htype hw ?_ ?_
    · refine hroom.imp_right fun hr h0 => ?_
      rw [hmapped, if_pos h0] at hr
      omega
    · intro d' disk' hm hk hothers hmap hcard
      have hlast : d'.indirect = (ino i).indirect :=
        hothers (Fin.last NDIRECT) (Fin.ne_of_gt hdirect)
      have hq := hQ d' disk' hm (by rw [hmapped]; exact hk) (fun k hkb => hmap k (Or.inl hkb)) ?_ ?_
      · rw [hmapped] at hq
        exact hq
      · rw [hlast]
        exact ⟨fun h0 => ⟨h0, hdirect⟩, fun h0 => h0.1⟩
      · rw [hmapped, Nat.add_zero]
        exact hcard
  · have hlt : bn - NDIRECT < NINDIRECT := by
      unfold MAXFILE at hbn
      omega
    rw [dif_neg hdirect, if_pos hlt]
    refine swp_bind (swp_addrOrAlloc hsb h hip htype hw ?_ ?_)
    · refine hroom.imp_right fun hr h0 => ?_
      have hind : (ino i).indirect = 0 ∧ NDIRECT ≤ bn := ⟨h0, by omega⟩
      rw [if_pos hind] at hr
      omega
    · intro d₁ disk₁ hm hk hothers hmap hcard
      have hcard' :
          (sb.freeBlocks disk₁).card + (if (ino i).indirect = 0 ∧ NDIRECT ≤ bn then 1 else 0) =
          (sb.freeBlocks disk).card := by
        have hiff : ((ino i).indirect = 0 ∧ NDIRECT ≤ bn) ↔ (ino i).addrs (Fin.last NDIRECT) = 0 :=
          ⟨fun hc => hc.1, fun hc => ⟨hc, by omega⟩⟩
        simp only [hiff]
        exact hcard
      have hsame : ∀ l, mapped disk₁ d₁ l = mapped disk (ino i) l := fun l => hmap l (Or.inr rfl)
      refine swp_bmap_entry hsb hm.inv (update_self ..) hw hdirect hlt hk ?_ ?_ <;> rw [hsame]
      · refine hroom.imp_right fun hr h0 => ?_
        rw [if_pos h0] at hr
        omega
      · intro disk₂ hinv hgrown hne hmap₂ hcard₂
        refine hQ d₁ disk₂ ⟨hinv, ?_⟩ hne (fun k hkb => (hmap₂ k hkb).trans (hsame k)) ?_ ?_
        · exact hm.grown.trans hgrown
        · exact ⟨fun h0 => absurd h0 hk, fun h0 => absurd h0.2 hdirect⟩
        · omega

end

end Routines

end Xv6
