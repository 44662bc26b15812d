/-
  Blocks/Inode.lean --- an inode is copied to disk, read from disk, and allocated.
-/
import Xv6.Blocks.Map

set_option autoImplicit false

namespace Xv6

open Function Foundation

variable {sb : Superblock} {X : Set Nat} {D Z : Set Slot} {ino : Nat → Dinode Addrs}
  {disk disk' : Disk} {mem : FsMem Addrs} {ip : Slot} {d : Dinode Addrs} {i : Nat}

/-- An inode on disk changes. -/
def putInode (sb : Superblock) (disk : Disk) (i : Nat) (d : Dinode Addrs) : Disk :=
  Function.update disk (sb.iblock i) (writeDinode (disk (sb.iblock i)) (i % IPB) d)

theorem stored_putInode_self (hd : d.Fits) : sb.stored (putInode sb disk i d) i = d := by
  rw [Superblock.stored, putInode, update_self]
  exact readDinode_writeDinode (Nat.mod_lt i (by decide)) hd

theorem stored_putInode_of_ne {j : Nat} (hj : j ≠ i) :
    sb.stored (putInode sb disk i d) j = sb.stored disk j := by
  rw [Superblock.stored, putInode, Superblock.stored]
  by_cases hb : sb.iblock j = sb.iblock i
  · have hmod : j % IPB ≠ i % IPB := by
      intro hmod
      have hj' := Nat.div_add_mod j IPB
      have hi' := Nat.div_add_mod i IPB
      have hdiv : j / IPB = i / IPB := Nat.add_right_cancel hb
      rw [hdiv, hmod] at hj'
      omega
    rw [hb, update_self, readDinode_writeDinode_ne hmod]
  · rw [update_of_ne hb]

/-- No block of data changes, nor the free map. -/
structure SameData (sb : Superblock) (disk disk' : Disk) : Prop where
  data : ∀ b, sb.nmeta ≤ b → disk' b = disk b
  free : sb.freeBlocks disk' = sb.freeBlocks disk

namespace SameData

theorem putInode (hsb : sb.Ok) (hi : i < sb.inodeCap) :
    SameData sb disk (putInode sb disk i d) where
  data b hb := by
    have := hsb.iblock_meta hi
    exact update_of_ne (by omega) _ _
  free := freeBlocks_congr fun _ _ => update_of_ne (hsb.iblock_ne_bblock hi).symm _ _

/-- The files stay as they are. -/
theorem mapped (hs : SameData sb disk disk') (h : FsInv sb X D Z ino disk mem) (j k : Nat) :
    mapped disk' (ino j) k = Xv6.mapped disk (ino j) k :=
  mapped_congr (fun hind => hs.data _ (h.own.indirect_range hind).1) k

theorem byteAt (hs : SameData sb disk disk') (h : FsInv sb X D Z ino disk mem) (j o : Nat) :
    byteAt disk' (ino j) o = Xv6.byteAt disk (ino j) o := by
  rw [Xv6.byteAt, hs.mapped h, Xv6.byteAt]
  split
  · rfl
  · rename_i hne
    rw [hs.data _ (h.mapped_range rfl hne).1]

end SameData

/-! ## Fields that are not addresses -/

theorem indirect_of_addrs {d d' : Dinode Addrs} (h : d'.addrs = d.addrs) :
    d'.indirect = d.indirect :=
  congrFun h (Fin.last NDIRECT)

theorem mapped_of_addrs {d d' : Dinode Addrs} (h : d'.addrs = d.addrs) (k : Nat) :
    mapped disk d' k = mapped disk d k := by
  unfold mapped
  rw [h, indirect_of_addrs h]

theorem byteAt_of_addrs {d d' : Dinode Addrs} (h : d'.addrs = d.addrs) (o : Nat) :
    byteAt disk d' o = byteAt disk d o := by
  rw [byteAt, mapped_of_addrs h, byteAt]

theorem Own.of_addrs (h : Own sb disk ino X) (hd : d.addrs = (ino i).addrs) :
    Own sb disk (update ino i d) X := by
  have haddrs : ∀ j, (update ino i d j).addrs = (ino j).addrs :=
    (forall_update_iff ino fun j x => x.addrs = (ino j).addrs).mpr ⟨hd, fun _ _ => rfl⟩
  refine h.congr (fun _ _ => Iff.rfl) fun P => ?_
  cases P with
  | addr j k => exact congrFun (haddrs j) k
  | entry j k => simp only [ptrs, indirect_of_addrs (haddrs j)]

namespace FsInv

/-- The inode a process works on changes, but for its addresses. -/
theorem setFields (h : FsInv sb X D Z ino disk mem) (hip : Usable Z mem ip)
    (htype : (ino (mem.inode ip).inum).type ≠ 0) (hd : d.addrs = (ino (mem.inode ip).inum).addrs)
    (hfits : d.Fits) (hfree : d.type = 0 → d.addrs = fun _ => 0) (hholes : NoHoles disk d) :
    FsInv sb X (insert ip D) Z (update ino (mem.inode ip).inum d) disk (mem.setDinode ip d) :=
  h.setDinode hip htype (h.own.of_addrs hd) hfits hfree hholes (fun _ _ _ => rfl) fun _ _ => rfl

section

variable (hsb : sb.Ok) (h : FsInv sb X D Z ino disk mem)

include hsb h

/-- The copy on disk catches up. -/
theorem putInode (hip : Usable Z mem ip) :
    FsInv sb X (D \ {ip}) Z ino (putInode sb disk (mem.inode ip).inum (mem.inode ip).d) mem := by
  obtain ⟨hcap, hd⟩ := h.cached ip hip
  have hs : SameData sb disk (Xv6.putInode sb disk (mem.inode ip).inum (mem.inode ip).d) :=
    SameData.putInode hsb hcap
  have hfits : (mem.inode ip).d.Fits := by
    rw [hd]
    exact h.fits _
  exact { h with
    own := h.own.frame_iblock hsb hcap
    holes := fun i => (h.holes i).congr fun hind => hs.data _ (h.own.indirect_range hind).1
    behind := fun jp hjp => by
      obtain ⟨hu, htype⟩ := h.behind jp hjp.1
      have hne : (mem.inode jp).inum ≠ (mem.inode ip).inum := fun he =>
        hjp.2 (h.uniq jp ip hu.ref hip.ref he)
      rw [stored_putInode_of_ne hne]
      exact ⟨hu, htype⟩
    stored := fun i hi hD => by
      by_cases hne : i = (mem.inode ip).inum
      · rw [hne, stored_putInode_self hfits, hd]
      · rw [stored_putInode_of_ne hne]
        refine h.stored i hi fun jp hjp heq => ?_
        by_cases hj : jp = ip
        · exact hne (by rw [← heq, hj])
        · exact hD jp ⟨hjp, hj⟩ heq }

/-- A free inode is allocated, without any blocks. -/
theorem allocInode (hi : i < sb.inodeCap) (hfree : (sb.stored disk i).type = 0)
    (hlive : ∀ ip, Usable Z mem ip → (ino (mem.inode ip).inum).type = 0 → ip ∈ D)
    (hfits : d.Fits) (hzero : d.addrs = fun _ => 0) (hsize : d.size = 0) :
    (ino i).type = 0 ∧
    FsInv sb X D Z (update ino i d) (Xv6.putInode sb disk i d) mem := by
  have hnotD : ∀ jp ∈ D, (mem.inode jp).inum ≠ i := by
    intro jp hjp heq
    exact (h.behind jp hjp).2 (by rw [heq]; exact hfree)
  have hino := h.stored i hi hnotD
  have htype0 : (ino i).type = 0 := by
    rw [← hino]
    exact hfree
  have hunused : ∀ jp, Usable Z mem jp → (mem.inode jp).inum ≠ i := by
    intro jp hjp heq
    exact hnotD jp (hlive jp hjp (by rw [heq]; exact htype0)) heq
  have haddrs : d.addrs = (ino i).addrs := by rw [h.free i htype0, hzero]
  have hs : SameData sb disk (Xv6.putInode sb disk i d) := SameData.putInode hsb hi
  have hholes : ∀ j, NoHoles (Xv6.putInode sb disk i d) (ino j) := fun j =>
    (h.holes j).congr fun hind => hs.data _ (h.own.indirect_range hind).1
  refine ⟨htype0, { h with
    own := (h.own.frame_iblock hsb hi).of_addrs haddrs
    fits := (forall_update_iff ino fun _ x => x.Fits).mpr ⟨hfits, fun j _ => h.fits j⟩
    free := (forall_update_iff ino fun _ x => x.type = 0 → x.addrs = fun _ => 0).mpr
      ⟨fun _ => hzero, fun j _ => h.free j⟩
    outside := ?_
    holes := (forall_update_iff ino fun _ x => NoHoles _ x).mpr
      ⟨noHoles_of_size_zero hsize, fun j _ => hholes j⟩
    cached := ?_
    behind := ?_
    stored := ?_ }⟩
  · intro j hj
    rw [update_of_ne (by omega)]
    exact h.outside j hj
  · intro jp hjp
    rw [update_of_ne (hunused jp hjp)]
    exact h.cached jp hjp
  · intro jp hjp
    rw [stored_putInode_of_ne (hnotD jp hjp)]
    exact h.behind jp hjp
  · intro j hj hD
    by_cases hji : j = i
    · rw [hji, stored_putInode_self hfits, update_self]
    · rw [stored_putInode_of_ne hji, update_of_ne hji]
      exact h.stored j hj hD

/-- A free inode is allocated as `ialloc` does it. -/
theorem tryAlloc (hi : i < sb.inodeCap) (hfree : (sb.stored disk i).type = 0)
    (hlive : ∀ ip, Usable Z mem ip → (ino (mem.inode ip).inum).type = 0 → ip ∈ D) {type : Int}
    (htype : IsShort type) :
    (ino i).type = 0 ∧
    FsInv sb X D Z (update ino i { Dinode.zero with type })
      (Xv6.putInode sb disk i { Dinode.zero with type }) mem := by
  have hz : IsShort 0 := by decide
  exact h.allocInode hsb hi hfree hlive
    ⟨htype, hz, hz, hz, by norm_num [Dinode.zero], fun _ => by norm_num [Dinode.zero]⟩ rfl rfl

end

theorem setInode_inode (mem : FsMem Addrs) (ip jp : Slot) (x : Inode Addrs) :
    (mem.setInode ip x).inode jp = if jp = ip then x else mem.inode jp := by
  by_cases hj : jp = ip
  · subst hj; simp [FsMem.setInode]
  · simp [FsMem.setInode, hj]

/-- An entry of the cache changes, and no inode. -/
theorem setEntry (h : FsInv sb X D Z ino disk mem) {x : Inode Addrs}
    (hdev : 0 < x.ref → x.dev = ROOTDEV)
    (huniq : 0 < x.ref → ∀ jp, jp ≠ ip → 0 < (mem.inode jp).ref → (mem.inode jp).inum ≠ x.inum)
    (hc : 0 < x.ref → x.valid = true → ip ∉ Z → x.inum < sb.inodeCap ∧ x.d = ino x.inum)
    (hD : ip ∈ D → 0 < x.ref ∧ x.valid = true ∧ x.inum = (mem.inode ip).inum) :
    FsInv sb X D Z ino disk (mem.setInode ip x) := by
  have hself : (mem.setInode ip x).inode ip = x := by rw [setInode_inode, if_pos rfl]
  have hother : ∀ jp, jp ≠ ip → (mem.setInode ip x).inode jp = mem.inode jp := fun jp hj => by
    rw [setInode_inode, if_neg hj]
  have hinum : ∀ jp ∈ D, ((mem.setInode ip x).inode jp).inum = (mem.inode jp).inum := by
    intro jp hjp
    by_cases hj : jp = ip
    · rw [hj, hself, (hD (hj ▸ hjp)).2.2]
    · rw [hother jp hj]
  refine { h with dev := ?_, uniq := ?_, cached := ?_, behind := ?_, stored := ?_ }
  · exact (forall_update_iff mem.inode fun _ y => 0 < y.ref → y.dev = ROOTDEV).mpr
      ⟨hdev, fun jp _ => h.dev jp⟩
  · intro jp kp
    by_cases hj : jp = ip <;> by_cases hk : kp = ip
    · exact fun _ _ _ => hj.trans hk.symm
    · rw [hj, hself, hother kp hk]
      exact fun hx hkp heq => absurd heq.symm (huniq hx kp hk hkp)
    · rw [hk, hself, hother jp hj]
      exact fun hjp hx heq => absurd heq (huniq hx jp hj hjp)
    · rw [hother jp hj, hother kp hk]
      exact h.uniq jp kp
  · rintro jp ⟨href, hvalid, hZ⟩
    by_cases hj : jp = ip
    · rw [hj, hself] at href hvalid ⊢
      exact hc href hvalid (hj ▸ hZ)
    · rw [hother jp hj] at href hvalid ⊢
      exact h.cached jp ⟨href, hvalid, hZ⟩
  · intro jp hjp
    obtain ⟨hu, htype⟩ := h.behind jp hjp
    rw [hinum jp hjp]
    refine ⟨?_, htype⟩
    by_cases hj : jp = ip
    · obtain ⟨href, hvalid, -⟩ := hD (hj ▸ hjp)
      refine ⟨?_, ?_, hu.right⟩ <;> rw [hj, hself] <;> assumption
    · refine ⟨?_, ?_, hu.right⟩ <;> rw [hother jp hj]
      · exact hu.ref
      · exact hu.valid
  · intro i hi hne
    refine h.stored i hi fun jp hjp => ?_
    rw [← hinum jp hjp]
    exact hne jp hjp

/-- What is on disk of an inode that is not valid in the cache is right. -/
theorem stored_of_invalid (h : FsInv sb X D Z ino disk mem) (href : 0 < (mem.inode ip).ref)
    (hvalid : (mem.inode ip).valid = false) (hcap : (mem.inode ip).inum < sb.inodeCap) :
    sb.stored disk (mem.inode ip).inum = ino (mem.inode ip).inum ∧ ip ∉ D := by
  have hD : ip ∉ D := by
    intro hip
    have := (h.behind ip hip).1.valid
    rw [hvalid] at this
    cases this
  refine ⟨h.stored _ hcap fun jp hjp heq => hD ?_, hD⟩
  exact h.uniq jp ip (h.behind jp hjp).1.ref href heq ▸ hjp

end FsInv

/-! ## The routines -/

section Routines

variable {strict : Prop} {InLog : Nat → Prop} {Ends : Halt → Prop} {p : Pid} {inOp : Bool}
  {Q : Unit → Store (FsMem Addrs) → Prop}

section

variable (hsb : sb.Ok) (h : FsInv sb X D Z ino disk mem)

include hsb h

theorem swp_iupdate (hip : Usable Z mem ip) (hw : Writing sb strict InLog inOp)
    (hQ : ∀ disk', FsInv sb X (D \ {ip}) Z ino disk' mem → SameData sb disk disk' →
      disk' = putInode sb disk (mem.inode ip).inum (mem.inode ip).d →
        Q () ⟨disk', ⟨inOp, []⟩, mem⟩) :
    swp (fsTheory strict InLog Ends) p (iupdate sb ip) Q ⟨disk, ⟨inOp, []⟩, mem⟩ := by
  have hcap := (h.cached ip hip).1
  refine swp_getInode (swp_bread (hsb.meta_uint (hsb.iblock_meta hcap)) (by simp) ?_)
  refine swp_writeBack (hw.allowed (Nat.le_add_left _ _)) (by simp) ?_
  exact hQ _ (h.putInode hsb hip) (SameData.putInode hsb hcap) rfl

theorem swp_load (href : 0 < (mem.inode ip).ref)
    (hvalid : (mem.inode ip).valid = false) (hcap : (mem.inode ip).inum < sb.inodeCap)
    (hQ : FsInv sb X D Z ino disk
        (mem.setInode ip { mem.inode ip with d := ino (mem.inode ip).inum, valid := true }) →
      Q () ⟨disk, ⟨inOp, []⟩,
        mem.setInode ip { mem.inode ip with d := ino (mem.inode ip).inum, valid := true }⟩) :
    swp (fsTheory strict InLog Ends) p (load sb ip) Q ⟨disk, ⟨inOp, []⟩, mem⟩ := by
  obtain ⟨hino, hD⟩ := h.stored_of_invalid href hvalid hcap
  refine swp_getInode (swp_bread (hsb.meta_uint (hsb.iblock_meta hcap)) (by simp)
    (swp_setDinode (swp_brelse (by simp) (swp_ext ?_))))
  rw [show readDinode (disk (sb.iblock (mem.inode ip).inum)) ((mem.inode ip).inum % IPB) =
    ino (mem.inode ip).inum from hino]
  have hmem : (mem.setDinode ip (ino (mem.inode ip).inum)).setInode ip
      { (mem.setDinode ip (ino (mem.inode ip).inum)).inode ip with valid := true } =
      mem.setInode ip { mem.inode ip with d := ino (mem.inode ip).inum, valid := true } := by
    simp [FsMem.setDinode, FsMem.setInode]
  change Q () ⟨disk, ⟨inOp, []⟩, (mem.setDinode ip (ino (mem.inode ip).inum)).setInode ip
    { (mem.setDinode ip (ino (mem.inode ip).inum)).inode ip with valid := true }⟩
  rw [hmem]
  refine hQ
    (h.setEntry (fun _ => h.dev ip href) ?_ (fun _ _ _ => ⟨hcap, rfl⟩) fun hip => absurd hip hD)
  intro _ jp hj hjref heq
  exact hj (h.uniq jp ip hjref href heq)

end

end Routines

end Xv6
