/-
  Blocks/Routines.lean --- the routines of `fs.c` on inodes, on blocks.

  `onBlocks` takes a routine to the blocks request by request, so its rules are those of the
  requests.
-/
import Xv6.Blocks.Inode
import Xv6.Blocks.Write

set_option autoImplicit false

namespace Xv6

open Foundation

variable {sb : Superblock} {X : Set Nat} {D Z : Set Slot} {ino : Nat → Dinode Addrs} {disk : Disk}
  {mem : FsMem Addrs} {ip : Slot} {α β : Type}
  {T : Theory (MemSig Addrs) (FsMem Addrs)} {p : Pid}

theorem swp_onBlocks_op {o : InodeOp Addrs} {k : (InodeSig Addrs).Resp o → IProg Addrs α}
    {Q : α → Store (FsMem Addrs) → Prop} {s : Store (FsMem Addrs)}
    (h : swp T p (blocks sb o) (fun r t => swp T p (onBlocks sb (k r)) Q t) s) :
    swp T p (onBlocks sb (.op o k)) Q s :=
  swp_bind h

theorem swp_onBlocks_bind {m : IProg Addrs α} {f : α → IProg Addrs β}
    {Q : β → Store (FsMem Addrs) → Prop}
    {s : Store (FsMem Addrs)}
    (h : swp T p (onBlocks sb m) (fun a t => swp T p (onBlocks sb (f a)) Q t) s) :
    swp T p (onBlocks sb (m >>= f)) Q s := by
  rw [onBlocks, Prog.interp_bind]
  exact swp_bind h

/-- A request to the memory. -/
theorem swp_onBlocks_mem {o : MemOp Addrs} {k : (MemSig Addrs).Resp o → IProg Addrs α}
    {Q : α → Store (FsMem Addrs) → Prop} {c : Client}
    (h : (T.xexec p o mem).Meets (fun r m => swp T p (onBlocks sb (k r)) Q ⟨disk, c, m⟩) T.Ends) :
    swp T p (onBlocks sb (.op (.mem o) k)) Q ⟨disk, c, mem⟩ :=
  swp_onBlocks_op (swp_ext h)

section Reads

variable {strict : Prop} {InLog : Nat → Prop} {Ends : Halt → Prop} {c : Client}
  {Q : α → Store (FsMem Addrs) → Prop}

theorem swp_onBlocks_getFile {f : FileId} {x : File} {k : File → IProg Addrs α}
    (hx : mem.file f = x)
    (h : swp (fsTheory strict InLog Ends) p (onBlocks sb (k x)) Q ⟨disk, c, mem⟩) :
    swp (fsTheory strict InLog Ends) p (onBlocks sb (.op (.mem (.getFile f)) k)) Q
      ⟨disk, c, mem⟩ := by
  subst hx
  exact swp_onBlocks_mem h

theorem swp_onBlocks_getInode {x : Inode Addrs} {k : Inode Addrs → IProg Addrs α}
    (hx : mem.inode ip = x)
    (h : swp (fsTheory strict InLog Ends) p (onBlocks sb (k x)) Q ⟨disk, c, mem⟩) :
    swp (fsTheory strict InLog Ends) p (onBlocks sb (.op (.mem (.getInode ip)) k)) Q
      ⟨disk, c, mem⟩ := by
  subst hx
  exact swp_onBlocks_mem h

end Reads

/-! ## Locks -/

/-- The sleep lock of an inode is taken, or let go of. -/
def FsMem.setLock (mem : FsMem Addrs) (ip : Slot) (lock : Option Pid) : FsMem Addrs :=
  mem.setInode ip { mem.inode ip with lock }

theorem setLock_inode (mem : FsMem Addrs) (ip jp : Slot) (lock : Option Pid) :
    (mem.setLock ip lock).inode jp = if jp = ip then { mem.inode ip with lock } else mem.inode jp :=
  FsInv.setInode_inode mem ip jp _

/-- Locks are no part of the invariant. -/
theorem FsInv.setLock (h : FsInv sb X D Z ino disk mem) (lock : Option Pid) :
    FsInv sb X D Z ino disk (mem.setLock ip lock) := by
  refine h.setEntry (h.dev ip) ?_
    (fun href hvalid hZ => h.cached ip ⟨href, hvalid, hZ⟩) fun hip => ?_
  · intro href jp hj hjref heq
    exact hj (h.uniq jp ip hjref href heq)
  · exact ⟨(h.behind ip hip).1.ref, (h.behind ip hip).1.valid, rfl⟩

/-- Only the inode cache is part of the invariant. -/
theorem FsInv.congr_inode {mem' : FsMem Addrs} (h : FsInv sb X D Z ino disk mem)
    (hmem : mem'.inode = mem.inode) :
    FsInv sb X D Z ino disk mem' := by
  have husable : ∀ jp, Usable Z mem' jp ↔ Usable Z mem jp := by
    intro jp
    constructor <;> rintro ⟨href, hvalid, hZ⟩
    · exact ⟨hmem ▸ href, hmem ▸ hvalid, hZ⟩
    · exact ⟨hmem.symm ▸ href, hmem.symm ▸ hvalid, hZ⟩
  refine { h with dev := ?_, uniq := ?_, cached := ?_, behind := ?_, stored := ?_ }
  · rw [hmem]
    exact h.dev
  · rw [hmem]
    exact h.uniq
  · intro jp hjp
    rw [hmem]
    exact h.cached jp ((husable jp).mp hjp)
  · intro jp hjp
    rw [husable, hmem]
    exact h.behind jp hjp
  · rw [hmem]
    exact h.stored

/-- The entry has an allocated inode, whether it was read from disk or not. -/
structure Known (sb : Superblock) (ino : Nat → Dinode Addrs) (mem : FsMem Addrs) (ip : Slot) :
    Prop where
  ref : 0 < (mem.inode ip).ref
  cap : (mem.inode ip).inum < sb.inodeCap
  type : (ino (mem.inode ip).inum).type ≠ 0

/-- `ilock`, when the lock is free. -/
theorem swp_ilock {strict : Prop} {InLog : Nat → Prop} {Ends : Halt → Prop}
    {inOp : Bool} (hsb : sb.Ok)
    (h : FsInv sb X D ∅ ino disk mem) (hip : Known sb ino mem ip)
    (hlock : (mem.inode ip).lock = none) {Q : Unit → Store (FsMem Addrs) → Prop}
    (hQ : ∀ mem', FsInv sb X D ∅ ino disk mem' → mem' = mem.setInode ip
        { mem.inode ip with lock := some p, valid := true, d := ino (mem.inode ip).inum } →
      Q () ⟨disk, ⟨inOp, []⟩, mem'⟩) :
    swp (fsTheory strict InLog Ends) p (onBlocks sb (ilock ip)) Q ⟨disk, ⟨inOp, []⟩, mem⟩ := by
  have hlocked : FsInv sb X D ∅ ino disk (mem.setLock ip (some p)) := h.setLock (some p)
  have hself : (mem.setLock ip (some p)).inode ip = { mem.inode ip with lock := some p } := by
    rw [setLock_inode, if_pos rfl]
  refine swp_onBlocks_mem ?_
  have hx : (fsTheory strict InLog Ends).xexec p (.acquire ip) mem =
      .ret () (mem.setLock ip (some p)) := by
    have href := hip.ref
    simp only [fsTheory, mexec]
    rw [if_neg (by omega), if_pos hlock]
    rfl
  rw [hx]
  refine swp_onBlocks_getInode hself ?_
  by_cases hvalid : (mem.inode ip).valid = true
  · rw [if_pos hvalid]
    refine hQ _ hlocked ?_
    have hd := (h.cached ip ⟨hip.ref, hvalid, Set.notMem_empty _⟩).2
    rw [FsMem.setLock, ← hd, ← hvalid]
  · rw [if_neg hvalid]
    have hinvalid : ((mem.setLock ip (some p)).inode ip).valid = false := by
      rw [hself]
      exact Bool.not_eq_true _ ▸ hvalid
    refine swp_onBlocks_op (swp_load hsb hlocked (by rw [hself]; exact hip.ref) hinvalid
      (by rw [hself]; exact hip.cap) fun hinv => ?_)
    have hmem : (mem.setLock ip (some p)).setInode ip { (mem.setLock ip (some p)).inode ip with
          d := ino ((mem.setLock ip (some p)).inode ip).inum, valid := true } =
        mem.setInode ip
          { mem.inode ip with lock := some p, valid := true, d := ino (mem.inode ip).inum } := by
      rw [hself]
      simp [FsMem.setLock, FsMem.setInode]
    rw [hmem] at hinv ⊢
    refine swp_onBlocks_getInode (by rw [FsInv.setInode_inode, if_pos rfl]) ?_
    rw [if_neg hip.type]
    exact hQ _ hinv rfl

end Xv6
