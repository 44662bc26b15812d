/-
  Blocks/Filewrite.lean --- `filewrite` on a file that no other process works on.

  `filewrite` cuts the buffer into chunks, each written in a transaction of its own.  `writei`
  returns the length of the chunk even when it could not copy it from user memory, and `filewrite`
  believes it.
-/
import Xv6.Blocks.Files
import Xv6.Blocks.Routines

set_option autoImplicit false

namespace Xv6

open Function List Foundation

variable {sb : Superblock} {ino : Nat → Dinode Addrs} {disk : Disk} {mem : FsMem Addrs} {f : FileId}
  {um : UserMem} {addr i m n : Nat}

/-! ## One chunk -/

/-- One round of the loop of `filewrite`, with `i` bytes written: `m` more in one transaction. -/
def writeChunk {A : Type} (f : FileId) (um : UserMem) (addr i m : Nat) : IProg A Int :=
  .op .beginOp fun _ =>
  .op (.mem (.getFile f)) fun (x : File) =>
  ilock x.ip >>= fun _ =>
  .op (.mem (.getFile f)) fun (x : File) =>
  .op (.writei x.ip um ((addr + i) % 2 ^ 64) x.off m) fun (r : Int) =>
  (if 0 < r then .op (.mem (.setOff f ((x.off + r.toNat) % 2 ^ 32))) .pure
    else .pure ()) >>= fun _ =>
  iunlock x.ip >>= fun _ =>
  .op .endOp fun _ => .pure r

theorem filewriteLoop_succ {A : Type} (fuel : Nat) :
    (filewriteLoop f um addr n (fuel + 1) i : IProg A Int) = if i < n then
        writeChunk f um addr i (min (n - i) MAXWRITE) >>= fun r =>
        if r < 0 then .pure (-1)
        else if r ≠ (min (n - i) MAXWRITE : Nat) then panic "short filewrite"
        else filewriteLoop f um addr n fuel (i + r.toNat)
      else .pure (if i = n then n else -1) := by
  rw [filewriteLoop]
  split
  · rw [writeChunk]
    simp only [Prog.op_bind, Prog.bind_assoc, Prog.pure_bind]
  · rfl

/-- A chunk has been written: the inode was read or written, and `f->off` has moved. -/
def FsMem.chunk (mem : FsMem Addrs) (f : FileId) (d : Dinode Addrs) (off : Nat) : FsMem Addrs :=
  (mem.setInode (mem.file f).ip { mem.inode (mem.file f).ip with valid := true, d }).setFile f
    { mem.file f with off }

/-- The file is open, and no process works on it. -/
structure Idle (sb : Superblock) (ino : Nat → Dinode Addrs) (disk : Disk) (mem : FsMem Addrs)
    (f : FileId) :
    Prop where
  inv : FsInv sb ∅ ∅ ∅ ino disk mem
  known : Known sb ino mem (mem.file f).ip
  lock : (mem.inode (mem.file f).ip).lock = none

/-- The number of the inode of a file. -/
def FsMem.inumOf (mem : FsMem Addrs) (f : FileId) : Nat := (mem.inode (mem.file f).ip).inum

theorem chunk_file (f : FileId) (d : Dinode Addrs) (off : Nat) :
    (mem.chunk f d off).file f = { mem.file f with off } := by
  simp [FsMem.chunk, FsMem.setFile]

theorem chunk_inode (f : FileId) (d : Dinode Addrs) (off : Nat) :
    (mem.chunk f d off).inode (mem.file f).ip =
      { mem.inode (mem.file f).ip with valid := true, d } := by
  simp [FsMem.chunk, FsMem.setFile, FsMem.setInode]

section Routines

variable {Ends : Halt → Prop} {p : Pid}

/-- The state after a chunk is as before it, but for what was written. -/
theorem Idle.chunk {d' : Dinode Addrs} {disk' : Disk} {off : Nat} (h : Idle sb ino disk mem f)
    (hinv : FsInv sb ∅ ∅ ∅ (update ino (mem.inumOf f) d') disk' (mem.chunk f d' off))
    (htype : d'.type ≠ 0) :
    Idle sb (update ino (mem.inumOf f) d') disk' (mem.chunk f d' off) f := by
  refine ⟨hinv, ?_, ?_⟩ <;> rw [chunk_file]
  · refine ⟨?_, ?_, ?_⟩ <;> dsimp only <;> rw [chunk_inode]
    · exact h.known.ref
    · exact h.known.cap
    · change (update ino (mem.inumOf f) d' (mem.inumOf f)).type ≠ 0
      rw [update_self]
      exact htype
  · dsimp only
    rw [chunk_inode]
    exact h.lock

/-- The end of a chunk: unlock the inode, and end the transaction. -/
theorem swp_unlock {α : Type} {ip : Slot} {r : α} {Q : α → Store (FsMem Addrs) → Prop}
    (hlock : (mem.inode ip).lock = some p) (href : 0 < (mem.inode ip).ref)
    (hQ : Q r ⟨disk, ⟨false, []⟩, mem.setLock ip none⟩) :
    swp (fsTheory False (fun _ => False) Ends) p
      (onBlocks sb (iunlock ip >>= fun _ => .op .endOp fun _ => .pure r)) Q
      ⟨disk, ⟨true, []⟩, mem⟩ := by
  refine swp_onBlocks_mem ?_
  have hrelease : (fsTheory False (fun _ => False) Ends).xexec p (.release ip) mem =
      .ret () (mem.setLock ip none) := by
    simp only [fsTheory, mexec]
    rw [if_pos ⟨hlock, by omega⟩]
    rfl
  rw [hrelease]
  exact swp_onBlocks_op (swp_endOp (fun hs => hs.elim) (by simp) hQ)

theorem setFile_self (mem : FsMem Addrs) (f : FileId) : mem.setFile f (mem.file f) = mem := by
  rw [FsMem.setFile, update_eq_self]

theorem setLock_none_eq {ip : Slot} {d : Dinode Addrs} (hlock : (mem.inode ip).lock = none) :
    (mem.setInode ip { mem.inode ip with lock := some p, valid := true, d }).setLock ip none =
      mem.setInode ip { mem.inode ip with valid := true, d } := by
  simp [FsMem.setLock, FsMem.setInode, hlock]

/-- What one chunk does: `writei` refuses it, or stores what it can and reports all of it. -/
theorem swp_writeChunk (hsb : sb.Ok) (h : Idle sb ino disk mem f) (hm : 0 < m) (hmax : m < 2 ^ 32)
    (hend : Ends outOfBlocks) {Q : Int → Store (FsMem Addrs) → Prop}
    (hbad : ¬ Writable (ino (mem.inumOf f)).size (mem.file f).off m →
      Idle sb ino disk (mem.chunk f (ino (mem.inumOf f)) (mem.file f).off) f →
      Q (-1) ⟨disk, ⟨false, []⟩, mem.chunk f (ino (mem.inumOf f)) (mem.file f).off⟩)
    (hok : Writable (ino (mem.inumOf f)).size (mem.file f).off m → ∀ off' w d' disk',
      Idle sb (update ino (mem.inumOf f) d') disk' (mem.chunk f d' ((mem.file f).off + m)) f →
      Wrote ino disk (mem.inumOf f) (.user um ((addr + i) % 2 ^ 64))
        (mem.file f).off m off' w d' disk' →
      Q m ⟨disk', ⟨false, []⟩, mem.chunk f d' ((mem.file f).off + m)⟩) :
    swp (fsTheory False (fun _ => False) Ends) p (onBlocks sb (writeChunk f um addr i m)) Q
      ⟨disk, ⟨false, []⟩, mem⟩ := by
  set ip := (mem.file f).ip with hip
  set off := (mem.file f).off with hoff
  have hinum : mem.inumOf f = (mem.inode ip).inum := rfl
  refine swp_onBlocks_op (swp_beginOp (fun hs => hs.elim) ?_)
  refine swp_onBlocks_getFile rfl (swp_onBlocks_bind (swp_ilock hsb h.inv h.known h.lock ?_))
  rintro _ hinv₁ rfl
  obtain ⟨mem₁, hmem₁⟩ : ∃ mem₁, mem₁ = mem.setInode ip
      { mem.inode ip with lock := some p, valid := true, d := ino (mem.inode ip).inum } := ⟨_, rfl⟩
  rw [← hmem₁] at hinv₁ ⊢
  have hself : mem₁.inode ip =
      { mem.inode ip with lock := some p, valid := true, d := ino (mem.inode ip).inum } := by
    rw [hmem₁, FsInv.setInode_inode, if_pos rfl]
  have hfile : mem₁.file f = mem.file f := by rw [hmem₁]; rfl
  have hinum₁ : (mem₁.inode ip).inum = (mem.inode ip).inum := by rw [hself]
  have husable : Usable ∅ mem₁ ip := by
    refine ⟨?_, ?_, Set.notMem_empty _⟩ <;> rw [hself]
    exact h.known.ref
  refine swp_onBlocks_getFile hfile ?_
  have hfits : Src.Fits (.user um ((addr + i) % 2 ^ 64)) m := trivial
  refine swp_onBlocks_op
    (swp_writei hsb hinv₁ husable (by rw [hinum₁]; exact h.known.type) (writing_free true)
    hfits (fun hs => hs.elim) hmax (Or.inl hend) ?_ (fun h0 => absurd h0 (by omega)) ?_)
  · intro hno
    rw [hinum₁] at hno
    refine swp_unlock (by rw [hself]) husable.ref ?_
    have hmem : mem₁.setLock ip none = mem.chunk f (ino (mem.inumOf f)) off := by
      rw [hmem₁, setLock_none_eq h.lock, FsMem.chunk, ← hip, hoff, hinum]
      exact (setFile_self _ f).symm
    have hinv : FsInv sb ∅ ∅ ∅ (update ino (mem.inumOf f) (ino (mem.inumOf f))) disk
        (mem.chunk f (ino (mem.inumOf f)) off) := by
      rw [update_eq_self, ← hmem]
      exact hinv₁.setLock none
    have hidle := h.chunk hinv h.known.type
    rw [update_eq_self] at hidle
    rw [hmem]
    exact hbad hno hidle
  · intro _ hwritable off' w d' disk' hinv' hwrote
    rw [hinum₁] at hwritable hinv' hwrote
    rw [show (∅ : Set Slot) \ {ip} = ∅ by simp] at hinv'
    have hMAX : MAXFILE * BSIZE < 2 ^ 32 := by decide
    have hmod : (off + (m : Int).toNat) % 2 ^ 32 = off + m := by
      have := hwritable.2
      rw [Int.toNat_natCast]
      omega
    have hlock : (mem.inode ip).lock = none := h.lock
    have hmem :
      ((mem₁.setDinode ip d').setFile f { mem.file f with off := off + m }).setLock ip none =
        mem.chunk f d' (off + m) := by
      rw [hmem₁]
      simp [FsMem.chunk, FsMem.setFile, FsMem.setLock, FsMem.setDinode,
        FsMem.setInode, hlock, ← hip]
    have hinode : ((mem₁.setDinode ip d').setFile f { mem.file f with off := off + m }).inode ip =
        { mem₁.inode ip with d := d' } := by
      change (mem₁.setDinode ip d').inode ip = _
      rw [FsInv.setDinode_inode, if_pos rfl]
    rw [if_pos (show (0 : Int) < m by omega)]
    refine swp_onBlocks_mem ?_
    change swp _ _ (onBlocks sb (iunlock ip >>= _)) _ ⟨disk', ⟨true, []⟩,
      (mem₁.setDinode ip d').setFile f { mem₁.file f with off := (off + (m : Int).toNat) % 2 ^ 32 }⟩
    rw [hmod, hfile]
    refine swp_unlock ?_ ?_ ?_
    · rw [hinode, hself]
    · rw [hinode, hself]
      exact h.known.ref
    · rw [hmem]
      refine hok hwritable off' w d' disk' (h.chunk ?_ ?_) hwrote
      · rw [← hmem]
        refine FsInv.setLock (hinv'.congr_inode ?_) none
        rfl
      · rw [hwrote.same]
        exact h.known.type

end Routines

/-! ## The whole call -/

/-- How many bytes `writei` is given to write, if no copy fails: the chunks until the largest file
would be exceeded. -/
def attemptedFrom (off n : Nat) : Nat → Nat → Nat
  | 0, i => i
  | fuel + 1, i =>
      if i < n ∧ off + i + min (n - i) MAXWRITE ≤ MAXFILE * BSIZE then
        attemptedFrom off n fuel (i + min (n - i) MAXWRITE)
      else i

def attempted (size off n : Nat) : Nat := if off ≤ size then attemptedFrom off n n 0 else 0

/-- The user buffer has a byte at each of the addresses. -/
def UserMem.Mapped (um : UserMem) (addr lo hi : Nat) : Prop :=
  ∀ j, lo ≤ j → j < hi → (um.byte ((addr + j) % 2 ^ 64)).isSome = true

/-- The contents of an inode, as it is on disk. -/
def Superblock.file (sb : Superblock) (disk : Disk) (i : Nat) : List UInt8 :=
  fileBytes disk (sb.stored disk i)

/-- The first `k` bytes of the user buffer are in the file from `off` on. -/
def Received (um : UserMem) (addr off k : Nat) (l : List UInt8) : Prop :=
  ∀ j, j < k → ∃ v, um.byte ((addr + j) % 2 ^ 64) = some v ∧ l[off + j]? = some v

/-- What `filewrite` returns is what it has done. -/
structure Reports (sb : Superblock) (f : FileId) (um : UserMem) (addr n : Nat)
    (s t : Store (FsMem Addrs)) (r : Int) : Prop where
  all : r = n →
    Received um addr (s.mem.file f).off n (sb.file t.disk (s.mem.inumOf f)) ∧
    (t.mem.file f).off = (s.mem.file f).off + n
  some : r = -1 → ∃ k, k < n ∧
    Received um addr (s.mem.file f).off k (sb.file t.disk (s.mem.inumOf f)) ∧
    (t.mem.file f).off = (s.mem.file f).off + k ∧
    (∀ o, ¬ ((s.mem.file f).off ≤ o ∧ o < (s.mem.file f).off + k) →
      (sb.file t.disk (s.mem.inumOf f))[o]? = (sb.file s.disk (s.mem.inumOf f))[o]?) ∧
    ∀ i, i < sb.inodeCap → i ≠ s.mem.inumOf f → sb.file t.disk i = sb.file s.disk i
  within : (s.mem.file f).off ≤ (sb.file s.disk (s.mem.inumOf f)).length →
    (t.mem.file f).off ≤ (sb.file t.disk (s.mem.inumOf f)).length

/-- `i` bytes have been written, all of them. -/
structure Progress (sb : Superblock) (ino₀ : Nat → Dinode Addrs) (disk₀ : Disk) (mem₀ : FsMem Addrs)
    (f : FileId) (um : UserMem) (addr i : Nat) (ino : Nat → Dinode Addrs) (disk : Disk)
    (mem : FsMem Addrs) :
    Prop where
  idle : Idle sb ino disk mem f
  inum : mem.inumOf f = mem₀.inumOf f
  off : (mem.file f).off = (mem₀.file f).off + i
  start : i = 0 ∨ (mem₀.file f).off ≤ (ino₀ (mem₀.inumOf f)).size
  written : ∃ w : List UInt8, w.length = i ∧
    (∀ j, j < i → um.byte ((addr + j) % 2 ^ 64) = some (w.getD j 0)) ∧
    fileBytes disk (ino (mem₀.inumOf f)) =
      overwrite (fileBytes disk₀ (ino₀ (mem₀.inumOf f))) (mem₀.file f).off w
  others : ∀ j, j ≠ mem₀.inumOf f → fileBytes disk (ino j) = fileBytes disk₀ (ino₀ j)

section Call

variable {ino₀ : Nat → Dinode Addrs} {disk₀ : Disk} {mem₀ : FsMem Addrs}

theorem Progress.refl (h : Idle sb ino disk mem f) :
    Progress sb ino disk mem f um addr 0 ino disk mem where
  idle := h
  inum := rfl
  off := rfl
  start := Or.inl rfl
  written := ⟨[], rfl, fun j hj => absurd hj (Nat.not_lt_zero j), by simp [overwrite]⟩
  others _ _ := rfl

/-- A chunk that `writei` refuses. -/
theorem Progress.refused (h : Progress sb ino₀ disk₀ mem₀ f um addr i ino disk mem)
    (hidle : Idle sb ino disk (mem.chunk f (ino (mem.inumOf f)) (mem.file f).off) f) :
    Progress sb ino₀ disk₀ mem₀ f um addr i ino disk
      (mem.chunk f (ino (mem.inumOf f)) (mem.file f).off) where
  idle := hidle
  inum := by
    rw [FsMem.inumOf, chunk_file, chunk_inode]
    exact h.inum
  off := by
    rw [chunk_file]
    exact h.off
  start := h.start
  written := h.written
  others := h.others

/-- Another chunk, all of which was copied. -/
theorem Progress.step {d' : Dinode Addrs} {disk' : Disk} {off' : Nat} {w : List UInt8}
    (h : Progress sb ino₀ disk₀ mem₀ f um addr i ino disk mem)
    (hidle : Idle sb (update ino (mem.inumOf f) d') disk' (mem.chunk f d' ((mem.file f).off + m)) f)
    (hwritable : Writable (ino (mem.inumOf f)).size (mem.file f).off m)
    (hwrote : Wrote ino disk (mem.inumOf f) (.user um ((addr + i) % 2 ^ 64))
      (mem.file f).off m off' w d' disk') (hok : Src.Ok (.user um ((addr + i) % 2 ^ 64)) m) :
    Progress sb ino₀ disk₀ mem₀ f um addr (i + m) (update ino (mem.inumOf f) d') disk'
      (mem.chunk f d' ((mem.file f).off + m)) := by
  obtain ⟨w₀, hlen₀, hsrc₀, hbytes₀⟩ := h.written
  obtain ⟨-, rfl⟩ := hwrote.data hok
  have hlen := (hwrote.all hok).2
  have hsize := hwritable.1
  rw [h.inum, ← length_fileBytes, hbytes₀, h.off] at hsize
  have hstart : (mem₀.file f).off ≤ (ino₀ (mem₀.inumOf f)).size := by
    rcases h.start with rfl | hle
    · rw [length_eq_zero_iff.mp hlen₀, overwrite, append_nil, length_nil, Nat.add_zero,
        take_append_drop, length_fileBytes] at hsize
      exact hsize
    · exact hle
  have hstart' : (mem₀.file f).off ≤ (fileBytes disk₀ (ino₀ (mem₀.inumOf f))).length := by
    rw [length_fileBytes]
    exact hstart
  refine ⟨hidle, ?_, ?_, Or.inr hstart, ⟨w₀ ++ w, by rw [length_append]; omega, ?_, ?_⟩, ?_⟩
  · rw [FsMem.inumOf, chunk_file, chunk_inode]
    exact h.inum
  · rw [chunk_file, h.off, Nat.add_assoc]
  · intro j hj
    by_cases hlt : j < w₀.length
    · rw [getD_append _ _ _ _ hlt]
      exact hsrc₀ j (by omega)
    · have hbyte := hwrote.source (j - i) (by omega)
      have haddr : ((addr + i) % 2 ^ 64 + (j - i)) % 2 ^ 64 = (addr + j) % 2 ^ 64 := by omega
      rw [getD_append_right _ _ _ _ (by omega), hlen₀, ← hbyte, Src.byte, haddr]
  · rw [← h.inum, update_self, hwrote.fileBytes_self hwritable.1, h.inum, hbytes₀, h.off, ← hlen₀]
    exact overwrite_append hstart'
  · intro j hj
    rw [← h.inum] at hj
    rw [update_of_ne hj, hwrote.fileBytes_other hj]
    exact h.others j (by rw [← h.inum]; exact hj)

theorem le_attemptedFrom (off n : Nat) : ∀ fuel i, i ≤ attemptedFrom off n fuel i := by
  intro fuel
  induction fuel with
  | zero => exact fun i => le_rfl
  | succ fuel ih =>
    intro i
    rw [attemptedFrom]
    split
    · exact le_trans (Nat.le_add_right _ _) (ih _)
    · exact le_rfl

/-- With no process at work, the disk has the inodes as they are. -/
theorem Idle.file_eq (h : Idle sb ino disk mem f) {j : Nat} (hj : j < sb.inodeCap) :
    sb.file disk j = fileBytes disk (ino j) := by
  rw [Superblock.file, h.inv.stored j hj fun jp hjp => absurd hjp (Set.notMem_empty _)]

theorem Progress.size (h : Progress sb ino₀ disk₀ mem₀ f um addr i ino disk mem)
    (hoff : (mem₀.file f).off ≤ (ino₀ (mem₀.inumOf f)).size) :
    (ino (mem₀.inumOf f)).size = max (ino₀ (mem₀.inumOf f)).size ((mem₀.file f).off + i) := by
  obtain ⟨w, hlen, -, hbytes⟩ := h.written
  have := congrArg List.length hbytes
  rw [length_overwrite (by rw [length_fileBytes]; exact hoff), length_fileBytes,
    length_fileBytes, hlen] at this
  exact this

variable {Ends : Halt → Prop} {p : Pid} {off₀ : Nat}

theorem chunk_bounds (hi : i < n) : 0 < min (n - i) MAXWRITE ∧ min (n - i) MAXWRITE < 2 ^ 32 := by
  have hpos : 0 < MAXWRITE := by decide
  have hlt : MAXWRITE < 2 ^ 32 := by decide
  omega

/-- Whatever happens to the copies, `f->off` moves by what is reported. -/
theorem swp_filewriteLoop_off (hsb : sb.Ok) (hend : Ends outOfBlocks) :
    ∀ (fuel i : Nat) {ino : Nat → Dinode Addrs} {disk : Disk} {mem : FsMem Addrs},
      Idle sb ino disk mem f → n - i ≤ fuel → i ≤ n → (mem.file f).off = off₀ + i →
      swp (fsTheory False (fun _ => False) Ends) p (onBlocks sb (filewriteLoop f um addr n fuel i))
        (fun r t => (r = n ∧ (t.mem.file f).off = off₀ + n) ∨
          r = -1 ∧ ∃ k, i ≤ k ∧ k < n ∧ (t.mem.file f).off = off₀ + k)
            ⟨disk, ⟨false, []⟩, mem⟩ := by
  intro fuel
  induction fuel with
  | zero =>
    intro i ino disk mem _ hfuel hin hoff
    obtain rfl : i = n := by omega
    rw [filewriteLoop, if_pos rfl]
    exact Or.inl ⟨rfl, hoff⟩
  | succ fuel ih =>
    intro i ino disk mem h hfuel hin hoff
    rw [filewriteLoop_succ]
    by_cases hlt : i < n
    · rw [if_pos hlt]
      obtain ⟨hpos, hmax⟩ := chunk_bounds hlt
      set m := min (n - i) MAXWRITE with hm
      refine swp_onBlocks_bind (swp_writeChunk hsb h hpos hmax hend ?_ ?_)
      · intro _ _
        rw [if_pos (by norm_num)]
        refine Or.inr ⟨rfl, i, le_rfl, hlt, ?_⟩
        rw [chunk_file]
        exact hoff
      · intro _ off' w d' disk' hidle _
        rw [if_neg (by omega), if_neg (by simp), Int.toNat_natCast]
        refine swp_mono (ih (i + m) hidle (by omega) (by omega) ?_) ?_
        · rw [chunk_file, hoff, Nat.add_assoc]
        · rintro r t (hall | ⟨hr, k, hk, hkn, ht⟩)
          · exact Or.inl hall
          · exact Or.inr ⟨hr, k, by omega, hkn, ht⟩
    · obtain rfl : i = n := by omega
      rw [if_neg hlt, if_pos rfl]
      exact Or.inl ⟨rfl, hoff⟩

/-- Either all bytes that were to be copied are mapped, and what is reported has been written; or
one is not, and `f->off` has moved past it. -/
theorem swp_filewriteLoop (hsb : sb.Ok) (hend : Ends outOfBlocks)
    (hoff₀ : (mem₀.file f).off ≤ (ino₀ (mem₀.inumOf f)).size) :
    ∀ (fuel i : Nat) {ino : Nat → Dinode Addrs} {disk : Disk} {mem : FsMem Addrs},
      Progress sb ino₀ disk₀ mem₀ f um addr i ino disk mem → n - i ≤ fuel → i ≤ n →
      swp (fsTheory False (fun _ => False) Ends) p (onBlocks sb (filewriteLoop f um addr n fuel i))
        (fun r t => (um.Mapped addr i (attemptedFrom (mem₀.file f).off n fuel i) ∧
            ∃ k ino', Progress sb ino₀ disk₀ mem₀ f um addr k ino' t.disk t.mem ∧
              (r = n ∧ k = n ∨ r = -1 ∧ k < n)) ∨
          ∃ j, um.byte ((addr + j) % 2 ^ 64) = none ∧ i ≤ j ∧
            j < attemptedFrom (mem₀.file f).off n fuel i ∧
            ((r = n ∧ j < n) ∨ r = -1 ∧ ∃ k, j < k ∧ k < n ∧
              (t.mem.file f).off = (mem₀.file f).off + k))
        ⟨disk, ⟨false, []⟩, mem⟩ := by
  intro fuel
  induction fuel with
  | zero =>
    intro i ino disk mem h hfuel hin
    obtain rfl : i = n := by omega
    rw [filewriteLoop, if_pos rfl]
    exact Or.inl
      ⟨fun j hlo hhi => absurd hhi (by rw [attemptedFrom]; omega), i, ino, h, Or.inl ⟨rfl, rfl⟩⟩
  | succ fuel ih =>
    intro i ino disk mem h hfuel hin
    rw [filewriteLoop_succ]
    by_cases hlt : i < n
    · rw [if_pos hlt, attemptedFrom]
      obtain ⟨hpos, hmax⟩ := chunk_bounds hlt
      set m := min (n - i) MAXWRITE with hm
      have hwritable : Writable (ino (mem.inumOf f)).size (mem.file f).off m ↔
          (mem₀.file f).off + i + m ≤ MAXFILE * BSIZE := by
        rw [Writable, h.inum, h.size hoff₀, h.off]
        omega
      refine swp_onBlocks_bind (swp_writeChunk hsb h.idle hpos hmax hend ?_ ?_)
      · intro hno hidle
        rw [hwritable] at hno
        rw [if_pos (by norm_num), if_neg fun hc => hno hc.2]
        exact Or.inl
          ⟨fun j hlo hhi => absurd hhi (by omega), i, ino, h.refused hidle, Or.inr ⟨rfl, hlt⟩⟩
      · intro hyes off' w d' disk' hidle hwrote
        have hatt : (if i < n ∧ (mem₀.file f).off + i + m ≤ MAXFILE * BSIZE then
            attemptedFrom (mem₀.file f).off n fuel (i + m) else i) =
            attemptedFrom (mem₀.file f).off n fuel (i + m) := if_pos ⟨hlt, hwritable.mp hyes⟩
        have hle := le_attemptedFrom (mem₀.file f).off n fuel (i + m)
        rw [hatt, if_neg (by omega), if_neg (by simp), Int.toNat_natCast]
        by_cases hsrc : Src.Ok (.user um ((addr + i) % 2 ^ 64)) m
        · refine swp_mono (ih (i + m) (h.step hidle hyes hwrote hsrc) (by omega) (by omega)) ?_
          rintro r t (⟨hmapped, hdone⟩ | ⟨j, hnone, hlo, hhi, hrest⟩)
          · refine Or.inl ⟨fun j hlo hhi => ?_, hdone⟩
            by_cases hj : i + m ≤ j
            · exact hmapped j hj hhi
            · have hbyte := Src.ok_user_iff.mp hsrc (j - i) (by omega)
              rwa [show ((addr + i) % 2 ^ 64 + (j - i)) % 2 ^ 64 =
                (addr + j) % 2 ^ 64 by omega] at hbyte
          · exact Or.inr ⟨j, hnone, by omega, hhi, hrest⟩
        · obtain ⟨j, hj, hnone⟩ : ∃ j, j < m ∧
            um.byte (((addr + i) % 2 ^ 64 + j) % 2 ^ 64) = none := by
            rw [Src.ok_user_iff] at hsrc
            by_contra hall
            refine hsrc fun j hj => ?_
            by_contra hbyte
            exact hall ⟨j, hj, by simpa using hbyte⟩
          rw [show ((addr + i) % 2 ^ 64 + j) % 2 ^ 64 = (addr + (i + j)) % 2 ^ 64 by omega] at hnone
          have hmoved : ((mem.chunk f d' ((mem.file f).off + m)).file f).off =
              (mem₀.file f).off + (i + m) := by
            rw [chunk_file, h.off, Nat.add_assoc]
          refine swp_mono
            (swp_filewriteLoop_off hsb hend fuel (i + m) hidle (by omega) (by omega) hmoved) ?_
          rintro r t (⟨hr, -⟩ | ⟨hr, k, hk, hkn, ht⟩)
          · exact Or.inr ⟨i + j, hnone, by omega, by omega, Or.inl ⟨hr, by omega⟩⟩
          · exact Or.inr ⟨i + j, hnone, by omega, by omega, Or.inr ⟨hr, k, by omega, hkn, ht⟩⟩
    · obtain rfl : i = n := by omega
      rw [if_neg hlt, if_pos rfl]
      refine Or.inl ⟨fun j hlo hhi => absurd hhi ?_, i, ino, h, Or.inl ⟨rfl, rfl⟩⟩
      rw [attemptedFrom, if_neg fun hc => hlt hc.1]
      omega

/-- The call when something can be written. -/
theorem Progress.reports {s t : Store (FsMem Addrs)} {k : Nat} {ino' : Nat → Dinode Addrs} {r : Int}
    (h₀ : Idle sb ino s.disk s.mem f)
    (h : Progress sb ino s.disk s.mem f um addr k ino' t.disk t.mem)
    (hr : r = n ∧ k = n ∨ r = -1 ∧ k < n) :
    Reports sb f um addr n s t r := by
  have hcap : s.mem.inumOf f < sb.inodeCap := h₀.known.cap
  obtain ⟨w, hlen, hsrc, hbytes⟩ := h.written
  have hfile : sb.file t.disk (s.mem.inumOf f) =
      overwrite (sb.file s.disk (s.mem.inumOf f)) (s.mem.file f).off w := by
    rw [h.idle.file_eq hcap, h₀.file_eq hcap, hbytes]
  have hlen₀ : (sb.file s.disk (s.mem.inumOf f)).length = (ino (s.mem.inumOf f)).size := by
    rw [h₀.file_eq hcap, length_fileBytes]
  have hget : ∀ o, (sb.file t.disk (s.mem.inumOf f))[o]? =
      if (s.mem.file f).off ≤ o ∧ o < (s.mem.file f).off + k then w[o - (s.mem.file f).off]?
      else (sb.file s.disk (s.mem.inumOf f))[o]? := by
    intro o
    rw [hfile]
    rcases h.start with rfl | hle
    · rw [length_eq_zero_iff.mp hlen, overwrite, if_neg (by omega), append_nil, length_nil,
        Nat.add_zero, take_append_drop]
    · rw [getElem?_overwrite (by rw [hlen₀]; exact hle), hlen]
  have hreceived : Received um addr (s.mem.file f).off k (sb.file t.disk (s.mem.inumOf f)) := by
    intro j hj
    refine ⟨w.getD j 0, hsrc j hj, ?_⟩
    rw [hget, if_pos (by omega), Nat.add_sub_cancel_left, getD_eq_getElem?_getD,
      List.getElem?_eq_getElem (by omega), Option.getD_some]
  refine ⟨fun hn => ?_, fun hneg => ?_, fun hle => ?_⟩
  · obtain ⟨-, rfl⟩ : r = n ∧ k = n := hr.resolve_right fun hc => by omega
    exact ⟨hreceived, h.off⟩
  · obtain ⟨-, hk⟩ : r = -1 ∧ k < n := hr.resolve_left fun hc => by omega
    refine ⟨k, hk, hreceived, h.off, fun o ho => ?_, fun j hj hne => ?_⟩
    · rw [hget, if_neg ho]
    · rw [h.idle.file_eq hj, h₀.file_eq hj, h.others j hne]
  · rw [hfile, length_overwrite hle, h.off, hlen]
    omega

/-- `filewrite` reports what it did: the file is not open for writing, and there was something to
write; or every byte given to `writei` is mapped. -/
def Honest (um : UserMem) (addr n size : Nat) (x : File) : Prop :=
  if x.writable = true then um.Mapped addr 0 (attempted size x.off n) else 0 < n

/-- **`filewrite` reports what it wrote** exactly when every byte that it gives to `writei` is
mapped. -/
theorem filewrite_reports_iff (hsb : sb.Ok) (h : Idle sb ino disk mem f)
    (htype : (mem.file f).type = .inode) (um : UserMem) (addr n : Nat) (p : Pid) (keep : Bool) :
    ((onBlocks sb (filewrite f um addr n)).run (sexec mexec keep p) ⟨disk, ⟨false, []⟩, mem⟩).Meets
      (fun r t => Reports sb f um addr n ⟨disk, ⟨false, []⟩, mem⟩ t r ↔
        Honest um addr n (sb.file disk (mem.inumOf f)).length (mem.file f))
      DiskFull := by
  have hlen : (sb.file disk (mem.inumOf f)).length = (ino (mem.inumOf f)).size := by
    have hcap : mem.inumOf f < sb.inodeCap := h.known.cap
    rw [h.file_eq hcap, length_fileBytes]
  have hcall : swp (fsTheory False (fun _ => False) DiskFull) p
      (onBlocks sb (filewriteLoop f um addr n n 0))
      (fun r t => Reports sb f um addr n ⟨disk, ⟨false, []⟩, mem⟩ t r ↔
        um.Mapped addr 0 (attempted (sb.file disk (mem.inumOf f)).length (mem.file f).off n))
      ⟨disk, ⟨false, []⟩, mem⟩ := by
    rw [hlen, attempted]
    by_cases hoff : (mem.file f).off ≤ (ino (mem.inumOf f)).size
    · rw [if_pos hoff]
      refine swp_mono
        (swp_filewriteLoop hsb diskFull hoff n 0 (Progress.refl h) (by omega) (Nat.zero_le n)) ?_
      rintro r t (⟨hmapped, k, ino', hk, hr⟩ | ⟨j, hnone, -, hj, hr⟩)
      · exact ⟨fun _ => hmapped, fun _ => hk.reports h hr⟩
      · -- a byte that is not mapped is reported as written
        have hunmapped : ¬ (um.byte ((addr + j) % 2 ^ 64)).isSome = true := by
          rw [hnone]
          simp
        refine ⟨fun hrep => ?_, fun hmapped => absurd (hmapped j (Nat.zero_le j) hj) hunmapped⟩
        rcases hr with ⟨hr, hjn⟩ | ⟨hr, k, hjk, -, hk⟩
        · obtain ⟨v, hv, -⟩ := (hrep.all hr).1 j hjn
          rw [hnone] at hv
          cases hv
        · obtain ⟨k', -, hreceived, hk', -⟩ := hrep.some hr
          have hkk : k' = k := Nat.add_left_cancel (hk'.symm.trans hk)
          obtain ⟨v, hv, -⟩ := hreceived j (by omega)
          rw [hnone] at hv
          cases hv
    · rw [if_neg hoff]
      have hmapped : um.Mapped addr 0 0 := fun j _ hj => absurd hj (Nat.not_lt_zero j)
      cases n with
      | zero => exact ⟨fun _ => hmapped, fun _ => (Progress.refl h).reports h (Or.inl ⟨rfl, rfl⟩)⟩
      | succ n =>
        rw [filewriteLoop_succ, if_pos (Nat.succ_pos n)]
        obtain ⟨hpos, hmax⟩ := chunk_bounds (Nat.succ_pos n)
        refine swp_onBlocks_bind (swp_writeChunk hsb h hpos hmax diskFull (fun _ hidle => ?_)
          fun hyes => absurd hyes.1 hoff)
        rw [if_pos (by norm_num)]
        exact ⟨fun _ => hmapped, fun _ =>
          ((Progress.refl h).refused hidle).reports h (Or.inr ⟨rfl, Nat.succ_pos n⟩)⟩
  refine swp.run (T := fsTheory False (fun _ => False) DiskFull) ?_ keep
  refine swp_onBlocks_getFile rfl ?_
  rw [Honest]
  cases hwritable : (mem.file f).writable with
  | true =>
    rw [if_neg (by simp), htype, if_neg nofun, if_neg nofun, if_pos rfl, if_neg (by omega),
      Int.toNat_natCast, if_pos rfl]
    exact hcall
  | false =>
    rw [if_pos rfl, if_neg (by simp)]
    refine ⟨fun hrep => ?_,
      fun hpos => ⟨fun hn => absurd hn (by omega), fun _ => ?_, fun hle => hle⟩⟩
    · obtain ⟨k, hk, -⟩ := hrep.some rfl
      omega
    · exact ⟨0, hpos, fun j hj => absurd hj (Nat.not_lt_zero j), rfl, fun _ _ => rfl,
        fun _ _ _ => rfl⟩

end Call

/-! ## An open file -/

/-- The first entry of the file table. -/
def firstFile : FileId := ⟨0, by decide⟩

/-- Its file is open for writing. -/
def openFirst : File :=
  { type := .inode, ref := 1, readable := true, writable := true, ip := firstSlot, off := 0,
    major := 0 }

@[irreducible] def openMem : FsMem Addrs :=
  (withInode freshMem firstSlot 1 emptyInode).setFile firstFile openFirst

theorem openMem_file : openMem.file firstFile = openFirst := by
  rw [openMem]
  rfl

theorem open_idle :
    Idle mkfsSuper (update (fun _ => Dinode.zero) 1 emptyInode) oneFileDisk openMem firstFile := by
  have hinv : FsInv mkfsSuper ∅ ∅ ∅ _ oneFileDisk openMem :=
    oneFile_open.1.congr_inode (by rw [oneFileMem, openMem]; rfl)
  rw [openMem] at hinv ⊢
  refine ⟨hinv, ⟨by decide, by decide, ?_⟩, rfl⟩
  simp [openFirst, FsMem.setFile, withInode, FsMem.setInode, emptyInode, T_FILE]

/-- A process with one page of memory. -/
def onePage : UserMem where
  page k := if k = 0 then some fun _ => 7 else none

/-- Ten bytes of a page. -/
theorem filewrite_reports_onePage :
    ((onBlocks mkfsSuper (filewrite firstFile onePage 0 (10 : Nat))).run
      (sexec mexec true ⟨0, by decide⟩) ⟨oneFileDisk, ⟨false, []⟩, openMem⟩).Meets
      (fun r t => Reports mkfsSuper firstFile onePage 0 10 ⟨oneFileDisk, ⟨false, []⟩, openMem⟩ t r)
      DiskFull := by
  have htype : (openMem.file firstFile).type = .inode := by rw [openMem_file]; rfl
  refine (filewrite_reports_iff mkfsSuper_ok open_idle htype onePage 0 10 ⟨0, by decide⟩ true).mono
    fun r t hiff => hiff.mpr ?_
  have hatt : attemptedFrom 0 10 10 0 = 10 := by decide
  have hwritable : openFirst.writable = true := rfl
  rw [openMem_file, Honest, if_pos hwritable, attempted,
    if_pos (show openFirst.off ≤ _ from Nat.zero_le _)]
  intro j _ hj
  have hlt : j < 10 := hatt ▸ hj
  have hmod : (0 + j) % 2 ^ 64 = j := by omega
  have hdiv : j / PGSIZE = 0 := Nat.div_eq_of_lt (lt_trans hlt (by decide))
  rw [hmod, UserMem.byte, hdiv]
  rfl

/-- The call, and what it leaves: the result, `f->off` and the size of the file. -/
def writeTen : Option (Int × Nat × Nat) :=
  match (onBlocks mkfsSuper (filewrite firstFile onePage 4090 (10 : Nat))).run
      (sexec mexec true ⟨0, by decide⟩) ⟨oneFileDisk, ⟨false, []⟩, openMem⟩ with
  | .ret r t => some (r, (t.mem.file firstFile).off, (mkfsSuper.stored t.disk 1).size)
  | .halt _ _ => none

/-- Four of ten bytes are not mapped.  All ten are reported, and `f->off` has moved, but the file is
as empty as before. -/
theorem filewrite_unmapped_reported :
    ∃ t, (onBlocks mkfsSuper (filewrite firstFile onePage 4090 (10 : Nat))).run
        (sexec mexec true ⟨0, by decide⟩) ⟨oneFileDisk, ⟨false, []⟩, openMem⟩ = .ret 10 t ∧
      (t.mem.file firstFile).off = 10 ∧ (mkfsSuper.stored t.disk 1).size = 0 ∧
      ¬ Reports mkfsSuper firstFile onePage 4090 10 ⟨oneFileDisk, ⟨false, []⟩, openMem⟩ t 10 := by
  have hcall : writeTen = some (10, 10, 0) := by decide +kernel
  unfold writeTen at hcall
  split at hcall
  · rename_i r t hret
    simp only [Option.some.injEq, Prod.mk.injEq] at hcall
    obtain ⟨rfl, hoff, hsize⟩ := hcall
    refine ⟨t, hret, hoff, hsize, fun hrep => ?_⟩
    obtain ⟨v, hv, -⟩ := (hrep.all rfl).1 6 (by decide)
    have hnone : onePage.byte ((4090 + 6) % 2 ^ 64) = none := by decide
    rw [hnone] at hv
    cases hv
  · cases hcall

end Xv6
