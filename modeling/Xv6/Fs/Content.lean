/-
  Fs/Content.lean --- the lower half of `fs.c`: the block allocator, and inodes and
  their contents in blocks of the disk.

  The routines are clients of the buffer cache and the log (`Kernel/Client.lean`).
  `blocks` implements the requests of `Fs/Inode.lean` with them, and with that every
  routine and system call built from those requests becomes a program on blocks.
-/
import Xv6.Fs.Sysfile
import Xv6.Kernel.Client

set_option autoImplicit false

namespace Xv6

open Foundation

/-- A routine on blocks. -/
abbrev BProg (α : Type) : Type := FsProg (MemSig Addrs) α

variable {α : Type}

/-- `panic`, on blocks. -/
def bpanic (msg : String) : BProg α := .op (.panic msg) fun (e : Empty) => e.elim

/-! ## Blocks -/

/-- Zero a block. -/
def bzero (bno : Nat) : BProg Unit :=
  .op (.bread bno) fun _ =>
  .op (.modify bno fun _ => 0) fun _ =>
  .op (.logWrite bno) fun _ =>
  .op (.brelse bno) .pure

/-- The first free block among those whose bits are in this block of the free map; the
inner loop of `balloc`. -/
def findFree (sb : Superblock) (b : Nat) (data : Block) : Option Nat :=
  (List.range (min BPB (sb.size - b))).find? fun bi => !bitAt data bi

/-- The outer loop of `balloc`, with `n` blocks of the free map to go. -/
def ballocFrom (sb : Superblock) : Nat → Nat → BProg Nat
  | 0, _ => bpanic "balloc: out of blocks"
  | n + 1, b =>
      .op (.bread (sb.bblock b)) fun (data : Block) =>
      match findFree sb b data with
      | some bi =>
          .op (.modify (sb.bblock b) (setBit data bi)) fun _ =>
          .op (.logWrite (sb.bblock b)) fun _ =>
          .op (.brelse (sb.bblock b)) fun _ =>
          bzero (b + bi) >>= fun _ => .pure (b + bi)
      | none => .op (.brelse (sb.bblock b)) fun _ => ballocFrom sb n (b + BPB)

/-- Allocate a zeroed disk block. -/
def balloc (sb : Superblock) : BProg Nat := ballocFrom sb ((sb.size + (BPB - 1)) / BPB) 0

/-- Free a disk block. -/
def bfree (sb : Superblock) (b : Nat) : BProg Unit :=
  .op (.bread (sb.bblock b)) fun (data : Block) =>
  if bitAt data (b % BPB) = false then bpanic "freeing free block"
  else
    .op (.modify (sb.bblock b) (clearBit data (b % BPB))) fun _ =>
    .op (.logWrite (sb.bblock b)) fun _ =>
    .op (.brelse (sb.bblock b)) .pure

/-! ## Inodes on disk -/

/-- The part of `ilock` that reads the inode from disk. -/
def load (sb : Superblock) (ip : Slot) : BProg Unit :=
  .op (.ext (.getInode ip)) fun (i : Inode Addrs) =>
  .op (.bread (sb.iblock i.inum)) fun (data : Block) =>
  .op (.ext (.setDinode ip (readDinode data (i.inum % IPB)))) fun _ =>
  .op (.brelse (sb.iblock i.inum)) fun _ =>
  .op (.ext (.setValid ip true)) .pure

/-- Copy a modified in-memory inode to disk. -/
def iupdate (sb : Superblock) (ip : Slot) : BProg Unit :=
  .op (.ext (.getInode ip)) fun (i : Inode Addrs) =>
  .op (.bread (sb.iblock i.inum)) fun (data : Block) =>
  .op (.modify (sb.iblock i.inum) (writeDinode data (i.inum % IPB) i.d)) fun _ =>
  .op (.logWrite (sb.iblock i.inum)) fun _ =>
  .op (.brelse (sb.iblock i.inum)) .pure

/-- The body of the loop of `ialloc`. -/
def tryAlloc (sb : Superblock) (inum : Nat) (type : Int) : BProg Bool :=
  .op (.bread (sb.iblock inum)) fun (data : Block) =>
  if (readDinode data (inum % IPB)).type = 0 then
    .op (.modify (sb.iblock inum)
      (writeDinode data (inum % IPB) { Dinode.zero with type })) fun _ =>
    .op (.logWrite (sb.iblock inum)) fun _ =>
    .op (.brelse (sb.iblock inum)) fun _ => .pure true
  else .op (.brelse (sb.iblock inum)) fun _ => .pure false

/-! ## Contents -/

/-- `ip->addrs[k] = addr`. -/
def setAddr (ip : Slot) (k : Fin (NDIRECT + 1)) (addr : Nat) : BProg Unit :=
  .op (.ext (.getInode ip)) fun (i : Inode Addrs) =>
  .op (.ext (.setDinode ip (i.d.setAddr k addr))) .pure

/-- `ip->addrs[k]`, allocated if it is zero. -/
def addrOrAlloc (sb : Superblock) (ip : Slot) (k : Fin (NDIRECT + 1)) : BProg Nat :=
  .op (.ext (.getInode ip)) fun (i : Inode Addrs) =>
  if i.d.addrs k = 0 then
    balloc sb >>= fun addr =>
    setAddr ip k addr >>= fun _ => .pure addr
  else .pure (i.d.addrs k)

/-- Entry `j` of an indirect block. -/
def indirectEntry (data : Block) (j : Nat) : Nat := getLE data 4 (4 * j)

/-- The disk block address of the `bn`th block of the inode, allocated if there is no
such block. -/
def bmap (sb : Superblock) (ip : Slot) (bn : Nat) : BProg Nat :=
  if h : bn < NDIRECT then addrOrAlloc sb ip ⟨bn, Nat.lt_succ_of_lt h⟩
  else if bn - NDIRECT < NINDIRECT then
    addrOrAlloc sb ip (Fin.last NDIRECT) >>= fun ind =>
    .op (.bread ind) fun (a : Block) =>
    if indirectEntry a (bn - NDIRECT) = 0 then
      balloc sb >>= fun addr =>
      .op (.modify ind (putLE a 4 (4 * (bn - NDIRECT)) addr)) fun _ =>
      .op (.logWrite ind) fun _ =>
      .op (.brelse ind) fun _ => .pure addr
    else .op (.brelse ind) fun _ => .pure (indirectEntry a (bn - NDIRECT))
  else bpanic "bmap: out of range"

/-- Free a direct block of the inode. -/
def truncDirect (sb : Superblock) (ip : Slot) (k : Nat) : BProg Unit :=
  .op (.ext (.getInode ip)) fun (i : Inode Addrs) =>
  if h : k < NDIRECT + 1 then
    if i.d.addrs ⟨k, h⟩ ≠ 0 then
      bfree sb (i.d.addrs ⟨k, h⟩) >>= fun _ => setAddr ip ⟨k, h⟩ 0
    else .pure ()
  else .pure ()

/-- Free a block of the indirect block. -/
def truncEntry (sb : Superblock) (a : Block) (j : Nat) : BProg Unit :=
  if indirectEntry a j ≠ 0 then bfree sb (indirectEntry a j) else .pure ()

/-- Truncate the inode: discard its contents. -/
def itrunc (sb : Superblock) (ip : Slot) : BProg Unit :=
  Prog.forFrom (truncDirect sb ip) 0 NDIRECT >>= fun _ =>
  .op (.ext (.getInode ip)) fun (i : Inode Addrs) =>
  (if i.d.indirect ≠ 0 then
    .op (.bread i.d.indirect) fun (a : Block) =>
    Prog.forFrom (truncEntry sb a) 0 NINDIRECT >>= fun _ =>
    .op (.brelse i.d.indirect) fun _ =>
    bfree sb i.d.indirect >>= fun _ =>
    setAddr ip (Fin.last NDIRECT) 0
  else .pure ()) >>= fun _ =>
  .op (.ext (.getInode ip)) fun (i : Inode Addrs) =>
  .op (.ext (.setDinode ip { i.d with size := 0 })) fun _ =>
  iupdate sb ip

/-- Where `readi` copies to: the kernel, or the memory of a user process. -/
abbrev Dst : Type := Option (UserMem × Nat)

/-- `either_copyout`: does it succeed? -/
def eitherCopyout (dst : Dst) (tot m : Nat) : Bool :=
  match dst with
  | none => true
  | some (um, va) => um.copyout ((va + tot) % 2 ^ 64) m

/-- The loop of `readi`, with `tot` bytes read; returns the bytes.  Every round reads at
least one byte or is the last. -/
def readLoop (sb : Superblock) (ip : Slot) (dst : Dst) (n : Nat) :
    Nat → Nat → Nat → BProg (List UInt8)
  | 0, _, _ => .pure []
  | fuel + 1, off, tot =>
      if tot < n then
        bmap sb ip (off / BSIZE) >>= fun addr =>
        .op (.bread addr) fun (data : Block) =>
        let m := min (n - tot) (BSIZE - off % BSIZE)
        .op (.brelse addr) fun _ =>
        if eitherCopyout dst tot m then
          readLoop sb ip dst n fuel (off + m) (tot + m) >>= fun rest =>
          .pure (bytesAt data (off % BSIZE) m ++ rest)
        else .pure []
      else .pure []

/-- Read data from the inode. -/
def readi (sb : Superblock) (ip : Slot) (dst : Dst) (off n : Nat) : BProg (List UInt8) :=
  .op (.ext (.getInode ip)) fun (i : Inode Addrs) =>
  if i.d.size < off ∨ (off + n) % 2 ^ 32 < off then .pure []
  else
    let n := if i.d.size < (off + n) % 2 ^ 32 then i.d.size - off else n
    readLoop sb ip dst n n off 0

/-- Where `writei` copies from: bytes of the kernel, or the memory of a user
process. -/
inductive Src where
  | kernel (bytes : List UInt8)
  | user (um : UserMem) (va : Nat)

/-- `either_copyin`: the bytes copied, and whether that was all of them. -/
def eitherCopyin (src : Src) (tot m : Nat) : BProg (List UInt8 × Bool) :=
  match src with
  | .kernel bytes => .pure ((bytes.drop tot).take m, true)
  | .user um va => .op (.ext (.copyin um ((va + tot) % 2 ^ 64) m)) .pure

/-- The loop of `writei`, with `tot` bytes written; returns `off` at its end.  What a
copy that fails has copied by then is in the buffer, and stays there unlogged. -/
def writeLoop (sb : Superblock) (ip : Slot) (src : Src) (n : Nat) : Nat → Nat → Nat → BProg Nat
  | 0, off, _ => .pure off
  | fuel + 1, off, tot =>
      if tot < n then
        bmap sb ip (off / BSIZE) >>= fun addr =>
        .op (.bread addr) fun (data : Block) =>
        let m := min (n - tot) (BSIZE - off % BSIZE)
        eitherCopyin src tot m >>= fun r =>
        (if r.1 = [] then .pure ()
        else .op (.modify addr (storeBytes data (off % BSIZE) r.1)) .pure) >>= fun _ =>
        if r.2 then
          .op (.logWrite addr) fun _ =>
          .op (.brelse addr) fun _ =>
          writeLoop sb ip src n fuel (off + m) (tot + m)
        else .op (.brelse addr) fun _ => .pure off
      else .pure off

/-- Write data to the inode. -/
def writei (sb : Superblock) (ip : Slot) (src : Src) (off n : Nat) : BProg Int :=
  .op (.ext (.getInode ip)) fun (i : Inode Addrs) =>
  if i.d.size < off ∨ (off + n) % 2 ^ 32 < off then .pure (-1)
  else if MAXFILE * BSIZE < (off + n) % 2 ^ 32 then .pure (-1)
  else
    writeLoop sb ip src n n off 0 >>= fun off =>
    (if 0 < n then
      .op (.ext (.getInode ip)) fun (i : Inode Addrs) =>
      (if i.d.size < off then
        .op (.ext (.setDinode ip { i.d with size := off })) .pure
      else .pure ()) >>= fun _ =>
      iupdate sb ip
    else .pure ()) >>= fun _ =>
    .pure n

/-! ## The requests, on blocks -/

/-- How the requests of `Fs/Inode.lean` are carried out. -/
def blocks (sb : Superblock) : (o : InodeOp Addrs) → BProg ((InodeSig Addrs).Resp o)
  | .mem o => .op (.ext o) .pure
  | .load ip => load sb ip
  | .iupdate ip => iupdate sb ip
  | .tryAlloc inum type => tryAlloc sb inum type
  | .itrunc ip => itrunc sb ip
  | .readDirent dp off =>
      readi sb dp none off DIRENTSIZE >>= fun bytes =>
      .pure (if bytes.length = DIRENTSIZE then some (Dirent.decode bytes) else none)
  | .writeDirent dp off de =>
      writei sb dp (.kernel de.encode) off DIRENTSIZE >>= fun r =>
      .pure (decide (r = DIRENTSIZE))
  | .readi ip um dst off n =>
      readi sb ip (some (um, dst)) off n >>= fun bytes => .pure bytes.length
  | .writei ip um src off n => writei sb ip (.user um src) off n
  | .beginOp => .op .beginOp .pure
  | .endOp => .op .endOp .pure
  | .panic msg => bpanic msg

/-- A routine or call of the file system, on blocks. -/
def onBlocks (sb : Superblock) (m : IProg Addrs α) : BProg α := m.interp (blocks sb)

end Xv6
