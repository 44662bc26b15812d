/-
  Fs/Inode.lean --- the upper half of `fs.c`: inodes, directories and path names.

  The routines are programs over the requests of `InodeSig`: those of the memory
  (`MemOp`), and those that reach an inode's block or contents.  `Fs/Content.lean`
  implements the latter with blocks of the disk.

  A loop over the entries of a directory reads `dp->size` once: the caller has the
  directory locked.
-/
import Xv6.Fs.Memory

set_option autoImplicit false

namespace Xv6

open Foundation

/-! ## Requests -/

inductive InodeOp (A : Type) where
  | mem (o : MemOp A)
  /-- the part of `ilock` that reads the inode from disk -/
  | load (ip : Slot)
  | iupdate (ip : Slot)
  /-- the body of the loop of `ialloc`: allocate this inode if it is free -/
  | tryAlloc (inum : Nat) (type : Int)
  | itrunc (ip : Slot)
  /-- `readi(dp, 0, &de, off, sizeof(de))`; `none` if it is short -/
  | readDirent (dp : Slot) (off : Nat)
  /-- `writei(dp, 0, &de, off, sizeof(de)) == sizeof(de)` -/
  | writeDirent (dp : Slot) (off : Nat) (de : Dirent)
  /-- `readi` to user memory: the number of bytes read -/
  | readi (ip : Slot) (um : UserMem) (dst off n : Nat)
  /-- `writei` from user memory -/
  | writei (ip : Slot) (um : UserMem) (src off n : Nat)
  | beginOp
  | endOp
  | panic (msg : String)

abbrev InodeSig (A : Type) : Signature where
  Op := InodeOp A
  Resp
    | .mem o => (MemSig A).Resp o
    | .tryAlloc _ _ => Bool
    | .readDirent _ _ => Option Dirent
    | .writeDirent _ _ _ => Bool
    | .readi _ _ _ _ _ => Nat
    | .writei _ _ _ _ _ => Int
    | .panic _ => Empty
    | .load _ | .iupdate _ | .itrunc _ | .beginOp | .endOp => Unit

/-- A routine of the file system. -/
abbrev IProg (A : Type) (α : Type) : Type := Prog (InodeSig A) α

variable {A α : Type}

def panic (msg : String) : IProg A α := .op (.panic msg) fun (e : Empty) => e.elim

/-! ## Inodes -/

/-- Allocate an inode: the first free one from `inum` on, with `n` to try. -/
def iallocFrom (dev : Nat) (type : Int) : Nat → Nat → IProg A Slot
  | 0, _ => panic "ialloc: no inodes"
  | n + 1, inum =>
      .op (.tryAlloc inum type) fun (ok : Bool) =>
      if ok then .op (.mem (.iget dev inum)) .pure
      else iallocFrom dev type n (inum + 1)

def ialloc (sb : Superblock) (dev : Nat) (type : Int) : IProg A Slot :=
  iallocFrom dev type (sb.ninodes - 1) 1

/-- Lock the inode, and read it from disk if necessary. -/
def ilock (ip : Slot) : IProg A Unit :=
  .op (.mem (.acquire ip)) fun _ =>
  .op (.mem (.getInode ip)) fun (i : Inode A) =>
  if i.valid then .pure ()
  else
    .op (.load ip) fun _ =>
    .op (.mem (.getInode ip)) fun (i : Inode A) =>
    if i.d.type = 0 then panic "ilock: no type" else .pure ()

def iunlock (ip : Slot) : IProg A Unit := .op (.mem (.release ip)) .pure

/-- Drop a reference, and free the inode if it was the last one and nothing links to
it. -/
def iput (ip : Slot) : IProg A Unit :=
  .op (.mem (.lastRef ip)) fun (last : Bool) =>
  if last then
    .op (.itrunc ip) fun _ =>
    .op (.mem (.setType ip 0)) fun _ =>
    .op (.iupdate ip) fun _ =>
    .op (.mem (.setValid ip false)) fun _ =>
    .op (.mem (.releasesleep ip)) fun _ =>
    .op (.mem (.dropRef ip)) .pure
  else .pure ()

def iunlockput (ip : Slot) : IProg A Unit := iunlock ip >>= fun _ => iput ip

/-- `ip->nlink += n; iupdate(ip)`: the field is a `short`. -/
def addNlink (ip : Slot) (n : Int) : IProg A Unit :=
  .op (.mem (.getInode ip)) fun (i : Inode A) =>
  .op (.mem (.setNlink ip (toShort (i.d.nlink + n)))) fun _ =>
  .op (.iupdate ip) .pure

/-! ## Directories -/

/-- The number of entries that a loop `for(off = 0; off < size; off += sizeof(de))`
looks at. -/
def entries (size : Nat) : Nat := (size + (DIRENTSIZE - 1)) / DIRENTSIZE

/-- The loop of `dirlookup`, with `n` entries to go. -/
def dirlookupFrom (dp : Slot) (dev : Nat) (name : List UInt8) :
    Nat → Nat → IProg A (Option (Slot × Nat))
  | 0, _ => .pure none
  | n + 1, off =>
      .op (.readDirent dp off) fun (r : Option Dirent) =>
      match r with
      | none => panic "dirlookup read"
      | some de =>
          if de.inum ≠ 0 ∧ namecmp name de.name = true then
            .op (.mem (.iget dev de.inum)) fun (ip : Slot) => .pure (some (ip, off))
          else dirlookupFrom dp dev name n (off + DIRENTSIZE)

/-- Look for a name in a directory: the inode, and the offset of the entry. -/
def dirlookup (dp : Slot) (name : List UInt8) : IProg A (Option (Slot × Nat)) :=
  .op (.mem (.getInode dp)) fun (i : Inode A) =>
  if i.d.type ≠ T_DIR then panic "dirlookup not DIR"
  else dirlookupFrom dp i.dev name (entries i.d.size) 0

/-- The loop of `dirlink` that looks for an empty entry: its offset, or the end. -/
def emptyDirent (dp : Slot) : Nat → Nat → IProg A Nat
  | 0, off => .pure off
  | n + 1, off =>
      .op (.readDirent dp off) fun (r : Option Dirent) =>
      match r with
      | none => panic "dirlink read"
      | some de => if de.inum = 0 then .pure off else emptyDirent dp n (off + DIRENTSIZE)

/-- Write a new entry into a directory; `false` if the name is present. -/
def dirlink (dp : Slot) (name : List UInt8) (inum : Nat) : IProg A Bool :=
  dirlookup dp name >>= fun r =>
  match r with
  | some (ip, _) => iput ip >>= fun _ => .pure false
  | none =>
      .op (.mem (.getInode dp)) fun (i : Inode A) =>
      emptyDirent dp (entries i.d.size) 0 >>= fun off =>
      .op (.writeDirent dp off ⟨inum % 2 ^ 16, cut name⟩) fun (ok : Bool) =>
      if ok then .pure true else panic "dirlink"

/-! ## Paths -/

/-- The character `/`. -/
def slash : UInt8 := 47

/-- The next element of a path and the rest of it, without leading slashes; `none` if
there is no element. -/
def skipelem (path : List UInt8) : Option (List UInt8 × List UInt8) :=
  let s := path.dropWhile (· = slash)
  if s = [] then none
  else
    some ((s.takeWhile (· ≠ slash)).take DIRSIZ, (s.dropWhile (· ≠ slash)).dropWhile (· = slash))

/-- The loop of `namex`.  Every element takes at least one character off the path. -/
def namexLoop (parent : Bool) : Nat → Slot → List UInt8 → List UInt8 →
    IProg A (Option (Slot × List UInt8))
  | 0, _, _, _ => .pure none
  | fuel + 1, ip, path, name =>
      match skipelem path with
      | none =>
          if parent then iput ip >>= fun _ => .pure none
          else .pure (some (ip, name))
      | some (name, path) =>
          ilock ip >>= fun _ =>
          .op (.mem (.getInode ip)) fun (i : Inode A) =>
          if i.d.type ≠ T_DIR then iunlockput ip >>= fun _ => .pure none
          else if parent ∧ path = [] then
            -- stop one level early
            iunlock ip >>= fun _ => .pure (some (ip, name))
          else
            dirlookup ip name >>= fun r =>
            match r with
            | none => iunlockput ip >>= fun _ => .pure none
            | some (next, _) =>
                iunlockput ip >>= fun _ => namexLoop parent fuel next path name

/-- Look up a path: the inode, or that of the parent and the last element. -/
def namex (path : List UInt8) (parent : Bool) : IProg A (Option (Slot × List UInt8)) :=
  if path.head? = some slash then
    .op (.mem (.iget ROOTDEV ROOTINO)) fun (ip : Slot) =>
    namexLoop parent (path.length + 1) ip path []
  else
    .op (.mem .dupCwd) fun (ip : Slot) =>
    namexLoop parent (path.length + 1) ip path []

def namei (path : List UInt8) : IProg A (Option Slot) :=
  namex path false >>= fun r => .pure (r.map Prod.fst)

def nameiparent (path : List UInt8) : IProg A (Option (Slot × List UInt8)) := namex path true

end Xv6
