/-
  Blocks/Files.lean --- an inode is an array of bytes.

  `fileBytes` is what a file holds.  Whatever sequence of `readi` and `writei` runs on the blocks,
  what it returns and what it leaves is what the same sequence does to plain lists of bytes.
-/
import Xv6.Blocks.Fresh
import Xv6.Blocks.Write

set_option autoImplicit false

namespace Xv6

open Function List Foundation

/-! ## Files as lists -/

/-- The contents of a file. -/
def fileBytes (disk : Disk) (d : Dinode Addrs) : List UInt8 := contents disk d 0 d.size

/-- Bytes of a list are replaced, or added at its end. -/
def overwrite (l : List UInt8) (off : Nat) (w : List UInt8) : List UInt8 :=
  l.take off ++ w ++ l.drop (off + w.length)

/-- The bytes from `off` on, at most `n`; none if the sum does not fit a `uint`. -/
def bytesFrom (l : List UInt8) (off n : Nat) : List UInt8 :=
  if l.length < off ∨ (off + n) % 2 ^ 32 < off then [] else (l.drop off).take n

/-- The bytes to be written. -/
def Src.data (src : Src) (n : Nat) : List UInt8 := (range n).map fun j => (src.byte j).getD 0

variable {sb : Superblock} {D Z : Set Slot} {ino : Nat → Dinode Addrs} {disk disk' : Disk}
  {mem : FsMem Addrs} {ip : Slot} {d d' : Dinode Addrs} {src : Src} {i off n : Nat} {w : List UInt8}

theorem length_fileBytes : (fileBytes disk d).length = d.size := length_contents 0 d.size

theorem getElem?_map_range (f : Nat → UInt8) (n o : Nat) :
    ((range n).map f)[o]? = if o < n then some (f o) else none := by
  rw [getElem?_map]
  split
  · rw [getElem?_range ‹_›, Option.map_some]
  · rw [getElem?_eq_none (by rw [length_range]; omega), Option.map_none]

theorem getElem?_fileBytes (o : Nat) :
    (fileBytes disk d)[o]? = if o < d.size then some (byteAt disk d o) else none := by
  rw [fileBytes, contents, getElem?_map_range, Nat.zero_add]

theorem getElem?_overwrite {l : List UInt8} (hoff : off ≤ l.length) (o : Nat) :
    (overwrite l off w)[o]? = if off ≤ o ∧ o < off + w.length then w[o - off]? else l[o]? := by
  have htake : (l.take off).length = off := by rw [length_take]; omega
  rw [overwrite]
  by_cases hlo : o < off
  · rw [append_assoc, getElem?_append_left (by omega), getElem?_take_of_lt hlo,
      if_neg (by omega)]
  · rw [append_assoc, getElem?_append_right (by omega), htake]
    by_cases hhi : o < off + w.length
    · rw [getElem?_append_left (by omega), if_pos (by omega)]
    · rw [getElem?_append_right (by omega), getElem?_drop, if_neg (by omega)]
      congr 1
      omega

theorem length_overwrite {l : List UInt8} (hoff : off ≤ l.length) :
    (overwrite l off w).length = max l.length (off + w.length) := by
  rw [overwrite, length_append, length_append, length_take, length_drop]
  omega

/-- Two writes, one behind the other, are one. -/
theorem overwrite_append {l w₂ : List UInt8} (hoff : off ≤ l.length) :
    overwrite (overwrite l off w) (off + w.length) w₂ = overwrite l off (w ++ w₂) := by
  refine ext_getElem? fun o => ?_
  have hlen : off + w.length ≤ (overwrite l off w).length := by
    rw [length_overwrite hoff]
    omega
  rw [getElem?_overwrite hlen, getElem?_overwrite hoff, getElem?_overwrite hoff, length_append]
  by_cases hmid : off + w.length ≤ o
  · by_cases hhi : o < off + w.length + w₂.length
    · rw [if_pos ⟨hmid, hhi⟩, if_pos (by omega), getElem?_append_right (by omega)]
      congr 1
      omega
    · rw [if_neg (by omega), if_neg (by omega), if_neg (by omega)]
  · rw [if_neg (by omega)]
    by_cases hlo : off ≤ o
    · rw [if_pos (by omega), if_pos (by omega), getElem?_append_left (by omega)]
    · rw [if_neg (by omega), if_neg (by omega)]

/-- What was written to the file is in it, and nothing else has changed. -/
theorem Wrote.fileBytes_self (h : Wrote ino disk i src off n (off + w.length) w d' disk')
    (hoff : off ≤ (ino i).size) :
    fileBytes disk' d' = overwrite (fileBytes disk (ino i)) off w := by
  refine ext_getElem? fun o => ?_
  rw [getElem?_overwrite (by rw [length_fileBytes]; exact hoff), getElem?_fileBytes,
    getElem?_fileBytes, h.bytes o]
  have hsize : d'.size = max (ino i).size (off + w.length) := by rw [h.same]
  rw [hsize]
  by_cases hin : off ≤ o ∧ o < off + w.length
  · have hlt : o - off < w.length := by omega
    rw [if_pos hin, if_pos (by omega), if_pos hin, getD_eq_getElem?_getD, getElem?_eq_getElem hlt,
      Option.getD_some]
  · rw [if_neg hin, if_neg hin]
    by_cases ho : o < (ino i).size
    · rw [if_pos ho, if_pos (by omega)]
    · rw [if_neg ho, if_neg (by omega)]

theorem Wrote.fileBytes_other {off' j : Nat} (h : Wrote ino disk i src off n off' w d' disk')
    (hj : j ≠ i) :
    fileBytes disk' (ino j) = fileBytes disk (ino j) := by
  refine ext_getElem? fun o => ?_
  rw [getElem?_fileBytes, getElem?_fileBytes, h.others j hj o]

/-- When no copy fails, it is the source that was written. -/
theorem Wrote.data {off' : Nat} (h : Wrote ino disk i src off n off' w d' disk') (hok : src.Ok n) :
    w = src.data n ∧ off' = off + w.length := by
  obtain ⟨hoff', hlen⟩ := h.all hok
  refine ⟨ext_getElem? fun j => ?_, by omega⟩
  rw [Src.data, getElem?_map_range]
  split
  · have hj : j < w.length := by omega
    have hbyte := h.source j hj
    rw [hbyte, Option.getD_some, getD_eq_getElem?_getD, getElem?_eq_getElem hj, Option.getD_some]
  · rw [getElem?_eq_none (by omega)]

/-- A `readi` or `writei`, and its arguments. -/
inductive Access where
  | read (ip : Slot) (dst : Dst) (off n : Nat)
  | write (ip : Slot) (src : Src) (off n : Nat)

/-- What it returns: the bytes that were read, or the value of `writei`. -/
inductive Reply where
  | bytes (l : List UInt8)
  | value (r : Int)
  deriving DecidableEq

namespace Access

def slot : Access → Slot
  | .read ip _ _ _ => ip
  | .write ip _ _ _ => ip

/-- The access, on blocks. -/
def prog (sb : Superblock) : Access → BProg Reply
  | .read ip dst off n => readi sb ip dst off n >>= fun l => .pure (.bytes l)
  | .write ip src off n => writei sb ip src off n >>= fun r => .pure (.value r)

/-- One after the other, on blocks. -/
def progs (sb : Superblock) : List Access → BProg (List Reply)
  | [] => .pure []
  | a :: as => a.prog sb >>= fun r => progs sb as >>= fun rs => .pure (r :: rs)

/-- The access on plain lists, `num ip` being the number of the inode: the reply, and the files
afterwards. -/
def apply (num : Slot → Nat) (files : Nat → List UInt8) : Access → Reply × (Nat → List UInt8)
  | .read ip _ off n => (.bytes (bytesFrom (files (num ip)) off n), files)
  | .write ip src off n =>
      (.value n, Function.update files (num ip) (overwrite (files (num ip)) off (src.data n)))

end Access

/-- The inode of an entry of the cache. -/
def FsMem.num (mem : FsMem Addrs) (ip : Slot) : Nat := (mem.inode ip).inum

/-- The entry is in use, and its inode an allocated one: what `ilock` gives. -/
structure Open (Z : Set Slot) (ino : Nat → Dinode Addrs) (mem : FsMem Addrs) (ip : Slot) :
    Prop where
  usable : Usable Z mem ip
  type : (ino (mem.inode ip).inum).type ≠ 0

/-- The files of the file system are `files`. -/
structure Holds (sb : Superblock) (Z : Set Slot) (num : Slot → Nat) (opened : Set Slot)
    (files : Nat → List UInt8) (disk : Disk) (mem : FsMem Addrs) : Prop where
  ok : ∃ D ino, FsInv sb ∅ D Z ino disk mem ∧ (∀ ip ∈ opened, Open Z ino mem ip) ∧
    ∀ i, fileBytes disk (ino i) = files i
  num : mem.num = num

section Routines

variable {strict : Prop} {InLog : Nat → Prop} {Ends : Halt → Prop} {p : Pid} {inOp : Bool}
  {num : Slot → Nat} {opened : Set Slot} {files : Nat → List UInt8}

/-- A write leaves the entry in use. -/
theorem Open.setDinode {jp : Slot} (h : Open Z ino mem jp)
    (hd : d.type = (ino (mem.inode ip).inum).type) :
    Open Z (update ino (mem.inode ip).inum d) (mem.setDinode ip d) jp := by
  refine ⟨FsInv.usable_setDinode.mpr h.usable, ?_⟩
  rw [(FsInv.setDinode_same mem ip jp d).2.1]
  by_cases hj : (mem.inode jp).inum = (mem.inode ip).inum
  · rw [hj, update_self, hd, ← hj]
    exact h.type
  · rw [update_of_ne hj]
    exact h.type

end Routines

/-- The size in memory is that of the file. -/
theorem Holds.size {num : Slot → Nat} {opened : Set Slot} {files : Nat → List UInt8}
    (h : Holds sb Z num opened files disk mem) (hip : ip ∈ opened) :
    (mem.inode ip).d.size = (files (num ip)).length := by
  obtain ⟨⟨D, ino, hinv, hopen, hfiles⟩, hnum⟩ := h
  rw [(hinv.cached ip (hopen ip hip).usable).2, ← hnum, ← hfiles, length_fileBytes]
  rfl

/-- An empty file. -/
def emptyInode : Dinode Addrs := { Dinode.zero with type := T_FILE }

/-- A disk with one empty file.  Lean is not to evaluate what runs on it. -/
@[irreducible] def oneFileDisk : Disk := putInode mkfsSuper (freshDisk mkfsSuper) 1 emptyInode

/-- The file is in the first entry of the cache. -/
@[irreducible] def oneFileMem : FsMem Addrs := withInode freshMem firstSlot 1 emptyInode

theorem oneFile_open :
    FsInv mkfsSuper ∅ ∅ ∅ (update (fun _ => Dinode.zero) 1 emptyInode) oneFileDisk oneFileMem ∧
    Open ∅ (update (fun _ => Dinode.zero) 1 emptyInode) oneFileMem firstSlot := by
  rw [oneFileDisk, oneFileMem]
  have hinv := freshInode_inv mkfsSuper_ok (i := 1) (by decide) (show IsShort T_FILE by decide)
    firstSlot
  refine ⟨hinv, ⟨?_, ?_, Set.notMem_empty _⟩, ?_⟩ <;>
    simp [emptyInode, withInode, FsMem.setInode, T_FILE]

/-- Two bytes are written to a new file, and read back. -/
def writeThenRead : List Access :=
  [.write firstSlot (.kernel [104, 105]) 0 2, .read firstSlot none 0 5]

end Xv6
