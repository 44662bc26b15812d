/-
  Fs/Format.lean --- the on-disk format of `kernel/fs.h`: the super block, the free
  map, inodes and directory entries.

  An inode is a record of numbers; `readDinode` and `writeDinode` are the casts of
  an inode block to `struct dinode *`.  The record is generic in what it says about
  the whereabouts of the contents: block addresses on disk (`Addrs`), nothing where
  the model keeps the contents apart.
-/
import Xv6.Kernel.Layout

set_option autoImplicit false

namespace Xv6

open List Foundation

/-! ## The super block -/

structure Superblock where
  magic : Nat
  /-- Size of the file system image, in blocks. -/
  size : Nat
  /-- Number of data blocks. -/
  nblocks : Nat
  ninodes : Nat
  nlog : Nat
  logstart : Nat
  inodestart : Nat
  bmapstart : Nat
  deriving DecidableEq

def FSMAGIC : Nat := 0x10203040

/-- Direct blocks of an inode. -/
def NDIRECT : Nat := 12
/-- Block numbers in an indirect block. -/
def NINDIRECT : Nat := BSIZE / 4
/-- Maximum file size, in blocks. -/
def MAXFILE : Nat := NDIRECT + NINDIRECT
/-- `sizeof(struct dinode)`. -/
def DINODESIZE : Nat := 64
/-- Inodes per block. -/
def IPB : Nat := BSIZE / DINODESIZE
/-- Bits of the free map per block. -/
def BPB : Nat := BSIZE * 8
/-- Bytes of a name in a directory. -/
def DIRSIZ : Nat := 14
/-- `sizeof(struct dirent)`. -/
def DIRENTSIZE : Nat := 2 + DIRSIZ

namespace Superblock

/-- Block containing inode `i`. -/
def iblock (sb : Superblock) (i : Nat) : Nat := i / IPB + sb.inodestart

/-- Block of the free map containing the bit for block `b`. -/
def bblock (sb : Superblock) (b : Nat) : Nat := b / BPB + sb.bmapstart

/-- Number of blocks before the data blocks: boot block, super block, log, inodes and
free map. -/
def nmeta (sb : Superblock) : Nat := sb.size - sb.nblocks

/-- Number of inodes the inode blocks have room for. -/
def inodeCap (sb : Superblock) : Nat := (sb.bmapstart - sb.inodestart) * IPB

/-- The regions the super block describes do not overlap, and are large enough. -/
structure Ok (sb : Superblock) : Prop where
  log : sb.logstart + sb.nlog ≤ sb.inodestart
  inodes : sb.inodestart ≤ sb.bmapstart
  ninodes : sb.ninodes ≤ sb.inodeCap
  bitmap : ∀ b, b < sb.size → sb.bblock b < sb.nmeta
  nblocks : sb.nblocks ≤ sb.size
  nonempty : 0 < sb.size
  uint : sb.size < 2 ^ 32

namespace Ok

variable {sb : Superblock} (h : sb.Ok)

include h

theorem bmapstart_lt : sb.bmapstart < sb.nmeta := by
  have h0 := h.bitmap 0 h.nonempty
  simpa [bblock] using h0

theorem nmeta_pos : 0 < sb.nmeta := Nat.zero_lt_of_lt h.bmapstart_lt

/-- An inode block comes before the free map. -/
theorem iblock_lt {i : Nat} (hi : i < sb.inodeCap) : sb.iblock i < sb.bmapstart := by
  have hdiv : i / IPB < sb.bmapstart - sb.inodestart := (Nat.div_lt_iff_lt_mul (by decide)).mpr hi
  have := h.inodes
  unfold iblock
  omega

theorem iblock_meta {i : Nat} (hi : i < sb.inodeCap) : sb.iblock i < sb.nmeta :=
  (h.iblock_lt hi).trans h.bmapstart_lt

theorem meta_uint {b : Nat} (hb : b < sb.nmeta) : b < 2 ^ 32 :=
  (hb.trans_le (Nat.sub_le _ _)).trans h.uint

theorem inodestart_le {b : Nat} (hb : sb.nmeta ≤ b) : sb.inodestart ≤ b :=
  (h.inodes.trans h.bmapstart_lt.le).trans hb

theorem iblock_ne_bblock {i b : Nat} (hi : i < sb.inodeCap) : sb.iblock i ≠ sb.bblock b := by
  have hlt := h.iblock_lt hi
  have hle : sb.bmapstart ≤ sb.bblock b := Nat.le_add_left _ _
  omega

end Ok

end Superblock

/-! ## The free map -/

/-- Bit `bi` of a block. -/
def bitAt (d : Block) (bi : Nat) : Bool := (getByte d (bi / 8)).toNat.testBit (bi % 8)

/-- `data[bi/8] |= m`, with `m = 1 << (bi % 8)`. -/
def setBit (d : Block) (bi : Nat) : Block :=
  setByte d (bi / 8) (UInt8.ofNat ((getByte d (bi / 8)).toNat ||| 2 ^ (bi % 8)))

/-- `data[bi/8] &= ~m`. -/
def clearBit (d : Block) (bi : Nat) : Block :=
  setByte d (bi / 8) (UInt8.ofNat ((getByte d (bi / 8)).toNat &&& (255 ^^^ 2 ^ (bi % 8))))

/-- Is the block marked as in use? -/
def Superblock.inUse (sb : Superblock) (disk : Disk) (b : Nat) : Bool :=
  bitAt (disk (sb.bblock b)) (b % BPB)

/-- One bit of a block changes, as `f` says. -/
theorem bitAt_setByte {d : Block} {bi bj n : Nat} {f : Bool → Bool → Bool} (hi : bi < BPB)
    (hn : n < 2 ^ 8) (hf : ∀ x, f x false = x) (hbit : ∀ k, k < 8 →
      n.testBit k = f ((getByte d (bi / 8)).toNat.testBit k) (decide (bi % 8 = k))) :
    bitAt (setByte d (bi / 8) (UInt8.ofNat n)) bj = f (bitAt d bj) (decide (bi = bj)) := by
  unfold bitAt
  by_cases hbyte : bj / 8 = bi / 8
  · have hroom : bi / 8 < BSIZE := by
      unfold BPB at hi
      omega
    have hiff : bi % 8 = bj % 8 ↔ bi = bj := by omega
    rw [hbyte, getByte_setByte_self hroom, UInt8.toNat_ofNat', Nat.mod_eq_of_lt hn,
      hbit _ (Nat.mod_lt _ (by omega))]
    simp only [hiff]
  · have hne : bi ≠ bj := by
      rintro rfl
      exact hbyte rfl
    rw [getByte_setByte_ne hbyte, decide_eq_false hne, hf]

theorem bitAt_setBit {d : Block} {bi bj : Nat} (hi : bi < BPB) :
    bitAt (setBit d bi) bj = (bitAt d bj || decide (bi = bj)) := by
  refine bitAt_setByte hi (Nat.or_lt_two_pow (UInt8.toNat_lt _) ?_) Bool.or_false fun k _ => ?_
  · exact Nat.pow_lt_pow_right (by omega) (Nat.mod_lt _ (by omega))
  · rw [Nat.testBit_or, Nat.testBit_two_pow]

/-- A block of zeros has no bit set. -/
theorem bitAt_zero (bi : Nat) : bitAt (fun _ => 0) bi = false := by
  unfold bitAt getByte
  split <;> simp

/-! ## Inodes -/

/-- The fields of `struct dinode`; those of `struct inode` below its lock are the
same. -/
@[ext]
structure Dinode (A : Type) where
  type : Int
  major : Int
  minor : Int
  nlink : Int
  size : Nat
  addrs : A
  deriving DecidableEq

/-- File types of `stat.h`. -/
def T_DIR : Int := 1
def T_FILE : Int := 2
def T_DEVICE : Int := 3

/-- Block addresses: the direct blocks, and the indirect block. -/
abbrev Addrs : Type := Fin (NDIRECT + 1) → Nat

/-- The address of the indirect block. -/
def Dinode.indirect (d : Dinode Addrs) : Nat := d.addrs (Fin.last NDIRECT)

/-- `addrs[k] = b`. -/
def Dinode.setAddr (d : Dinode Addrs) (k : Fin (NDIRECT + 1)) (b : Nat) : Dinode Addrs :=
  { d with addrs := Function.update d.addrs k b }

/-- What `memset(dip, 0, sizeof(*dip))` leaves. -/
def Dinode.zero : Dinode Addrs := ⟨0, 0, 0, 0, 0, fun _ => 0⟩

/-- A `short`. -/
def IsShort (x : Int) : Prop := -2 ^ 15 ≤ x ∧ x < 2 ^ 15

instance (x : Int) : Decidable (IsShort x) := inferInstanceAs (Decidable (_ ∧ _))

/-- Conversion to `short`. -/
def toShort (x : Int) : Int := (x + 2 ^ 15) % 2 ^ 16 - 2 ^ 15

/-- The `short` at `off`. -/
def getShort (b : Block) (off : Nat) : Int := toShort (getLE b 2 off)

def putShort (b : Block) (off : Nat) (x : Int) : Block := putLE b 2 off (x % 2 ^ 16).toNat

/-- The fields have the values their C types can have. -/
structure Dinode.Fits (d : Dinode Addrs) : Prop where
  type : IsShort d.type
  major : IsShort d.major
  minor : IsShort d.minor
  nlink : IsShort d.nlink
  size : d.size < 2 ^ 32
  addrs : ∀ k, d.addrs k < 2 ^ 32

/-- `((struct dinode *) data)[k]`. -/
def readDinode (b : Block) (k : Nat) : Dinode Addrs where
  type := getShort b (DINODESIZE * k)
  major := getShort b (DINODESIZE * k + 2)
  minor := getShort b (DINODESIZE * k + 4)
  nlink := getShort b (DINODESIZE * k + 6)
  size := getLE b 4 (DINODESIZE * k + 8)
  addrs := fun a => getLE b 4 (DINODESIZE * k + 12 + 4 * a.val)

/-- `((struct dinode *) data)[k] = d`. -/
def writeDinode (b : Block) (k : Nat) (d : Dinode Addrs) : Block :=
  let o := DINODESIZE * k
  let b := putShort b o d.type
  let b := putShort b (o + 2) d.major
  let b := putShort b (o + 4) d.minor
  let b := putShort b (o + 6) d.nlink
  let b := putLE b 4 (o + 8) d.size
  putInts b (o + 12) (ofFn d.addrs)

theorem getShort_congr {b c : Block} {off : Nat}
    (h : ∀ i, off ≤ i → i < off + 2 → getByte b i = getByte c i) :
    getShort b off = getShort c off := by
  rw [getShort, getShort, getLE_congr h]

variable {b : Block}

theorem getShort_putShort {off : Nat} {x : Int} (hroom : off + 2 ≤ BSIZE) (hx : IsShort x) :
    getShort (putShort b off x) off = x := by
  have h2 : (256 : Nat) ^ 2 = 2 ^ 16 := by norm_num
  unfold IsShort at hx
  rw [getShort, putShort, getLE_putLE hroom, h2]
  unfold toShort
  omega

theorem getShort_putLE_ne {w off off' v : Nat} (h : off' + 2 ≤ off ∨ off + w ≤ off') :
    getShort (putLE b w off v) off' = getShort b off' := by
  rw [getShort, getLE_putLE_ne h, getShort]

theorem getShort_putShort_ne {off off' : Nat} {x : Int} (h : off' + 2 ≤ off ∨ off + 2 ≤ off') :
    getShort (putShort b off x) off' = getShort b off' :=
  getShort_putLE_ne h

theorem getShort_putInts_ne {xs : List Nat} {off off' : Nat}
    (h : off' + 2 ≤ off ∨ off + 4 * xs.length ≤ off') :
    getShort (putInts b off xs) off' = getShort b off' := by
  rw [getShort, getLE_putInts_ne h, getShort]

variable {d : Dinode Addrs}

/-- An inode that was written is read back. -/
theorem readDinode_writeDinode {k : Nat} (hk : k < IPB) (hd : d.Fits) :
    readDinode (writeDinode b k d) k = d := by
  have hroom : DINODESIZE * k + 64 ≤ BSIZE := by
    simp only [IPB, DINODESIZE, BSIZE] at hk ⊢
    omega
  have hlen : (ofFn d.addrs).length = 13 := length_ofFn
  have h4 : (256 : Nat) ^ 4 = 2 ^ 32 := by norm_num
  have haddr : ∀ a : Fin (NDIRECT + 1), getLE (writeDinode b k d) 4
      (DINODESIZE * k + 12 + 4 * a.val) = d.addrs a := by
    intro a
    have ha : (ofFn d.addrs)[a.val]? = some (d.addrs a) := by
      rw [List.getElem?_ofFn, dif_pos a.isLt]
    rw [writeDinode, getLE_putInts (by omega) ha, Nat.mod_eq_of_lt (hd.addrs a)]
  have hsize : getLE (writeDinode b k d) 4 (DINODESIZE * k + 8) = d.size := by
    rw [writeDinode, getLE_putInts_ne (by omega), getLE_putLE (by omega), h4,
      Nat.mod_eq_of_lt hd.size]
  have hnlink : getShort (writeDinode b k d) (DINODESIZE * k + 6) = d.nlink := by
    rw [writeDinode, getShort_putInts_ne (by omega), getShort_putLE_ne (by omega),
      getShort_putShort (by omega) hd.nlink]
  have hminor : getShort (writeDinode b k d) (DINODESIZE * k + 4) = d.minor := by
    rw [writeDinode, getShort_putInts_ne (by omega), getShort_putLE_ne (by omega),
      getShort_putShort_ne (by omega), getShort_putShort (by omega) hd.minor]
  have hmajor : getShort (writeDinode b k d) (DINODESIZE * k + 2) = d.major := by
    rw [writeDinode, getShort_putInts_ne (by omega), getShort_putLE_ne (by omega),
      getShort_putShort_ne (by omega), getShort_putShort_ne (by omega),
      getShort_putShort (by omega) hd.major]
  have htype : getShort (writeDinode b k d) (DINODESIZE * k) = d.type := by
    rw [writeDinode, getShort_putInts_ne (by omega), getShort_putLE_ne (by omega),
      getShort_putShort_ne (by omega), getShort_putShort_ne (by omega),
      getShort_putShort_ne (by omega), getShort_putShort (by omega) hd.type]
  exact Dinode.ext htype hmajor hminor hnlink hsize (funext haddr)

/-- Writing an inode leaves the bytes of the others alone. -/
theorem getByte_writeDinode {k i : Nat} (h : i < DINODESIZE * k ∨ DINODESIZE * k + DINODESIZE ≤ i) :
    getByte (writeDinode b k d) i = getByte b i := by
  have hlen : (ofFn d.addrs).length = 13 := length_ofFn
  have hsize : DINODESIZE = 64 := rfl
  simp only [writeDinode, putShort]
  rw [getByte_putInts (by omega), getByte_putLE (by omega), getByte_putLE (by omega),
    getByte_putLE (by omega), getByte_putLE (by omega), getByte_putLE (by omega)]

/-- An inode depends on its own bytes only. -/
theorem readDinode_congr {b c : Block} {k : Nat}
    (h : ∀ i, DINODESIZE * k ≤ i → i < DINODESIZE * k + DINODESIZE → getByte b i = getByte c i) :
    readDinode b k = readDinode c k := by
  have hsize : DINODESIZE = 64 := rfl
  have hshort : ∀ o, o ≤ 6 → getShort b (DINODESIZE * k + o) = getShort c (DINODESIZE * k + o) :=
    fun o ho => getShort_congr fun i hi hlt => h i (by omega) (by omega)
  refine Dinode.ext (hshort 0 (by omega)) (hshort 2 (by omega)) (hshort 4 (by omega))
    (hshort 6 (by omega)) (getLE_congr fun i hi hlt => h i (by omega) (by omega)) ?_
  funext a
  have ha : a.val < 13 := a.isLt
  exact getLE_congr fun i hi hlt => h i (by omega) (by omega)

theorem readDinode_writeDinode_ne {k k' : Nat} (h : k' ≠ k) :
    readDinode (writeDinode b k d) k' = readDinode b k' := by
  refine readDinode_congr fun i hi hlt => getByte_writeDinode ?_
  have hsize : DINODESIZE = 64 := rfl
  rw [hsize] at hi hlt ⊢
  omega

theorem readDinode_zero (k : Nat) : readDinode (fun _ => 0) k = Dinode.zero := by
  have hbyte : ∀ i, getByte (fun _ => 0 : Block) i = 0 := by
    intro i
    unfold getByte
    split <;> rfl
  have hle : ∀ w off, getLE (fun _ => 0 : Block) w off = 0 := by
    intro w
    induction w with
    | zero => intro off; rfl
    | succ w ih => intro off; simp [getLE, hbyte, ih]
  have hshort : ∀ off, getShort (fun _ => 0 : Block) off = 0 := by
    intro off
    rw [getShort, hle]
    rfl
  simp only [readDinode, hle, hshort]
  rfl

/-! ## Directory entries -/

/-- A string as C reads it from an array of at most `DIRSIZ` characters. -/
def cut (s : List UInt8) : List UInt8 := (s.takeWhile (· ≠ 0)).take DIRSIZ

/-- `namecmp(s, t) == 0`. -/
def namecmp (s t : List UInt8) : Bool := cut s == cut t

/-- `struct dirent`. -/
structure Dirent where
  inum : Nat
  name : List UInt8
  deriving DecidableEq

/-- `memset(&de, 0, sizeof(de))`. -/
def Dirent.zero : Dirent := ⟨0, []⟩

/-- The bytes of an entry: `inum`, and the name padded with zeros as `strncpy` does. -/
def Dirent.encode (de : Dirent) : List UInt8 :=
  UInt8.ofNat de.inum :: UInt8.ofNat (de.inum / 256) ::
    (cut de.name ++ replicate (DIRSIZ - (cut de.name).length) 0)

def Dirent.decode (bytes : List UInt8) : Dirent where
  inum := (bytes.getD 0 0).toNat + 256 * (bytes.getD 1 0).toNat
  name := cut (bytes.drop 2)

end Xv6
