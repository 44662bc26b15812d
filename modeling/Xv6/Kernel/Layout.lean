/-
  Kernel/Layout.lean --- the constants of `kernel/param.h` and `kernel/fs.h`, the page size, and
  the disk they describe.

  The numbers are the source's own.  No proof below unfolds `NBUF`, `NPROC` or
  `BSIZE` unless the value is what the argument is about.
-/
import Xv6.Foundation.Bytes

set_option autoImplicit false

namespace Xv6

open Foundation

/-! ## `param.h` -/

/-- Maximum number of processes. -/
def NPROC : Nat := 64
/-- Open files per process. -/
def NOFILE : Nat := 16
/-- Open files per system. -/
def NFILE : Nat := 100
/-- Maximum number of active i-nodes. -/
def NINODE : Nat := 50
/-- Maximum major device number. -/
def NDEV : Nat := 10
/-- major number of the console -/
def CONSOLE : Nat := 1
/-- Device number of the file system's root disk. -/
def ROOTDEV : Nat := 1
/-- Maximum number of blocks any file-system operation writes. -/
def MAXOPBLOCKS : Nat := 10
/-- Maximum number of data blocks in the on-disk log. -/
def LOGSIZE : Nat := MAXOPBLOCKS * 3
/-- Size of the disk block cache. -/
def NBUF : Nat := MAXOPBLOCKS * 3
/-- Size of the file system in blocks. -/
def FSSIZE : Nat := 1000

/-! ## `riscv.h` -/

/-- Bytes per page. -/
def PGSIZE : Nat := 4096

/-! ## `fs.h` -/

/-- Root i-number. -/
def ROOTINO : Nat := 1
/-- Block size. -/
def BSIZE : Nat := 1024

/-- A process: its slot in the process table. -/
abbrev Pid : Type := Fin NPROC

/-- A file descriptor. -/
abbrev Fd : Type := Fin NOFILE

/-- An open file: its index in `ftable.file`. -/
abbrev FileId : Type := Fin NFILE

/-- The types of open files (`file.h`). -/
inductive FileType where
  | none
  | pipe
  | inode
  | device
  deriving DecidableEq

instance : NeZero NPROC := ⟨by decide⟩

/-- The contents of a disk block. -/
abbrev Block : Type := Bytes BSIZE

/-- A disk: the contents of each block. -/
abbrev Disk : Type := Nat → Block

/-- Why a routine does not go on: a panic, or a lock or a condition to wait for. -/
inductive Halt where
  | panic (msg : String)
  | wait
  deriving DecidableEq, Repr

end Xv6
