/-
  Fs/Memory.lean --- what the file system keeps in memory: the inode cache of
  `fs.c`, the file table of `file.c`, and the current directory and the descriptors
  of each process.

  The requests are the sections under `icache.lock` and `ftable.lock`, the
  operations on an inode's sleep lock, and the accesses to fields the caller has the
  lock for.  None of them touches the disk, so they are the same for every model of
  what is on it.

  A reference count is an `int`; the model does not bound it.
-/
import Xv6.Foundation.Prog
import Xv6.Fs.Format

set_option autoImplicit false

namespace Xv6

open Function List Foundation

/-! ## State -/

/-- An inode in memory: its index in `icache.inode`. -/
abbrev Slot : Type := Fin NINODE

theorem NINODE_pos : 0 < NINODE := by decide

/-- `struct inode`. -/
structure Inode (A : Type) where
  dev : Nat
  inum : Nat
  ref : Int
  /-- The process holding the sleep lock. -/
  lock : Option Pid
  /-- Has the inode been read from disk? -/
  valid : Bool
  /-- The copy of the disk inode. -/
  d : Dinode A

/-- `struct file`, less the pipe. -/
structure File where
  type : FileType
  ref : Int
  readable : Bool
  writable : Bool
  ip : Slot
  off : Nat
  major : Int

structure FsMem (A : Type) where
  inode : Slot → Inode A
  file : FileId → File
  cwd : Pid → Slot
  ofile : Pid → Fd → Option FileId

namespace FsMem

variable {A : Type}

def setInode (m : FsMem A) (ip : Slot) (i : Inode A) : FsMem A :=
  { m with inode := update m.inode ip i }

/-- The fields that are on disk. -/
def setDinode (m : FsMem A) (ip : Slot) (d : Dinode A) : FsMem A :=
  m.setInode ip { m.inode ip with d }

def setFile (m : FsMem A) (f : FileId) (x : File) : FsMem A :=
  { m with file := update m.file f x }

end FsMem

/-! ## The memory of a user process -/

/-- What the page table of a process maps with `PTE_U`: the bytes of each page. -/
structure UserMem where
  page : Nat → Option (Nat → UInt8)

/-- The loop of `copyin`: page by page, until one is not mapped.  Returns the bytes
that were copied, and whether that was all of them.  Every page takes at least one
byte off `len`, so `fuel` need not be more than that. -/
def UserMem.copyinLoop (um : UserMem) : Nat → Nat → Nat → List UInt8 × Bool
  | _, _, 0 => ([], true)
  | 0, _, _ + 1 => ([], false)
  | fuel + 1, srcva, len + 1 =>
      match um.page (srcva / PGSIZE) with
      | none => ([], false)
      | some page =>
          let n := min (PGSIZE - srcva % PGSIZE) (len + 1)
          let bytes := (range n).map fun i => page (srcva % PGSIZE + i)
          let rest := um.copyinLoop fuel ((srcva / PGSIZE + 1) * PGSIZE % 2 ^ 64) (len + 1 - n)
          (bytes ++ rest.1, rest.2)

/-- `copyin`. -/
def UserMem.copyin (um : UserMem) (srcva len : Nat) : List UInt8 × Bool :=
  um.copyinLoop len srcva len

/-- Does `copyout` to these addresses succeed?  It walks the same pages. -/
def UserMem.copyout (um : UserMem) (dstva len : Nat) : Bool := (um.copyin dstva len).2

/-! ## Requests -/

inductive MemOp (A : Type) where
  | iget (dev inum : Nat)
  /-- `idup(myproc()->cwd)` -/
  | dupCwd
  /-- `ilock` up to and with `acquiresleep` -/
  | acquire (ip : Slot)
  /-- `iunlock` -/
  | release (ip : Slot)
  /-- the first section of `iput`: is the inode to be freed? -/
  | lastRef (ip : Slot)
  /-- `releasesleep` in `iput` -/
  | releasesleep (ip : Slot)
  /-- the section of `iput` after the inode was freed -/
  | dropRef (ip : Slot)
  | getInode (ip : Slot)
  | setType (ip : Slot) (type : Int)
  | setDev (ip : Slot) (major minor : Int)
  | setNlink (ip : Slot) (nlink : Int)
  | setValid (ip : Slot) (valid : Bool)
  /-- set all fields that are on disk -/
  | setDinode (ip : Slot) (d : Dinode A)
  /-- `p->cwd` in `sys_chdir`, which gives the reference up -/
  | getCwd
  | setCwd (ip : Slot)
  | filealloc
  | filedup (f : FileId)
  /-- the section of `fileclose`: a copy of the file if that was the last reference -/
  | fileclose (f : FileId)
  | getFile (f : FileId)
  /-- set all fields but `ref` -/
  | setFile (f : FileId) (x : File)
  | setOff (f : FileId) (off : Nat)
  | argfd (fd : Int)
  | fdalloc (f : FileId)
  /-- `myproc()->ofile[fd] = 0` -/
  | clearFd (fd : Fd)
  | copyin (um : UserMem) (srcva len : Nat)
  /-- `piperead` or `pipewrite` -/
  | pipe (f : FileId) (write : Bool) (addr : Nat) (n : Int)
  /-- the routine of a device -/
  | device (major : Int) (write : Bool) (addr : Nat) (n : Int)

abbrev MemSig (A : Type) : Signature where
  Op := MemOp A
  Resp
    | .iget _ _ => Slot
    | .lastRef _ => Bool
    | .getInode _ => Inode A
    | .dupCwd => Slot
    | .getCwd => Slot
    | .filealloc => Option FileId
    | .fileclose _ => Option File
    | .getFile _ => File
    | .argfd _ => Option (Fd × FileId)
    | .fdalloc _ => Option Fd
    | .copyin _ _ _ => List UInt8 × Bool
    | .pipe _ _ _ _ | .device _ _ _ _ => Int
    | .acquire _ | .release _ | .releasesleep _ | .dropRef _ | .setType _ _
    | .setDev _ _ _ | .setNlink _ _ | .setValid _ _ | .setDinode _ _ | .setCwd _ | .filedup _
    | .setFile _ _ | .setOff _ _ | .clearFd _ => Unit

variable {A : Type}

/-- `iget`: the entry with this inode, or else the first unused one, recycled. -/
def FsMem.iget (m : FsMem A) (dev inum : Nat) : Option (Slot × FsMem A) :=
  let slots := finRange NINODE
  match slots.find? (fun ip => decide (0 < (m.inode ip).ref ∧ (m.inode ip).dev = dev ∧
      (m.inode ip).inum = inum)) with
  | some ip => some (ip, m.setInode ip { m.inode ip with ref := (m.inode ip).ref + 1 })
  | none =>
      match slots.find? (fun ip => decide ((m.inode ip).ref = 0)) with
      | some ip => some (ip, m.setInode ip { m.inode ip with dev, inum, ref := 1, valid := false })
      | none => none

/-- How a process's requests are answered. -/
def mexec (p : Pid) : (o : MemOp A) → FsMem A → Outcome Halt (FsMem A) ((MemSig A).Resp o)
  | .iget dev inum, m =>
      match m.iget dev inum with
      | some (ip, m') => .ret ip m'
      | none => .halt (.panic "iget: no inodes") m
  | .dupCwd, m =>
      let ip := m.cwd p
      .ret ip (m.setInode ip { m.inode ip with ref := (m.inode ip).ref + 1 })
  | .acquire ip, m =>
      let i := m.inode ip
      if i.ref < 1 then .halt (.panic "ilock") m
      else if i.lock = none then .ret () (m.setInode ip { i with lock := some p })
      else .halt .wait m
  | .release ip, m =>
      let i := m.inode ip
      if i.lock = some p ∧ 1 ≤ i.ref then .ret () (m.setInode ip { i with lock := none })
      else .halt (.panic "iunlock") m
  | .lastRef ip, m =>
      let i := m.inode ip
      if i.ref = 1 ∧ i.valid = true ∧ i.d.nlink = 0 then
        if i.lock = none then .ret true (m.setInode ip { i with lock := some p })
        else .halt .wait m
      else .ret false (m.setInode ip { i with ref := i.ref - 1 })
  | .releasesleep ip, m => .ret () (m.setInode ip { m.inode ip with lock := none })
  | .dropRef ip, m => .ret () (m.setInode ip { m.inode ip with ref := (m.inode ip).ref - 1 })
  | .getInode ip, m => .ret (m.inode ip) m
  | .setType ip type, m => .ret () (m.setDinode ip { (m.inode ip).d with type })
  | .setDev ip major minor, m => .ret () (m.setDinode ip { (m.inode ip).d with major, minor })
  | .setNlink ip nlink, m => .ret () (m.setDinode ip { (m.inode ip).d with nlink })
  | .setValid ip valid, m => .ret () (m.setInode ip { m.inode ip with valid })
  | .setDinode ip d, m => .ret () (m.setDinode ip d)
  | .getCwd, m => .ret (m.cwd p) m
  | .setCwd ip, m => .ret () { m with cwd := update m.cwd p ip }
  | .filealloc, m =>
      match (finRange NFILE).find? (fun f => decide ((m.file f).ref = 0)) with
      | some f => .ret (some f) (m.setFile f { m.file f with ref := 1 })
      | none => .ret none m
  | .filedup f, m =>
      if (m.file f).ref < 1 then .halt (.panic "filedup") m
      else .ret () (m.setFile f { m.file f with ref := (m.file f).ref + 1 })
  | .fileclose f, m =>
      let x := m.file f
      if x.ref < 1 then .halt (.panic "fileclose") m
      else if 0 < x.ref - 1 then .ret none (m.setFile f { x with ref := x.ref - 1 })
      else .ret (some { x with ref := 0 }) (m.setFile f { x with ref := 0, type := .none })
  | .getFile f, m => .ret (m.file f) m
  | .setFile f x, m => .ret () (m.setFile f { x with ref := (m.file f).ref })
  | .setOff f off, m => .ret () (m.setFile f { m.file f with off })
  | .argfd fd, m =>
      if h : 0 ≤ fd ∧ fd.toNat < NOFILE then
        .ret ((m.ofile p ⟨fd.toNat, h.2⟩).map fun f => (⟨fd.toNat, h.2⟩, f)) m
      else .ret none m
  | .fdalloc f, m =>
      match (finRange NOFILE).find? (fun fd => (m.ofile p fd).isNone) with
      | some fd =>
          .ret (some fd) { m with
            ofile := update m.ofile p (update (m.ofile p) fd (some f)) }
      | none => .ret none m
  | .clearFd fd, m =>
      .ret () { m with
        ofile := update m.ofile p (update (m.ofile p) fd none) }
  | .copyin um srcva len, m => .ret (um.copyin srcva len) m
  -- the process is in another part of the kernel, and what comes of that is not known here
  | .pipe _ _ _ _, m | .device _ _ _ _, m => .halt .wait m

end Xv6
