/-
  Fs/Sysfile.lean --- the system calls of `sysfile.c`, and the part of `file.c` they
  use.

  A call's arguments are what `argint` and `argstr` fetch: a path is `none` if
  `argstr` fails.  The routines of pipes and of devices are not part of the file
  system; what they return is the reply to a request.
-/
import Xv6.Fs.Inode

set_option autoImplicit false

namespace Xv6

open Foundation

variable {A : Type}

/-! ## `file.c` -/

/-- Close a file: drop the inode when the last reference is gone. -/
def fileclose (f : FileId) : IProg A Unit :=
  .op (.mem (.fileclose f)) fun (r : Option File) =>
  match r with
  | none => .pure ()
  | some ff =>
      if ff.type = .inode ∨ ff.type = .device then
        .op .beginOp fun _ =>
        iput ff.ip >>= fun _ =>
        .op .endOp .pure
      else .pure ()

/-- `filestat`, up to `copyout`. -/
def filestat (f : FileId) (um : UserMem) (addr : Nat) : IProg A Int :=
  .op (.mem (.getFile f)) fun (x : File) =>
  if x.type = .inode ∨ x.type = .device then
    ilock x.ip >>= fun _ =>
    iunlock x.ip >>= fun _ =>
    .pure (if um.copyout addr 24 then 0 else -1)
  else .pure (-1)

/-- Are there routines in `devsw` for this major number?  Those of the console are the only ones. -/
def hasDriver (major : Int) : Bool := 0 ≤ major ∧ major < NDEV ∧ major = CONSOLE

/-- `fileread`; `n` is an `int` that `readi` takes for a `uint`. -/
def fileread (f : FileId) (um : UserMem) (addr : Nat) (n : Int) : IProg A Int :=
  .op (.mem (.getFile f)) fun (x : File) =>
  if x.readable = false then .pure (-1)
  else if x.type = .pipe then .op (.mem (.pipe f false addr n)) .pure
  else if x.type = .device then
    if hasDriver x.major then .op (.mem (.device x.major false addr n)) .pure else .pure (-1)
  else if x.type = .inode then
    ilock x.ip >>= fun _ =>
    .op (.mem (.getFile f)) fun (x : File) =>
    .op (.readi x.ip um addr x.off (n % 2 ^ 32).toNat) fun (r : Nat) =>
    .op (.mem (.setOff f ((x.off + r) % 2 ^ 32))) fun _ =>
    iunlock x.ip >>= fun _ =>
    .pure r
  else panic "fileread"

/-- Bytes written in one transaction. -/
def MAXWRITE : Nat := (MAXOPBLOCKS - 1 - 1 - 2) / 2 * BSIZE

/-- The loop of `filewrite`, with `i` bytes written.  Every round writes at least one
byte or is the last. -/
def filewriteLoop (f : FileId) (um : UserMem) (addr n : Nat) : Nat → Nat → IProg A Int
  | 0, i => .pure (if i = n then n else -1)
  | fuel + 1, i =>
      if i < n then
        .op .beginOp fun _ =>
        .op (.mem (.getFile f)) fun (x : File) =>
        ilock x.ip >>= fun _ =>
        .op (.mem (.getFile f)) fun (x : File) =>
        .op (.writei x.ip um ((addr + i) % 2 ^ 64) x.off (min (n - i) MAXWRITE)) fun (r : Int) =>
        (if 0 < r then
          .op (.mem (.setOff f ((x.off + r.toNat) % 2 ^ 32))) .pure
        else .pure ()) >>= fun _ =>
        iunlock x.ip >>= fun _ =>
        .op .endOp fun _ =>
        if r < 0 then .pure (-1)
        else if r ≠ (min (n - i) MAXWRITE : Nat) then panic "short filewrite"
        else filewriteLoop f um addr n fuel (i + r.toNat)
      else .pure (if i = n then n else -1)

def filewrite (f : FileId) (um : UserMem) (addr : Nat) (n : Int) : IProg A Int :=
  .op (.mem (.getFile f)) fun (x : File) =>
  if x.writable = false then .pure (-1)
  else if x.type = .pipe then .op (.mem (.pipe f true addr n)) .pure
  else if x.type = .device then
    if hasDriver x.major then .op (.mem (.device x.major true addr n)) .pure else .pure (-1)
  else if x.type = .inode then
    if n < 0 then .pure (-1) else filewriteLoop f um addr n.toNat n.toNat 0
  else panic "filewrite"

/-! ## `sysfile.c` -/

def sysDup (fd : Int) : IProg A Int :=
  .op (.mem (.argfd fd)) fun (r : Option (Fd × FileId)) =>
  match r with
  | none => .pure (-1)
  | some (_, f) =>
      .op (.mem (.fdalloc f)) fun (r : Option Fd) =>
      match r with
      | none => .pure (-1)
      | some fd => .op (.mem (.filedup f)) fun _ => .pure fd.val

/-- `sys_read`, `sys_write` and `sys_fstat`: the call on the file of a descriptor. -/
def withFile (fd : Int) (call : FileId → IProg A Int) : IProg A Int :=
  .op (.mem (.argfd fd)) fun (r : Option (Fd × FileId)) =>
  match r with
  | none => .pure (-1)
  | some (_, f) => call f

def sysRead (fd : Int) (um : UserMem) (addr : Nat) (n : Int) : IProg A Int :=
  withFile fd fun f => fileread f um addr n

def sysWrite (fd : Int) (um : UserMem) (addr : Nat) (n : Int) : IProg A Int :=
  withFile fd fun f => filewrite f um addr n

def sysFstat (fd : Int) (um : UserMem) (addr : Nat) : IProg A Int :=
  withFile fd fun f => filestat f um addr

def sysClose (fd : Int) : IProg A Int :=
  .op (.mem (.argfd fd)) fun (r : Option (Fd × FileId)) =>
  match r with
  | none => .pure (-1)
  | some (fd, f) =>
      .op (.mem (.clearFd fd)) fun _ =>
      fileclose f >>= fun _ => .pure 0

/-- `end_op(); return -1;`. -/
def endFail : IProg A Int := .op .endOp fun _ => .pure (-1)

/-- `bad:` in `sys_link`: take the link back. -/
def linkBad (ip : Slot) : IProg A Int :=
  ilock ip >>= fun _ =>
  addNlink ip (-1) >>= fun _ =>
  iunlockput ip >>= fun _ =>
  endFail

def sysLink (old new : Option (List UInt8)) : IProg A Int :=
  match old, new with
  | some old, some new =>
      .op .beginOp fun _ =>
      namei old >>= fun r =>
      match r with
      | none => endFail
      | some ip =>
          ilock ip >>= fun _ =>
          .op (.mem (.getInode ip)) fun (i : Inode A) =>
          if i.d.type = T_DIR then iunlockput ip >>= fun _ => endFail
          else
            addNlink ip 1 >>= fun _ =>
            iunlock ip >>= fun _ =>
            nameiparent new >>= fun r =>
            match r with
            | none => linkBad ip
            | some (dp, name) =>
                ilock dp >>= fun _ =>
                .op (.mem (.getInode dp)) fun (di : Inode A) =>
                .op (.mem (.getInode ip)) fun (i : Inode A) =>
                (if di.dev ≠ i.dev then .pure false else dirlink dp name i.inum) >>= fun ok =>
                if ok then
                  iunlockput dp >>= fun _ =>
                  iput ip >>= fun _ =>
                  .op .endOp fun _ => .pure 0
                else iunlockput dp >>= fun _ => linkBad ip
  | _, _ => .pure (-1)

/-- The loop of `isdirempty`, with `n` entries to go. -/
def isdiremptyFrom (dp : Slot) : Nat → Nat → IProg A Bool
  | 0, _ => .pure true
  | n + 1, off =>
      .op (.readDirent dp off) fun (r : Option Dirent) =>
      match r with
      | none => panic "isdirempty: readi"
      | some de =>
          if de.inum ≠ 0 then .pure false else isdiremptyFrom dp n (off + DIRENTSIZE)

/-- Is the directory empty except for "." and ".."? -/
def isdirempty (dp : Slot) : IProg A Bool :=
  .op (.mem (.getInode dp)) fun (i : Inode A) =>
  isdiremptyFrom dp (entries i.d.size - 2) (2 * DIRENTSIZE)

/-- The names "." and "..". -/
def dot : List UInt8 := [46]
def dotdot : List UInt8 := [46, 46]

/-- `bad:` in `sys_unlink`. -/
def unlinkBad (dp : Slot) : IProg A Int := iunlockput dp >>= fun _ => endFail

/-- `sys_unlink` once the entry may go: both inodes are locked. -/
def unlinkEntry (dp ip : Slot) (off : Nat) : IProg A Int :=
  .op (.writeDirent dp off Dirent.zero) fun (ok : Bool) =>
  if ok then
    .op (.mem (.getInode ip)) fun (i : Inode A) =>
    (if i.d.type = T_DIR then addNlink dp (-1) else .pure ()) >>= fun _ =>
    iunlockput dp >>= fun _ =>
    addNlink ip (-1) >>= fun _ =>
    iunlockput ip >>= fun _ =>
    .op .endOp fun _ => .pure 0
  else panic "unlink: writei"

def sysUnlink (path : Option (List UInt8)) : IProg A Int :=
  match path with
  | none => .pure (-1)
  | some path =>
      .op .beginOp fun _ =>
      nameiparent path >>= fun r =>
      match r with
      | none => endFail
      | some (dp, name) =>
          ilock dp >>= fun _ =>
          if namecmp name dot = true ∨ namecmp name dotdot = true then unlinkBad dp
          else
            dirlookup dp name >>= fun r =>
            match r with
            | none => unlinkBad dp
            | some (ip, off) =>
                ilock ip >>= fun _ =>
                .op (.mem (.getInode ip)) fun (i : Inode A) =>
                if i.d.nlink < 1 then panic "unlink: nlink < 1"
                else
                  (if i.d.type = T_DIR then isdirempty ip else .pure true) >>= fun ok =>
                  if ok then unlinkEntry dp ip off
                  else iunlockput ip >>= fun _ => unlinkBad dp

/-- `create` when the name is there already; `dp` is locked. -/
def createFound (dp ip : Slot) (type : Int) : IProg A (Option Slot) :=
  iunlockput dp >>= fun _ =>
  ilock ip >>= fun _ =>
  .op (.mem (.getInode ip)) fun (i : Inode A) =>
  if type = T_FILE ∧ (i.d.type = T_FILE ∨ i.d.type = T_DEVICE) then .pure (some ip)
  else iunlockput ip >>= fun _ => .pure none

/-- The entries "." and ".." of a new directory. -/
def createDots (dp ip : Slot) : IProg A Unit :=
  addNlink dp 1 >>= fun _ =>
  .op (.mem (.getInode ip)) fun (i : Inode A) =>
  dirlink ip dot i.inum >>= fun ok =>
  if ok then
    .op (.mem (.getInode dp)) fun (di : Inode A) =>
    dirlink ip dotdot di.inum >>= fun ok =>
    if ok then .pure () else panic "create dots"
  else panic "create dots"

/-- `create` when the name is not there; `dp` is locked. -/
def createNew (sb : Superblock) (dp : Slot) (name : List UInt8) (type major minor : Int) :
    IProg A (Option Slot) :=
  .op (.mem (.getInode dp)) fun (di : Inode A) =>
  ialloc sb di.dev type >>= fun ip =>
  ilock ip >>= fun _ =>
  .op (.mem (.setDev ip major minor)) fun _ =>
  .op (.mem (.setNlink ip 1)) fun _ =>
  .op (.iupdate ip) fun _ =>
  (if type = T_DIR then createDots dp ip else .pure ()) >>= fun _ =>
  .op (.mem (.getInode ip)) fun (i : Inode A) =>
  dirlink dp name i.inum >>= fun ok =>
  if ok then iunlockput dp >>= fun _ => .pure (some ip)
  else panic "create: dirlink"

/-- Create an inode under a path; returned locked. -/
def create (sb : Superblock) (path : List UInt8) (type major minor : Int) :
    IProg A (Option Slot) :=
  nameiparent path >>= fun r =>
  match r with
  | none => .pure none
  | some (dp, name) =>
      ilock dp >>= fun _ =>
      dirlookup dp name >>= fun r =>
      match r with
      | some (ip, _) => createFound dp ip type
      | none => createNew sb dp name type major minor

/-- `sys_mkdir` and `sys_mknod`, inside the transaction. -/
def createCall (sb : Superblock) (path : Option (List UInt8)) (type major minor : Int) :
    IProg A Int :=
  .op .beginOp fun _ =>
  match path with
  | none => endFail
  | some path =>
      create sb path type major minor >>= fun r =>
      match r with
      | none => endFail
      | some ip =>
          iunlockput ip >>= fun _ =>
          .op .endOp fun _ => .pure 0

def sysMkdir (sb : Superblock) (path : Option (List UInt8)) : IProg A Int :=
  createCall sb path T_DIR 0 0

/-- `major` and `minor` are `int`s that become `short`s. -/
def sysMknod (sb : Superblock) (path : Option (List UInt8)) (major minor : Int) : IProg A Int :=
  createCall sb path T_DEVICE (toShort major) (toShort minor)

/-- The flags of `fcntl.h`. -/
def O_RDONLY : Nat := 0x000
def O_WRONLY : Nat := 0x001
def O_RDWR : Nat := 0x002
def O_CREATE : Nat := 0x200
def O_TRUNC : Nat := 0x400

/-- `omode & flag`, as a truth value. -/
def hasFlag (omode flag : Nat) : Bool := omode &&& flag != 0

/-- The first half of `sys_open`: the inode, locked. -/
def openInode (sb : Superblock) (path : List UInt8) (omode : Nat) : IProg A (Option Slot) :=
  if hasFlag omode O_CREATE = true then create sb path T_FILE 0 0
  else
    namei path >>= fun r =>
    match r with
    | none => .pure none
    | some ip =>
        ilock ip >>= fun _ =>
        .op (.mem (.getInode ip)) fun (i : Inode A) =>
        if i.d.type = T_DIR ∧ omode ≠ O_RDONLY then iunlockput ip >>= fun _ => .pure none
        else .pure (some ip)

/-- The second half of `sys_open`: a file for the inode, which is locked. -/
def openFile (ip : Slot) (omode : Nat) : IProg A Int :=
  .op (.mem (.getInode ip)) fun (i : Inode A) =>
  if i.d.type = T_DEVICE ∧ (i.d.major < 0 ∨ (NDEV : Int) ≤ i.d.major) then
    iunlockput ip >>= fun _ => endFail
  else
    .op (.mem .filealloc) fun (r : Option FileId) =>
    match r with
    | none => iunlockput ip >>= fun _ => endFail
    | some f =>
        .op (.mem (.fdalloc f)) fun (r : Option Fd) =>
        match r with
        | none =>
            fileclose f >>= fun _ =>
            iunlockput ip >>= fun _ => endFail
        | some fd =>
            .op (.mem (.getFile f)) fun (x : File) =>
            .op (.mem (.setFile f
              { ref := x.ref
                type := if i.d.type = T_DEVICE then .device else .inode
                readable := !hasFlag omode O_WRONLY
                writable := hasFlag omode O_WRONLY || hasFlag omode O_RDWR
                ip
                off := if i.d.type = T_DEVICE then x.off else 0
                major := if i.d.type = T_DEVICE then i.d.major else x.major })) fun _ =>
            (if hasFlag omode O_TRUNC = true ∧ i.d.type = T_FILE then .op (.itrunc ip) .pure
            else .pure ()) >>= fun _ =>
            iunlock ip >>= fun _ =>
            .op .endOp fun _ => .pure fd.val

def sysOpen (sb : Superblock) (path : Option (List UInt8)) (omode : Nat) : IProg A Int :=
  match path with
  | none => .pure (-1)
  | some path =>
      .op .beginOp fun _ =>
      openInode sb path omode >>= fun r =>
      match r with
      | none => endFail
      | some ip => openFile ip omode

def sysChdir (path : Option (List UInt8)) : IProg A Int :=
  .op .beginOp fun _ =>
  match path with
  | none => endFail
  | some path =>
      namei path >>= fun r =>
      match r with
      | none => endFail
      | some ip =>
          ilock ip >>= fun _ =>
          .op (.mem (.getInode ip)) fun (i : Inode A) =>
          if i.d.type ≠ T_DIR then iunlockput ip >>= fun _ => endFail
          else
            iunlock ip >>= fun _ =>
            .op (.mem .getCwd) fun (cwd : Slot) =>
            iput cwd >>= fun _ =>
            .op .endOp fun _ =>
            .op (.mem (.setCwd ip)) fun _ => .pure 0

/-! ## Calls -/

/-- A file-system call and its arguments. -/
inductive Call where
  | dup (fd : Int)
  | read (fd : Int) (um : UserMem) (addr : Nat) (n : Int)
  | write (fd : Int) (um : UserMem) (addr : Nat) (n : Int)
  | close (fd : Int)
  | fstat (fd : Int) (um : UserMem) (addr : Nat)
  | link (old new : Option (List UInt8))
  | unlink (path : Option (List UInt8))
  | open (path : Option (List UInt8)) (omode : Nat)
  | mkdir (path : Option (List UInt8))
  | mknod (path : Option (List UInt8)) (major minor : Int)
  | chdir (path : Option (List UInt8))

def Call.run (sb : Superblock) : Call → IProg A Int
  | .dup fd => sysDup fd
  | .read fd um addr n => sysRead fd um addr n
  | .write fd um addr n => sysWrite fd um addr n
  | .close fd => sysClose fd
  | .fstat fd um addr => sysFstat fd um addr
  | .link old new => sysLink old new
  | .unlink path => sysUnlink path
  | .open path omode => sysOpen sb path omode
  | .mkdir path => sysMkdir sb path
  | .mknod path major minor => sysMknod sb path major minor
  | .chdir path => sysChdir path

/-- One call after the other; what they return goes to the process. -/
def calls (sb : Superblock) : List Call → IProg A Unit
  | [] => .pure ()
  | c :: cs => c.run sb >>= fun _ => calls sb cs

end Xv6
