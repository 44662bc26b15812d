/-
  Kernel/Machine.lean --- the kernel state of `bio.c` and `log.c`, its atomic
  steps, and the routines built from them.

  A routine is a `Prog` over the requests of `KSig`: one request per section
  under `bcache.lock` or `log.lock`, per sleep-lock operation, per access to the
  data of a buffer and per disk transfer, so that other processes may run between
  any two of them.

  Two decisions to know about.  `log_write` is one request: its checks, which the
  source makes just before it takes `log.lock`, and the section under the lock.
  (`Log/GroupCommit.lean` has them apart; with operations that respect the
  reservation of `Log/Reservation.lean` the checks never fail, so nothing depends
  on when they are made.)  And a disk transfer is one step: `virtio_disk_rw`
  sleeps until the device is done.

  `E` and `M` are what the layers above add: further requests on further memory.
-/
import Xv6.Foundation.Interleave
import Xv6.Kernel.Bio
import Xv6.Kernel.Log

set_option autoImplicit false

namespace Xv6

open Foundation

/-! ## State -/

/-- What the history records, besides which nothing reads it: the contents `bread`
returned, the contents passed to `log_write`, and the blocks written to disk. -/
inductive Event where
  | read (b : Nat) (d : Block)
  | logged (b : Nat) (d : Block)
  | wrote (b : Nat) (d : Block)

/-- The disk, the buffer cache, the log, the memory of the layers above, and the
history, newest first. -/
structure Kernel (M : Type) where
  disk : Disk
  bc : Bcache
  log : Log
  mem : M
  hist : List Event

/-- Power-on: nothing cached, and `log` set up by `initlog` as far as
`recover_from_log`. -/
def boot {M : Type} (start size : Nat) (d : Disk) (m : M) : Kernel M where
  disk := d
  bc := Bcache.binit
  log := { start, size, dev := ROOTDEV, outstanding := 0, committing := false, lh := [] }
  mem := m
  hist := []

/-! ## Requests -/

inductive KOp (E : Signature) where
  /-- `bget` up to `acquiresleep` -/
  | bget (dev blockno : Nat)
  | acquiresleep (i : BufId)
  /-- the rest of `bread`: read the block from disk unless it is valid -/
  | fill (i : BufId)
  | getData (i : BufId)
  | setData (i : BufId) (d : Block)
  | bwrite (i : BufId)
  /-- the first half of `brelse` -/
  | releasesleep (i : BufId)
  /-- the second half of `brelse` -/
  | put (i : BufId)
  | bunpin (i : BufId)
  /-- read the fields of `log` that do not change under the reader -/
  | getLog
  /-- set `log.lh` -/
  | setLh (lh : List Nat)
  | logWrite (i : BufId)
  /-- `begin_op` -/
  | beginOp
  /-- `end_op` up to `commit()`: is a commit due? -/
  | dropOp
  /-- `end_op` after `commit()` -/
  | endCommit
  | panic (msg : String)
  /-- a request of the layer above -/
  | ext (o : E.Op)

/-- The requests of the kernel. -/
abbrev KSig (E : Signature) : Signature where
  Op := KOp E
  Resp
    | .bget _ _ => BufId
    | .fill _ => Block
    | .getData _ => Block
    | .getLog => Log
    | .dropOp => Bool
    | .panic _ => Empty
    | .ext o => E.Resp o
    | .acquiresleep _ | .setData _ _ | .bwrite _ | .releasesleep _ | .put _ | .bunpin _
    | .setLh _ | .logWrite _ | .beginOp | .endCommit => Unit

variable {E : Signature} {M : Type}

/-- How a process's requests are answered; `xexec` answers those of the layer
above. -/
def kexec (xexec : Pid → (o : E.Op) → M → Outcome Halt M (E.Resp o)) (p : Pid) :
    (o : KOp E) → Kernel M → Outcome Halt (Kernel M) ((KSig E).Resp o)
  | .bget dev blockno, s =>
      match s.bc.bget dev blockno with
      | some (i, c) => .ret i { s with bc := c }
      | none => .halt (.panic "bget: no buffers") s
  | .acquiresleep i, s =>
      if (s.bc.buf i).lock = none then
        .ret () { s with bc := s.bc.set i { s.bc.buf i with lock := some p } }
      else .halt .wait s
  | .fill i, s =>
      let b := s.bc.buf i
      let d := if b.valid then b.data else s.disk b.blockno
      .ret d { s with
        bc := s.bc.set i { b with valid := true, data := d }
        hist := .read b.blockno d :: s.hist }
  | .getData i, s => .ret (s.bc.buf i).data s
  | .setData i d, s => .ret () { s with bc := s.bc.set i { s.bc.buf i with data := d } }
  | .bwrite i, s =>
      let b := s.bc.buf i
      if b.lock = some p then
        .ret () { s with
          disk := Function.update s.disk b.blockno b.data
          hist := .wrote b.blockno b.data :: s.hist }
      else .halt (.panic "bwrite") s
  | .releasesleep i, s =>
      if (s.bc.buf i).lock = some p then
        .ret () { s with bc := s.bc.set i { s.bc.buf i with lock := none } }
      else .halt (.panic "brelse") s
  | .put i, s => .ret () { s with bc := s.bc.put i }
  | .bunpin i, s => .ret () { s with bc := s.bc.bunpin i }
  | .getLog, s => .ret s.log s
  | .setLh lh, s => .ret () { s with log := { s.log with lh } }
  | .logWrite i, s =>
      match s.log.logWriteCheck with
      | .error e => .halt (.panic e) s
      | .ok _ =>
          let b := s.bc.buf i
          let r := s.log.absorb b.blockno
          .ret () { s with
            log := r.1
            bc := if r.2 then s.bc.bpin i else s.bc
            hist := .logged b.blockno b.data :: s.hist }
  | .beginOp, s =>
      match s.log.beginOp with
      | some l => .ret () { s with log := l }
      | none => .halt .wait s
  | .dropOp, s =>
      match s.log.endOp with
      | .error e => .halt (.panic e) s
      | .ok (l, doCommit) => .ret doCommit { s with log := l }
  | .endCommit, s => .ret () { s with log := s.log.endCommit }
  | .panic msg, s => .halt (.panic msg) s
  | .ext o, s =>
      match xexec p o s.mem with
      | .ret r m => .ret r { s with mem := m }
      | .halt e m => .halt e { s with mem := m }

/-- A layer above that adds nothing. -/
abbrev NoExt : Signature := ⟨Empty, fun o => o.elim⟩

def noExt : Pid → (o : NoExt.Op) → Unit → Outcome Halt Unit (NoExt.Resp o) :=
  fun _ o => o.elim

/-! ## The routines of `bio.c` -/

/-- A routine of the kernel. -/
abbrev KProg (E : Signature) (α : Type) : Type := Prog (KSig E) α

def bread (dev blockno : Nat) : KProg E BufId :=
  .op (.bget dev blockno) fun i =>
  .op (.acquiresleep i) fun _ =>
  .op (.fill i) fun _ =>
  .pure i

def brelse (i : BufId) : KProg E Unit :=
  .op (.releasesleep i) fun _ =>
  .op (.put i) .pure

/-! ## The routines of `log.c`

`log.lh.n` is read once, before a loop over it: nobody changes it while the loop
runs (`GroupCommit.AllOrNothing.exclusive`). -/

/-- The body of the loop of `write_log`. -/
def writeLogBlock (tail : Nat) : KProg E Unit :=
  .op .getLog fun (log : Log) =>
  bread log.dev (log.start + tail + 1) >>= fun dst =>
  .op .getLog fun (log : Log) =>
  bread log.dev (log.lh.getD tail 0) >>= fun src =>
  .op (.getData src) fun (d : Block) =>
  .op (.setData dst d) fun _ =>
  .op (.bwrite dst) fun _ =>
  brelse src >>= fun _ =>
  brelse dst

/-- Copy modified blocks from cache to log. -/
def writeLog : KProg E Unit :=
  .op .getLog fun (log : Log) => Prog.forFrom writeLogBlock 0 log.lh.length

/-- The body of the loop of `install_trans`. -/
def installBlock (tail : Nat) : KProg E Unit :=
  .op .getLog fun (log : Log) =>
  bread log.dev (log.start + tail + 1) >>= fun lbuf =>
  .op .getLog fun (log : Log) =>
  bread log.dev (log.lh.getD tail 0) >>= fun dbuf =>
  .op (.getData lbuf) fun (d : Block) =>
  .op (.setData dbuf d) fun _ =>
  .op (.bwrite dbuf) fun _ =>
  .op (.bunpin dbuf) fun _ =>
  brelse lbuf >>= fun _ =>
  brelse dbuf

/-- Copy committed blocks from log to their home location. -/
def installTrans : KProg E Unit :=
  .op .getLog fun (log : Log) => Prog.forFrom installBlock 0 log.lh.length

/-- Read the log header from disk into the in-memory log header. -/
def readHead : KProg E Unit :=
  .op .getLog fun (log : Log) =>
  bread log.dev log.start >>= fun buf =>
  .op (.getData buf) fun (d : Block) =>
  .op (.setLh (decodeHeader d)) fun _ =>
  brelse buf

/-- Write the in-memory log header to disk. -/
def writeHead : KProg E Unit :=
  .op .getLog fun (log : Log) =>
  bread log.dev log.start >>= fun buf =>
  .op .getLog fun (log : Log) =>
  .op (.getData buf) fun (d : Block) =>
  .op (.setData buf (encodeHeader d log.lh)) fun _ =>
  .op (.bwrite buf) fun _ =>
  brelse buf

def recoverFromLog : KProg E Unit :=
  readHead >>= fun _ =>
  installTrans >>= fun _ =>
  .op (.setLh []) fun _ =>
  writeHead

def commit : KProg E Unit :=
  .op .getLog fun (log : Log) =>
  if 0 < log.lh.length then
    writeLog >>= fun _ =>
    writeHead >>= fun _ =>
    installTrans >>= fun _ =>
    .op (.setLh []) fun _ =>
    writeHead
  else .pure ()

def endOp : KProg E Unit :=
  .op .dropOp fun (doCommit : Bool) =>
  if doCommit then
    commit >>= fun _ =>
    .op .endCommit .pure
  else .pure ()

end Xv6
