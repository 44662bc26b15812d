/-
  Virtio/Machine.lean --- `virtio_disk.c`, and a device that takes requests from its rings.

  Processes and the interrupt handler take turns under `vdisk_lock`; the device does not
  know of the lock, and may look at the rings or write to them between any two steps.  It
  takes the chains that were posted, completes them in any order and at any time, and the
  handler may run at any time, early, late, or once for several completions.

  `sleep` gives up `vdisk_lock` and is asleep in one step: what happens between the two is
  in `Sched/Sleep.lean`.  A process that is woken up takes the lock again.

  Counters of the requests on a buffer are not in the source: how many were posted, how many
  the device completed, how often the handler cleared `b->disk`, and how many calls returned.
-/
import Mathlib.Data.UInt
import Xv6.Foundation.Runs
import Xv6.Kernel.Layout

set_option autoImplicit false

namespace Xv6.Virtio

open Function

/-- this many virtio descriptors. must be a power of two. -/
def NUM : Nat := 8

instance : NeZero NUM := ⟨by decide⟩

/-- chained with another descriptor -/
def VRING_DESC_F_NEXT : UInt16 := 1

/-- device writes (vs read) -/
def VRING_DESC_F_WRITE : UInt16 := 2

/-- read the disk -/
def VIRTIO_BLK_T_IN : UInt32 := 0

/-- write the disk -/
def VIRTIO_BLK_T_OUT : UInt32 := 1

/-! ## What driver and device share -/

/-- `struct virtio_blk_outhdr` -/
structure Outhdr where
  type : UInt32
  reserved : UInt32
  sector : UInt64
  deriving DecidableEq

/-- What the address in a descriptor is the address of. -/
inductive Addr (B : Type) where
  | null
  /-- `buf0`, on the stack of a process that is in `virtio_disk_rw` -/
  | buf0 (hdr : Outhdr)
  /-- `b->data` -/
  | data (b : B)
  /-- `disk.info[i].status` -/
  | status (i : Fin NUM)

structure VRingDesc (B : Type) where
  addr : Addr B
  len : Nat
  flags : UInt16
  next : Nat

/-- An entry of `disk.info`. -/
structure Info (B : Type) where
  b : Option B
  status : UInt8

/-- `struct disk`, with the ring that `avail` points to and the one that `used` points to. -/
structure Disk (B : Type) where
  desc : Fin NUM → VRingDesc B
  /-- `avail[1]` -/
  availIdx : UInt16
  /-- `avail[2..]` -/
  ring : Fin NUM → Nat
  /-- `used->id` -/
  usedId : UInt16
  /-- the `id`s of `used->elems` -/
  elems : Fin NUM → Nat
  /-- is a descriptor free? -/
  free : Fin NUM → Bool
  /-- we've looked this far in used[2..NUM]. -/
  used_idx : UInt16
  info : Fin NUM → Info B

/-- The place in a ring for a counter, `% NUM`. -/
def cell (k : UInt16) : Fin NUM := Fin.ofNat NUM k.toNat

/-- The arguments of a call of `virtio_disk_rw`. -/
structure Req (B : Type) where
  b : B
  blockno : UInt32
  write : Bool

/-- `buf0`; the product is one of `uint`s. -/
def Req.hdr {B : Type} (r : Req B) : Outhdr where
  type := if r.write then VIRTIO_BLK_T_OUT else VIRTIO_BLK_T_IN
  reserved := 0
  sector := (r.blockno * UInt32.ofNat (BSIZE / 512)).toUInt64

/-- `int idx[3]` -/
structure Idx where
  i0 : Fin NUM
  i1 : Fin NUM
  i2 : Fin NUM
  deriving DecidableEq

/-- What the device finds when it follows a chain. -/
structure Chain (B : Type) where
  head : Nat
  hdr : Outhdr
  data : B
  status : Fin NUM

structure Device (B : Type) where
  /-- it has looked this far in `avail[2..]` -/
  last : UInt16
  /-- chains it has taken and not completed -/
  inflight : List (Chain B)
  /-- a chain that is in `used->elems`, but not yet counted in `used->id` -/
  pending : Option (Chain B)

/-! ## Processes -/

/-- How far a call of `virtio_disk_rw` is. -/
inductive Phase (B : Type) where
  | idle
  /-- in the loop around `alloc3_desc` -/
  | asking (r : Req B)
  /-- after the loop -/
  | holding (r : Req B) (idx : Idx)
  /-- before `disk.avail[1] = disk.avail[1] + 1` -/
  | formatted (r : Req B) (idx : Idx)
  /-- in `while(b->disk == 1)` -/
  | posted (r : Req B) (idx : Idx)

/-- Where a process is with `vdisk_lock`. -/
inductive Place where
  | out
  /-- in `acquire`, at the start or on its way out of `sleep` -/
  | want
  | locked
  /-- in `sleep` -/
  | asleep
  deriving DecidableEq

/-- The channels processes sleep on. -/
inductive Chan (B : Type) where
  /-- `&disk.free[0]` -/
  | free
  | buf (b : B)
  deriving DecidableEq

namespace Phase

variable {B : Type}

def buf : Phase B → Option B
  | idle => none
  | asking r | holding r _ | formatted r _ | posted r _ => some r.b

/-- The descriptors of a request, until they are freed. -/
def idx : Phase B → Option Idx
  | idle | asking _ => none
  | holding _ idx | formatted _ idx | posted _ idx => some idx

/-- What a process in this phase sleeps on. -/
def chan : Phase B → Chan B
  | posted r _ => .buf r.b
  | _ => .free

end Phase

inductive Holder (P : Type) where
  | proc (p : P)
  | intr
  deriving DecidableEq

/-- Where `virtio_disk_intr` is. -/
inductive IntrPc where
  /-- at the condition of the loop -/
  | test
  /-- before `int id = ..` -/
  | look
  /-- after it -/
  | clear (id : Nat)

inductive Fault where
  | panic (msg : String)
  /-- an index outside of an array -/
  | bounds
  /-- `disk.info[id].b` is zero and is followed -/
  | null
  /-- the device was given something that is not a request -/
  | chain

/-- The driver, the device, and the processes that use the disk. -/
structure State (P B : Type) where
  disk : Disk B
  /-- `b->disk`: does disk "own" buf? -/
  bufDisk : B → Bool
  phase : P → Phase B
  place : P → Place
  /-- who has `vdisk_lock` -/
  lock : Option (Holder P)
  intr : Option IntrPc
  device : Device B
  fault : Option Fault
  /-- the device has reported an error -/
  failed : Bool
  posted : B → Nat
  completed : B → Nat
  cleared : B → Nat
  returned : B → Nat

variable {P B : Type}

/-- After `virtio_disk_init`, and before the first call. -/
def boot : State P B where
  disk :=
    { desc := fun _ => ⟨.null, 0, 0, 0⟩
      availIdx := 0
      ring := fun _ => 0
      usedId := 0
      elems := fun _ => 0
      free := fun _ => true
      used_idx := 0
      info := fun _ => ⟨none, 0⟩ }
  bufDisk := fun _ => false
  phase := fun _ => .idle
  place := fun _ => .out
  lock := none
  intr := none
  device := ⟨0, [], none⟩
  fault := none
  failed := false
  posted := fun _ => 0
  completed := fun _ => 0
  cleared := fun _ => 0
  returned := fun _ => 0

variable [DecidableEq P] [DecidableEq B]

namespace State

def fail (s : State P B) (f : Fault) : State P B := { s with fault := some f }

/-- A process goes on to this phase and place. -/
def move (s : State P B) (p : P) (phase : Phase B) (place : Place) : State P B :=
  { s with
    phase := update s.phase p phase
    place := update s.place p place }

/-- The place of everybody after `wakeup(chan)`. -/
def woken (s : State P B) (chan : Chan B) (p : P) : Place :=
  if s.place p = .asleep ∧ (s.phase p).chan = chan then .want else s.place p

def wakeup (s : State P B) (chan : Chan B) : State P B := { s with place := s.woken chan }

def unlock (s : State P B) : State P B := { s with lock := none }

end State

/-! ## Descriptors -/

/-- find a free descriptor, mark it non-free, return its index. -/
def alloc_desc (s : State P B) : Option (Fin NUM) × State P B :=
  match (List.finRange NUM).find? s.disk.free with
  | some i => (some i, { s with disk := { s.disk with free := update s.disk.free i false } })
  | none => (none, s)

/-- mark a descriptor as free. -/
def free_desc (i : Nat) (s : State P B) : Except Fault (State P B) :=
  if h : i < NUM then
    let i : Fin NUM := ⟨i, h⟩
    if s.disk.free i then .error (.panic "virtio_disk_intr 2")
    else
      let disk := { s.disk with
        desc := update s.disk.desc i { s.disk.desc i with addr := .null }
        free := update s.disk.free i true }
      .ok ({ s with disk }.wakeup .free)
  else .error (.panic "virtio_disk_intr 1")

/-- free a chain of descriptors.  After `NUM` turns all of them are free, and the next turn
panics. -/
def free_chain : Nat → Nat → State P B → Except Fault (State P B)
  | 0, i, s => free_desc i s
  | turns + 1, i, s => do
      let s ← free_desc i s
      if h : i < NUM then
        let d := s.disk.desc ⟨i, h⟩
        if d.flags &&& VRING_DESC_F_NEXT ≠ 0 then free_chain turns d.next s else .ok s
      else .error .bounds

/-- Three descriptors, or none. -/
def alloc3_desc (s : State P B) : Except Fault (Option Idx × State P B) :=
  match alloc_desc s with
  | (none, s) => .ok (none, s)
  | (some i0, s) =>
    match alloc_desc s with
    | (none, s) => do
      let s ← free_desc i0 s
      .ok (none, s)
    | (some i1, s) =>
      match alloc_desc s with
      | (none, s) => do
        let s ← free_desc i0 s
        let s ← free_desc i1 s
        .ok (none, s)
      | (some i2, s) => .ok (some ⟨i0, i1, i2⟩, s)

/-! ## `virtio_disk_rw` -/

/-- format the three descriptors, and put the first into the ring. -/
def Disk.format (d : Disk B) (r : Req B) (idx : Idx) : Disk B :=
  let desc := update d.desc idx.i0
    { addr := .buf0 r.hdr, len := 16, flags := VRING_DESC_F_NEXT, next := idx.i1 }
  let desc := update desc idx.i1
    { addr := .data r.b
      len := BSIZE
      flags := (if r.write then 0 else VRING_DESC_F_WRITE) ||| VRING_DESC_F_NEXT
      next := idx.i2 }
  let desc := update desc idx.i2
    { addr := .status idx.i0, len := 1, flags := VRING_DESC_F_WRITE, next := 0 }
  { d with
    desc
    info := update d.info idx.i0 { b := some r.b, status := 0 }
    ring := update d.ring (cell d.availIdx) idx.i0 }

/-- What a process does with the lock, to the next time it lets go of it or to where the
device may see a difference. -/
def go (s : State P B) (p : P) : Option (State P B) :=
  match s.phase p with
  | .idle => none
  | .asking r =>
      match alloc3_desc s with
      | .error f => some (s.fail f)
      | .ok (some idx, s) => some (s.move p (.holding r idx) .locked)
      | .ok (none, s) => some (s.move p (.asking r) .asleep).unlock
  | .holding r idx =>
      some { s.move p (.formatted r idx) .locked with
        disk := s.disk.format r idx
        bufDisk := update s.bufDisk r.b true }
  | .formatted r idx =>
      some { s.move p (.posted r idx) .locked with
        disk := { s.disk with availIdx := s.disk.availIdx + 1 }
        posted := update s.posted r.b (s.posted r.b + 1) }
  | .posted r idx =>
      if s.bufDisk r.b then some (s.move p (.posted r idx) .asleep).unlock
      else
        let info := update s.disk.info idx.i0 { s.disk.info idx.i0 with b := none }
        match free_chain NUM idx.i0 { s with disk := { s.disk with info } } with
        | .error f => some (s.fail f)
        | .ok s =>
            some { (s.move p .idle .out).unlock with
              returned := update s.returned r.b (s.returned r.b + 1) }

/-! ## `virtio_disk_intr` -/

def virtio_disk_intr (s : State P B) : Option (State P B) :=
  match s.intr with
  | none =>
      if s.lock = none then some { s with lock := some .intr, intr := some .test } else none
  | some .test =>
      if s.disk.used_idx % UInt16.ofNat NUM ≠ s.disk.usedId % UInt16.ofNat NUM then
        some { s with intr := some .look }
      else some { s with lock := none, intr := none }
  | some .look =>
      if h : s.disk.used_idx.toNat < NUM then
        some { s with intr := some (.clear (s.disk.elems ⟨s.disk.used_idx.toNat, h⟩)) }
      else some (s.fail .bounds)
  | some (.clear id) =>
      if h : id < NUM then
        if (s.disk.info ⟨id, h⟩).status ≠ 0 then some (s.fail (.panic "virtio_disk_intr status"))
        else
          match (s.disk.info ⟨id, h⟩).b with
          | none => some (s.fail .null)
          | some b =>
              some { s.wakeup (.buf b) with
                bufDisk := update s.bufDisk b false
                disk := { s.disk with used_idx := (s.disk.used_idx + 1) % UInt16.ofNat NUM }
                intr := some .test
                cleared := update s.cleared b (s.cleared b + 1) }
      else some (s.fail .bounds)

/-! ## The device -/

def Disk.descAt (d : Disk B) (i : Nat) : Option (VRingDesc B) :=
  if h : i < NUM then some (d.desc ⟨i, h⟩) else none

/-- Three descriptors that make up a request to a disk. -/
def Disk.chain (d : Disk B) (head : Nat) : Option (Chain B) := do
  let d0 ← d.descAt head
  let d1 ← d.descAt d0.next
  let d2 ← d.descAt d1.next
  if d0.flags &&& VRING_DESC_F_NEXT ≠ 0 ∧ d1.flags &&& VRING_DESC_F_NEXT ≠ 0 ∧
      d2.flags &&& VRING_DESC_F_NEXT = 0 then
    match d0.addr, d1.addr, d2.addr with
    | .buf0 hdr, .data b, .status i => some ⟨head, hdr, b, i⟩
    | _, _, _ => none
  else none

/-- The device takes the next chain from the ring. -/
def take (s : State P B) : Option (State P B) :=
  if s.device.last = s.disk.availIdx then none
  else
    match s.disk.chain (s.disk.ring (cell s.device.last)) with
    | none => some (s.fail .chain)
    | some c =>
        some { s with
          device :=
            { s.device with last := s.device.last + 1, inflight := c :: s.device.inflight } }

/-- The device is done with one of its chains, and writes that down. -/
def complete (s : State P B) (k : Nat) (status : UInt8) : Option (State P B) :=
  match s.device.pending, s.device.inflight[k]? with
  | none, some c =>
      some { s with
        disk := { s.disk with
          info := update s.disk.info c.status { s.disk.info c.status with status }
          elems := update s.disk.elems (cell s.disk.usedId) c.head }
        device := { s.device with
          inflight := s.device.inflight.eraseIdx k
          pending := some c }
        failed := s.failed || status ≠ 0 }
  | _, _ => none

/-- The driver can see it. -/
def publish (s : State P B) : Option (State P B) :=
  match s.device.pending with
  | none => none
  | some c =>
      some { s with
        disk := { s.disk with usedId := s.disk.usedId + 1 }
        device := { s.device with pending := none }
        completed := update s.completed c.data (s.completed c.data + 1) }

/-! ## Runs -/

inductive Action (P B : Type) where
  /-- a call of `virtio_disk_rw` -/
  | call (p : P) (r : Req B)
  | acquire (p : P)
  | go (p : P)
  | kill (p : P)
  /-- the next step of `virtio_disk_intr` -/
  | intr
  | take
  | complete (k : Nat) (status : UInt8)
  | publish

variable [Fintype P]

def step (s : State P B) (a : Action P B) : Option (State P B) :=
  if s.fault.isSome then none
  else
    match a with
    | .call p r =>
        -- `b->lock` is held: nobody else is in a call with this buffer
        if (s.phase p).buf = none ∧ ∀ q, (s.phase q).buf ≠ some r.b then
          some (s.move p (.asking r) .want)
        else none
    | .acquire p =>
        if s.place p = .want ∧ s.lock = none then
          some { s.move p (s.phase p) .locked with lock := some (.proc p) }
        else none
    | .go p => if s.place p = .locked then Virtio.go s p else none
    | .kill p => if s.place p = .asleep then some (s.move p (s.phase p) .want) else none
    | .intr => virtio_disk_intr s
    | .take => Virtio.take s
    | .complete k status => Virtio.complete s k status
    | .publish => Virtio.publish s

/-- Any number of steps; `none` if one of them cannot be taken. -/
def run : List (Action P B) → State P B → Option (State P B)
  | [], s => some s
  | a :: as, s => (step s a).bind (run as)

theorem run_isRun : Foundation.IsRun (fun a (s : State P B) => step s a) run :=
  ⟨fun _ => rfl, fun _ _ _ => rfl⟩

end Xv6.Virtio
