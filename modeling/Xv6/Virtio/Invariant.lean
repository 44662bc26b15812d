/-
  Virtio/Invariant.lean --- what holds between the steps of driver and device.

  Every request that the handler has not seen yet is in one of four places: in the ring of
  posted chains, with the device, in a cell of the ring of completed chains that is not yet
  counted, or in that ring.  Its chain is nowhere twice.  So there are never more chains on
  the way than there are requests with descriptors, and fewer than a ring has cells.
-/
import Xv6.Foundation.Ring
import Xv6.Virtio.Machine

set_option autoImplicit false

namespace Xv6.Virtio

open Foundation.Ring (Window)

variable {P B : Type}

/-! ## Descriptors -/

/-- The descriptors of a request. -/
def Idx.set (idx : Idx) : Finset (Fin NUM) := {idx.i0, idx.i1, idx.i2}

/-- They are three. -/
structure Idx.Distinct (idx : Idx) : Prop where
  h01 : idx.i0 ≠ idx.i1
  h02 : idx.i0 ≠ idx.i2
  h12 : idx.i1 ≠ idx.i2

/-- Who has which descriptors. -/
structure Owned (free : Fin NUM → Bool) (phase : P → Phase B) : Prop where
  distinct : ∀ p idx, (phase p).idx = some idx → idx.Distinct
  apart : ∀ p q idx idx', (phase p).idx = some idx → (phase q).idx = some idx' → p ≠ q →
    Disjoint idx.set idx'.set
  used : ∀ i, free i = false ↔ ∃ p idx, (phase p).idx = some idx ∧ i ∈ idx.set

/-- The chain of a request is in its descriptors. -/
structure Formed (d : Disk B) (r : Req B) (idx : Idx) : Prop where
  d0 : d.desc idx.i0 = ⟨.buf0 r.hdr, 16, VRING_DESC_F_NEXT, idx.i1⟩
  d1 : d.desc idx.i1 = ⟨.data r.b, BSIZE,
    (if r.write then 0 else VRING_DESC_F_WRITE) ||| VRING_DESC_F_NEXT, idx.i2⟩
  d2 : d.desc idx.i2 = ⟨.status idx.i0, 1, VRING_DESC_F_WRITE, 0⟩
  b : (d.info idx.i0).b = some r.b

/-- What the device reads there. -/
def chainOf (r : Req B) (idx : Idx) : Chain B := ⟨idx.i0, r.hdr, r.b, idx.i0⟩

/-! ## The invariant -/

/-- In a phase that is passed through without letting go of the lock. -/
def Phase.inside : Phase B → Prop
  | .holding _ _ | .formatted _ _ => True
  | _ => False

/-- Who is where, and who has the lock. -/
structure Locking (phase : P → Phase B) (place : P → Place) (lock : Option (Holder P))
    (intr : Option IntrPc) : Prop where
  proc : ∀ p, place p = .locked ↔ lock = some (.proc p)
  intr : intr.isSome = true ↔ lock = some .intr
  inside : ∀ p, (phase p).inside → place p = .locked
  idle : ∀ p, phase p = .idle → place p = .out

/-- No two processes are in calls with the same buffer. -/
def Alone (phase : P → Phase B) : Prop :=
  ∀ p q b, (phase p).buf = some b → (phase q).buf = some b → p = q

/-- A request whose chain is on its way. -/
def Waiting (phase : P → Phase B) (bufDisk : B → Bool) (c : Chain B) : Prop :=
  ∃ p r idx, phase p = .posted r idx ∧ bufDisk r.b = true ∧ c = chainOf r idx

/-- All chains that are on their way: in the one ring, with the device, in the other. -/
def State.chains (s : State P B) (aq uq : List (Chain B)) : List (Chain B) :=
  aq ++ s.device.inflight ++ s.device.pending.toList ++ uq

structure Queues (s : State P B) (aq uq : List (Chain B)) : Prop where
  nodup : (s.chains aq uq).Nodup
  mem : ∀ c, c ∈ s.chains aq uq ↔ Waiting s.phase s.bufDisk c
  avail : s.disk.availIdx.toNat = (s.device.last.toNat + aq.length) % 2 ^ 16
  ring : Window s.disk.ring s.device.last.toNat (aq.map Chain.head)
  used_lt : s.disk.used_idx.toNat < NUM
  used : Fin.ofNat NUM s.disk.usedId.toNat = Fin.ofNat NUM (s.disk.used_idx.toNat + uq.length)
  elems : Window s.disk.elems s.disk.used_idx.toNat (uq.map Chain.head)
  pending : ∀ c, s.device.pending = some c → s.disk.elems (cell s.disk.usedId) = c.head
  ready : ∀ p r idx, s.phase p = .formatted r idx →
    s.disk.ring (cell s.disk.availIdx) = idx.i0 ∧ s.bufDisk r.b = true

/-- What the handler knows of the ring of completed chains. -/
def Handler : Option IntrPc → List (Chain B) → Prop
  | some .look, uq => uq ≠ []
  | some (.clear id), uq => ∃ c rest, uq = c :: rest ∧ c.head = id
  | _, _ => True

/-- The requests on a buffer: at most one has been posted and has not returned. -/
structure Counts (s : State P B) (uq : List (Chain B)) : Prop where
  quiet : ∀ b, (∀ p r idx, s.phase p = .posted r idx → r.b ≠ b) →
    s.posted b = s.returned b ∧ s.completed b = s.returned b ∧ s.cleared b = s.returned b
  posted : ∀ p r idx, s.phase p = .posted r idx → s.posted r.b = s.returned r.b + 1
  done : ∀ p r idx, s.phase p = .posted r idx → s.bufDisk r.b = false →
    s.completed r.b = s.returned r.b + 1 ∧ s.cleared r.b = s.returned r.b + 1
  waiting : ∀ p r idx, s.phase p = .posted r idx → s.bufDisk r.b = true →
    s.cleared r.b = s.returned r.b ∧
      (chainOf r idx ∈ uq → s.completed r.b = s.returned r.b + 1) ∧
      (chainOf r idx ∉ uq → s.completed r.b = s.returned r.b)

structure Inv (s : State P B) : Prop where
  locking : Locking s.phase s.place s.lock s.intr
  owned : Owned s.disk.free s.phase
  alone : Alone s.phase
  formed : ∀ p r idx, s.phase p = .formatted r idx ∨ s.phase p = .posted r idx →
    Formed s.disk r idx
  status : s.failed = false → ∀ i, (s.disk.info i).status = 0
  fault : ∀ f, s.fault = some f → f = .panic "virtio_disk_intr status" ∧ s.failed = true
  flow : ∃ aq uq, Queues s aq uq ∧ Handler s.intr uq ∧ Counts s uq

theorem boot_inv : Inv (boot : State P B) where
  locking := ⟨fun p => by simp [boot], by simp [boot], fun p h => by simp [boot, Phase.inside] at h,
    fun p _ => rfl⟩
  owned := ⟨fun p idx h => by simp [boot, Phase.idx] at h,
    fun p q idx idx' h => by simp [boot, Phase.idx] at h, fun i => by simp [boot, Phase.idx]⟩
  alone p q b h := by simp [boot, Phase.buf] at h
  formed p r idx h := by simp [boot] at h
  status _ _ := rfl
  fault f h := by simp [boot] at h
  flow := by
    refine ⟨[], [], ⟨?_, ?_, ?_, ?_, ?_, ?_, ?_, ?_, ?_⟩, trivial, ⟨?_, ?_, ?_, ?_⟩⟩
    · simp [State.chains, boot]
    · simp [State.chains, boot, Waiting]
    · simp [boot]
    · exact Foundation.Ring.window_nil _ _
    · simp [boot, NUM]
    · simp [boot]
    · exact Foundation.Ring.window_nil _ _
    · simp [boot]
    · simp [boot]
    · simp [boot]
    · simp [boot]
    · simp [boot]
    · simp [boot]

/-! ## Chains in descriptors -/

variable {d d' : Disk B} {r : Req B} {idx : Idx} {i : Fin NUM}

theorem Idx.mem_set : i ∈ idx.set ↔ i = idx.i0 ∨ i = idx.i1 ∨ i = idx.i2 := by
  simp [Idx.set]

theorem Idx.i0_mem (idx : Idx) : idx.i0 ∈ idx.set := by simp [Idx.set]
theorem Idx.i1_mem (idx : Idx) : idx.i1 ∈ idx.set := by simp [Idx.set]
theorem Idx.i2_mem (idx : Idx) : idx.i2 ∈ idx.set := by simp [Idx.set]

theorem Idx.Distinct.card (h : idx.Distinct) : idx.set.card = 3 :=
  Finset.card_eq_three.mpr ⟨_, _, _, h.h01, h.h02, h.h12, rfl⟩

/-- Only the descriptors of the request and one entry of `info` matter. -/
theorem Formed.congr (h : Formed d r idx) (hdesc : ∀ i ∈ idx.set, d'.desc i = d.desc i)
    (hinfo : (d'.info idx.i0).b = (d.info idx.i0).b) : Formed d' r idx where
  d0 := (hdesc _ idx.i0_mem).trans h.d0
  d1 := (hdesc _ idx.i1_mem).trans h.d1
  d2 := (hdesc _ idx.i2_mem).trans h.d2
  b := hinfo.trans h.b

/-- The flags of the second descriptor. -/
theorem data_flags_next (write : Bool) :
    ((if write then 0 else VRING_DESC_F_WRITE) ||| VRING_DESC_F_NEXT) &&& VRING_DESC_F_NEXT
      ≠ 0 := by
  cases write
  · decide
  · decide

theorem format_formed (d : Disk B) (r : Req B) (h : idx.Distinct) :
    Formed (d.format r idx) r idx where
  d0 := by simp [Disk.format, h.h01, h.h02]
  d1 := by simp [Disk.format, h.h12]
  d2 := by simp [Disk.format]
  b := by simp [Disk.format]

theorem format_desc_of_notMem (h : i ∉ idx.set) : (d.format r idx).desc i = d.desc i := by
  rw [Idx.mem_set, not_or, not_or] at h
  simp [Disk.format, h.1, h.2.1, h.2.2]

theorem format_info_of_ne (h : i ≠ idx.i0) : (d.format r idx).info i = d.info i := by
  simp [Disk.format, h]

theorem descAt_val (d : Disk B) (i : Fin NUM) : d.descAt i = some (d.desc i) := dif_pos i.isLt

/-- The device reads the request. -/
theorem Formed.chain (h : Formed d r idx) : d.chain idx.i0 = some (chainOf r idx) := by
  have hflags := data_flags_next r.write
  simp only [Disk.chain, descAt_val, h.d0, h.d1, h.d2, Option.bind_eq_bind, Option.bind_some]
  rw [if_pos ⟨by decide, hflags, by decide⟩]
  rfl

end Xv6.Virtio
