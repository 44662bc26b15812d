/-
  Umalloc/Machine.lean --- `umalloc.c`.

  Memory is told by the headers in it: at each address, the one that would be read
  there.  `size` is a `uint`.  Addresses are in bytes, and a header takes `HDR` of them.

  `sbrk` fails, or returns the start of a region that lies above `&base` and above all
  regions it returned before; how far above is given with the call.

  A program may write into the blocks it holds, and what it writes may look like
  anything.
-/
import Mathlib.Data.UInt
import Xv6.Foundation.Chain

set_option autoImplicit false

namespace Xv6.Umalloc

open Function Foundation

/-- `sizeof(Header)` -/
def HDR : Nat := 16

/-- `union header` -/
structure Header where
  ptr : Nat
  size : Nat
  deriving DecidableEq

/-- The memory of a program, its `freep`, and what `sbrk` has given it. -/
structure Heap where
  mem : Nat → Header
  freep : Nat
  /-- the end of the last region -/
  brk : Nat
  /-- the headers' worth of memory in all regions -/
  obtained : Nat

namespace Heap

/-- `p->s.ptr` -/
def next (h : Heap) (p : Nat) : Nat := (h.mem p).ptr

/-- `p->s.ptr = q` -/
def setPtr (h : Heap) (p q : Nat) : Heap :=
  { h with mem := update h.mem p { h.mem p with ptr := q } }

/-- `p->s.size = n` -/
def setSize (h : Heap) (p n : Nat) : Heap :=
  { h with mem := update h.mem p { h.mem p with size := n % 2 ^ 32 } }

end Heap

/-- Where the loop of `free` stops: between two blocks, or at the wrap. -/
def between (h : Heap) (bp p : Nat) : Bool :=
  (decide (p < bp) && decide (bp < h.next p)) ||
    (decide (h.next p ≤ p) && (decide (p < bp) || decide (bp < h.next p)))

/-- `bp` is joined to the block above it, or linked in front of it. -/
def joinAbove (h : Heap) (p bp : Nat) : Heap :=
  if bp + HDR * (h.mem bp).size = h.next p then
    (h.setSize bp ((h.mem bp).size + (h.mem (h.next p)).size)).setPtr bp (h.next (h.next p))
  else h.setPtr bp (h.next p)

/-- The block below is joined to `bp`, or linked to it. -/
def joinBelow (h : Heap) (p bp : Nat) : Heap :=
  if p + HDR * (h.mem p).size = bp then
    (h.setSize p ((h.mem p).size + (h.mem bp).size)).setPtr p (h.next bp)
  else h.setPtr p bp

/-- `free(ap)`, where `bp = (Header*)ap - 1`. -/
def free (fuel : Nat) (h : Heap) (bp : Nat) : Option Heap :=
  match Chain.find h.next (between h bp) fuel h.freep with
  | none => none
  | some p => some { joinBelow (joinAbove h p bp) p bp with freep := p }

/-- `sbrk(nu * sizeof(Header))`, with a region that begins `gap` above the last one. -/
def sbrk (h : Heap) (nu gap : Nat) : Nat × Heap :=
  (h.brk + gap, { h with brk := h.brk + gap + HDR * nu, obtained := h.obtained + nu })

/-- `morecore`, when `sbrk` has given it a region `gap` above the last. -/
def morecore (fuel : Nat) (h : Heap) (nu gap : Nat) : Option Heap :=
  let nu := if nu < 4096 then 4096 else nu
  let (hp, h) := sbrk h nu gap
  free fuel (h.setSize hp nu) hp

/-- The block at `p`, which `prevp` points to, is big enough. -/
def takeBlock (h : Heap) (nunits prevp p : Nat) : Nat × Heap :=
  if (h.mem p).size = nunits then
    (p + HDR, { h.setPtr prevp (h.next p) with freep := prevp })
  else
    let h := h.setSize p ((h.mem p).size - nunits)
    let p := p + HDR * (h.mem p).size
    (p + HDR, { h.setSize p nunits with freep := prevp })

/-- The loop of `malloc`: what it returns, and the heap then.  `gaps` is what `sbrk`
does each time it is called. -/
def mallocLoop (nunits : Nat) :
    Nat → List (Option Nat) → Nat → Nat → Heap → Option (Option Nat × Heap)
  | 0, _, _, _, _ => none
  | fuel + 1, gaps, prevp, p, h =>
    if nunits ≤ (h.mem p).size then
      let (q, h) := takeBlock h nunits prevp p
      some (some q, h)
    else if p = h.freep then
      match gaps.head?.join with
      | none => some (none, h)
      | some gap =>
        match morecore fuel h nunits gap with
        | none => none
        | some h => mallocLoop nunits fuel gaps.tail h.freep (h.next h.freep) h
    else mallocLoop nunits fuel gaps p (h.next p) h

/-- The headers a block of `nbytes` takes, its own included. -/
def units (nbytes : UInt32) : Nat := (nbytes.toNat + HDR - 1) / HDR + 1

/-- `base` is put on a list of its own, the first time. -/
def Heap.start (h : Heap) (base : Nat) : Heap :=
  if h.freep = 0 then { (h.setPtr base base).setSize base 0 with freep := base } else h

/-- `malloc(nbytes)`, with `base` at the given address. -/
def malloc (base fuel : Nat) (h : Heap) (nbytes : UInt32) (gaps : List (Option Nat)) :
    Option (Option Nat × Heap) :=
  let h := h.start base
  mallocLoop (units nbytes) fuel gaps h.freep (h.next h.freep) h

/-! ## Programs -/

/-- Headers `addr`, `addr + HDR` and so on, `size` of them. -/
structure Block where
  addr : Nat
  size : Nat
  deriving DecidableEq

/-- Where a block ends. -/
def Block.stop (b : Block) : Nat := b.addr + HDR * b.size

/-- A block that `malloc` has returned, and what it was asked for. -/
structure Live where
  block : Block
  nbytes : UInt32
  deriving DecidableEq

structure State where
  heap : Heap
  live : List Live

/-- Addresses the program may write at. -/
def State.inLive (s : State) (a : Nat) : Bool :=
  s.live.any fun v => decide (v.block.addr < a) && decide (a < v.block.stop)

inductive Action where
  | malloc (nbytes : UInt32) (gaps : List (Option Nat))
  /-- of a block that is live, by what `malloc` returned -/
  | free (ap : Nat)
  /-- the program writes into its blocks -/
  | write (mem : Nat → Header)

def step (base fuel : Nat) (s : State) : Action → Option State
  | .malloc nbytes gaps =>
    match malloc base fuel s.heap nbytes gaps with
    | none => none
    | some (none, h) => some { s with heap := h }
    | some (some p, h) =>
      some ⟨h, ⟨⟨p - HDR, (h.mem (p - HDR)).size⟩, nbytes⟩ :: s.live⟩
  | .free ap =>
    if s.live.any fun v => v.block.addr + HDR == ap then
      match free fuel s.heap (ap - HDR) with
      | none => none
      | some h => some ⟨h, s.live.filter fun v => v.block.addr + HDR != ap⟩
    else none
  | .write mem =>
    some { s with heap := { s.heap with
      mem := fun a => if s.inLive a then mem a else s.heap.mem a } }

/-- A program starts with no heap, and `freep` zero. -/
def State.boot (mem : Nat → Header) (base : Nat) : State := ⟨⟨mem, 0, base + HDR, 0⟩, []⟩

end Xv6.Umalloc
