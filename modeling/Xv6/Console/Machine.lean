/-
  Console/Machine.lean --- `consoleread` and `consoleintr` of `console.c`.

  One step is one stretch that holds `cons.lock`: an interrupt with one character, or a
  reader from where it takes the lock, at its start or on its way out of `sleep`, to
  where it lets go of it, on return or on its way into `sleep`.  A reader that sleeps
  may go on at any time, whether it was woken up or not, and may or may not find itself
  killed then; what holds of all these runs holds of the ones the scheduler allows.

  The echo on the UART is left out, and `procdump` changes nothing here.

  What `cons.w` has passed and what `cons.r` has passed is recorded, and for every byte
  that was taken, by which call, and whether it got to the buffer of the caller.
-/
import Mathlib.Data.UInt
import Xv6.Foundation.Ring

set_option autoImplicit false

namespace Xv6.Console

open Foundation

def INPUT_BUF : Nat := 128

instance : NeZero INPUT_BUF := ⟨by decide⟩

/-- `C(x)`: Control-x. -/
def ctrl (x : Char) : UInt8 := x.toUInt8 - 64

/-- `'\n'` -/
def NL : UInt8 := 10
/-- `'\r'` -/
def CR : UInt8 := 13
/-- `'\x7f'` -/
def DEL : UInt8 := 127
/-- `C('D')` -/
def EOF : UInt8 := ctrl 'D'

/-! ## The input buffer -/

/-- The `cons` of `console.c`. -/
structure Cons where
  buf : Fin INPUT_BUF → UInt8
  /-- Read index -/
  r : UInt32
  /-- Write index -/
  w : UInt32
  /-- Edit index -/
  e : UInt32

/-- `i % INPUT_BUF` -/
def cell (i : UInt32) : Fin INPUT_BUF := Fin.ofNat INPUT_BUF i.toNat

namespace Cons

/-- The loop of `C('U')`.  Each round moves `e` towards `w`, so there are at most
`e - w` of them. -/
def killLine : Nat → Cons → Cons
  | 0, k => k
  | rounds + 1, k =>
    if k.e ≠ k.w ∧ k.buf (cell (k.e - 1)) ≠ NL then killLine rounds { k with e := k.e - 1 }
    else k

/-- `cons.buf[cons.e++ % INPUT_BUF] = c` -/
def store (k : Cons) (c : UInt8) : Cons :=
  { k with buf := Function.update k.buf (cell k.e) c, e := k.e + 1 }

/-- `consoleintr`, without the `wakeup`. -/
def consoleintr (k : Cons) (c : UInt8) : Cons :=
  if c = ctrl 'P' then k
  else if c = ctrl 'U' then killLine (k.e - k.w).toNat k
  else if c = ctrl 'H' ∨ c = DEL then
    if k.e ≠ k.w then { k with e := k.e - 1 } else k
  else if c ≠ 0 ∧ k.e - k.r < UInt32.ofNat INPUT_BUF then
    let c := if c = CR then NL else c
    let k := k.store c
    if c = NL ∨ c = EOF ∨ k.e = k.r + UInt32.ofNat INPUT_BUF then { k with w := k.e } else k
  else k

/-- The `n` bytes from index `i` on. -/
def bytes (k : Cons) (i : UInt32) (n : Nat) : List UInt8 :=
  (List.range n).map fun j => k.buf (cell (i + UInt32.ofNat j))

end Cons

/-! ## The machine -/

/-- A byte that `cons.r` has passed. -/
structure Taken where
  /-- the call that took it -/
  id : Nat
  byte : UInt8
  /-- whether `either_copyout` put it into the buffer of the caller -/
  copied : Bool
  deriving DecidableEq

/-- What has happened to the buffer: a character came in, or `cons.r` moved on. -/
inductive Event where
  | input (c : UInt8)
  | take
  deriving DecidableEq

/-- A call of `consoleread`.  Its buffer is whether `either_copyout` succeeds for each
byte. -/
structure Call where
  n : Int
  copies : Nat → Bool
  /-- how many bytes are still to be read -/
  left : Nat
  /-- what it returned, if it has -/
  result : Option Int
  /-- how many bytes had been taken when the last stretch of it was over -/
  stop : Nat
  /-- how many bytes had been committed then -/
  seen : Nat
  /-- whether its process was found killed in it -/
  killed : Bool

structure State where
  cons : Cons
  calls : List Call
  /-- the bytes `cons.w` has passed -/
  committed : List UInt8
  /-- the bytes `cons.r` has passed -/
  taken : List Taken
  events : List Event

namespace State

/-- `consoleintr(c)`, and what `cons.w` passes in it. -/
def intr (s : State) (c : UInt8) : State :=
  let k := s.cons.consoleintr c
  { s with
    cons := k
    committed := s.committed ++ k.bytes s.cons.w (k.w - s.cons.w).toNat
    events := s.events ++ [.input c] }

/-- `cons.buf[cons.r % INPUT_BUF]` -/
def front (s : State) : UInt8 := s.cons.buf (cell s.cons.r)

/-- `cons.r++` for call `id`. -/
def take (s : State) (id : Nat) (copied : Bool) : State :=
  { s with
    cons := { s.cons with r := s.cons.r + 1 }
    taken := s.taken ++ [⟨id, s.front, copied⟩]
    events := s.events ++ [.take] }

end State

/-- How a stretch of `consoleread` ends. -/
inductive Stop where
  | ret (value : Int)
  | sleep (left : Nat)

/-- `consoleread` of `target` bytes from the top of its loop, with `left` to go. -/
def readLoop (id : Nat) (copies : Nat → Bool) (killed : Bool) (target : Nat) :
    Nat → State → State × Stop
  | 0, s => (s, .ret target)
  | left + 1, s =>
    let done := target - (left + 1)
    if s.cons.r = s.cons.w then
      if killed then (s, .ret (-1)) else (s, .sleep (left + 1))
    else if s.front = EOF then
      -- `cons.r--` saves the ^D for next time if the caller has got something
      if left + 1 < target then (s, .ret done) else (s.take id false, .ret done)
    else if copies done then
      if s.front = NL then (s.take id true, .ret (done + 1))
      else readLoop id copies killed target left (s.take id true)
    else (s.take id false, .ret done)

/-- What is noted of a call when a stretch of it has ended in state `s`. -/
def Call.after (call : Call) (s : State) (killed : Bool) (stop : Stop) : Call :=
  let call := { call with stop := s.taken.length, seen := s.committed.length, killed }
  match stop with
  | .ret value => { call with result := some value }
  | .sleep left => { call with left := left }

/-- One stretch of `consoleread` in call `id`. -/
def State.stretch (s : State) (id : Nat) (call : Call) (killed : Bool) : State :=
  let (s', stop) := readLoop id call.copies killed call.n.toNat call.left s
  { s' with calls := s'.calls.set id (call.after s' killed stop) }

inductive Action where
  /-- a character from the UART -/
  | intr (c : UInt8)
  /-- some process calls `consoleread` -/
  | read (n : Int) (copies : Nat → Bool) (killed : Bool)
  /-- call `id` goes on -/
  | resume (id : Nat) (killed : Bool)

def step (s : State) : Action → Option State
  | .intr c => some (s.intr c)
  | .read n copies killed =>
    let call : Call := ⟨n, copies, n.toNat, none, 0, 0, false⟩
    some ({ s with calls := s.calls ++ [call] }.stretch s.calls.length call killed)
  | .resume id killed =>
    match s.calls[id]? with
    | none => none
    | some call => if call.result = none then some (s.stretch id call killed) else none

def run : List Action → State → Option State
  | [], s => some s
  | a :: as, s => (step s a).bind (run as)

/-- `cons` is zero at boot. -/
def State.boot : State := ⟨⟨fun _ => 0, 0, 0, 0⟩, [], [], [], []⟩

end Xv6.Console
