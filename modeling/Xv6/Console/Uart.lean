/-
  Console/Uart.lean --- the output side of `uart.c`.

  As for pipes, one step is one stretch that holds `uart_tx_lock`, and a process that
  gives up the lock in `sleep` is asleep by the time the lock is free.  The device may
  change its transmit-idle bit at any time, so what `uartstart` finds each time it reads
  the bit is part of the step; the bit is zero where no more is given.

  The bytes that `uartputc` accepted and those that were written to `THR` are recorded.
-/
import Mathlib.Data.UInt
import Xv6.Foundation.Ring
import Xv6.Foundation.Runs

set_option autoImplicit false

namespace Xv6.Uart

open Function List Foundation

def UART_TX_BUF_SIZE : Nat := 32

instance : NeZero UART_TX_BUF_SIZE := ⟨by decide⟩

/-! ## State -/

/-- What a process is doing.  `c` is what a `char` keeps of the argument. -/
inductive Task where
  | none
  /-- about to take the lock in `uartputc` -/
  | calling (c : UInt8)
  /-- in its loop, on the way out of `sleep` -/
  | waiting (c : UInt8)

structure Proc where
  /-- `SLEEPING` on `&uart_tx_r` -/
  sleeping : Bool
  task : Task

structure State (P : Type) where
  uart_tx_buf : Fin UART_TX_BUF_SIZE → UInt8
  uart_tx_w : Nat
  uart_tx_r : Nat
  panicked : Bool
  /-- a process that found `panicked` set keeps the lock -/
  stuck : Bool
  proc : P → Proc
  accepted : List UInt8
  sent : List UInt8

variable {P : Type}

namespace State

def init : State P := ⟨fun _ => 0, 0, 0, false, false, fun _ => ⟨false, .none⟩, [], []⟩

def setProc [DecidableEq P] (s : State P) (p : P) (x : Proc) : State P :=
  { s with proc := update s.proc p x }

/-- `wakeup(&uart_tx_r)`. -/
def wakeup (s : State P) : State P :=
  { s with proc := fun q => { s.proc q with sleeping := false } }

/-- `((uart_tx_w + 1) % UART_TX_BUF_SIZE) == uart_tx_r`. -/
def full (s : State P) : Prop := (s.uart_tx_w + 1) % UART_TX_BUF_SIZE = s.uart_tx_r

instance (s : State P) : Decidable s.full := inferInstanceAs (Decidable (_ = _))

/-- `c` goes into the buffer. -/
def put (s : State P) (c : UInt8) : State P :=
  { s with
    uart_tx_buf := update s.uart_tx_buf (Fin.ofNat UART_TX_BUF_SIZE s.uart_tx_w) c
    uart_tx_w := (s.uart_tx_w + 1) % UART_TX_BUF_SIZE
    accepted := s.accepted ++ [c] }

/-- The next byte is taken out of the buffer and written to `THR`. -/
def send (s : State P) : State P :=
  { s with
    uart_tx_r := (s.uart_tx_r + 1) % UART_TX_BUF_SIZE
    sent := s.sent ++ [s.uart_tx_buf (Fin.ofNat UART_TX_BUF_SIZE s.uart_tx_r)] }.wakeup

end State

/-! ## Stretches -/

/-- `uartstart`, with what it reads of `LSR_TX_IDLE`. -/
def uartstart : List Bool → State P → State P
  | [], s => s
  | idle :: lsr, s =>
      if s.uart_tx_w = s.uart_tx_r then s
      else if idle = false then s
      else uartstart lsr s.send

section

variable [DecidableEq P]

/-- The loop of `uartputc`, from where it has the lock. -/
def putLoop (p : P) (c : UInt8) (lsr : List Bool) (s : State P) : State P :=
  if s.full then s.setProc p ⟨true, .waiting c⟩
  else (uartstart lsr (s.put c)).setProc p ⟨false, .none⟩

def uartputc (p : P) (c : UInt8) (lsr : List Bool) (s : State P) : State P :=
  if s.panicked = true then { s with stuck := true } else putLoop p c lsr s

inductive Action (P : Type) where
  /-- a process calls `uartputc` -/
  | call (p : P) (c : UInt8)
  /-- the next stretch of the call -/
  | run (p : P) (lsr : List Bool)
  | uartintr (lsr : List Bool)
  /-- `kill`, by anyone -/
  | kill (p : P)
  | panic

def step : Action P → State P → Option (State P)
  | .call p c, s =>
      match (s.proc p).task with
      | .none => some (s.setProc p { s.proc p with task := .calling c })
      | _ => none
  | .run p lsr, s =>
      if s.stuck = true ∨ (s.proc p).sleeping = true then none
      else
        match (s.proc p).task with
        | .none => none
        | .calling c => some (uartputc p c lsr s)
        | .waiting c => some (putLoop p c lsr s)
  | .uartintr lsr, s => if s.stuck = true then none else some (uartstart lsr s)
  | .kill p, s => some (s.setProc p { s.proc p with sleeping := false })
  | .panic, s => some { s with panicked := true }

/-- The states that any interleaving leads to. -/
inductive Reached : State P → Prop where
  | init : Reached State.init
  | step {s t : State P} (a : Action P) (hs : Reached s) (ht : step a s = some t) : Reached t

/-- One interleaving. -/
def run : List (Action P) → State P → Option (State P)
  | [], s => some s
  | a :: as, s => (step a s).bind (run as)

theorem Reached.run {as : List (Action P)} {s t : State P} (hs : Reached s)
    (ht : run as s = some t) : Reached t :=
  have hruns : IsRun (Uart.step (P := P)) Uart.run := ⟨fun _ => rfl, fun _ _ _ => rfl⟩
  hruns.keeps (fun a _ _ hs ht => .step a hs ht) hs ht

end

/-! ## The invariant -/

/-- `q` is in the buffer. -/
structure Buffered (s : State P) (q : List UInt8) : Prop where
  accepted : s.accepted = s.sent ++ q
  window : Ring.Window s.uart_tx_buf s.uart_tx_r q
  read : s.uart_tx_r < UART_TX_BUF_SIZE
  written : s.uart_tx_w = (s.uart_tx_r + q.length) % UART_TX_BUF_SIZE
  room : q.length < UART_TX_BUF_SIZE
  asleep : ∀ p, (s.proc p).sleeping = true → q.length + 1 = UART_TX_BUF_SIZE

namespace Buffered

variable {s : State P} {q : List UInt8}

theorem empty_iff (h : Buffered s q) : s.uart_tx_w = s.uart_tx_r ↔ q = [] := by
  have hr := h.read
  have hroom := h.room
  rw [h.written, ← List.length_eq_zero_iff]
  unfold UART_TX_BUF_SIZE at *
  omega

theorem full_iff (h : Buffered s q) : s.full ↔ q.length + 1 = UART_TX_BUF_SIZE := by
  have hr := h.read
  have hroom := h.room
  rw [State.full, h.written]
  unfold UART_TX_BUF_SIZE at *
  omega

/-- A process changes its own entry. -/
theorem setProc [DecidableEq P] (h : Buffered s q) {p : P} {x : Proc}
    (hx : x.sleeping = true → q.length + 1 = UART_TX_BUF_SIZE) : Buffered (s.setProc p x) q :=
  { h with asleep := (forall_update_iff s.proc fun _ y =>
      y.sleeping = true → q.length + 1 = UART_TX_BUF_SIZE).mpr ⟨hx, fun p _ => h.asleep p⟩ }

theorem put (h : Buffered s q) (hfull : ¬ s.full) (c : UInt8) : Buffered (s.put c) (q ++ [c]) := by
  have hroom := h.room
  rw [h.full_iff] at hfull
  have hcell : Fin.ofNat UART_TX_BUF_SIZE s.uart_tx_w =
      Fin.ofNat UART_TX_BUF_SIZE (s.uart_tx_r + q.length) := by
    rw [h.written, Ring.ofNat_mod (dvd_refl _)]
  refine ⟨?_, ?_, h.read, ?_, ?_, fun p hp => absurd (h.asleep p hp) hfull⟩
  · rw [State.put, h.accepted, append_assoc]
  · rw [State.put, hcell]
    exact (h.window.update_end hroom).snoc (update_self ..)
  · rw [State.put, h.written, length_append, length_singleton, Nat.mod_add_mod, Nat.add_assoc]
  · rw [length_append, length_singleton]
    omega

theorem send {x : UInt8} (h : Buffered s (x :: q)) : Buffered s.send q := by
  have hroom := h.room
  rw [length_cons] at hroom
  refine ⟨?_, ?_, Nat.mod_lt _ (by decide), ?_, by omega, fun p hp => (by cases hp)⟩
  · rw [State.send, State.wakeup, h.accepted, h.window.head, append_assoc, singleton_append]
  · exact h.window.tail.congr (Ring.ofNat_mod (dvd_refl _) _)
  · rw [State.send, State.wakeup, h.written, length_cons, Nat.mod_add_mod, Nat.add_right_comm,
      Nat.add_assoc]

theorem uartstart (lsr : List Bool) (h : Buffered s q) : ∃ q', Buffered (uartstart lsr s) q' := by
  induction lsr generalizing s q with
  | nil => exact ⟨q, h⟩
  | cons idle lsr ih =>
    rw [Uart.uartstart]
    split
    · exact ⟨q, h⟩
    · rename_i hempty
      split
      · exact ⟨q, h⟩
      · cases q with
        | nil => exact absurd (h.empty_iff.mpr rfl) hempty
        | cons x q => exact ih h.send

variable [DecidableEq P]

theorem putLoop (h : Buffered s q) (p : P) (c : UInt8) (lsr : List Bool) :
    ∃ q', Buffered (putLoop p c lsr s) q' := by
  rw [Uart.putLoop]
  split
  · rename_i hfull
    exact ⟨q, h.setProc fun _ => h.full_iff.mp hfull⟩
  · rename_i hfull
    obtain ⟨q', h'⟩ := (h.put hfull c).uartstart lsr
    exact ⟨q', h'.setProc fun hp => by cases hp⟩

theorem step {t : State P} {a : Action P} (h : Buffered s q) (ht : step a s = some t) :
    ∃ q', Buffered t q' := by
  cases a with
  | call p c =>
    simp only [Uart.step] at ht
    split at ht
    · cases ht
      exact ⟨q, h.setProc (h.asleep p)⟩
    · cases ht
  | run p lsr =>
    simp only [Uart.step] at ht
    split at ht
    · cases ht
    · split at ht
      · cases ht
      · rename_i c _
        cases ht
        rw [uartputc]
        split
        · exact ⟨q, { h with }⟩
        · exact h.putLoop p c lsr
      · rename_i c _
        cases ht
        exact h.putLoop p c lsr
  | uartintr lsr =>
    simp only [Uart.step] at ht
    split at ht
    · cases ht
    · cases ht
      exact h.uartstart lsr
  | kill p =>
    cases ht
    exact ⟨q, h.setProc fun hp => by cases hp⟩
  | panic =>
    cases ht
    exact ⟨q, { h with }⟩

end Buffered

variable [DecidableEq P] {s : State P}

theorem Reached.buffered (h : Reached s) : ∃ q, Buffered s q := by
  induction h with
  | init =>
    have hpos : 0 < UART_TX_BUF_SIZE := by decide
    exact ⟨[], rfl, Ring.window_nil _ _, hpos, rfl, hpos, fun p hp => by cases hp⟩
  | step a _ ht ih =>
    obtain ⟨q, hq⟩ := ih
    exact hq.step ht

/-- In every interleaving the bytes sent are the first ones of those accepted, the indices
stay within the buffer, at most 31 bytes wait in it, and who sleeps waits for room. -/
theorem uart_fifo (h : Reached s) :
    s.sent <+: s.accepted ∧
      s.uart_tx_r < UART_TX_BUF_SIZE ∧ s.uart_tx_w < UART_TX_BUF_SIZE ∧
      s.accepted.length ≤ s.sent.length + 31 ∧
      ∀ p, (s.proc p).sleeping = true → s.full ∧ s.accepted.length = s.sent.length + 31 := by
  obtain ⟨q, hq⟩ := h.buffered
  have hroom : q.length < 32 := hq.room
  have hlen : s.accepted.length = s.sent.length + q.length := by rw [hq.accepted, length_append]
  refine ⟨⟨q, hq.accepted.symm⟩, hq.read, ?_, by omega, fun p hp => ?_⟩
  · rw [hq.written]
    exact Nat.mod_lt _ (by decide)
  · have hfull : q.length + 1 = 32 := hq.asleep p hp
    exact ⟨hq.full_iff.mpr hfull, by omega⟩

/-- Two processes put 32 bytes in turn, and the device is not idle. -/
def fillUp : List (Action Bool) :=
  (range 32).flatMap fun i => [.call (i % 2 == 0) (UInt8.ofNat i), .run (i % 2 == 0) []]

/-- Then it takes two bytes, and the process that had to sleep puts the last one. -/
def goOn : List (Action Bool) := [.uartintr [true, true, false], .run false [true, false]]

theorem uart_fifo_two : ∃ s t : State Bool, run fillUp .init = some s ∧ run goOn s = some t ∧
    (s.proc false).sleeping = true ∧ s.full ∧ s.accepted.length = s.sent.length + 31 ∧
    t.sent = [0, 1, 2] ∧ t.accepted.length = 32 ∧ t.sent <+: t.accepted := by
  have hcheck : (run fillUp .init).any (fun s => (s.proc false).sleeping = true ∧
      (run goOn s).any (fun t => t.sent = [0, 1, 2] ∧ t.accepted.length = 32) = true) = true := by
    decide
  obtain ⟨s, hs, hcheck⟩ := (Option.any_eq_true _ _).mp hcheck
  obtain ⟨hasleep, hcheck⟩ := of_decide_eq_true hcheck
  obtain ⟨t, ht, hcheck⟩ := (Option.any_eq_true _ _).mp hcheck
  obtain ⟨hsent, hlen⟩ := of_decide_eq_true hcheck
  have hreached := Reached.init.run hs
  obtain ⟨-, -, -, -, hfull⟩ := uart_fifo hreached
  obtain ⟨hfull, hcount⟩ := hfull false hasleep
  exact ⟨s, t, hs, ht, hasleep, hfull, hcount, hsent, hlen, (uart_fifo (hreached.run ht)).1⟩

end Xv6.Uart
