/-
  Foundation/Prog.lean --- programs as trees of requests, and what their runs do.

  A kernel routine is modelled as a tree: it either returns, or makes one
  request to the layer below and continues with the reply.  The tree says
  nothing about how requests are answered, so one and the same routine can be

    * run to its end by a single caller            (`Prog.run`),
    * cut off after any number of its requests     (`Prog.Reaches`),
    * compiled into the requests of a lower layer  (`Prog.interp`),
    * interleaved with other routines              (`Foundation/Interleave.lean`).

  `Prog.cwp` is the matching program logic: a precondition for "the crash
  condition holds at every point where the routine may be cut off, and the
  postcondition holds if it returns".  A run that halts (a panic, or a request
  that waits for ever) owes no postcondition.

  Nothing here mentions the kernel.
-/
import Mathlib.Logic.Basic

set_option autoImplicit false

namespace Xv6.Foundation

/-- The requests a layer offers, and the type of the reply to each of them. -/
structure Signature where
  Op : Type
  Resp : Op → Type

/-- A program over a signature: a value, or a request and what to do with the
reply. -/
inductive Prog (S : Signature) (α : Type) : Type where
  | pure (a : α) : Prog S α
  | op (o : S.Op) (k : S.Resp o → Prog S α) : Prog S α

/-- The result of a run: a value in a final state, or a halt for some reason. -/
inductive Outcome (ε σ α : Type) : Type where
  | ret (a : α) (s : σ) : Outcome ε σ α
  | halt (e : ε) (s : σ) : Outcome ε σ α
  deriving Repr, DecidableEq

variable {S T : Signature} {α β γ ε σ : Type}

/-- The run returned. -/
def Outcome.isRet : Outcome ε σ α → Bool
  | .ret _ _ => true
  | .halt _ _ => false

theorem Outcome.exists_ret {r : Outcome ε σ Unit} (h : r.isRet = true) : ∃ s, r = .ret () s := by
  cases r with
  | ret a s => exact ⟨s, rfl⟩
  | halt e s => cases h

/-- The run returned with `Q`, or halted for a reason in `E`. -/
def Outcome.Meets : Outcome ε σ α → (α → σ → Prop) → (ε → Prop) → Prop
  | .ret a s, Q, _ => Q a s
  | .halt e _, _, E => E e

theorem Outcome.Meets.mono {r : Outcome ε σ α} {Q Q' : α → σ → Prop} {E : ε → Prop}
    (h : r.Meets Q E) (hQ : ∀ a s, Q a s → Q' a s) : r.Meets Q' E := by
  cases r with
  | ret a s => exact hQ a s h
  | halt e s => exact h

variable {Q : α → σ → Prop}

/-- A run that may not halt returns. -/
theorem Outcome.Meets.exists_ret {r : Outcome ε σ α} (h : r.Meets Q fun _ => False) :
    ∃ a s, r = .ret a s ∧ Q a s := by
  cases r with
  | ret a s => exact ⟨a, s, rfl, h⟩
  | halt e s => exact h.elim

namespace Prog

/-- Sequencing. -/
def bind : Prog S α → (α → Prog S β) → Prog S β
  | .pure a, f => f a
  | .op o k, f => .op o fun r => (k r).bind f

instance : Monad (Prog S) where
  pure := .pure
  bind := bind

@[simp] theorem pure_bind (a : α) (f : α → Prog S β) :
    (Prog.pure a : Prog S α) >>= f = f a := rfl

@[simp] theorem op_bind (o : S.Op) (k : S.Resp o → Prog S α) (f : α → Prog S β) :
    (Prog.op o k : Prog S α) >>= f = .op o fun r => k r >>= f := rfl

theorem bind_pure (m : Prog S α) : m >>= (Prog.pure : α → Prog S α) = m := by
  induction m with
  | pure a => rfl
  | op o k ih => simp only [op_bind, ih]

@[simp] theorem bind_assoc (m : Prog S α) (f : α → Prog S β) (g : β → Prog S γ) :
    m >>= f >>= g = m >>= fun a => f a >>= g := by
  induction m with
  | pure a => rfl
  | op o k ih => simp only [op_bind, ih]

/-- `f i; f (i + 1); ...`, `n` iterations: a counting loop. -/
def forFrom (f : Nat → Prog S Unit) : Nat → Nat → Prog S Unit
  | _, 0 => .pure ()
  | i, n + 1 => f i >>= fun _ => forFrom f (i + 1) n

/-! ## Running a program by itself -/

/-- Run a program to its end, `exec` answering the requests. -/
def run (exec : (o : S.Op) → σ → Outcome ε σ (S.Resp o)) :
    Prog S α → σ → Outcome ε σ α
  | .pure a, s => .ret a s
  | .op o k, s =>
      match exec o s with
      | .ret r s' => (k r).run exec s'
      | .halt e s' => .halt e s'

/-- `t` is a state the program passes through: the state in which it is found
when it is cut off after some number of its requests. -/
inductive Reaches (exec : (o : S.Op) → σ → Outcome ε σ (S.Resp o)) :
    Prog S α → σ → σ → Prop where
  | here (p : Prog S α) (s : σ) : Reaches exec p s s
  | step {o : S.Op} {k : S.Resp o → Prog S α} {s s' t : σ} {r : S.Resp o}
      (h : exec o s = .ret r s') (rest : Reaches exec (k r) s' t) :
      Reaches exec (.op o k) s t

variable {exec : (o : S.Op) → σ → Outcome ε σ (S.Resp o)} {m : Prog S α} {s t : σ}

theorem run_bind_ret {f : α → Prog S β} {b : β} (h : (m >>= f).run exec s = .ret b t) :
    ∃ a s', m.run exec s = .ret a s' ∧ (f a).run exec s' = .ret b t := by
  induction m generalizing s with
  | pure a => exact ⟨a, s, rfl, h⟩
  | op o k ih =>
    rw [op_bind, run] at h
    cases hx : exec o s with
    | halt e s' => rw [hx] at h; cases h
    | ret r s' =>
      rw [hx] at h
      obtain ⟨a, s'', hm, hf⟩ := ih r h
      exact ⟨a, s'', by rw [run, hx]; exact hm, hf⟩

/-- The state after `n` requests, or after all if there are fewer. -/
def runFor (exec : (o : S.Op) → σ → Outcome ε σ (S.Resp o)) : Nat → Prog S α → σ → σ
  | 0, _, s => s
  | _ + 1, .pure _, s => s
  | n + 1, .op o k, s =>
    match exec o s with
    | .ret r s' => runFor exec n (k r) s'
    | .halt _ _ => s

theorem Reaches.of_runFor (n : Nat) : ∀ (m : Prog S α) (s : σ),
    Reaches exec m s (runFor exec n m s) := by
  induction n with
  | zero => exact fun m s => .here m s
  | succ n ih =>
    intro m s
    cases m with
    | pure a => exact .here _ s
    | op o k =>
      rw [runFor]
      cases hx : exec o s with
      | halt e s' => exact .here _ s
      | ret r s' => exact .step hx (ih (k r) s')

/-! ## Compiling one layer into the next -/

/-- Replace every request by the program of the lower layer that implements it. -/
def interp (h : (o : S.Op) → Prog T (S.Resp o)) : Prog S α → Prog T α
  | .pure a => .pure a
  | .op o k => h o >>= fun r => (k r).interp h

@[simp] theorem interp_bind (h : (o : S.Op) → Prog T (S.Resp o)) (m : Prog S α) (f : α → Prog S β) :
    (m >>= f).interp h = m.interp h >>= fun a => (f a).interp h := by
  induction m with
  | pure a => rfl
  | op o k ih => simp only [op_bind, interp, ih, bind_assoc]

/-! ## Requests in order -/

section Along

variable {may : σ → S.Op → Prop} {step : σ → (o : S.Op) → S.Resp o → σ → Prop}

/-- Every request is made in a state that allows it, whatever the replies are, and `Q` holds at the
end. -/
@[simp] def along (may : σ → S.Op → Prop) (step : σ → (o : S.Op) → S.Resp o → σ → Prop) :
    Prog S α → (α → σ → Prop) → σ → Prop
  | .pure a, Q, s => Q a s
  | .op o k, Q, s => may s o ∧ ∀ r t, step s o r t → (k r).along may step Q t

@[simp] theorem along_bind {f : α → Prog S β} {Q : β → σ → Prop} :
    (m >>= f).along may step Q s ↔ m.along may step (fun a => (f a).along may step Q) s := by
  induction m generalizing s with
  | pure a => rfl
  | op o k ih => simp only [op_bind, along, ih]

@[simp] theorem along_ite {c : Prop} [Decidable c] {n : Prog S α} :
    (if c then m else n).along may step Q s ↔
    (c → m.along may step Q s) ∧ (¬ c → n.along may step Q s) := by
  split <;> simp_all

end Along

/-! ## The crash weakest precondition -/

/-- From `s`, the crash condition `C` holds at every point of the run, and the
postcondition `Q` holds if the run returns. -/
def cwp (exec : (o : S.Op) → σ → Outcome ε σ (S.Resp o)) (C : σ → Prop) :
    Prog S α → (α → σ → Prop) → σ → Prop
  | .pure a, Q, s => C s ∧ Q a s
  | .op o k, Q, s => C s ∧ ∀ r s', exec o s = .ret r s' → (k r).cwp exec C Q s'

variable {C : σ → Prop}

theorem cwp.crash {s : σ} (h : cwp exec C m Q s) : C s := by
  cases m <;> exact h.1

theorem cwp_mono {Q Q' : α → σ → Prop} {s : σ} (h : cwp exec C m Q s)
    (hQ : ∀ a t, C t → Q a t → Q' a t) :
    cwp exec C m Q' s := by
  induction m generalizing s with
  | pure a => exact ⟨h.1, hQ a s h.1 h.2⟩
  | op o k ih => exact ⟨h.1, fun r s' hx => ih r (h.2 r s' hx)⟩

theorem cwp_bind {f : α → Prog S β} {Q : β → σ → Prop} {s : σ}
    (h : cwp exec C m (fun a t => cwp exec C (f a) Q t) s) :
    cwp exec C (m >>= f) Q s := by
  induction m generalizing s with
  | pure a => exact h.2
  | op o k ih => exact ⟨h.1, fun r s' hx => ih r (h.2 r s' hx)⟩

/-- The crash condition holds wherever the program is cut off. -/
theorem cwp.reaches (h : cwp exec C m Q s) (hr : Reaches exec m s t) : C t := by
  induction hr with
  | here p s => exact h.crash
  | step hx _ ih => exact ih (h.2 _ _ hx)

/-- The postcondition holds when the program returns. -/
theorem cwp.run {a : α} (h : cwp exec C m Q s) (hr : m.run exec s = .ret a t) : Q a t := by
  induction m generalizing s with
  | pure b => cases hr; exact h.2
  | op o k ih =>
    rw [Prog.run] at hr
    cases hx : exec o s with
    | halt e s' => rw [hx] at hr; cases hr
    | ret r s' => rw [hx] at hr; exact ih r (h.2 r s' hx) hr

/-- The loop rule: an invariant indexed by the loop counter. -/
theorem cwp_forFrom {f : Nat → Prog S Unit} {I : Nat → σ → Prop} {N : Nat} (hC : ∀ j s, I j s → C s)
    (hf : ∀ j s, j < N → I j s → cwp exec C (f j) (fun _ t => I (j + 1) t) s) :
    ∀ (n i : Nat) (s : σ), i + n = N → I i s → cwp exec C (forFrom f i n) (fun _ t => I N t) s := by
  intro n
  induction n with
  | zero =>
    intro i s hi h
    have : i = N := by omega
    subst this
    exact ⟨hC _ s h, h⟩
  | succ n ih =>
    intro i s hi h
    apply cwp_bind
    apply cwp_mono (hf i s (by omega) h)
    intro _ t _ ht
    exact ih (i + 1) t (by omega) ht

end Prog

end Xv6.Foundation
