/-
  Foundation/Total.lean --- weakest preconditions for state-passing code that may
  give up.

  `Total m Q s` says that `m`, started in `s`, returns, and returns a result and a
  state that satisfy `Q`.  A computation that throws satisfies no postcondition, so
  a proof of `Total` is also a proof that no failure is reached.

  The rules read a computation from its first step on; a routine is proved once and
  its callers use `Total.mono` on what was proved.  `Whenever m Q s` is about the runs
  that return only; it adds to what `Total` says (`Total.and`).

  Nothing here mentions the kernel.
-/
import Mathlib.Init

set_option autoImplicit false

namespace Xv6.Foundation

variable {S E α β : Type}

/-- `m` returns from `s`, with a result and a state that satisfy `Q`. -/
def Total (m : StateT S (Except E) α) (Q : α → S → Prop) (s : S) : Prop :=
  ∃ a s', m.run s = .ok (a, s') ∧ Q a s'

variable {Q : α → S → Prop} {P : α → S → Prop} {a : α}

namespace Total

variable {m : StateT S (Except E) α} {f : α → StateT S (Except E) β} {s : S}

theorem mono {Q Q' : α → S → Prop} (h : Total m Q s) (hQ : ∀ a s', Q a s' → Q' a s') :
    Total m Q' s := by
  obtain ⟨a, s', hrun, hq⟩ := h
  exact ⟨a, s', hrun, hQ a s' hq⟩

theorem pure (h : Q a s) : Total (Pure.pure a : StateT S (Except E) α) Q s :=
  ⟨a, s, rfl, h⟩

theorem bind {Q : β → S → Prop} (h : Total m (fun a => Total (f a) Q) s) : Total (m >>= f) Q s := by
  obtain ⟨a, s', hm, b, s'', hf, hQ⟩ := h
  refine ⟨b, s'', ?_, hQ⟩
  rw [StateT.run_bind, hm]
  exact hf

theorem get {Q : S → S → Prop} (h : Q s s) : Total (MonadState.get : StateT S (Except E) S) Q s :=
  ⟨s, s, rfl, h⟩

theorem set {Q : PUnit → S → Prop} {s' : S} (h : Q ⟨⟩ s') :
    Total (MonadStateOf.set s' : StateT S (Except E) PUnit) Q s :=
  ⟨⟨⟩, s', rfl, h⟩

theorem modify {Q : PUnit → S → Prop} {g : S → S} (h : Q ⟨⟩ (g s)) :
    Total (modifyGet fun x => (⟨⟩, g x) : StateT S (Except E) PUnit) Q s :=
  ⟨⟨⟩, g s, rfl, h⟩

/-- A routine that has been proved, and then the rest. -/
theorem seq {Q : β → S → Prop} (h : Total m P s) (hrest : ∀ a s', P a s' → Total (f a) Q s') :
    Total (m >>= f) Q s :=
  bind (h.mono hrest)

/-- What was proved of a run that returned. -/
theorem elim {s' : S} (h : Total m Q s) (hrun : m.run s = .ok (a, s')) : Q a s' := by
  obtain ⟨a', s'', hrun', hQ⟩ := h
  cases hrun.symm.trans hrun'
  exact hQ

end Total

/-- If `m` returns from `s`, then with a result and a state that satisfy `Q`. -/
def Whenever (m : StateT S (Except E) α) (Q : α → S → Prop) (s : S) : Prop :=
  ∀ a s', m.run s = .ok (a, s') → Q a s'

theorem Total.and {m : StateT S (Except E) α} {s : S} {P Q : α → S → Prop} (h : Total m P s)
    (h' : Whenever m Q s) : Total m (fun a s' => P a s' ∧ Q a s') s := by
  obtain ⟨a, s', hrun, hP⟩ := h
  exact ⟨a, s', hrun, hP, h' a s' hrun⟩

namespace Whenever

variable {m : StateT S (Except E) α} {f : α → StateT S (Except E) β} {s : S}

theorem mono {Q Q' : α → S → Prop} (h : Whenever m Q s) (hQ : ∀ a s', Q a s' → Q' a s') :
    Whenever m Q' s :=
  fun a s' hrun => hQ a s' (h a s' hrun)

theorem of_total (h : Total m Q s) : Whenever m Q s :=
  fun _ _ hrun => h.elim hrun

theorem pure (h : Q a s) : Whenever (Pure.pure a : StateT S (Except E) α) Q s :=
  of_total (Total.pure h)

theorem throw {e : E} : Whenever (MonadExcept.throw e : StateT S (Except E) α) Q s := by
  intro a s' hrun
  cases hrun

/-- A routine, and then the rest. -/
theorem seq {Q : β → S → Prop} (h : Whenever m P s) (hrest : ∀ a s', P a s' → Whenever (f a) Q s') :
    Whenever (m >>= f) Q s := by
  intro b s'' hrun
  rw [StateT.run_bind] at hrun
  cases hm : m.run s with
  | error e =>
    rw [hm] at hrun
    cases hrun
  | ok x =>
    rw [hm] at hrun
    exact hrest x.1 x.2 (h x.1 x.2 hm) b s'' hrun

end Whenever

/-! ## Code that may stop for a good reason -/

/-- `m`, started in `s`, returns with a result and a state that satisfy `Q`, or throws
something that satisfies `F`. -/
def Settles (m : StateT S (Except E) α) (F : E → Prop) (Q : α → S → Prop) (s : S) : Prop :=
  match m.run s with
  | .ok (a, s') => Q a s'
  | .error e => F e

namespace Settles

variable {m : StateT S (Except E) α} {f : α → StateT S (Except E) β} {s : S} {F : E → Prop}

theorem mono {Q Q' : α → S → Prop} (h : Settles m F Q s) (hQ : ∀ a s', Q a s' → Q' a s') :
    Settles m F Q' s := by
  unfold Settles at h ⊢
  cases hrun : m.run s with
  | ok x =>
    simp only [hrun] at h ⊢
    exact hQ x.1 x.2 h
  | error e =>
    simp only [hrun] at h ⊢
    exact h

theorem pure (h : Q a s) :
    Settles (Pure.pure a : StateT S (Except E) α) F Q s := h

theorem throw {e : E} (h : F e) :
    Settles (MonadExcept.throw e : StateT S (Except E) α) F Q s := h

/-- A routine, and then the rest. -/
theorem seq {Q : β → S → Prop} (h : Settles m F P s)
    (hrest : ∀ a s', P a s' → Settles (f a) F Q s') :
    Settles (m >>= f) F Q s := by
  unfold Settles at h ⊢
  rw [StateT.run_bind]
  cases hrun : m.run s with
  | ok x =>
    simp only [hrun] at h
    exact hrest x.1 x.2 h
  | error e =>
    simp only [hrun] at h
    exact h

/-- A step whose outcome is known, and then the rest. -/
theorem step {Q : β → S → Prop} {s' : S} (hrun : m.run s = .ok (a, s'))
    (hrest : Settles (f a) F Q s') : Settles (m >>= f) F Q s := by
  unfold Settles at hrest ⊢
  rw [StateT.run_bind, hrun]
  exact hrest

end Settles

end Xv6.Foundation
