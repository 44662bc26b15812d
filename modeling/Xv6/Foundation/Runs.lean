/-
  Foundation/Runs.lean --- runs of a machine that cannot take every action in every state.

  `step a s` is the state after an action, or none if the action cannot be taken.  A machine
  has its own function for lists of actions; `IsRun` says that it takes them one after the
  other, and the rules lead from what a step keeps to what a run keeps.

  Nothing here mentions the kernel.
-/
import Mathlib.Data.List.Basic

set_option autoImplicit false

namespace Xv6.Foundation

variable {S A : Type}

/-- `run` takes the actions of a list one after the other; none if one cannot be taken. -/
structure IsRun (step : A → S → Option S) (run : List A → S → Option S) : Prop where
  nil : ∀ s, run [] s = some s
  cons : ∀ a as s, run (a :: as) s = (step a s).bind (run as)

namespace IsRun

variable {step : A → S → Option S} {run : List A → S → Option S} {I : S → Prop} {as : List A}
  {s t : S}

variable (h : IsRun step run)

include h

theorem append (as bs : List A) (s : S) : run (as ++ bs) s = (run as s).bind (run bs) := by
  induction as generalizing s with
  | nil =>
    rw [h.nil]
    rfl
  | cons a as ih =>
    rw [List.cons_append, h.cons, h.cons, Option.bind_assoc]
    exact Option.bind_congr fun u _ => ih u

/-- What every step keeps, every run keeps; `Ok` is assumed of the steps taken. -/
theorem induct (Ok : A → S → Prop) (hstep : ∀ a s t, I s → Ok a s → step a s = some t → I t)
    (hs : I s) (hok : ∀ pre a post u, as = pre ++ a :: post → run pre s = some u → Ok a u)
    (hrun : run as s = some t) : I t := by
  induction as generalizing s with
  | nil =>
    rw [h.nil] at hrun
    exact Option.some.inj hrun ▸ hs
  | cons a as ih =>
    rw [h.cons] at hrun
    obtain ⟨u, hu, hrest⟩ := Option.bind_eq_some_iff.mp hrun
    refine ih (hstep a s u hs (hok [] a as s rfl (h.nil s)) hu) ?_ hrest
    intro pre b post v heq hv
    refine hok (a :: pre) b post v (by rw [heq]; rfl) ?_
    rw [h.cons, hu]
    exact hv

/-- What every step keeps, every run keeps. -/
theorem keeps (hstep : ∀ a s t, I s → step a s = some t → I t) (hs : I s)
    (hrun : run as s = some t) : I t :=
  h.induct (fun _ _ => True) (fun a s t hs _ => hstep a s t hs) hs (fun _ _ _ _ _ _ => trivial) hrun

end IsRun

end Xv6.Foundation
