/-
  Foundation/Interleave.lean --- programs of many processes, in any order.

  A pool is a shared state and one program per process.  A step picks any
  process and answers the next request of its program; everything between two
  requests of one process is open to the others.

  THE LOGIC.  Every process carries a ghost value (what it holds, what it owes)
  and the invariant `Inv` relates the shared state to the ghost values of all of
  them.  `Safe p m Q l` says that process `p` with ghost value `l` may run `m`:
  whatever state it finds that satisfies the invariant, its next request leads
  back into the invariant with a new ghost value of `p` and every other ghost
  value unchanged, and when it returns its ghost value satisfies `Q`.  Because
  nobody else writes `p`'s ghost value, what `Inv` says about it survives the
  steps of the others: interference is dealt with once, by `Inv`.

  Three more parameters: `Pre` is what the ghost value of a process has to be like
  for it to make a request, so that the next request of a process tells what its
  ghost value is; `Ok` is an assumption on the requests of the run, and `Bad` names
  the halts that have to be shown unreachable (a panic), all others being allowed
  (a lock that is taken).

  Nothing here mentions the kernel.
-/
import Mathlib.Algebra.BigOperators.Group.Finset.Piecewise
import Mathlib.Data.Fintype.Basic
import Xv6.Foundation.Prog

set_option autoImplicit false

namespace Xv6.Foundation

open Function

/-! ## Sums over all processes -/

/-- Changing the value at one process changes a sum over all processes by the
difference there. -/
theorem sum_update_add {P L M : Type} [Fintype P] [DecidableEq P] [AddCommMonoid M]
    (f : L → M) (g : P → L) (p : P) (l : L) :
    (∑ q, f (update g p l q)) + f (g p) = (∑ q, f (g q)) + f l := by
  have hl : (∑ q, f (update g p l q)) = f l + ∑ q ∈ Finset.univ \ {p}, f (g q) := by
    have h : (fun q => f (update g p l q)) = update (fun q => f (g q)) p (f l) := by
      funext q
      by_cases hq : q = p
      · subst hq; simp
      · simp [hq]
    rw [h, Finset.sum_update_of_mem (Finset.mem_univ p)]
  have hr : (∑ q, f (g q)) = f (g p) + ∑ q ∈ Finset.univ \ {p}, f (g q) := by
    rw [← Finset.sum_update_of_mem (Finset.mem_univ p) (fun q => f (g q)) (f (g p))]
    congr 1
    funext q
    by_cases hq : q = p
    · subst hq; simp
    · simp [hq]
  rw [hl, hr, add_comm (f l), add_comm (f (g p)), add_right_comm]

/-! ## Pools -/

/-- A shared state, and the rest of every process's program. -/
structure Pool (S : Signature) (P σ : Type) where
  st : σ
  prog : P → Prog S Unit

section Pools

variable {S : Signature} {P σ ε : Type} [DecidableEq P]

/-- One process makes its next request; `Ok` is what is assumed of the requests that
are made. -/
inductive PoolStep (exec : P → (o : S.Op) → σ → Outcome ε σ (S.Resp o))
    (Ok : P → S.Op → σ → Prop) : Pool S P σ → Pool S P σ → Prop where
  | step {c : Pool S P σ} {p : P} {o : S.Op} {k : S.Resp o → Prog S Unit}
      {r : S.Resp o} {s' : σ}
      (hprog : c.prog p = .op o k) (hok : Ok p o c.st)
      (hexec : exec p o c.st = .ret r s') :
      PoolStep exec Ok c ⟨s', update c.prog p (k r)⟩

/-- Any number of steps, by any processes, in any order. -/
abbrev PoolRun (exec : P → (o : S.Op) → σ → Outcome ε σ (S.Resp o))
    (Ok : P → S.Op → σ → Prop) : Pool S P σ → Pool S P σ → Prop :=
  Relation.ReflTransGen (PoolStep exec Ok)

variable {exec : P → (o : S.Op) → σ → Outcome ε σ (S.Resp o)} {Ok : P → S.Op → σ → Prop}

/-- One process runs its program to the end while the others wait. -/
theorem PoolRun.of_run {c : Pool S P σ} {p : P} {t : σ} (hok : ∀ o s, Ok p o s)
    (h : (c.prog p).run (exec p) c.st = .ret () t) :
    PoolRun exec Ok c ⟨t, update c.prog p (.pure ())⟩ := by
  obtain ⟨s, prog⟩ := c
  induction hm : prog p generalizing s prog with
  | pure a =>
    simp only [hm] at h
    cases h
    have : update prog p (.pure ()) = prog := by
      rw [← hm]
      exact update_eq_self p prog
    rw [this]
  | op o k ih =>
    simp only [hm, Prog.run] at h
    cases hx : exec p o s with
    | halt e s' => rw [hx] at h; cases h
    | ret r s' =>
      rw [hx] at h
      have hrest := ih r s' (update prog p (k r)) (by simpa using h) (by simp)
      rw [update_idem] at hrest
      exact .head (.step hm (hok o s) hx) hrest

end Pools

/-! ## The logic -/

/-- How requests are answered, what is assumed and what has to be shown. -/
structure System (S : Signature) (P L σ ε : Type) where
  /-- The answer to a request of a process. -/
  exec : P → (o : S.Op) → σ → Outcome ε σ (S.Resp o)
  /-- The invariant over the shared state and the ghost values. -/
  Inv : σ → (P → L) → Prop
  /-- What a request takes of the ghost value. -/
  Pre : S.Op → L → Prop
  /-- What is assumed of the requests that are made. -/
  Ok : P → S.Op → σ → Prop
  /-- The halts that must not happen. -/
  Bad : ε → Prop

variable {S : Signature} {P L σ ε α β : Type} [DecidableEq P]

/-- Process `p` with ghost value `l` may run the program. -/
def Safe (M : System S P L σ ε) (p : P) :
    Prog S α → (α → L → Prop) → L → Prop
  | .pure a, Q, l => Q a l
  | .op o k, Q, l => M.Pre o l ∧ ∀ s g, M.Inv s g → g p = l → M.Ok p o s →
      (∀ r s', M.exec p o s = .ret r s' →
        ∃ l', M.Inv s' (update g p l') ∧ Safe M p (k r) Q l') ∧
      (∀ e s', M.exec p o s = .halt e s' → ¬ M.Bad e)

variable {M : System S P L σ ε} {p : P} {m : Prog S α}

theorem Safe.mono {Q Q' : α → L → Prop} {l : L} (h : Safe M p m Q l)
    (hQ : ∀ a l', Q a l' → Q' a l') :
    Safe M p m Q' l := by
  induction m generalizing l with
  | pure a => exact hQ a l h
  | op o k ih =>
    refine ⟨h.1, fun s g hinv hl hok => ?_⟩
    obtain ⟨hret, hhalt⟩ := h.2 s g hinv hl hok
    refine ⟨fun r s' hx => ?_, hhalt⟩
    obtain ⟨l', hinv', hsafe⟩ := hret r s' hx
    exact ⟨l', hinv', ih r hsafe⟩

theorem Safe.bind {f : α → Prog S β} {Q : β → L → Prop} {l : L}
    (h : Safe M p m (fun a l' => Safe M p (f a) Q l') l) : Safe M p (m >>= f) Q l := by
  induction m generalizing l with
  | pure a => exact h
  | op o k ih =>
    refine ⟨h.1, fun s g hinv hl hok => ?_⟩
    obtain ⟨hret, hhalt⟩ := h.2 s g hinv hl hok
    refine ⟨fun r s' hx => ?_, hhalt⟩
    obtain ⟨l', hinv', hsafe⟩ := hret r s' hx
    exact ⟨l', hinv', ih r hsafe⟩

/-- The loop rule: the ghost value the process has before iteration `j`. -/
theorem Safe.forFrom {f : Nat → Prog S Unit} {I : Nat → L → Prop} {N : Nat}
    (hf : ∀ j l, j < N → I j l → Safe M p (f j) (fun _ l' => I (j + 1) l') l) :
    ∀ (n i : Nat) (l : L), i + n = N → I i l →
      Safe M p (Prog.forFrom f i n) (fun _ l' => I N l') l := by
  intro n
  induction n with
  | zero =>
    intro i l hi h
    have : i = N := by omega
    subst this
    exact h
  | succ n ih =>
    intro i l hi h
    apply Safe.bind
    apply Safe.mono (hf i l (by omega) h)
    intro _ l' hl'
    exact ih (i + 1) l' (by omega) hl'

/-- Every pool reachable from a safe one satisfies the invariant and is safe. -/
theorem PoolRun.inv {c c' : Pool S P σ} {g : P → L} {Q : Unit → L → Prop}
    (hinv : M.Inv c.st g) (hsafe : ∀ p, Safe M p (c.prog p) Q (g p))
    (hr : PoolRun M.exec M.Ok c c') :
    ∃ g', M.Inv c'.st g' ∧ ∀ p, Safe M p (c'.prog p) Q (g' p) := by
  induction hr with
  | refl => exact ⟨g, hinv, hsafe⟩
  | tail _ hstep ih =>
    obtain ⟨g', hinv', hsafe'⟩ := ih
    cases hstep with
    | @step p o k r s' hprog hok hexec =>
      have hp := hsafe' p
      rw [hprog] at hp
      obtain ⟨l', hl', hk⟩ := (hp.2 _ g' hinv' rfl hok).1 r s' hexec
      refine ⟨update g' p l', hl', fun q => ?_⟩
      by_cases hq : q = p
      · subst hq; simpa using hk
      · simpa [hq] using hsafe' q

/-! ## One process alone -/

/-- Wherever a safe program is cut off the invariant holds, with a ghost value from
which the process may make its next request, or is done. -/
theorem Safe.reaches {Q : α → L → Prop} {g : P → L} {s t : σ} (hok : ∀ o s, M.Ok p o s)
    (hinv : M.Inv s g) (h : Safe M p m Q (g p)) (hr : Prog.Reaches (M.exec p) m s t) :
    ∃ l, M.Inv t (update g p l) ∧ ((∃ o, M.Pre o l) ∨ ∃ a, Q a l) := by
  induction hr generalizing g with
  | here m s =>
    refine ⟨g p, by simpa using hinv, ?_⟩
    cases m with
    | pure a => exact Or.inr ⟨a, h⟩
    | op o k => exact Or.inl ⟨o, h.1⟩
  | @step o k s s' t r hx _ ih =>
    obtain ⟨l', hinv', hk⟩ := (h.2 s g hinv rfl (hok o s)).1 r s' hx
    obtain ⟨l, hl, hrest⟩ := ih hinv' (by simpa using hk)
    exact ⟨l, by simpa using hl, hrest⟩

end Xv6.Foundation
