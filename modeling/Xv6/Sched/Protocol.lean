/-
  Sched/Protocol.lean --- `sleep` and `wakeup` without processors and schedulers.

  Code holds at most one spin lock.  It may go through all processes and wake up those that sleep
  on something, and it may go to sleep: it gives up the spin lock, and only then is asleep.  In
  between it cannot be visited, since it holds its own lock.

  When code takes a spin lock it notes the calls of `sleep` with that lock that are going on.  None
  of these can still be before the point where the spin lock is given up.  So at the end of a
  `wakeup` every one of them has been visited while asleep, or later.
-/
import Xv6.Sched.Machine

set_option autoImplicit false

namespace Xv6.Sched

open Function

variable {C L S : Type}

/-- What of a place in the code matters here. -/
inductive View (L S : Type) where
  | plain
  /-- holds a spin lock -/
  | hold (lk : Lk L S)
  /-- in `wakeup`, at a process -/
  | wake (q : Key S) (lk : Lk L S) (i : Nat)
  /-- in `sleep`, with the spin lock -/
  | enter (q : Key S) (lk : Lk L S)
  /-- without it -/
  | mid (q : Key S)
  /-- in `sched` -/
  | down (q : Key S)

def View.lk : View L S → Option (Lk L S)
  | .hold lk | .wake _ lk _ | .enter _ lk => some lk
  | _ => none

structure Obs (C L S : Type) where
  view : Ctx C → View L S
  /-- what a processor executes -/
  who : C → Ctx C
  lock : Lk L S → Option C
  seen : Ctx C → Pid → Option Nat
  sleeps : Pid → Nat
  asleep : Pid → Prop
  locked : S → Bool

/-- In a `sleep` that has given up its spin lock, and not woken up. -/
def Obs.Pending (o : Obs C L S) (p : Pid) (q : Key S) : Prop :=
  o.view (.proc p) = .mid q ∨ o.view (.proc p) = .down q ∧ o.asleep p

/-- What a processor does. -/
inductive Change [DecidableEq C] [DecidableEq L] [DecidableEq S] (c : C) (o : Obs C L S) :
    Obs C L S → Prop where
  /-- Something that is not about `sleep`, or a `swtch`. -/
  | same (who : C → Ctx C) (asleep : Pid → Prop) (hinj : Function.Injective who)
      (hwho : ∀ c', who c' = o.who c' ∨ (o.view (o.who c')).lk = none ∧ (o.view (who c')).lk = none)
      (hasleep : ∀ p, asleep p → o.asleep p ∨ ∀ q, o.view (.proc p) ≠ .down q) :
      Change c o { o with who, asleep }
  | take (lk : Lk L S) (seen : Pid → Option Nat) (hview : o.view (o.who c) = .plain)
      (hfree : o.lock lk = none)
      (hseen : ∀ p n, seen p = some n →
        n = o.sleeps p ∧ ∀ q lk', o.view (.proc p) = .enter q lk' → lk' = lk) :
      Change c o { o with
        view := update o.view (o.who c) (.hold lk)
        lock := update o.lock lk (some c)
        seen := update o.seen (o.who c) seen }
  /-- A sleep lock is released. -/
  | unlock (k : S) (hview : o.view (o.who c) = .hold (.inner k)) :
      Change c o { o with
        view := update o.view (o.who c) (.wake (.sleeplock k) (.inner k) 0)
        locked := update o.locked k false }
  | drop (lk : Lk L S) (locked : S → Bool) (hview : o.view (o.who c) = .hold lk)
      (hlocked : ∀ k, o.locked k = true → locked k = true) :
      Change c o { o with
        view := update o.view (o.who c) .plain
        lock := update o.lock lk none
        locked }
  | wakeup (lk : Lk L S) (n : Nat) (hview : o.view (o.who c) = .hold lk) :
      Change c o { o with view := update o.view (o.who c) (.wake (.other n) lk 0) }
  | visit (q : Key S) (lk : Lk L S) (p : Pid) (asleep : Pid → Prop)
      (hview : o.view (o.who c) = .wake q lk p.val) (hmid : ∀ q, o.view (.proc p) ≠ .mid q)
      (hasleep : ∀ p', asleep p' → o.asleep p') (hp : o.view (.proc p) = .down q → ¬ asleep p) :
      Change c o { o with
        view := update o.view (o.who c) (.wake q lk (p.val + 1))
        asleep }
  | woke (q : Key S) (lk : Lk L S) (i : Nat) (hi : NPROC ≤ i)
    (hview : o.view (o.who c) = .wake q lk i) :
      Change c o { o with view := update o.view (o.who c) (.hold lk) }
  | enter (p : Pid) (q : Key S) (lk : Lk L S) (hwho : o.who c = .proc p)
      (hview : o.view (.proc p) = .hold lk)
      (hlocked : ∀ k, q = .sleeplock k → lk = .inner k ∧ o.locked k = true) :
      Change c o { o with
        view := update o.view (.proc p) (.enter q lk)
        sleeps := update o.sleeps p (o.sleeps p + 1) }
  | leave (p : Pid) (q : Key S) (lk : Lk L S) (hwho : o.who c = .proc p)
      (hview : o.view (.proc p) = .enter q lk) :
      Change c o { o with
        view := update o.view (.proc p) (.mid q)
        lock := update o.lock lk none }
  | sleep (p : Pid) (q : Key S) (asleep : Pid → Prop) (hview : o.view (.proc p) = .mid q)
      (hasleep : ∀ p', p' ≠ p → asleep p' → o.asleep p') :
      Change c o { o with view := update o.view (.proc p) (.down q), asleep }
  | up (p : Pid) (q : Key S) (hview : o.view (.proc p) = .down q) :
      Change c o { o with view := update o.view (.proc p) .plain }

/-! ## The invariant -/

structure Sound (o : Obs C L S) : Prop where
  inj : Function.Injective o.who
  held : ∀ c lk, (o.view (o.who c)).lk = some lk → o.lock lk = some c
  executed : ∀ x lk, (o.view x).lk = some lk → ∃ c, o.who c = x
  seen_le : ∀ x p n, o.seen x p = some n → n ≤ o.sleeps p
  /-- A call of `sleep` that was noted has given up the spin lock. -/
  entered : ∀ x lk, (o.view x).lk = some lk → ∀ p, o.seen x p = some (o.sleeps p) →
    ∀ q lk', o.view (.proc p) ≠ .enter q lk'
  /-- After the visit it is not asleep any more. -/
  woken : ∀ x q lk i, o.view x = .wake q lk i → ∀ p : Pid, p.val < i →
    o.seen x p = some (o.sleeps p) → ¬ o.Pending p q
  entering : ∀ p k lk, o.view (.proc p) = .enter (.sleeplock k) lk →
    lk = .inner k ∧ o.locked k = true
  waking : ∀ x k lk i, o.view x = .wake (.sleeplock k) lk i → lk = .inner k
  /-- Whoever waits for a sleep lock waits for one that is held, or is about to be visited. -/
  sleeping : ∀ p k, o.Pending p (.sleeplock k) →
    o.locked k = true ∨ ∃ x i, o.view x = .wake (.sleeplock k) (.inner k) i ∧ i ≤ p.val

namespace Sound

variable {c : C} {o : Obs C L S} {v : View L S} {lk : Lk L S} {q : Key S} {p : Pid}
  {asleep : Pid → Prop}

/-- Who holds a spin lock knows that it is not free. -/
theorem lock_ne_none (h : Sound o) {x : Ctx C} (hx : (o.view x).lk = some lk) :
    o.lock lk ≠ none := by
  obtain ⟨c, rfl⟩ := h.executed x lk hx
  rw [h.held c lk hx]
  simp

/-- Only one code holds a spin lock. -/
theorem unique (h : Sound o) {x y : Ctx C} (hx : (o.view x).lk = some lk)
    (hy : (o.view y).lk = some lk) : x = y := by
  obtain ⟨c, rfl⟩ := h.executed x lk hx
  obtain ⟨c', rfl⟩ := h.executed y lk hy
  have hcc := (h.held c lk hx).symm.trans (h.held c' lk hy)
  rw [Option.some.inj hcc]

theorem same (h : Sound o) {who : C → Ctx C} (hinj : Injective who)
    (hwho : ∀ c', who c' = o.who c' ∨ (o.view (o.who c')).lk = none ∧ (o.view (who c')).lk = none)
    (hasleep : ∀ p, asleep p → o.asleep p ∨ ∀ q, o.view (.proc p) ≠ .down q) :
    Sound { o with who, asleep } := by
  have hpending : ∀ {p q}, ({ o with who, asleep } : Obs C L S).Pending p q → o.Pending p q := by
    rintro p q (hmid | ⟨hdown, hp⟩)
    · exact Or.inl hmid
    · rcases hasleep p hp with hp | hne
      · exact Or.inr ⟨hdown, hp⟩
      · exact absurd hdown (hne q)
  refine ⟨hinj, ?_, ?_, h.seen_le, h.entered, ?_, h.entering, h.waking, ?_⟩
  · intro c lk hlk
    rcases hwho c with heq | ⟨-, hnone⟩
    · dsimp only at hlk
      rw [heq] at hlk
      exact h.held c lk hlk
    · cases hlk.symm.trans hnone
  · intro x lk hlk
    obtain ⟨c, rfl⟩ := h.executed x lk hlk
    rcases hwho c with heq | ⟨hnone, -⟩
    · exact ⟨c, heq⟩
    · cases hlk.symm.trans hnone
  · intro x q lk i hx p hp hseen hpend
    exact h.woken x q lk i hx p hp hseen (hpending hpend)
  · intro p k hpend
    exact h.sleeping p k (hpending hpend)

/-- The first two cases of `sleeping` when the code that goes on is not in a `wakeup`. -/
theorem sleeping_other (h : Sound o) {x : Ctx C} (hx : ∀ q lk i, o.view x ≠ .wake q lk i) {k : S}
    (hpend : o.Pending p (.sleeplock k)) : o.locked k = true ∨
      ∃ y i, y ≠ x ∧ o.view y = .wake (.sleeplock k) (.inner k) i ∧ i ≤ p.val := by
  rcases h.sleeping p k hpend with hk | ⟨y, i, hy, hip⟩
  · exact Or.inl hk
  · refine Or.inr ⟨y, i, ?_, hy, hip⟩
    rintro rfl
    exact hx _ _ _ hy

variable [DecidableEq C]

theorem pending_of_update {x : Ctx C} (hmid : v ≠ .mid q) (hdown : v ≠ .down q)
    (h : ({ o with view := update o.view x v } : Obs C L S).Pending p q) :
    o.Pending p q := by
  have hview : update o.view x v (.proc p) = .mid q ∨
      update o.view x v (.proc p) = .down q ∧ o.asleep p := h
  by_cases hx : Ctx.proc p = x
  · rw [hx, update_self] at hview
    rcases hview with hview | ⟨hview, -⟩
    · exact absurd hview hmid
    · exact absurd hview hdown
  · rw [update_of_ne hx] at hview
    exact hview

variable {seen : Pid → Option Nat}

/-- The holder of a spin lock, or someone who holds none, goes on, and keeps what it has. -/
theorem move (h : Sound o) {lock : Lk L S → Option C} {locked : S → Bool}
    (hv : (∀ q lk, v ≠ .enter q lk) ∧ (∀ q, v ≠ .mid q) ∧ ∀ q, v ≠ .down q)
    (hlock : ∀ lk, v.lk = some lk → lock lk = some c)
    (hothers : ∀ c' lk, c' ≠ c → (o.view (o.who c')).lk = some lk → lock lk = some c')
    (hseen : ∀ p n, seen p = some n → n ≤ o.sleeps p)
    (hentered : ∀ lk, v.lk = some lk → ∀ p, seen p = some (o.sleeps p) →
      ∀ q lk', o.view (.proc p) ≠ .enter q lk')
    (hwoken : ∀ q lk i, v = .wake q lk i → ∀ p : Pid, p.val < i → seen p = some (o.sleeps p) →
      ¬ o.Pending p q) (hwaking : ∀ k lk i, v = .wake (.sleeplock k) lk i → lk = .inner k)
    (hlocked : ∀ k x lk, x ≠ o.who c → (∃ q, o.view x = .enter q lk) → lk = .inner k →
      o.locked k = true → locked k = true)
    (hsleeping : ∀ p k, o.Pending p (.sleeplock k) → locked k = true ∨
      (∃ i, v = .wake (.sleeplock k) (.inner k) i ∧ i ≤ p.val) ∨
      ∃ x i, x ≠ o.who c ∧ o.view x = .wake (.sleeplock k) (.inner k) i ∧ i ≤ p.val) :
    Sound { o with
      view := update o.view (o.who c) v
      lock
      seen := update o.seen (o.who c) seen
      locked } := by
  have hpending : ∀ {p q}, ({ o with
      view := update o.view (o.who c) v
      lock
      seen := update o.seen (o.who c) seen
      locked } : Obs C L S).Pending p q → o.Pending p q := fun hpend =>
    pending_of_update (hv.2.1 _) (hv.2.2 _) hpend
  have henter : ∀ {x q lk}, update o.view (o.who c) v x = .enter q lk →
      x ≠ o.who c ∧ o.view x = .enter q lk := by
    intro x q lk hx
    by_cases hxc : x = o.who c
    · rw [hxc, update_self] at hx
      exact absurd hx (hv.1 q lk)
    · rw [update_of_ne hxc] at hx
      exact ⟨hxc, hx⟩
  refine ⟨h.inj, ?_, ?_, ?_, ?_, ?_, ?_, ?_, ?_⟩
  · intro c' lk hlk
    dsimp only at hlk
    by_cases hcc : c' = c
    · rw [hcc, update_self] at hlk
      rw [hcc]
      exact hlock lk hlk
    · rw [update_of_ne (fun heq => hcc (h.inj heq))] at hlk
      exact hothers c' lk hcc hlk
  · intro x lk hlk
    dsimp only at hlk
    by_cases hx : x = o.who c
    · exact ⟨c, hx.symm⟩
    · rw [update_of_ne hx] at hlk
      exact h.executed x lk hlk
  · intro x p n hn
    dsimp only at hn
    by_cases hx : x = o.who c
    · rw [hx, update_self] at hn
      exact hseen p n hn
    · rw [update_of_ne hx] at hn
      exact h.seen_le x p n hn
  · intro x lk hlk p hp q lk' hq
    dsimp only at hlk hp
    obtain ⟨-, hq⟩ := henter hq
    by_cases hx : x = o.who c
    · rw [hx, update_self] at hlk hp
      exact hentered lk hlk p hp q lk' hq
    · rw [update_of_ne hx] at hlk hp
      exact h.entered x lk hlk p hp q lk' hq
  · intro x q lk i hxv p hpi hp hpend
    dsimp only at hxv hp
    by_cases hx : x = o.who c
    · rw [hx, update_self] at hxv hp
      exact hwoken q lk i hxv p hpi hp (hpending hpend)
    · rw [update_of_ne hx] at hxv hp
      exact h.woken x q lk i hxv p hpi hp (hpending hpend)
  · intro p k lk hp
    obtain ⟨hne, hp⟩ := henter hp
    obtain ⟨hlk, hk⟩ := h.entering p k lk hp
    exact ⟨hlk, hlocked k _ lk hne ⟨_, hp⟩ hlk hk⟩
  · intro x k lk i hxv
    dsimp only at hxv
    by_cases hx : x = o.who c
    · rw [hx, update_self] at hxv
      exact hwaking k lk i hxv
    · rw [update_of_ne hx] at hxv
      exact h.waking x k lk i hxv
  · intro p k hpend
    rcases hsleeping p k (hpending hpend) with hk | ⟨i, hi, hip⟩ | ⟨x, i, hx, hxv, hip⟩
    · exact Or.inl hk
    · refine Or.inr ⟨o.who c, i, ?_, hip⟩
      dsimp only
      rw [update_self]
      exact hi
    · refine Or.inr ⟨x, i, ?_, hip⟩
      dsimp only
      rw [update_of_ne hx]
      exact hxv

theorem enter (h : Sound o) (hwho : o.who c = .proc p) (hview : o.view (.proc p) = .hold lk)
    (hlocked : ∀ k, q = .sleeplock k → lk = .inner k ∧ o.locked k = true) :
    Sound { o with
      view := update o.view (.proc p) (.enter q lk)
      sleeps := update o.sleeps p (o.sleeps p + 1) } := by
  have hplk : (o.view (.proc p)).lk = some lk := by rw [hview]; rfl
  -- this call has a number that nobody has noted
  have hnew : ∀ {x p'}, o.seen x p' = some (update o.sleeps p (o.sleeps p + 1) p') →
      p' ≠ p ∧ o.seen x p' = some (o.sleeps p') := by
    intro x p' hseen
    by_cases hp : p' = p
    · rw [hp, update_self] at hseen
      exact absurd (h.seen_le x p _ hseen) (Nat.not_succ_le_self _)
    · rw [update_of_ne hp] at hseen
      exact ⟨hp, hseen⟩
  have hpending : ∀ {p' q'}, ({ o with
      view := update o.view (.proc p) (.enter q lk)
      sleeps := update o.sleeps p (o.sleeps p + 1) } : Obs C L S).Pending p' q' →
      o.Pending p' q' := fun hpend => pending_of_update (by simp) (by simp) hpend
  have hwake : ∀ {x q' lk' i}, update o.view (.proc p) (.enter q lk) x = .wake q' lk' i →
      o.view x = .wake q' lk' i := by
    intro x q' lk' i hx
    by_cases hxp : x = .proc p
    · rw [hxp, update_self] at hx
      cases hx
    · rwa [update_of_ne hxp] at hx
  refine ⟨h.inj, ?_, ?_, ?_, ?_, ?_, ?_, fun x k lk' i hx => h.waking x k lk' i (hwake hx), ?_⟩
  · intro c' lk' hlk
    dsimp only at hlk
    by_cases hcp : o.who c' = .proc p
    · rw [hcp, update_self] at hlk
      cases hlk
      exact h.held c' lk (by rw [hcp, hview]; rfl)
    · rw [update_of_ne hcp] at hlk
      exact h.held c' lk' hlk
  · intro x lk' hlk
    dsimp only at hlk
    by_cases hxp : x = .proc p
    · exact ⟨c, hwho.trans hxp.symm⟩
    · rw [update_of_ne hxp] at hlk
      exact h.executed x lk' hlk
  · intro x p' n hn
    have hle := h.seen_le x p' n hn
    by_cases hp : p' = p
    · rw [hp] at hle ⊢
      dsimp only
      rw [update_self]
      exact Nat.le_succ_of_le hle
    · dsimp only
      rw [update_of_ne hp]
      exact hle
  · intro x lk' hlk p' hseen q' lk'' hq
    obtain ⟨hp, hseen⟩ := hnew hseen
    dsimp only at hlk hq
    rw [update_of_ne (proc_ne hp)] at hq
    by_cases hxp : x = .proc p
    · rw [hxp] at hseen
      exact h.entered (.proc p) lk hplk p' hseen q' lk'' hq
    · rw [update_of_ne hxp] at hlk
      exact h.entered x lk' hlk p' hseen q' lk'' hq
  · intro x q' lk' i hx p' hpi hseen hpend
    exact h.woken x q' lk' i (hwake hx) p' hpi (hnew hseen).2 (hpending hpend)
  · intro p' k lk' hp'
    dsimp only at hp'
    by_cases hp : p' = p
    · rw [hp, update_self] at hp'
      cases hp'
      exact hlocked k rfl
    · rw [update_of_ne (proc_ne hp)] at hp'
      exact h.entering p' k lk' hp'
  · intro p' k hpend
    rcases h.sleeping_other (x := .proc p) (by simp [hview])
      (hpending hpend) with hk | ⟨x, i, hx, hxv, hi⟩
    · exact Or.inl hk
    · exact Or.inr ⟨x, i, (update_of_ne hx ..).trans hxv, hi⟩

/-- A process in `sleep` goes on without a spin lock. -/
theorem quiet {lock : Lk L S → Option C} (h : Sound o) (hv : v.lk = none)
    (hlock : ∀ c' lk', o.who c' ≠ .proc p → (o.view (o.who c')).lk = some lk' → lock lk' = some c')
    (hwake : ∀ q lk i, o.view (.proc p) ≠ .wake q lk i)
    (hpending : ∀ p' q, ({ o with view := update o.view (.proc p) v, lock, asleep } :
      Obs C L S).Pending p' q → o.Pending p' q ∨ p' = p ∧ ∃ lk, o.view (.proc p) = .enter q lk) :
    Sound { o with view := update o.view (.proc p) v, lock, asleep } := by
  have hother : ∀ {x lk}, (update o.view (.proc p) v x).lk = some lk →
      x ≠ .proc p ∧ (o.view x).lk = some lk := by
    intro x lk hlk
    by_cases hxp : x = .proc p
    · rw [hxp, update_self, hv] at hlk
      cases hlk
    · rw [update_of_ne hxp] at hlk
      exact ⟨hxp, hlk⟩
  have hsame : ∀ {x w lk}, w.lk = some lk → update o.view (.proc p) v x = w → o.view x = w := by
    intro x w lk hw hx
    have hlk : (update o.view (.proc p) v x).lk = some lk := by rw [hx]; exact hw
    have hne := (hother hlk).1
    rwa [update_of_ne hne] at hx
  refine ⟨h.inj, ?_, ?_, h.seen_le, ?_, ?_, ?_, ?_, ?_⟩
  · intro c' lk hlk
    obtain ⟨hne, hlk⟩ := hother hlk
    exact hlock c' lk hne hlk
  · intro x lk hlk
    exact h.executed x lk (hother hlk).2
  · intro x lk hlk p' hseen q lk' hq
    exact h.entered x lk (hother hlk).2 p' hseen q lk' (hsame (w := .enter q lk') rfl hq)
  · intro x q lk i hx p' hpi hseen hpend
    have hxv := hsame (w := .wake q lk i) rfl hx
    rcases hpending p' q hpend with hpend | ⟨rfl, lk', hq⟩
    · exact h.woken x q lk i hxv p' hpi hseen hpend
    · -- a call that was noted had given up the spin lock before
      exact h.entered x lk (by rw [hxv]; rfl) p' hseen q lk' hq
  · intro p' k lk hp'
    exact h.entering p' k lk (hsame (w := .enter (.sleeplock k) lk) rfl hp')
  · intro x k lk i hx
    exact h.waking x k lk i (hsame (w := .wake (.sleeplock k) lk i) rfl hx)
  · intro p' k hpend
    rcases hpending p' _ hpend with hpend | ⟨rfl, lk, hq⟩
    · rcases h.sleeping_other hwake hpend with hk | ⟨x, i, hx, hxv, hi⟩
      · exact Or.inl hk
      · exact Or.inr ⟨x, i, (update_of_ne hx ..).trans hxv, hi⟩
    · exact Or.inl (h.entering p' k lk hq).2

section

variable (h : Sound o)

include h

/-- The holder of a spin lock starts, goes on with, or ends a `wakeup`. -/
theorem scan (hlk : (o.view (o.who c)).lk = some lk) (hv : v.lk = some lk)
    (hne : ∀ q lk, v ≠ .enter q lk) (hwoken : ∀ q lk i, v = .wake q lk i → ∀ p : Pid, p.val < i →
      o.seen (o.who c) p = some (o.sleeps p) → ¬ o.Pending p q)
    (hwaking : ∀ k lk i, v = .wake (.sleeplock k) lk i → lk = .inner k)
    (hsleeping : ∀ p k, o.Pending p (.sleeplock k) → o.locked k = true ∨
      (∃ i, v = .wake (.sleeplock k) (.inner k) i ∧ i ≤ p.val) ∨
      ∃ x i, x ≠ o.who c ∧ o.view x = .wake (.sleeplock k) (.inner k) i ∧ i ≤ p.val) :
    Sound { o with view := update o.view (o.who c) v } := by
  have hmid : (∀ q, v ≠ .mid q) ∧ ∀ q, v ≠ .down q := by
    constructor
    · rintro q rfl
      cases hv
    · rintro q rfl
      cases hv
  have hmove : Sound { o with
      view := update o.view (o.who c) v
      seen := update o.seen (o.who c) (o.seen (o.who c)) } := by
    refine h.move ⟨hne, hmid⟩ ?_ (fun c' lk _ => h.held c' lk) (h.seen_le _) ?_ hwoken hwaking
      (fun _ _ _ _ _ _ hk => hk) hsleeping
    · intro lk' hlk'
      rw [hv] at hlk'
      cases hlk'
      exact h.held c lk hlk
    · intro _ _ p hp
      exact h.entered _ lk hlk p hp
  rwa [update_eq_self] at hmove

theorem wakeup {n : Nat} (hview : o.view (o.who c) = .hold lk) :
    Sound { o with view := update o.view (o.who c) (.wake (.other n) lk 0) } := by
  have hlk : (o.view (o.who c)).lk = some lk := by rw [hview]; rfl
  refine h.scan hlk rfl (by simp) ?_ (by simp) ?_
  · intro q lk i hv p hpi
    cases hv
    exact absurd hpi (Nat.not_lt_zero _)
  · intro p k hpend
    rcases h.sleeping_other (x := o.who c) (by simp [hview]) hpend with hk | hwake
    · exact Or.inl hk
    · exact Or.inr (Or.inr hwake)

theorem visit (hview : o.view (o.who c) = .wake q lk p.val) (hmid : ∀ q, o.view (.proc p) ≠ .mid q)
    (hasleep : ∀ p', asleep p' → o.asleep p') (hp : o.view (.proc p) = .down q → ¬ asleep p) :
    Sound { o with view := update o.view (o.who c) (.wake q lk (p.val + 1)), asleep } := by
  have h₁ : Sound { o with asleep } :=
    h.same h.inj (fun _ => Or.inl rfl) fun p' hp' => Or.inl (hasleep p' hp')
  -- the process that was visited is not waiting any more
  have hvisited : ¬ ({ o with asleep } : Obs C L S).Pending p q := by
    rintro (hpm | ⟨hpd, hpa⟩)
    · exact hmid q hpm
    · exact hp hpd hpa
  have hlk : (o.view (o.who c)).lk = some lk := by rw [hview]; rfl
  refine h₁.scan hlk rfl (by simp) ?_ ?_ ?_
  · intro q' lk' i hv p' hpi hseen
    cases hv
    rcases Nat.lt_succ_iff_lt_or_eq.mp hpi with hlt | heq
    · exact h₁.woken _ q lk p.val hview p' hlt hseen
    · rw [Fin.ext heq]
      exact hvisited
  · intro k lk' i hv
    cases hv
    exact h.waking _ k lk p.val hview
  · intro p' k hpend
    rcases h₁.sleeping p' k hpend with hk | ⟨x, i, hx, hip⟩
    · exact Or.inl hk
    · by_cases hxc : x = o.who c
      · rw [hxc] at hx
        cases hview.symm.trans hx
        refine Or.inr (Or.inl ⟨_, rfl, ?_⟩)
        have hne : p' ≠ p := by
          rintro rfl
          exact hvisited hpend
        exact Nat.succ_le_of_lt (Nat.lt_of_le_of_ne hip fun heq => hne (Fin.ext heq.symm))
      · exact Or.inr (Or.inr ⟨x, i, hxc, hx, hip⟩)

theorem woke {i : Nat} (hi : NPROC ≤ i) (hview : o.view (o.who c) = .wake q lk i) :
    Sound { o with view := update o.view (o.who c) (.hold lk) } := by
  have hlk : (o.view (o.who c)).lk = some lk := by rw [hview]; rfl
  refine h.scan hlk rfl (by simp) (by simp) (by simp) ?_
  intro p k hpend
  rcases h.sleeping p k hpend with hk | ⟨x, j, hx, hjp⟩
  · exact Or.inl hk
  · refine Or.inr (Or.inr ⟨x, j, ?_, hx, hjp⟩)
    rintro rfl
    cases hview.symm.trans hx
    exact absurd p.isLt (Nat.not_lt.mpr (hi.trans hjp))

end

theorem sleep (h : Sound o) (hview : o.view (.proc p) = .mid q)
    (hasleep : ∀ p', p' ≠ p → asleep p' → o.asleep p') :
    Sound { o with view := update o.view (.proc p) (.down q), asleep } := by
  refine h.quiet rfl (fun c' lk' _ => h.held c' lk') (by simp [hview]) ?_
  intro p' q' hpend
  refine Or.inl ?_
  rw [Obs.Pending] at hpend
  dsimp only at hpend
  by_cases hp : p' = p
  · rw [hp, update_self] at hpend
    rcases hpend with hpend | ⟨hpend, -⟩
    · cases hpend
    · cases hpend
      rw [hp]
      exact Or.inl hview
  · rw [update_of_ne (proc_ne hp)] at hpend
    rcases hpend with hpend | ⟨hpend, ha⟩
    · exact Or.inl hpend
    · exact Or.inr ⟨hpend, hasleep p' hp ha⟩

theorem up (h : Sound o) (hview : o.view (.proc p) = .down q) :
    Sound { o with view := update o.view (.proc p) .plain } :=
  h.quiet rfl (fun c' lk' _ => h.held c' lk') (by simp [hview]) fun _ _ hpend =>
    Or.inl (pending_of_update (by simp) (by simp) hpend)

variable [DecidableEq S]

theorem unlock (h : Sound o) {k : S} (hview : o.view (o.who c) = .hold (.inner k)) :
    Sound { o with
      view := update o.view (o.who c) (.wake (.sleeplock k) (.inner k) 0)
      locked := update o.locked k false } := by
  have hlk : (o.view (o.who c)).lk = some (.inner k) := by rw [hview]; rfl
  have hmove : Sound { o with
      view := update o.view (o.who c) (.wake (.sleeplock k) (.inner k) 0)
      seen := update o.seen (o.who c) (o.seen (o.who c))
      locked := update o.locked k false } := by
    refine h.move ⟨by simp, by simp, by simp⟩ ?_ (fun c' lk _ => h.held c' lk)
      (h.seen_le _) ?_ ?_ ?_ ?_ ?_
    · intro lk hlk'
      cases hlk'
      exact h.held c _ hlk
    · intro lk hlk' p hp
      exact h.entered _ _ hlk p hp
    · intro q lk i hv p hpi
      cases hv
      exact absurd hpi (Nat.not_lt_zero _)
    · intro k' lk i hv
      cases hv
      rfl
    · -- nobody else holds the spin lock
      intro k' x lk hx ⟨q, hq⟩ hlk' hk
      have hne : k' ≠ k := by
        rintro rfl
        have hxlk : (o.view x).lk = some (.inner k') := by rw [hq, hlk']; rfl
        exact hx (h.unique hxlk hlk)
      rw [update_of_ne hne]
      exact hk
    · intro p k' hpend
      by_cases hkk : k' = k
      · rw [hkk]
        exact Or.inr (Or.inl ⟨0, rfl, Nat.zero_le _⟩)
      · rw [update_of_ne hkk]
        rcases h.sleeping_other (x := o.who c) (by simp [hview]) hpend with hk | hwake
        · exact Or.inl hk
        · exact Or.inr (Or.inr hwake)
  rwa [update_eq_self] at hmove

variable [DecidableEq L]

theorem take (h : Sound o) (hview : o.view (o.who c) = .plain) (hfree : o.lock lk = none)
    (hseen : ∀ p n, seen p = some n →
      n = o.sleeps p ∧ ∀ q lk', o.view (.proc p) = .enter q lk' → lk' = lk) :
    Sound { o with
      view := update o.view (o.who c) (.hold lk)
      lock := update o.lock lk (some c)
      seen := update o.seen (o.who c) seen } := by
  refine h.move ⟨by simp, by simp, by simp⟩ ?_ ?_ ?_ ?_ (by simp) (by simp)
    (fun _ _ _ _ _ _ hk => hk) ?_
  · intro lk' hlk
    cases hlk
    exact update_self ..
  · intro c' lk' _ hlk
    have hne : lk' ≠ lk := by
      rintro rfl
      exact h.lock_ne_none hlk hfree
    rw [update_of_ne hne]
    exact h.held c' lk' hlk
  · intro p n hn
    exact (hseen p n hn).1.le
  · -- a call that is noted does not hold the spin lock, which was free
    intro lk' _ p hp q lk'' hq
    have hlk := (hseen p _ hp).2 q lk'' hq
    refine h.lock_ne_none (x := .proc p) ?_ hfree
    rw [hq, hlk]
    rfl
  · intro p k hpend
    rcases h.sleeping_other (x := o.who c) (by simp [hview]) hpend with hk | hwake
    · exact Or.inl hk
    · exact Or.inr (Or.inr hwake)

theorem drop (h : Sound o) {locked : S → Bool} (hview : o.view (o.who c) = .hold lk)
    (hlocked : ∀ k, o.locked k = true → locked k = true) :
    Sound { o with
      view := update o.view (o.who c) .plain
      lock := update o.lock lk none
      locked } := by
  have hlk : (o.view (o.who c)).lk = some lk := by rw [hview]; rfl
  have hmove : Sound { o with
      view := update o.view (o.who c) .plain
      lock := update o.lock lk none
      seen := update o.seen (o.who c) (o.seen (o.who c))
      locked } := by
    refine h.move ⟨by simp, by simp, by simp⟩ (by simp [View.lk]) ?_ (h.seen_le _)
      (by simp [View.lk]) (by simp) (by simp) (fun k _ _ _ _ _ hk => hlocked k hk) ?_
    · intro c' lk' hcc hlk'
      have hne : lk' ≠ lk := by
        rintro rfl
        exact hcc (h.inj (h.unique hlk' hlk))
      rw [update_of_ne hne]
      exact h.held c' lk' hlk'
    · intro p k hpend
      rcases h.sleeping_other (x := o.who c) (by simp [hview]) hpend with hk | hwake
      · exact Or.inl (hlocked k hk)
      · exact Or.inr (Or.inr hwake)
  rwa [update_eq_self] at hmove

theorem leave (h : Sound o) (hview : o.view (.proc p) = .enter q lk) : Sound { o with
      view := update o.view (.proc p) (.mid q)
      lock := update o.lock lk none } := by
  have hplk : (o.view (.proc p)).lk = some lk := by rw [hview]; rfl
  refine h.quiet rfl ?_ (by simp [hview]) ?_
  · intro c' lk' hne hlk
    have hlkne : lk' ≠ lk := by
      rintro rfl
      exact hne (h.unique hlk hplk)
    rw [update_of_ne hlkne]
    exact h.held c' lk' hlk
  · intro p' q' hpend
    rw [Obs.Pending] at hpend
    dsimp only at hpend
    by_cases hp : p' = p
    · rw [hp, update_self] at hpend
      rcases hpend with hpend | ⟨hpend, -⟩
      · cases hpend
        exact Or.inr ⟨hp, lk, hview⟩
      · cases hpend
    · rw [update_of_ne (proc_ne hp)] at hpend
      exact Or.inl hpend

/-- Whatever a processor does keeps the invariant. -/
theorem change {o' : Obs C L S} (h : Sound o) (hchange : Change c o o') : Sound o' := by
  cases hchange with
  | same who asleep hinj hwho hasleep => exact h.same hinj hwho hasleep
  | take lk seen hview hfree hseen => exact h.take hview hfree hseen
  | unlock k hview => exact h.unlock hview
  | drop lk locked hview hlocked => exact h.drop hview hlocked
  | wakeup lk n hview => exact h.wakeup hview
  | visit q lk p asleep hview hmid hasleep hp => exact h.visit hview hmid hasleep hp
  | woke q lk i hi hview => exact h.woke hi hview
  | enter p q lk hwho hview hlocked => exact h.enter hwho hview hlocked
  | leave p q lk hwho hview => exact h.leave hview
  | sleep p q asleep hview hasleep => exact h.sleep hview hasleep
  | up p q hview => exact h.up hview

end Sound

end Xv6.Sched
