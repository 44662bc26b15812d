/-
  Kernel/Store.lean --- a client alone on the block store.

  `Log/BlockStore.lean` shows that cache and log together are a plain store of
  blocks; here is that store, with one client at work, and the rules to reason about
  its program.  The state is what `bread` returns of each block (`disk`), the blocks
  the client has, and the memory of the layer above.

  A client that lets go of a block it changed and did not log_write leaves the change
  in the cache until the buffer is recycled.  Which of the two contents the block has
  afterwards is open (`keep`).  In a `strict` theory a client has to keep the rules of
  `Allowed`, and that cannot happen.
-/
import Xv6.Kernel.Client

set_option autoImplicit false

namespace Xv6

open Function List Foundation

variable {E : Signature} {M : Type} {α β : Type}

structure Store (M : Type) where
  disk : Disk
  client : Client
  mem : M

/-- The block the client has, if it has it. -/
def Client.find (c : Client) (b : Nat) : Option Held := c.held.find? fun h => h.b == b

/-- How a client's requests are answered. -/
def sexec (xexec : Pid → (o : E.Op) → M → Outcome Halt M (E.Resp o)) (keep : Bool) (p : Pid) :
    (o : FsOp E) → Store M → Outcome Halt (Store M) ((FsSig E).Resp o)
  | .bread b, s =>
      if (s.client.find b).isSome then .halt .wait s
      else .ret (s.disk b) { s with client := s.client.after (.bread b : FsOp E) (s.disk b) }
  | .modify b d, s =>
      if (s.client.find b).isSome then
        .ret () { s with client := s.client.after (.modify b d : FsOp E) () }
      else .halt (.panic "no such buffer") s
  | .logWrite b, s =>
      match s.client.find b with
      | some h => .ret () { s with
          disk := update s.disk b h.data
          client := s.client.after (.logWrite b : FsOp E) () }
      | none => .halt (.panic "no such buffer") s
  | .brelse b, s =>
      match s.client.find b with
      | some h => .ret () { s with
          disk := if h.dirty && keep then update s.disk b h.data else s.disk
          client := s.client.after (.brelse b : FsOp E) () }
      | none => .halt (.panic "no such buffer") s
  | .beginOp, s => .ret () { s with client := s.client.after (.beginOp : FsOp E) () }
  | .endOp, s => .ret () { s with client := s.client.after (.endOp : FsOp E) () }
  | .panic msg, s => .halt (.panic msg) s
  | .ext o, s =>
      match xexec p o s.mem with
      | .ret r m => .ret r { s with mem := m }
      | .halt e m => .halt e { s with mem := m }

/-! ## Reasoning about a client's program -/

/-- How the requests of the layer above are answered, whether the rules of `Allowed`
are to be kept, where the log is, and the halts that may happen. -/
structure Theory (E : Signature) (M : Type) where
  xexec : Pid → (o : E.Op) → M → Outcome Halt M (E.Resp o)
  strict : Prop
  InLog : Nat → Prop
  Ends : Halt → Prop

/-- The program returns with `Q`, or ends in a halt that may happen; on the way, it keeps the
rules. -/
def swp (T : Theory E M) (p : Pid) : FsProg E α → (α → Store M → Prop) → Store M → Prop
  | .pure a, Q, s => Q a s
  | .op o k, Q, s => (T.strict → Allowed T.InLog s.client o) ∧
      ∀ keep, (sexec T.xexec keep p o s).Meets (fun r t => swp T p (k r) Q t) T.Ends

variable {T : Theory E M} {p : Pid} {disk : Disk} {inOp : Bool} {held : List Held} {mem : M}
  {s : Store M} {m : FsProg E α}

theorem swp_mono {Q Q' : α → Store M → Prop} (h : swp T p m Q s) (hQ : ∀ a t, Q a t → Q' a t) :
    swp T p m Q' s := by
  induction m generalizing s with
  | pure a => exact hQ a s h
  | op o k ih => exact ⟨h.1, fun keep => (h.2 keep).mono fun r t ht => ih r ht⟩

theorem swp_bind {f : α → FsProg E β} {Q : β → Store M → Prop}
    (h : swp T p m (fun a t => swp T p (f a) Q t) s) : swp T p (m >>= f) Q s := by
  induction m generalizing s with
  | pure a => exact h
  | op o k ih => exact ⟨h.1, fun keep => (h.2 keep).mono fun r t ht => ih r ht⟩

/-- What was proved holds of a run. -/
theorem swp.run {Q : α → Store M → Prop} (h : swp T p m Q s) (keep : Bool) :
    (m.run (sexec T.xexec keep p) s).Meets Q T.Ends := by
  induction m generalizing s with
  | pure a => exact h
  | op o k ih =>
    have ho := h.2 keep
    rw [Prog.run]
    cases hx : sexec T.xexec keep p o s with
    | halt e t =>
      rw [hx] at ho
      exact ho
    | ret r t =>
      rw [hx] at ho
      exact ih r ho

/-! ## Rules

Blocks are let go of in the opposite order of `bread`, so the rules are about the
block that was read last. -/

section Rules

variable {Q : α → Store M → Prop} {b : Nat} {d d₀ : Block} {dirty : Bool}

theorem find_fresh (hfresh : ∀ h ∈ held, h.b ≠ b) : Client.find ⟨inOp, held⟩ b = none := by
  rw [Client.find, List.find?_eq_none]
  intro h hh
  simpa using hfresh h hh

theorem swp_bread {k : Block → FsProg E α} (hb : b < 2 ^ 32) (hfresh : ∀ h ∈ held, h.b ≠ b)
    (hk : swp T p (k (disk b)) Q ⟨disk, ⟨inOp, ⟨b, disk b, false⟩ :: held⟩, mem⟩) :
    swp T p (.op (.bread b) k) Q ⟨disk, ⟨inOp, held⟩, mem⟩ := by
  refine ⟨fun _ => hb, fun keep => ?_⟩
  simp only [sexec, find_fresh hfresh, Option.isSome_none, Bool.false_eq_true, if_false]
  exact hk

theorem find_head : Client.find ⟨inOp, ⟨b, d₀, dirty⟩ :: held⟩ b = some ⟨b, d₀, dirty⟩ := by
  simp [Client.find]

theorem map_held_fresh {f : Held → Held} (hfresh : ∀ h ∈ held, h.b ≠ b) :
    held.map (fun h => if h.b = b then f h else h) = held := by
  conv_rhs => rw [← map_id held]
  apply map_congr_left
  intro h hh
  rw [if_neg (hfresh h hh)]
  rfl

variable {k : Unit → FsProg E α}

theorem swp_modify (hop : T.strict → inOp = true ∧ ¬ T.InLog b) (hfresh : ∀ h ∈ held, h.b ≠ b)
    (hk : swp T p (k ()) Q ⟨disk, ⟨inOp, ⟨b, d, true⟩ :: held⟩, mem⟩) :
    swp T p (.op (.modify b d) k) Q ⟨disk, ⟨inOp, ⟨b, d₀, dirty⟩ :: held⟩, mem⟩ := by
  refine ⟨fun hs => ⟨(hop hs).1, (hop hs).2, _, mem_cons_self, rfl⟩, fun keep => ?_⟩
  simp only [sexec, find_head, Option.isSome_some, if_true, Outcome.Meets]
  simpa [Client.after, map_held_fresh (f := fun h => ⟨h.b, d, true⟩) hfresh] using hk

theorem swp_logWrite (hop : T.strict → inOp = true ∧ ¬ T.InLog b) (hfresh : ∀ h ∈ held, h.b ≠ b)
    (hk : swp T p (k ()) Q ⟨update disk b d₀, ⟨inOp, ⟨b, d₀, false⟩ :: held⟩, mem⟩) :
    swp T p (.op (.logWrite b) k) Q ⟨disk, ⟨inOp, ⟨b, d₀, dirty⟩ :: held⟩, mem⟩ := by
  refine ⟨fun hs => ⟨(hop hs).1, (hop hs).2, _, mem_cons_self, rfl⟩, fun keep => ?_⟩
  simp only [sexec, find_head, Outcome.Meets]
  simpa [Client.after, map_held_fresh (f := fun h => ⟨h.b, h.data, false⟩) hfresh] using hk

theorem filter_held_fresh (hfresh : ∀ h ∈ held, h.b ≠ b) :
    (⟨b, d₀, dirty⟩ :: held).filter (fun h => decide (h.b ≠ b)) = held := by
  rw [filter_cons_of_neg (by simp), filter_eq_self]
  intro h hh
  simpa using hfresh h hh

theorem swp_brelse (hfresh : ∀ h ∈ held, h.b ≠ b)
    (hk : swp T p (k ()) Q ⟨disk, ⟨inOp, held⟩, mem⟩) :
    swp T p (.op (.brelse b) k) Q ⟨disk, ⟨inOp, ⟨b, d₀, false⟩ :: held⟩, mem⟩ := by
  refine ⟨fun _ => ⟨⟨_, mem_cons_self, rfl⟩, ?_⟩, fun keep => ?_⟩
  · intro h hh hb
    rcases mem_cons.mp hh with rfl | hh
    · rfl
    · exact absurd hb (hfresh h hh)
  · simp only [sexec, find_head, Outcome.Meets, Client.after, filter_held_fresh hfresh]
    exact hk

/-- Letting go of a change that was not log_written. -/
theorem swp_brelse_dirty (hs : ¬ T.strict) (hfresh : ∀ h ∈ held, h.b ≠ b)
    (hk : ∀ disk', disk' = disk ∨ disk' = update disk b d₀ →
      swp T p (k ()) Q ⟨disk', ⟨inOp, held⟩, mem⟩) :
    swp T p (.op (.brelse b) k) Q ⟨disk, ⟨inOp, ⟨b, d₀, true⟩ :: held⟩, mem⟩ := by
  refine ⟨fun h => absurd h hs, fun keep => ?_⟩
  simp only [sexec, find_head, Outcome.Meets, Client.after, filter_held_fresh hfresh]
  cases keep with
  | false => exact hk _ (Or.inl rfl)
  | true => exact hk _ (Or.inr rfl)

/-- Change a block that was read, log_write it and let go of it. -/
theorem swp_writeBack (hop : T.strict → inOp = true ∧ ¬ T.InLog b) (hfresh : ∀ h ∈ held, h.b ≠ b)
    (hk : swp T p (k ()) Q ⟨update disk b d, ⟨inOp, held⟩, mem⟩) :
    swp T p (.op (.modify b d) fun _ => .op (.logWrite b) fun _ => .op (.brelse b) k) Q
      ⟨disk, ⟨inOp, ⟨b, d₀, dirty⟩ :: held⟩, mem⟩ :=
  swp_modify hop hfresh (swp_logWrite hop hfresh (swp_brelse hfresh hk))

theorem swp_panic {msg : String} {k : Empty → FsProg E α} (h : T.Ends (.panic msg)) :
    swp T p (.op (.panic msg) k) Q s :=
  ⟨fun _ => trivial, fun _ => h⟩

theorem swp_ext {o : E.Op} {k : E.Resp o → FsProg E α} {c : Client}
    (hk : (T.xexec p o mem).Meets (fun r m => swp T p (k r) Q ⟨disk, c, m⟩) T.Ends) :
    swp T p (.op (.ext o) k) Q ⟨disk, c, mem⟩ := by
  refine ⟨fun _ => trivial, fun keep => ?_⟩
  simp only [sexec]
  cases hy : T.xexec p o mem with
  | halt e m =>
    rw [hy] at hk
    exact hk
  | ret x m =>
    rw [hy] at hk
    exact hk

theorem swp_beginOp (hop : T.strict → inOp = false)
    (hk : swp T p (k ()) Q ⟨disk, ⟨true, held⟩, mem⟩) :
    swp T p (.op .beginOp k) Q ⟨disk, ⟨inOp, held⟩, mem⟩ :=
  ⟨hop, fun _ => hk⟩

theorem swp_endOp (hop : T.strict → inOp = true) (hclean : ∀ h ∈ held, h.dirty = false)
    (hk : swp T p (k ()) Q ⟨disk, ⟨false, held⟩, mem⟩) :
    swp T p (.op .endOp k) Q ⟨disk, ⟨inOp, held⟩, mem⟩ :=
  ⟨fun hs => ⟨hop hs, hclean⟩, fun _ => hk⟩

end Rules

end Xv6
