/-
  Log/Clients.lean --- a client that keeps the rules runs in the invariant.
-/
import Xv6.Kernel.Client
import Xv6.Log.Commit

set_option autoImplicit false

namespace Xv6

open Function List Foundation

variable {E : Signature} {M : Type} {α : Type}
  {xexec : Pid → (o : E.Op) → M → Outcome Halt M (E.Resp o)}
  {Ok : Pid → KOp E → Kernel M → Prop} {C : Config} {p : Pid}
  {R : (o : E.Op) → E.Resp o → Prop}

/-- The process has what the client has. -/
structure Represents (env : Env) (c : Client) (l : Ghost) : Prop where
  limbo : l.limbo = none
  pc : l.pc = if c.inOp then .inOp else .idle
  stage : l.stage = .idle
  env : env = l.holds.map fun h => (h.b, h.i)
  held : c.held = l.holds.map fun h => ⟨h.b, h.data, h.dirty⟩
  nodup : (l.holds.map Hold.b).Nodup
  fresh : (l.holds.map Hold.i).Nodup
  uint : ∀ h ∈ l.holds, h.b < 2 ^ 32

/-- Nothing yet. -/
theorem represents_outside : Represents [] ⟨false, []⟩ Ghost.outside := by
  refine ⟨rfl, rfl, rfl, rfl, rfl, nodup_nil, nodup_nil, ?_⟩
  intro h hh
  cases hh

theorem lookup_holds {hs : List Hold} (hnodup : (hs.map Hold.b).Nodup) {y : Hold}
    (hy : y ∈ hs) : (hs.map fun h => (h.b, h.i)).lookup y.b = some y.i := by
  induction hs with
  | nil => cases hy
  | cons z zs ih =>
    rw [map_cons, nodup_cons] at hnodup
    rw [map_cons, lookup_cons]
    rcases mem_cons.mp hy with rfl | hy
    · simp
    · have hne : y.b ≠ z.b := fun heq => hnodup.1 (mem_map.mpr ⟨y, hy, heq⟩)
      rw [beq_eq_false_iff_ne.mpr hne]
      exact ih hnodup.2 hy

namespace Represents

variable {env : Env} {c : Client} {l : Ghost} {b : Nat}

section

variable (h : Represents env c l)

include h

/-- The buffer of a block the client holds. -/
theorem lookup (hb : ∃ x ∈ c.held, x.b = b) : ∃ y ∈ l.holds, y.b = b ∧ env.lookup b = some y.i := by
  obtain ⟨x, hx, rfl⟩ := hb
  rw [h.held] at hx
  obtain ⟨y, hy, rfl⟩ := mem_map.mp hx
  refine ⟨y, hy, rfl, ?_⟩
  rw [h.env]
  exact lookup_holds h.nodup hy

/-- Buffers and blocks determine each other among those held. -/
theorem same_iff {x y : Hold} (hx : x ∈ l.holds) (hy : y ∈ l.holds) : x.i = y.i ↔ x.b = y.b := by
  constructor
  · intro hi
    rw [inj_on_of_nodup_map h.fresh hx hy hi]
  · intro hb
    rw [inj_on_of_nodup_map h.nodup hx hy hb]

theorem take {i : BufId} {d : Block} (hb : b < 2 ^ 32) (hfresh : ∀ y ∈ l.holds, y.i ≠ i ∧ y.b ≠ b) :
    Represents ((b, i) :: env) { c with held := ⟨b, d, false⟩ :: c.held }
      ⟨l.toHolding.take ⟨i, b, d, false⟩, l.pc, l.stage⟩ where
  limbo := rfl
  pc := h.pc
  stage := h.stage
  env := by simp [Holding.take, h.env]
  held := by simp [Holding.take, h.held]
  nodup := by
    refine nodup_cons.mpr ⟨?_, h.nodup⟩
    rw [mem_map]
    rintro ⟨y, hy, hyb⟩
    exact (hfresh y hy).2 hyb
  fresh := by
    refine nodup_cons.mpr ⟨?_, h.fresh⟩
    rw [mem_map]
    rintro ⟨y, hy, hyi⟩
    exact (hfresh y hy).1 hyi
  uint := by
    intro y hy
    rcases mem_cons.mp hy with rfl | hy
    · exact hb
    · exact h.uint y hy

/-- The data of a buffer that is held changes, or is made known. -/
theorem setHold {y : Hold} {d : Block} {dirty : Bool} (hy : y ∈ l.holds) {f : Held → Held}
    (hf : ∀ x : Held, x ∈ c.held → x.b = y.b → f x = ⟨x.b, d, dirty⟩)
    (hf' : ∀ x : Held, x.b ≠ y.b → f x = x) :
    Represents env { c with held := c.held.map f }
      ⟨l.toHolding.setHold y.i d dirty, l.pc, l.stage⟩ where
  limbo := h.limbo
  pc := h.pc
  stage := h.stage
  env := by
    rw [h.env]
    simp only [Holding.setHold, map_map]
    apply map_congr_left
    intro x _
    simp only [comp]
    split <;> rfl
  held := by
    simp only [h.held, Holding.setHold, map_map]
    apply map_congr_left
    intro x hx
    have hmem : (⟨x.b, x.data, x.dirty⟩ : Held) ∈ c.held := by
      rw [h.held]
      exact mem_map.mpr ⟨x, hx, rfl⟩
    simp only [comp]
    by_cases hi : x.i = y.i
    · rw [if_pos hi, hf _ hmem ((h.same_iff hx hy).mp hi)]
    · rw [if_neg hi, hf' _ fun hb => hi ((h.same_iff hx hy).mpr hb)]
  nodup := by
    have : (l.toHolding.setHold y.i d dirty).holds.map Hold.b = l.holds.map Hold.b := by
      simp only [Holding.setHold, map_map]
      apply map_congr_left
      intro x _
      simp only [comp]
      split <;> rfl
    rw [this]
    exact h.nodup
  fresh := by
    rw [Holding.setHold_map_i]
    exact h.fresh
  uint := by
    intro x hx
    rcases Holding.mem_setHold.mp hx with ⟨hx', -⟩ | ⟨-, -, -, w, hw, -, hwb⟩
    · exact h.uint x hx'
    · rw [← hwb]
      exact h.uint w hw

theorem drop {y : Hold} (hy : y ∈ l.holds) : Represents (env.filter fun e => decide (e.1 ≠ y.b))
      { c with held := c.held.filter fun x => decide (x.b ≠ y.b) }
      ⟨(l.toHolding.drop y).withLimbo none, l.pc, l.stage⟩ := by
  have hfilter : ∀ x ∈ l.holds, decide (x.i ≠ y.i) = decide (x.b ≠ y.b) := by
    intro x hx
    simp only [ne_eq, h.same_iff hx hy]
  have hdrop : (l.holds.filter fun x => decide (x.i ≠ y.i)) =
      l.holds.filter fun x => decide (x.b ≠ y.b) := filter_congr hfilter
  exact {
    limbo := rfl
    pc := h.pc
    stage := h.stage
    env := by
      simp only [Holding.withLimbo, Holding.drop, hdrop, h.env, filter_map]
      rfl
    held := by
      simp only [Holding.withLimbo, Holding.drop, hdrop, h.held, filter_map]
      rfl
    nodup := h.nodup.sublist (filter_sublist.map _)
    fresh := h.fresh.sublist (filter_sublist.map _)
    uint := fun x hx => h.uint x (mem_filter.mp hx).1 }

theorem clean (hc : ∀ x ∈ c.held, x.dirty = false) : ∀ y ∈ l.holds, y.dirty = false := by
  intro y hy
  refine hc ⟨y.b, y.data, y.dirty⟩ ?_
  rw [h.held]
  exact mem_map.mpr ⟨y, hy, rfl⟩

end

end Represents

/-- The layer above keeps to what is known of its replies. -/
def Replies (xexec : Pid → (o : E.Op) → M → Outcome Halt M (E.Resp o))
    (Ok : Pid → KOp E → Kernel M → Prop) (R : (o : E.Op) → E.Resp o → Prop) : Prop :=
  ∀ p o s r m, Ok p (.ext o) s → xexec p o s.mem = .ret r m → R o r

/-- The kernel, with no restriction on the stages. -/
abbrev system (xexec : Pid → (o : E.Op) → M → Outcome Halt M (E.Resp o))
    (Ok : Pid → KOp E → Kernel M → Prop) (C : Config) :
    System (KSig E) Pid Ghost (Kernel M) Halt :=
  machine xexec Ok (fun _ => True) C

/-- One request of a client that is allowed to make it. -/
theorem safe_handle (hR : Replies xexec Ok R) {env : Env} {c : Client} {l : Ghost}
    (h : Represents env c l) {o : FsOp E} (ho : Allowed C.InLog c o) :
    Safe (system xexec Ok C) p (handle env o)
      (fun r l' => Possible R o r.1 ∧ Represents r.2 (c.after o r.1) l') l := by
  cases o with
  | bread b =>
    refine safe_bread trivial h.limbo fun i d hfresh => ?_
    refine safe_getData (y := ⟨i, b, d, false⟩) trivial rfl mem_cons_self ?_
    exact ⟨trivial, h.take ho hfresh⟩
  | modify b d =>
    obtain ⟨hin, hlog, hheld⟩ := ho
    obtain ⟨y, hy, rfl, hlook⟩ := h.lookup hheld
    have hpc : l.pc = .inOp := by rw [h.pc, hin]; rfl
    simp only [handle, hlook]
    refine safe_setData trivial h.limbo hy (Or.inl (by rw [hpc]; rfl)) ?_
    refine ⟨trivial, h.setHold hy (fun x _ hx => ?_) fun x hx => ?_⟩
    · rw [if_pos hx]
    · rw [if_neg hx]
  | logWrite b =>
    obtain ⟨hin, hlog, hheld⟩ := ho
    obtain ⟨y, hy, rfl, hlook⟩ := h.lookup hheld
    have hpc : l.pc = .inOp := by rw [h.pc, hin]; rfl
    simp only [handle, hlook]
    refine safe_logWrite trivial h.limbo hpc hy hlog (h.uint y hy) ?_
    refine ⟨trivial, h.setHold hy (fun x hmem hx => ?_) fun x hx => ?_⟩
    · rw [if_pos hx]
      rw [h.held] at hmem
      obtain ⟨z, hz, rfl⟩ := mem_map.mp hmem
      rw [inj_on_of_nodup_map h.nodup hz hy hx]
    · rw [if_neg hx]
  | brelse b =>
    obtain ⟨hheld, hclean⟩ := ho
    obtain ⟨y, hy, rfl, hlook⟩ := h.lookup hheld
    have hyc : y.dirty = false := by
      refine hclean ⟨y.b, y.data, y.dirty⟩ ?_ rfl
      rw [h.held]
      exact mem_map.mpr ⟨y, hy, rfl⟩
    simp only [handle, hlook]
    refine safe_brelse trivial h.limbo hy hyc ?_
    exact ⟨trivial, h.drop hy⟩
  | beginOp =>
    have ho : c.inOp = false := ho
    refine safe_beginOp trivial h.limbo (by rw [h.pc, ho]; rfl) h.stage ?_
    exact ⟨trivial, { h with pc := rfl }⟩
  | endOp =>
    obtain ⟨hin, hclean⟩ := ho
    have hl : l = ⟨⟨none, l.holds⟩, .inOp, .idle⟩ := by
      obtain ⟨⟨lim, hs⟩, pc, st⟩ := l
      have h1 := h.limbo
      have h2 := h.pc
      have h3 := h.stage
      simp only at h1 h2 h3
      rw [h1, h2, h3, hin]
      rfl
    rw [hl]
    apply Safe.bind
    apply Safe.mono (safe_endOp (fun _ => trivial) (h.clean hclean))
    rintro _ _ rfl
    exact ⟨trivial, { h with limbo := rfl, pc := rfl, stage := rfl }⟩
  | panic msg => exact safe_panic trivial h.limbo
  | ext x =>
    exact safe_ext trivial h.limbo (fun s r m => hR p x s r m) fun r hr => ⟨hr, h⟩

/-- A client that keeps the rules runs in the invariant. -/
theorem safe_compile (hR : Replies xexec Ok R) {m : FsProg E α} {Q : α → Client → Prop}
    {env : Env} {c : Client} {l : Ghost} (h : Represents env c l)
    (hm : Disciplined C.InLog R m Q c) :
    Safe (system xexec Ok C) p (compile m env)
      (fun a l' => ∃ env' c', Represents env' c' l' ∧ Q a c') l := by
  induction m generalizing env c l with
  | pure a => exact ⟨env, c, h, hm⟩
  | op o k ih =>
    apply Safe.bind
    apply Safe.mono (safe_handle hR h hm.1)
    rintro ⟨r, env'⟩ l' ⟨hr, h'⟩
    exact ih r h' (hm.2 r hr)

end Xv6
