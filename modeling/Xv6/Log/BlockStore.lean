/-
  Log/BlockStore.lean --- cache and log together are a plain block store: from the
  end of `initlog` on, whatever processes run on them.
-/
import Xv6.Log.Clients
import Xv6.Log.Recovery

set_option autoImplicit false

namespace Xv6

open Function List Foundation

variable {E : Signature} {M : Type}
  {xexec : Pid → (o : E.Op) → M → Outcome Halt M (E.Resp o)}
  {Ok : Pid → KOp E → Kernel M → Prop} {R : (o : E.Op) → E.Resp o → Prop}

/-! ## Mounting -/

/-- `initlog` has returned; the history starts here. -/
structure Mounted (xexec : Pid → (o : E.Op) → M → Outcome Halt M (E.Resp o))
    (start size : Nat) (d : Disk) (m : M) (s : Kernel M) : Prop where
  run : ∃ q s', recoverFromLog.run (kexec xexec q) (boot start size d m) = .ret () s' ∧
    s = { s' with hist := [] }

/-- The store begins as the disk was, and the disk as `initlog` left it. -/
def mountConfig (start size : Nat) (hpos : 0 < size) (d : Disk) (s : Kernel M) : Config :=
  ⟨start, size, d, s.disk, hpos⟩

theorem recoverable_of_empty {C : Config} {d : Disk} (hn : headerN (d C.start) = 0) :
    C.Recoverable d d := by
  refine ⟨?_, ?_, fun _ _ _ => rfl⟩ <;> rw [decode_eq_nil hn]
  · exact C.lhOk_nil
  · intro j b hj
    simp at hj

theorem Alone.cacheInv {p : Pid} {c : Bcache} {disk : Disk} (h : Alone p c disk [] True)
    {view : Nat → Block} (hview : ∀ b, disk b = view b) :
    CacheInv c view [] (fun _ => .empty) where
  wf := h.wf
  refs i := by simpa [Bcache.pins] using h.refs trivial i
  locked i q := by
    rw [h.locked i]
    exact iff_of_false (by simp) (Holding.not_locks_empty i)
  nodup _ := nodup_nil
  fresh _ _ hx := by cases hx
  limbo _ _ hx := by cases hx
  holds _ _ hy := by cases hy
  coherent i hdev hval _ := by
    rw [h.coherent i hdev hval (fun _ hy => by cases hy)]
    exact hview _
  cached _ hb := by cases hb

variable {start size : Nat} {s : Kernel M}

/-- With an empty log on disk, `initlog` establishes the invariant. -/
theorem Mounted.kinv {d : Disk} {m : M} (h : Mounted xexec start size d m s) (hpos : 0 < size)
    (hn : headerN (d start) = 0) :
    KInv (mountConfig start size hpos d s) s (fun _ => Ghost.outside) := by
  obtain ⟨q, s', hrun, rfl⟩ := h.run
  set C : Config := mountConfig start size hpos d s' with hC
  have hdone : Recovered C d q m True s' := by
    have hrec : C.Recoverable d d := recoverable_of_empty hn
    have hd : Recovered C d q m (decodeHeader (d C.start) = []) s' :=
      (recwp_recoverFromLog hrec).run hrun
    exact { hd with alone := hd.alone.weaken fun _ => decode_eq_nil hn }
  have hlh : s'.log.lh = [] := by rw [hdone.log]; rfl
  exact {
    dev := by simp only [hdone.log]; rfl
    start := by simp only [hdone.log]; rfl
    size := by simp only [hdone.log]; rfl
    proto := by
      refine ⟨[], ?_⟩
      have hproto := GroupCommit.Inv.boot Pid start size
      unfold protocol
      simp only [hdone.log]
      exact hproto
    awake := fun _ => by simp [Ghost.outside]
    cache := by
      simp only [hlh, pinned, drop_nil]
      refine hdone.alone.cacheInv fun b => ?_
      unfold Config.view
      split
      · rfl
      · rename_i hb
        exact hdone.home b hb
    home := fun b hb _ => hdone.home b hb
    raw := rfl
    lhOk := by simp only [hlh]; exact C.lhOk_nil
    clean := fun _ _ _ _ hy => by cases hy
    staged := fun _ hs => absurd rfl hs
    stage := fun _ => trivial
    header := fun _ => hdone.header
    reads := trivial }

/-! ## Clients -/

/-- Every process runs a client's program. -/
def clients (s : Kernel M) (progs : Pid → FsProg E Unit) : Pool (KSig E) Pid (Kernel M) :=
  ⟨s, fun p => compile (progs p) []⟩

/-- The client's rules, on the log where it is. -/
def Obeys (start size : Nat) (R : (o : E.Op) → E.Resp o → Prop) (m : FsProg E Unit) : Prop :=
  Disciplined (fun b => start ≤ b ∧ b < start + size) R m (fun _ _ => True) ⟨false, []⟩

/-- In every state reached the invariant holds, and the process's next request tells
what is on its way. -/
theorem clients_inv {C : Config} {progs : Pid → FsProg E Unit} {c : Pool (KSig E) Pid (Kernel M)}
    (hinv : KInv C s (fun _ => Ghost.outside)) (hR : Replies xexec Ok R)
    (hobey : ∀ p, Obeys C.start C.size R (progs p))
    (hrun : PoolRun (kexec xexec) Ok (clients s progs) c) :
    ∃ g, KInv C c.st g ∧ ∀ p, (∃ o k, c.prog p = .op o k ∧ KOp.Pre o (g p)) ∨
      (c.prog p = .pure () ∧ (g p).limbo = none) := by
  have hsafe : ∀ p, Safe (system xexec Ok C) p (compile (progs p) [])
      (fun _ l => l.limbo = none) Ghost.outside := by
    intro p
    refine Safe.mono (safe_compile hR represents_outside (hobey p)) ?_
    rintro _ l ⟨env, c, hl, -⟩
    exact hl.limbo
  obtain ⟨g, hg, hs⟩ := PoolRun.inv (M := system xexec Ok C) (c := clients s progs) hinv hsafe hrun
  refine ⟨g, hg, fun p => ?_⟩
  have hp := hs p
  cases hprog : c.prog p with
  | pure a => rw [hprog] at hp; exact Or.inr ⟨rfl, hp⟩
  | op o k => rw [hprog] at hp; exact Or.inl ⟨o, k, rfl, hp.1.1⟩

/-! ## The store -/

/-- Process 0 runs the program, and the others do nothing. -/
def only (m : FsProg E Unit) : Pid → FsProg E Unit := update (fun _ => .pure ()) 0 m

theorem only_obeys {m : FsProg E Unit} (h : Obeys start size R m) (p : Pid) :
    Obeys start size R (only m p) := by
  by_cases hp : p = 0
  · subst hp; simpa [only] using h
  · simp only [only, update_of_ne hp]
    trivial

/-- Mount a disk, let process 0 run the program to its end, and look at the states
before and after that. -/
def mountCheck (xexec : Pid → (o : E.Op) → M → Outcome Halt M (E.Resp o)) (start size : Nat)
    (d : Disk) (m : M) (prog : FsProg E Unit) (P : Kernel M → Kernel M → Bool) : Bool :=
  match recoverFromLog.run (kexec xexec 0) (boot start size d m) with
  | .halt _ _ => false
  | .ret _ s =>
      match (compile prog []).run (kexec xexec 0) { s with hist := [] } with
      | .halt _ _ => false
      | .ret _ t => P { s with hist := [] } t

theorem of_mountCheck {d : Disk} {m : M} {prog : FsProg E Unit} {P : Kernel M → Kernel M → Bool}
    (h : mountCheck xexec start size d m prog P = true) :
    ∃ s c, Mounted xexec start size d m s ∧
      PoolRun (kexec xexec) (fun _ _ _ => True) (clients s (only prog)) c ∧
      (∀ p, c.prog p = .pure ()) ∧ P s c.st = true := by
  unfold mountCheck at h
  split at h
  · cases h
  · rename_i s hs
    split at h
    · cases h
    · rename_i t ht
      have hprog : (clients { s with hist := [] } (only prog)).prog 0 = compile prog [] := by
        simp [clients, only]
      refine ⟨_, _, ⟨0, s, hs, rfl⟩,
        PoolRun.of_run (fun _ _ => trivial) (by rw [hprog]; exact ht), fun p => ?_, h⟩
      by_cases hp : p = 0
      · subst hp; simp
      · simp [hp, clients, only, compile]

/-- Log_write a block of sevens. -/
def writer : FsProg NoExt Unit :=
  .op .beginOp fun _ =>
  .op (.bread 40) fun _ =>
  .op (.modify 40 fun _ => 7) fun _ =>
  .op (.logWrite 40) fun _ =>
  .op (.brelse 40) fun _ =>
  .op .endOp .pure

theorem writer_obeys : Obeys 2 LOGSIZE (fun _ _ => True) writer := by
  have hint : 40 < 2 ^ 32 := by decide
  have hlog : ¬ (2 ≤ 40 ∧ 40 < 2 + LOGSIZE) := by decide
  refine ⟨rfl, fun _ _ => ⟨hint, fun d _ => ?_⟩⟩
  refine ⟨⟨rfl, hlog, _, mem_cons_self, rfl⟩, fun _ _ => ?_⟩
  refine ⟨⟨rfl, hlog, _, mem_cons_self, rfl⟩, fun _ _ => ?_⟩
  refine ⟨⟨⟨_, mem_cons_self, rfl⟩, ?_⟩, fun _ _ => ⟨⟨rfl, ?_⟩, fun _ _ => trivial⟩⟩
  · intro h hh _
    simp [Client.after] at hh
    simp [hh]
  · intro h hh
    simp [Client.after] at hh

end Xv6
