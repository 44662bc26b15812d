/-
  Log/Invariant.lean --- the invariant of the buffer cache and the log together.

  It ties four things to each other while any number of processes are at work: the
  protocol of `Log/GroupCommit.lean`, the cache of `Cache/Invariant.lean`, the disk,
  and the plain block store the whole is meant to be, which is read off the history
  (`latest`: the data last passed to `log_write`).

  A process that commits has a `Stage`, which remembers what the transaction is,
  what the disk and the history were when the commit began, and how far it has
  come; `StageOk` says what that means for the disk.
-/
import Xv6.Cache.Steps
import Xv6.Kernel.Machine
import Xv6.Log.GroupCommitSafety

set_option autoImplicit false

namespace Xv6

open Function List Foundation

/-! ## The block store in the history -/

/-- The data last passed to `log_write`, or else the initial contents. -/
def latest (d₀ : Disk) : List Event → Disk
  | [], b => d₀ b
  | .logged c d :: h, b => if c = b then d else latest d₀ h b
  | .read _ _ :: h, b => latest d₀ h b
  | .wrote _ _ :: h, b => latest d₀ h b

/-- The data last written to the disk, or else the initial contents. -/
def lastWritten (d₀ : Disk) : List Event → Disk
  | [], b => d₀ b
  | .wrote c d :: h, b => if c = b then d else lastWritten d₀ h b
  | .read _ _ :: h, b => lastWritten d₀ h b
  | .logged _ _ :: h, b => lastWritten d₀ h b

/-- Where the log is, and the contents of the store and of the disk at the start. -/
structure Config where
  start : Nat
  size : Nat
  store : Disk
  raw : Disk
  pos : 0 < size

namespace Config

/-- The blocks of the log: the header, and the slots after it. -/
def InLog (C : Config) (b : Nat) : Prop := C.start ≤ b ∧ b < C.start + C.size

instance (C : Config) (b : Nat) : Decidable (C.InLog b) :=
  inferInstanceAs (Decidable (_ ∧ _))

/-- What `bread` is to return: of a block of the log what is on disk, of any other
block what was last log_written. -/
def view (C : Config) (disk : Disk) (hist : List Event) (b : Nat) : Block :=
  if C.InLog b then disk b else latest C.store hist b

/-- Every `bread` returned what it was to return. -/
def ReadsOk (C : Config) : List Event → Prop
  | [] => True
  | .read b d :: h => d = C.view (lastWritten C.raw h) h b ∧ C.ReadsOk h
  | .logged _ _ :: h => C.ReadsOk h
  | .wrote _ _ :: h => C.ReadsOk h

end Config

/-! ## What a process is up to -/

/-- How far a commit has come: `pre` and `old` are the disk and the history when it
began, `lh` is its transaction. -/
inductive Stage where
  /-- not committing, or nothing to commit -/
  | idle
  /-- in `write_log` and the first `write_head`: `t` slots are written -/
  | logging (pre : Disk) (old : List Event) (lh : List Nat) (t : Nat)
  /-- the header is on disk; `w` blocks are written home and `u` unpinned -/
  | installing (old : List Event) (lh : List Nat) (w u : Nat)
  /-- `log.lh.n` is 0, in memory -/
  | erasing (old : List Event) (lh : List Nat)
  /-- and on disk -/
  | erased (old : List Event)

/-- Blocks of `log.lh` that are home already. -/
def Stage.written : Stage → Nat
  | .installing _ _ w _ => w
  | _ => 0

/-- Blocks of `log.lh` that are not pinned any more. -/
def Stage.unpinned : Stage → Nat
  | .installing _ _ _ u => u
  | _ => 0

/-- The ghost value of a process. -/
structure Ghost extends Holding where
  pc : GroupCommit.Pc
  stage : Stage

/-- A process that has nothing to do with the file system. -/
def Ghost.outside : Ghost := ⟨.empty, .idle, .idle⟩

/-- What each process has of the cache. -/
def holding (g : Pid → Ghost) : Pid → Holding := fun p => (g p).toHolding

/-- The blocks the log has pinned. -/
def pinned (lh : List Nat) (g : Pid → Ghost) : List Nat :=
  lh.drop (∑ p, (g p).stage.unpinned)

/-- The blocks whose home on disk is out of date. -/
def pending (lh : List Nat) (g : Pid → Ghost) : List Nat :=
  lh.drop (∑ p, (g p).stage.written)

/-- The transaction's blocks are outside of the log, and their contents fit in it. -/
structure Config.LhOk (C : Config) (lh : List Nat) : Prop where
  outside : ∀ b ∈ lh, ¬ C.InLog b
  uint : ∀ b ∈ lh, b < 2 ^ 32
  fits : lh ≠ [] → lh.length < C.size
  length : lh.length ≤ LOGSIZE

/-- The first `t` slots hold the blocks of the transaction. -/
def Config.Slots (C : Config) (disk : Disk) (hist : List Event) (lh : List Nat) (t : Nat) :
    Prop :=
  ∀ j b, j < t → lh[j]? = some b → disk (C.start + j + 1) = latest C.store hist b

/-- Since `old` nothing was log_written, and was the header written? -/
def Config.Since (C : Config) (old hist : List Event) (written : Prop) : Prop :=
  ∃ new, hist = new ++ old ∧ (∀ b d, .logged b d ∉ new) ∧
    ((∃ d, .wrote C.start d ∈ new) ↔ written)

/-- What a stage means for the disk. -/
def Config.StageOk (C : Config) (disk : Disk) (lh : List Nat) (hist : List Event)
    (pc : GroupCommit.Pc) : Stage → Prop
  | .idle => True
  | .logging pre old lh' t =>
      pc = .commit ∧ lh = lh' ∧ lh ≠ [] ∧ headerN (disk C.start) = 0 ∧
      (∀ b, ¬ C.InLog b → disk b = pre b) ∧ C.Slots disk hist lh t ∧
      C.Since old hist False
  | .installing old lh' w u =>
      pc = .commit ∧ lh = lh' ∧ decodeHeader (disk C.start) = lh ∧
      C.Slots disk hist lh lh.length ∧ w ≤ lh.length ∧ u ≤ w ∧ C.Since old hist True
  | .erasing old lh' =>
      pc = .committed ∧ lh = [] ∧ C.LhOk lh' ∧ decodeHeader (disk C.start) = lh' ∧
      C.Slots disk hist lh' lh'.length ∧ C.Since old hist True
  | .erased old =>
      pc = .committed ∧ lh = [] ∧ headerN (disk C.start) = 0 ∧ C.Since old hist True

variable {M : Type}

/-- The protocol's view of the state. -/
def protocol (s : Kernel M) (g : Pid → Ghost) (h : List (GroupCommit.Event Pid)) :
    GroupCommit.State Pid :=
  ⟨s.log, fun p => (g p).pc, h, none⟩

/-- The invariant. -/
structure KInv (C : Config) (s : Kernel M) (g : Pid → Ghost) : Prop where
  dev : s.log.dev = ROOTDEV
  start : s.log.start = C.start
  size : s.log.size = C.size
  proto : ∃ h, GroupCommit.Inv (protocol s g h)
  /-- a process that sleeps in `begin_op` is as if it had not called it yet -/
  awake : ∀ p, (g p).pc ≠ .asleep
  cache : CacheInv s.bc (C.view s.disk s.hist) (pinned s.log.lh g) (holding g)
  home : ∀ b, ¬ C.InLog b → b ∉ pending s.log.lh g → s.disk b = latest C.store s.hist b
  raw : s.disk = lastWritten C.raw s.hist
  lhOk : C.LhOk s.log.lh
  /-- only a process in an operation or in a commit has changes nobody knows of -/
  clean : ∀ p, (g p).pc.opens = 0 → (g p).pc.commits = 0 →
    ∀ y ∈ (g p).holds, y.dirty = false
  staged : ∀ p, (g p).stage ≠ .idle → (g p).pc.commits = 1
  stage : ∀ p, C.StageOk s.disk s.log.lh s.hist (g p).pc (g p).stage
  header : (∀ p, (g p).stage = .idle) → headerN (s.disk C.start) = 0
  reads : C.ReadsOk s.hist

/-! ## One ghost value changes -/

theorem comp_update {α : Type} (f : Ghost → α) (g : Pid → Ghost) (p : Pid) (l : Ghost) :
    (fun q => f (update g p l q)) = update (fun q => f (g q)) p (f l) := by
  funext q
  by_cases hq : q = p
  · subst hq; simp
  · simp [hq]

theorem holding_update (g : Pid → Ghost) (p : Pid) (l : Ghost) :
    holding (update g p l) = update (holding g) p l.toHolding :=
  comp_update Ghost.toHolding g p l

theorem comp_update_same {α : Type} {f : Ghost → α} {g : Pid → Ghost} {p : Pid} {l : Ghost}
    (h : f l = f (g p)) (q : Pid) : f (update g p l q) = f (g q) := by
  by_cases hq : q = p
  · subst hq; simpa using h
  · simp [hq]

theorem pinned_update {lh : List Nat} {g : Pid → Ghost} {p : Pid} {l : Ghost}
    (h : l.stage = (g p).stage) : pinned lh (update g p l) = pinned lh g := by
  have hq : ∀ q, (update g p l q).stage = (g q).stage := comp_update_same h
  simp only [pinned, hq]

theorem pending_update {lh : List Nat} {g : Pid → Ghost} {p : Pid} {l : Ghost}
    (h : l.stage = (g p).stage) : pending lh (update g p l) = pending lh g := by
  have hq : ∀ q, (update g p l q).stage = (g q).stage := comp_update_same h
  simp only [pending, hq]

namespace KInv

variable {C : Config} {s : Kernel M} {g : Pid → Ghost} {p : Pid} {l : Ghost}

/-- Only the cache changes, and what one process has of it. -/
theorem cacheStep (h : KInv C s g) {c : Bcache} (hpc : l.pc = (g p).pc)
    (hstage : l.stage = (g p).stage)
    (hc : CacheInv c (C.view s.disk s.hist) (pinned s.log.lh g) (update (holding g) p l.toHolding))
    (hclean : l.pc.opens = 0 → l.pc.commits = 0 → ∀ y ∈ l.holds, y.dirty = false) :
    KInv C { s with bc := c } (update g p l) := by
  have hpcs : ∀ q, (update g p l q).pc = (g q).pc := comp_update_same hpc
  have hstages : ∀ q, (update g p l q).stage = (g q).stage := comp_update_same hstage
  obtain ⟨hh, hproto⟩ := h.proto
  exact {
    dev := h.dev
    start := h.start
    size := h.size
    proto := ⟨hh, by simpa only [protocol, hpcs] using hproto⟩
    awake := fun q => by rw [hpcs]; exact h.awake q
    cache := by rw [pinned_update hstage, holding_update]; exact hc
    home := by rw [pending_update hstage]; exact h.home
    raw := h.raw
    lhOk := h.lhOk
    clean := fun q => by
      by_cases hq : q = p
      · subst hq; simpa using hclean
      · simpa [hq] using h.clean q
    staged := fun q => by rw [hpcs, hstages]; exact h.staged q
    stage := fun q => by rw [hpcs, hstages]; exact h.stage q
    header := fun hidle => h.header fun q => by rw [← hstages]; exact hidle q
    reads := h.reads }

theorem Since.cons {old hist : List Event} {written : Prop} (h : C.Since old hist written)
    {e : Event} (hlog : ∀ b d, e ≠ .logged b d) (hhead : ∀ d, e ≠ .wrote C.start d) :
    C.Since old (e :: hist) written := by
  obtain ⟨new, rfl, hnew, hiff⟩ := h
  refine ⟨e :: new, rfl, fun b d hd => ?_, ?_⟩
  · rcases mem_cons.mp hd with hd | hd
    · exact hlog b d hd.symm
    · exact hnew b d hd
  · rw [← hiff]
    constructor
    · rintro ⟨d, hd⟩
      rcases mem_cons.mp hd with hd | hd
      · exact absurd hd.symm (hhead d)
      · exact ⟨d, hd⟩
    · rintro ⟨d, hd⟩
      exact ⟨d, mem_cons_of_mem _ hd⟩

theorem Since.header {old hist : List Event} {written : Prop} (h : C.Since old hist written)
    (d : Block) : C.Since old (.wrote C.start d :: hist) True := by
  obtain ⟨new, rfl, hnew, -⟩ := h
  refine ⟨.wrote C.start d :: new, rfl, fun b x hx => ?_, ?_⟩
  · rcases mem_cons.mp hx with hx | hx
    · cases hx
    · exact hnew b x hx
  · exact iff_of_true ⟨d, mem_cons_self⟩ trivial

/-- An event that is neither a write nor a `log_write` changes nothing but the
history. -/
theorem addRead (h : KInv C s g) {b : Nat} {d : Block} (hd : d = C.view s.disk s.hist b) :
    KInv C { s with hist := .read b d :: s.hist } g where
  dev := h.dev
  start := h.start
  size := h.size
  proto := h.proto
  awake := h.awake
  cache := h.cache
  home := h.home
  raw := h.raw
  lhOk := h.lhOk
  clean := h.clean
  staged := h.staged
  stage q := by
    have hq := h.stage q
    cases hst : (g q).stage with
    | idle => trivial
    | logging pre old lh t =>
      rw [hst] at hq
      obtain ⟨h1, h2, h3, h4, h5, h6, h7⟩ := hq
      exact ⟨h1, h2, h3, h4, h5, h6, Since.cons h7 (by simp) (by simp)⟩
    | installing old lh w u =>
      rw [hst] at hq
      obtain ⟨h1, h2, h3, h4, h5, h6, h7⟩ := hq
      exact ⟨h1, h2, h3, h4, h5, h6, Since.cons h7 (by simp) (by simp)⟩
    | erasing old lh =>
      rw [hst] at hq
      obtain ⟨h1, h2, h3, h4, h5, h6⟩ := hq
      exact ⟨h1, h2, h3, h4, h5, Since.cons h6 (by simp) (by simp)⟩
    | erased old =>
      rw [hst] at hq
      obtain ⟨h1, h2, h3, h4⟩ := hq
      exact ⟨h1, h2, h3, Since.cons h4 (by simp) (by simp)⟩
  header := h.header
  reads := ⟨by rw [← h.raw]; exact hd, h.reads⟩

/-! ## Who commits -/

/-- Nobody is in a commit while a process is in an operation. -/
theorem all_idle (h : KInv C s g) (hp : (g p).pc.opens = 1) (q : Pid) : (g q).stage = .idle := by
  by_contra hq
  obtain ⟨hh, hproto⟩ := h.proto
  exact hproto.no_committer (hproto.not_committing (p := p) hp) q (h.staged q hq)

section

variable (h : KInv C s g) (hp : (g p).pc.commits = 1)

include h hp

/-- At most one process commits. -/
theorem others_idle {q : Pid} (hq : q ≠ p) : (g q).stage = .idle := by
  by_contra hne
  obtain ⟨hh, hproto⟩ := h.proto
  exact hq (hproto.committer_unique (p := p) hp (h.staged q hne))

/-- What the stages add up to is what the committing process's stage says. -/
theorem sum_stage {f : Stage → Nat} (hf : f .idle = 0) : (∑ q, f (g q).stage) = f (g p).stage := by
  refine Finset.sum_eq_single p (fun q _ hq => ?_) (fun hn => absurd (Finset.mem_univ p) hn)
  rw [h.others_idle hp hq, hf]

theorem sum_stage_update {f : Stage → Nat} (hf : f .idle = 0) (l : Ghost) :
    (∑ q, f (update g p l q).stage) = f l.stage := by
  have hsum := sum_update_add (fun l : Ghost => f l.stage) g p l
  rw [h.sum_stage hp hf] at hsum
  omega

end

end KInv

end Xv6
