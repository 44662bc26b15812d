/-
  Proc/Tree.lean --- parents, exit statuses and who gets them; and a deadlock in `exit`.

  A step is one of four kinds as far as the history goes (`Event`): it starts a
  process, a process exits, a zombie is reaped, or nothing of that.  Processes are
  told apart by their number, so that an entry of the table that is used again is
  another process.
-/
import Xv6.Proc.Sections

set_option autoImplicit false

namespace Xv6.Procs

open Function List

variable {p q : Pid} {s t : State} {y : Proc} {pc : Pc} {a : Action}

/-! ## What a step adds to the history -/

/-- The entry is in use or not, and a zombie or not, as it was; and if it is in use it is
the same process. -/
structure Same (x y : Proc) : Prop where
  unused : y.state = .unused ↔ x.state = .unused
  zombie : y.state = .zombie ↔ x.state = .zombie
  process : x.state ≠ .unused → y.gen = x.gen ∧ y.pid = x.pid ∧ y.xstate = x.xstate

theorem Same.refl (x : Proc) : Same x x := ⟨Iff.rfl, Iff.rfl, fun _ => ⟨rfl, rfl, rfl⟩⟩

/-- The history is as it was. -/
structure Quiet (s t : State) : Prop where
  nextgen : t.nextgen = s.nextgen
  forks : t.forks = s.forks
  exits : t.exits = s.exits
  reports : t.reports = s.reports

inductive Event (a : Action) (s t : State) : Prop where
  | quiet (h : Quiet s t) (hproc : ∀ j, Same (s.proc j) (t.proc j))
  | forked (np : Pid) (hnew : (s.proc np).state = .unused) (hstate : (t.proc np).state = .runnable)
      (hgen : (t.proc np).gen = s.nextgen) (hnext : t.nextgen = s.nextgen + 1)
      (hforks : t.forks = s.forks ++ [((t.proc np).gen, (t.proc np).pid)])
      (hexits : t.exits = s.exits) (hreports : t.reports = s.reports)
      (hproc : ∀ j, j ≠ np → Same (s.proc j) (t.proc j))
  | exited (p : Pid) (hp : (s.proc p).state = .running)
      (hself : t.proc p = { s.proc p with xstate := (t.proc p).xstate, state := .zombie })
      (hnext : t.nextgen = s.nextgen) (hforks : t.forks = s.forks)
      (hexits : t.exits = s.exits ++ [⟨(s.proc p).gen, (s.proc p).pid, (t.proc p).xstate⟩])
      (hreports : t.reports = s.reports) (hproc : ∀ j, j ≠ p → Same (s.proc j) (t.proc j))
  | reaped (p np : Pid) (alloc : Alloc) (copied noaddr havekids : Bool)
      (ha : a = .run p alloc copied) (hpc : s.pc p = .waitChild noaddr np havekids)
      (hz : (s.proc np).state = .zombie) (hparent : (s.proc np).parent = some p)
      (hfreed : (t.proc np).state = .unused)
      (hnext : t.nextgen = s.nextgen) (hforks : t.forks = s.forks) (hexits : t.exits = s.exits)
      (hreports : t.reports = s.reports ++
        [⟨⟨(s.proc np).gen, (s.proc np).pid, (s.proc np).xstate⟩, p, some p⟩])
      (hproc : ∀ j, j ≠ np → Same (s.proc j) (t.proc j))

theorem same_update (hy : Same (s.proc q) y) (j : Pid) : Same (s.proc j) (update s.proc q y j) :=
  (forall_update_iff s.proc fun j x => Same (s.proc j) x).mpr ⟨hy, fun _ _ => .refl _⟩ j

/-- A section that changes one entry. -/
theorem event_setProc (hy : Same (s.proc q) y) : Event a s (s.setProc q y) :=
  .quiet ⟨rfl, rfl, rfl, rfl⟩ (same_update hy)

theorem event_set (hy : Same (s.proc q) y) : Event a s ((s.setProc q y).setPc p pc) :=
  .quiet ⟨rfl, rfl, rfl, rfl⟩ (same_update hy)

theorem event_setPc : Event a s (s.setPc p pc) :=
  .quiet ⟨rfl, rfl, rfl, rfl⟩ fun _ => .refl _

/-- The lock, the parent or the channel of an entry changes. -/
theorem same_of_eq {x y : Proc} (hstate : y.state = x.state) (hgen : y.gen = x.gen)
    (hpid : y.pid = x.pid) (hxstate : y.xstate = x.xstate) : Same x y :=
  ⟨by rw [hstate], by rw [hstate], fun _ => ⟨hgen, hpid, hxstate⟩⟩

/-- An entry in use that stays so, and is the same process. -/
theorem same_of_used {x y : Proc} (hx : x.state ≠ .unused ∧ x.state ≠ .zombie)
    (hy : y.state ≠ .unused ∧ y.state ≠ .zombie) (hgen : y.gen = x.gen) (hpid : y.pid = x.pid)
    (hxstate : y.xstate = x.xstate) : Same x y :=
  ⟨iff_of_false hy.1 hx.1, iff_of_false hy.2 hx.2, fun _ => ⟨hgen, hpid, hxstate⟩⟩

/-- An entry that is not in use stays so. -/
theorem same_of_unused {x y : Proc} (hx : x.state = .unused) (hy : y.state = .unused) : Same x y :=
  ⟨iff_of_true hy hx, by rw [hx, hy], fun h => absurd hx h⟩

theorem event_forkInto (hq : (s.proc q).state = .unused)
    (alloc : Alloc) : Event a s (forkInto p q alloc s) := by
  cases alloc with
  | noTrapframe => exact .quiet ⟨rfl, rfl, rfl, rfl⟩ (same_update (same_of_unused hq hq))
  | noMemory => exact .quiet ⟨rfl, rfl, rfl, rfl⟩ (same_update (same_of_unused hq rfl))
  | ok =>
    have hnew := forkInto_self p q s
    refine .forked q hq (by rw [hnew]) (by rw [hnew]) rfl ?_ rfl rfl fun j hj => ?_
    · rw [hnew]
      rfl
    · rw [forkInto_of_ne hj]
      exact .refl _

theorem same_wakeup1 (s : State) (q j : Pid) : Same (s.proc j) ((s.wakeup1 q).proc j) := by
  unfold State.wakeup1
  split
  · rename_i hw
    exact same_update (y := { s.proc q with state := .runnable })
      (same_of_used (by rw [hw.2]; exact ⟨by decide, by decide⟩) ⟨by simp, by simp⟩ rfl rfl rfl) j
  · exact .refl _

theorem quiet_wakeup1 (s : State) (q : Pid) : Quiet s (s.wakeup1 q) := by
  unfold State.wakeup1
  split <;> exact ⟨rfl, rfl, rfl, rfl⟩

theorem event_becomeZombie (hs : Inv s) (hrun : (s.proc p).state = .running)
    {status : Int} {op : Pid}
    {i : Nat} (hpc : s.pc p = .reparent status op i) : Event a s (becomeZombie p status op s) := by
  have hne : op ≠ p := (hs.ok_at hpc).2.2.2.1
  have hq := quiet_wakeup1 s op
  obtain ⟨y, hw, -⟩ := wakeup1_cases s op
  set t := becomeZombie p status op s with ht
  have hself : t.proc p = { s.proc p with xstate := status, state := .zombie } :=
    becomeZombie_self hne
  refine .exited p hrun (by rw [hself]) hq.nextgen hq.forks ?_ hq.reports fun j hj => ?_
  · rw [hself]
    simp [ht, becomeZombie, State.setProc, State.setPc, State.release, hw, hne.symm]
  · have hsame := same_wakeup1 s op j
    by_cases hjop : j = op
    · subst hjop
      have hj' : t.proc j = { (s.wakeup1 j).proc j with lock := none } := by
        simp [ht, becomeZombie, State.setProc, State.setPc, State.release, hj]
      rw [hj']
      exact ⟨hsame.unused, hsame.zombie, hsame.process⟩
    · have hj' : t.proc j = (s.wakeup1 op).proc j := by
        simp [ht, becomeZombie, State.setProc, State.setPc, State.release, hj, hjop]
      rw [hj']
      exact hsame

variable {alloc : Alloc}

theorem event_waitChild (hs : Inv s) (hrun : (s.proc p).state = .running)
    {noaddr havekids copied : Bool} {np : Pid} (hpc : s.pc p = .waitChild noaddr np havekids)
    (hx : waitChild p noaddr np copied s = some t) : Event (.run p alloc copied) s t := by
  have hok := hs.ok_at hpc
  have hparent : (s.proc np).parent = some p := hok.2.2
  have hfree : Event (.run p alloc copied) s ((s.release p).setPc p .user) :=
    event_set (same_of_eq rfl rfl rfl rfl)
  simp only [waitChild] at hx
  split at hx
  · split at hx
    · rename_i hz
      have hne : np ≠ p := by
        rintro rfl
        rw [hrun] at hz
        cases hz
      split at hx
      · cases hx
        exact hfree
      · have hx := Option.some.inj hx
        have hreaped : t.proc np = freeproc (s.proc np) := by
          rw [← hx]
          simp [State.setProc, State.setPc, State.release, hne]
        have hother : ∀ j, j ≠ np → Same (s.proc j) (t.proc j) := by
          intro j hjn
          rw [← hx]
          by_cases hjp : j = p
          · subst hjp
            simp only [State.setProc, State.setPc, State.release, update_self, update_of_ne hjn]
            exact ⟨Iff.rfl, Iff.rfl, fun _ => ⟨rfl, rfl, rfl⟩⟩
          · simp only [State.setProc, State.setPc, State.release, update_of_ne hjp,
              update_of_ne hjn]
            exact .refl _
        refine .reaped p np alloc copied noaddr havekids rfl hpc hz hparent ?_ ?_ ?_ ?_ ?_ hother
        · rw [hreaped]
          rfl
        · rw [← hx]
          rfl
        · rw [← hx]
          rfl
        · rw [← hx]
          rfl
        · rw [← hx, ← hparent]
          rfl
    · cases hx
      exact event_setPc
  · cases hx

theorem event_killScan {pid : Int} {i : Nat} (hx : killScan p pid i s = some t) : Event a s t := by
  simp only [killScan] at hx
  split at hx
  · rename_i hi
    split at hx
    · split at hx
      · cases hx
        refine event_set ?_
        by_cases hsleep : (s.proc ⟨i, hi⟩).state = .sleeping
        · refine same_of_used (by rw [hsleep]; exact ⟨by decide, by decide⟩) ?_ rfl rfl rfl
          simp [hsleep]
        · refine ⟨?_, ?_, fun _ => ⟨rfl, rfl, rfl⟩⟩
          · simp only [if_neg hsleep]
          · simp only [if_neg hsleep]
      · cases hx
        exact event_setPc
    · cases hx
  · cases hx
    exact event_setPc

theorem alive_of_eq {x : ProcState} (h : (s.proc p).state = x) (hu : x ≠ .unused)
    (hz : x ≠ .zombie) : s.Alive p := by
  unfold State.Alive
  rw [h]
  exact ⟨hu, hz⟩

theorem event_runSection (hs : Inv s) (hrun : (s.proc p).state = .running) {copied : Bool}
    (hx : runSection p alloc copied s = some t) :
    Event (.run p alloc copied) s t := by
  unfold runSection at hx
  cases hpc : s.pc p with
  | forkScan i =>
    simp only [hpc, forkScan] at hx
    split at hx
    · split at hx
      · split at hx
        · rename_i hq
          cases hx
          exact event_forkInto hq alloc
        · cases hx
          exact event_setPc
      · cases hx
    · cases hx
      exact event_setPc
  | wakeInit status =>
    simp only [hpc, wakeInit] at hx
    split at hx
    · cases hx
      have hq := quiet_wakeup1 s initproc
      exact .quiet ⟨hq.nextgen, hq.forks, hq.exits, hq.reports⟩ (same_wakeup1 s initproc)
    · cases hx
  | readParent status =>
    simp only [hpc, readParent] at hx
    split at hx
    · cases hparent : (s.proc p).parent with
      | none => rw [hparent] at hx; cases hx
      | some op =>
        rw [hparent] at hx
        cases hx
        exact event_setPc
    · cases hx
  | lockParent status op =>
    simp only [hpc, lockParent] at hx
    split at hx
    · cases hx
      exact event_set (same_of_eq rfl rfl rfl rfl)
    · cases hx
  | lockSelf status op =>
    simp only [hpc, lockSelf] at hx
    split at hx
    · cases hx
      exact event_set (same_of_eq rfl rfl rfl rfl)
    · cases hx
  | reparent status op i =>
    simp only [hpc, Option.some.injEq] at hx
    subst hx
    unfold reparent
    split
    · split
      · exact event_setPc
      · exact event_setPc
    · exact event_becomeZombie hs hrun hpc
  | giveAway status op pp =>
    simp only [hpc, giveAway] at hx
    split at hx
    · cases hx
      exact event_set (same_of_eq rfl rfl rfl rfl)
    · cases hx
  | waitLock noaddr =>
    simp only [hpc, waitLock] at hx
    split at hx
    · cases hx
      exact event_set (same_of_eq rfl rfl rfl rfl)
    · cases hx
  | waitScan noaddr i havekids =>
    simp only [hpc, Option.some.injEq] at hx
    subst hx
    unfold waitScan
    split
    · split
      · exact event_setPc
      · exact event_setPc
    · split
      · exact event_set (same_of_eq rfl rfl rfl rfl)
      · exact event_set (same_of_used (alive_of_eq hrun (by decide) (by decide)) ⟨by simp, by simp⟩
          rfl rfl rfl)
  | waitChild noaddr np havekids =>
    rw [hpc] at hx
    exact event_waitChild hs hrun hpc hx
  | killScan pid i => rw [hpc] at hx; exact event_killScan hx
  | _ => rw [hpc] at hx; cases hx

theorem event_step (hs : Inv s) (hx : step a s = some t) : Event a s t := by
  cases a with
  | call p c =>
    simp only [step] at hx
    split at hx
    · cases hc : c.start p with
      | none => rw [hc] at hx; cases hx
      | some pc =>
        rw [hc] at hx
        cases hx
        exact event_setPc
    · cases hx
  | run p alloc copied =>
    simp only [step] at hx
    split at hx
    · rename_i hrun
      exact event_runSection hs hrun hx
    · split at hx
      · cases hx
        exact event_set (same_of_eq rfl rfl rfl rfl)
      · cases hx
  | schedule p =>
    simp only [step] at hx
    split at hx
    · rename_i hp
      cases hx
      have hsame : ∀ {y : Proc}, y.state = .running → y.gen = (s.proc p).gen →
          y.pid = (s.proc p).pid → y.xstate = (s.proc p).xstate → Same (s.proc p) y := fun hy =>
        same_of_used (alive_of_eq hp.1 (by decide) (by decide))
          (by rw [hy]; exact ⟨by decide, by decide⟩)
      unfold resume
      split
      · exact event_set (hsame rfl rfl rfl rfl)
      · exact event_set (hsame rfl rfl rfl rfl)
      · exact event_setProc (hsame rfl rfl rfl rfl)
    · cases hx
  | yield p =>
    simp only [step] at hx
    split at hx
    · rename_i hp
      cases hx
      exact event_setProc
        (same_of_used (alive_of_eq hp.1 (by decide) (by decide)) ⟨by simp, by simp⟩ rfl rfl rfl)
    · cases hx
  | block p c =>
    simp only [step] at hx
    split at hx
    · rename_i hp
      cases hx
      exact event_set (same_of_used (alive_of_eq hp.1 (by decide) (by decide)) ⟨by simp, by simp⟩
        rfl rfl rfl)
    · cases hx
  | unblock p =>
    simp only [step] at hx
    split at hx
    · split at hx
      · rename_i hp
        cases hx
        exact event_setProc (same_of_used (alive_of_eq hp.1 (by decide) (by decide))
          ⟨by simp, by simp⟩ rfl rfl rfl)
      · cases hx
    · cases hx

/-! ## The history -/

structure History (s : State) : Prop where
  /-- every process is on record, and no two processes have one number -/
  forked : ∀ p, (s.proc p).state ≠ .unused → ((s.proc p).gen, (s.proc p).pid) ∈ s.forks
  numbers : ∀ f ∈ s.forks, f.1 < s.nextgen
  distinct : (s.forks.map Prod.fst).Nodup
  sole : ∀ p q, (s.proc p).state ≠ .unused → (s.proc q).state ≠ .unused →
    (s.proc p).gen = (s.proc q).gen → p = q
  /-- who has exited is a zombie, or gone -/
  exited : ∀ e ∈ s.exits, (e.gen, e.pid) ∈ s.forks ∧
    ∀ p, (s.proc p).state ≠ .unused → (s.proc p).gen = e.gen → (s.proc p).state = .zombie
  zombies : ∀ p, (s.proc p).state = .zombie →
    ⟨(s.proc p).gen, (s.proc p).pid, (s.proc p).xstate⟩ ∈ s.exits
  exits : (s.exits.map Exit.gen).Nodup
  /-- who was reported is gone -/
  reported : ∀ r ∈ s.reports, r.exit ∈ s.exits ∧ r.parent = some r.caller ∧
    ∀ p, (s.proc p).state ≠ .unused → (s.proc p).gen ≠ r.exit.gen
  reports : (s.reports.map fun r => r.exit.gen).Nodup

theorem Same.used {x y : Proc} (h : Same x y) (hy : y.state ≠ .unused) :
    x.state ≠ .unused ∧ y.gen = x.gen ∧ y.pid = x.pid ∧ y.xstate = x.xstate :=
  have hx : x.state ≠ .unused := mt h.unused.mpr hy
  ⟨hx, h.process hx⟩

theorem nodup_concat {l : List Nat} {x : Nat} (hl : l.Nodup) (hx : x ∉ l) : (l ++ [x]).Nodup := by
  rw [← concat_eq_append]
  exact hl.concat hx

namespace History

section

variable (h : History s)

include h

/-- No process is started, and those in use are the ones that were. -/
theorem carry (hnext : t.nextgen = s.nextgen) (hforks : t.forks = s.forks)
    (hused : ∀ p, (t.proc p).state ≠ .unused → (s.proc p).state ≠ .unused ∧
      (t.proc p).gen = (s.proc p).gen ∧ (t.proc p).pid = (s.proc p).pid)
    (hexited : ∀ e ∈ t.exits, (e.gen, e.pid) ∈ s.forks ∧
      ∀ p, (t.proc p).state ≠ .unused → (s.proc p).state ≠ .unused → (s.proc p).gen = e.gen →
        (t.proc p).state = .zombie)
    (hzombies : ∀ p, (t.proc p).state = .zombie →
      ⟨(s.proc p).gen, (s.proc p).pid, (t.proc p).xstate⟩ ∈ t.exits)
    (hexits : (t.exits.map Exit.gen).Nodup)
    (hreported : ∀ r ∈ t.reports, r.exit ∈ t.exits ∧ r.parent = some r.caller ∧
      ∀ p, (t.proc p).state ≠ .unused → (s.proc p).state ≠ .unused → (s.proc p).gen ≠ r.exit.gen)
    (hreports : (t.reports.map fun r => r.exit.gen).Nodup) : History t where
  forked p hp := by
    obtain ⟨hx, hgen, hpid⟩ := hused p hp
    rw [hforks, hgen, hpid]
    exact h.forked p hx
  numbers f hf := by
    rw [hnext]
    exact h.numbers f (by rw [← hforks]; exact hf)
  distinct := by
    rw [hforks]
    exact h.distinct
  sole p q hp hq heq := by
    obtain ⟨hx, hg, -⟩ := hused p hp
    obtain ⟨hy, hg', -⟩ := hused q hq
    exact h.sole p q hx hy (by rw [← hg, ← hg']; exact heq)
  exited e he := by
    obtain ⟨hf, hz⟩ := hexited e he
    refine ⟨by rw [hforks]; exact hf, fun p hp heq => ?_⟩
    obtain ⟨hx, hg, -⟩ := hused p hp
    exact hz p hp hx (by rw [← hg]; exact heq)
  zombies p hp := by
    obtain ⟨-, hgen, hpid⟩ := hused p (by rw [hp]; decide)
    rw [hgen, hpid]
    exact hzombies p hp
  exits := hexits
  reported r hr := by
    obtain ⟨he, hparent, hgone⟩ := hreported r hr
    refine ⟨he, hparent, fun p hp => ?_⟩
    obtain ⟨hx, hg, -⟩ := hused p hp
    rw [hg]
    exact hgone p hp hx
  reports := hreports

theorem quiet (hq : Quiet s t) (hproc : ∀ j, Same (s.proc j) (t.proc j)) : History t := by
  refine h.carry hq.nextgen hq.forks (fun p hp => ?_) (fun e he => ?_) (fun p hp => ?_)
    (by rw [hq.exits]; exact h.exits) (fun r hr => ?_) (by rw [hq.reports]; exact h.reports)
  · obtain ⟨hx, hg, hpid, -⟩ := (hproc p).used hp
    exact ⟨hx, hg, hpid⟩
  · rw [hq.exits] at he
    obtain ⟨hf, hz⟩ := h.exited e he
    exact ⟨hf, fun p _ hx heq => (hproc p).zombie.mpr (hz p hx heq)⟩
  · obtain ⟨-, -, -, hst⟩ := (hproc p).used (by rw [hp]; decide)
    rw [hst, hq.exits]
    exact h.zombies p ((hproc p).zombie.mp hp)
  · rw [hq.reports] at hr
    obtain ⟨he, hparent, hgone⟩ := h.reported r hr
    exact ⟨by rw [hq.exits]; exact he, hparent, fun p _ => hgone p⟩

/-- The numbers of those on record are old. -/
theorem exit_old {e : Exit} (he : e ∈ s.exits) : e.gen < s.nextgen :=
  h.numbers _ (h.exited e he).1

theorem gen_old {p : Pid} (hp : (s.proc p).state ≠ .unused) : (s.proc p).gen < s.nextgen :=
  h.numbers _ (h.forked p hp)

/-- A process is started in an entry that was not in use. -/
theorem fork {np : Pid} (hstate : (t.proc np).state = .runnable)
    (hgen : (t.proc np).gen = s.nextgen) (hnext : t.nextgen = s.nextgen + 1)
    (hforks : t.forks = s.forks ++ [((t.proc np).gen, (t.proc np).pid)])
    (hexits : t.exits = s.exits) (hreports : t.reports = s.reports)
    (hproc : ∀ j, j ≠ np → Same (s.proc j) (t.proc j)) : History t where
  forked p hp := by
    rw [hforks, mem_append]
    by_cases hpn : p = np
    · subst hpn
      exact Or.inr (mem_singleton.mpr rfl)
    · obtain ⟨hx, hg, hpid, -⟩ := (hproc p hpn).used hp
      rw [hg, hpid]
      exact Or.inl (h.forked p hx)
  numbers f hf := by
    rw [hforks, mem_append] at hf
    rcases hf with hf | hf
    · have := h.numbers f hf
      omega
    · rw [mem_singleton.mp hf, hgen]
      omega
  distinct := by
    rw [hforks, map_append, map_singleton, hgen]
    refine nodup_concat h.distinct fun hmem => ?_
    obtain ⟨f, hf, hfst⟩ := mem_map.mp hmem
    have := h.numbers f hf
    omega
  sole p q hp hq heq := by
    by_cases hpn : p = np
    · by_cases hqn : q = np
      · rw [hpn, hqn]
      · obtain ⟨hy, hg, -⟩ := (hproc q hqn).used hq
        have := h.gen_old hy
        rw [hpn, hgen, hg] at heq
        omega
    · obtain ⟨hx, hg, -⟩ := (hproc p hpn).used hp
      have hold := h.gen_old hx
      by_cases hqn : q = np
      · rw [hqn, hgen, hg] at heq
        omega
      · obtain ⟨hy, hg', -⟩ := (hproc q hqn).used hq
        exact h.sole p q hx hy (by rw [← hg, ← hg']; exact heq)
  exited e he := by
    rw [hexits] at he
    obtain ⟨hf, hz⟩ := h.exited e he
    refine ⟨by rw [hforks]; exact mem_append_left _ hf, fun p hp heq => ?_⟩
    by_cases hpn : p = np
    · have := h.exit_old he
      rw [hpn, hgen] at heq
      omega
    · obtain ⟨hx, hg, -⟩ := (hproc p hpn).used hp
      exact (hproc p hpn).zombie.mpr (hz p hx (by rw [← hg]; exact heq))
  zombies p hp := by
    have hpn : p ≠ np := by
      rintro rfl
      rw [hstate] at hp
      cases hp
    obtain ⟨-, hg, hpid, hst⟩ := (hproc p hpn).used (by rw [hp]; decide)
    rw [hg, hpid, hst, hexits]
    exact h.zombies p ((hproc p hpn).zombie.mp hp)
  exits := by
    rw [hexits]
    exact h.exits
  reported r hr := by
    rw [hreports] at hr
    obtain ⟨he, hparent, hgone⟩ := h.reported r hr
    refine ⟨by rw [hexits]; exact he, hparent, fun p hp => ?_⟩
    by_cases hpn : p = np
    · have := h.exit_old he
      rw [hpn, hgen]
      omega
    · obtain ⟨hx, hg, -⟩ := (hproc p hpn).used hp
      rw [hg]
      exact hgone p hx
  reports := by
    rw [hreports]
    exact h.reports

/-- A process that has not exited before does. -/
theorem exit {p : Pid} (hp : (s.proc p).state = .running)
    (hself : t.proc p = { s.proc p with xstate := (t.proc p).xstate, state := .zombie })
    (hnext : t.nextgen = s.nextgen) (hforks : t.forks = s.forks)
    (hexits : t.exits = s.exits ++ [⟨(s.proc p).gen, (s.proc p).pid, (t.proc p).xstate⟩])
    (hreports : t.reports = s.reports) (hproc : ∀ j, j ≠ p → Same (s.proc j) (t.proc j)) :
    History t := by
  have hpused : (s.proc p).state ≠ .unused := by rw [hp]; decide
  have hzombie : (t.proc p).state = .zombie := by rw [hself]
  refine h.carry hnext hforks (fun q hq => ?_) (fun e he => ?_) (fun q hq => ?_) ?_ (fun r hr => ?_)
    (by rw [hreports]; exact h.reports)
  · by_cases hqp : q = p
    · rw [hqp]
      exact ⟨hpused, by rw [hself], by rw [hself]⟩
    · obtain ⟨hx, hg, hpd, -⟩ := (hproc q hqp).used hq
      exact ⟨hx, hg, hpd⟩
  · rw [hexits, mem_append] at he
    rcases he with he | he
    · obtain ⟨hf, hz⟩ := h.exited e he
      refine ⟨hf, fun q _ hx heq => ?_⟩
      by_cases hqp : q = p
      · rw [hqp]
        exact hzombie
      · exact (hproc q hqp).zombie.mpr (hz q hx heq)
    · rw [mem_singleton.mp he]
      refine ⟨h.forked p hpused, fun q _ hx heq => ?_⟩
      rw [h.sole q p hx hpused heq]
      exact hzombie
  · rw [hexits, mem_append]
    by_cases hqp : q = p
    · subst hqp
      exact Or.inr (mem_singleton.mpr rfl)
    · obtain ⟨-, -, -, hst⟩ := (hproc q hqp).used (by rw [hq]; decide)
      rw [hst]
      exact Or.inl (h.zombies q ((hproc q hqp).zombie.mp hq))
  · rw [hexits, map_append, map_singleton]
    refine nodup_concat h.exits fun hmem => ?_
    obtain ⟨e, he, heq⟩ := mem_map.mp hmem
    have hz := (h.exited e he).2 p hpused heq.symm
    rw [hp] at hz
    cases hz
  · rw [hreports] at hr
    obtain ⟨he, hparent, hgone⟩ := h.reported r hr
    exact ⟨by rw [hexits]; exact mem_append_left _ he, hparent, fun q _ => hgone q⟩

/-- A zombie is reaped by its parent. -/
theorem reap {p np : Pid} (hz : (s.proc np).state = .zombie) (hfreed : (t.proc np).state = .unused)
    (hnext : t.nextgen = s.nextgen) (hforks : t.forks = s.forks) (hexits : t.exits = s.exits)
    (hreports : t.reports = s.reports ++
      [⟨⟨(s.proc np).gen, (s.proc np).pid, (s.proc np).xstate⟩, p, some p⟩])
    (hproc : ∀ j, j ≠ np → Same (s.proc j) (t.proc j)) : History t := by
  have hznp : (s.proc np).state ≠ .unused := by rw [hz]; decide
  have hne : ∀ q, (t.proc q).state ≠ .unused → q ≠ np := by
    rintro q hq rfl
    exact hq hfreed
  refine h.carry hnext hforks (fun q hq => ?_) (fun e he => ?_) (fun q hq => ?_)
    (by rw [hexits]; exact h.exits) (fun r hr => ?_) ?_
  · obtain ⟨hx, hg, hpd, -⟩ := (hproc q (hne q hq)).used hq
    exact ⟨hx, hg, hpd⟩
  · rw [hexits] at he
    obtain ⟨hf, hze⟩ := h.exited e he
    exact ⟨hf, fun q hq hx heq => (hproc q (hne q hq)).zombie.mpr (hze q hx heq)⟩
  · have hused : (t.proc q).state ≠ .unused := by rw [hq]; decide
    obtain ⟨-, -, -, hst⟩ := (hproc q (hne q hused)).used hused
    rw [hst, hexits]
    exact h.zombies q ((hproc q (hne q hused)).zombie.mp hq)
  · rw [hreports, mem_append] at hr
    rw [hexits]
    rcases hr with hr | hr
    · obtain ⟨he, hparent, hgone⟩ := h.reported r hr
      exact ⟨he, hparent, fun q _ => hgone q⟩
    · rw [mem_singleton.mp hr]
      exact ⟨h.zombies np hz, rfl, fun q hq hx heq => hne q hq (h.sole q np hx hznp heq)⟩
  · rw [hreports, map_append, map_singleton]
    refine nodup_concat h.reports fun hmem => ?_
    obtain ⟨r, hr, heq⟩ := mem_map.mp hmem
    exact (h.reported r hr).2.2 np hznp heq.symm

theorem event (he : Event a s t) : History t := by
  cases he with
  | quiet hq hproc => exact h.quiet hq hproc
  | forked np _ hstate hgen hnext hforks hexits hreports hproc =>
    exact h.fork hstate hgen hnext hforks hexits hreports hproc
  | exited p hp hself hnext hforks hexits hreports hproc =>
    exact h.exit hp hself hnext hforks hexits hreports hproc
  | reaped p np _ _ _ _ _ _ hz _ hfreed hnext hforks hexits hreports hproc =>
    exact h.reap hz hfreed hnext hforks hexits hreports hproc

end

end History

theorem history_boot : History boot where
  forked p hp := by
    by_cases hinit : p = initproc
    · subst hinit
      simp [boot, Proc.zero]
    · simp [boot, Proc.zero, hinit] at hp
  numbers f hf := by
    rw [mem_singleton.mp hf]
    decide
  distinct := by simp [boot]
  sole p q hp hq _ := by
    by_cases hpi : p = initproc
    · by_cases hqi : q = initproc
      · rw [hpi, hqi]
      · simp [boot, Proc.zero, hqi] at hq
    · simp [boot, Proc.zero, hpi] at hp
  exited e he := by cases he
  zombies p hp := by
    by_cases hpi : p = initproc
    · subst hpi; simp [boot] at hp
    · simp [boot, Proc.zero, hpi] at hp
  exits := nodup_nil
  reported r hr := by cases hr
  reports := nodup_nil

theorem run_inv {as : List Action} (hrun : run as boot = some s) : Inv s ∧ History s :=
  run_isRun.keeps (I := fun s => Inv s ∧ History s)
    (fun _ _ _ h hx => ⟨inv_step h.1 hx, h.2.event (event_step h.1 hx)⟩)
    ⟨inv_boot, history_boot⟩ hrun

/-! ## The process tree -/

structure ProcessTree (s : State) : Prop where
  /-- every process but `initproc` has a parent, and that is alive -/
  parents : ∀ p, p ≠ initproc → (s.proc p).state ≠ .unused →
    ∃ q, (s.proc p).parent = some q ∧ (s.proc q).state ≠ .unused ∧ (s.proc q).state ≠ .zombie
  /-- no process exits twice, and no exit is reported twice -/
  exits : (s.exits.map Exit.gen).Nodup
  reports : (s.reports.map fun r => r.exit.gen).Nodup
  /-- what is reported is an exit, with the pid the process was given and its status, and
  it is reported to the parent -/
  reported : ∀ r ∈ s.reports, r.exit ∈ s.exits ∧ (r.exit.gen, r.exit.pid) ∈ s.forks ∧
    r.parent = some r.caller
  /-- a `wait` whose `copyout` fails leaves the zombie as it is -/
  failed : ∀ p np havekids alloc t, s.pc p = .waitChild false np havekids →
    (s.proc np).state = .zombie → step (.run p alloc false) s = some t →
    t.proc np = s.proc np ∧ t.reports = s.reports ∧ t.pc p = .user
  /-- an entry becomes free only when `wait` reports the process in it to its parent -/
  freed : ∀ a t q, step a s = some t → (s.proc q).state ≠ .unused → (t.proc q).state = .unused →
    (s.proc q).state = .zombie ∧ ∃ p alloc copied noaddr havekids,
      a = .run p alloc copied ∧ s.pc p = .waitChild noaddr q havekids ∧
      (s.proc q).parent = some p ∧ t.reports = s.reports ++
        [⟨⟨(s.proc q).gen, (s.proc q).pid, (s.proc q).xstate⟩, p, some p⟩]

theorem failed_wait {havekids : Bool} {np : Pid} (hpc : s.pc p = .waitChild false np havekids)
    (hz : (s.proc np).state = .zombie) (hx : step (.run p alloc false) s = some t) :
    t.proc np = s.proc np ∧ t.reports = s.reports ∧ t.pc p = .user := by
  simp only [step] at hx
  split at hx
  · rename_i hrun
    have hne : np ≠ p := by
      rintro rfl
      rw [hrun] at hz
      cases hz
    simp only [runSection, hpc, waitChild, hz, if_true, and_self] at hx
    split at hx
    · cases hx
      exact ⟨by simp [State.setPc, State.release, State.setProc, hne], rfl,
        by simp [State.setPc]⟩
    · cases hx
  · rw [hpc] at hx
    simp at hx

theorem freed_by_wait (he : Event a s t) (hq : (s.proc q).state ≠ .unused)
    (hfree : (t.proc q).state = .unused) :
    (s.proc q).state = .zombie ∧ ∃ p alloc copied noaddr havekids,
      a = .run p alloc copied ∧ s.pc p = .waitChild noaddr q havekids ∧
      (s.proc q).parent = some p ∧ t.reports = s.reports ++
        [⟨⟨(s.proc q).gen, (s.proc q).pid, (s.proc q).xstate⟩, p, some p⟩] := by
  cases he with
  | quiet _ hproc => exact absurd ((hproc q).unused.mp hfree) hq
  | forked np hnew _ _ _ _ _ _ hproc =>
    by_cases hqn : q = np
    · rw [hqn] at hq
      exact absurd hnew hq
    · exact absurd ((hproc q hqn).unused.mp hfree) hq
  | exited p _ hself _ _ _ _ hproc =>
    by_cases hqp : q = p
    · rw [hqp, hself] at hfree
      cases hfree
    · exact absurd ((hproc q hqp).unused.mp hfree) hq
  | reaped p np alloc copied noaddr havekids ha hpc hz hparent _ _ _ _ hreports hproc =>
    by_cases hqn : q = np
    · subst hqn
      exact ⟨hz, p, alloc, copied, noaddr, havekids, ha, hpc, hparent, hreports⟩
    · exact absurd ((hproc q hqn).unused.mp hfree) hq

/-- In every state that any processes can reach, the processes form a tree of living
parents, and exit statuses go to parents, once. -/
theorem run_processTree (as : List Action) (s : State) (hrun : run as boot = some s) :
    ProcessTree s := by
  obtain ⟨hs, hh⟩ := run_inv hrun
  exact {
    parents := fun p hp hused => hs.parents p hp hused
    exits := hh.exits
    reports := hh.reports
    reported := fun r hr =>
      ⟨(hh.reported r hr).1, (hh.exited _ (hh.reported r hr).1).1, (hh.reported r hr).2.1⟩
    failed := fun _ _ _ _ _ hpc hz hx => failed_wait hpc hz hx
    freed := fun _ _ _ hx hq hfree => freed_by_wait (event_step hs hx) hq hfree }

/-- `n` sections of a process's call. -/
def sections (p : Pid) (n : Nat) : List Action := List.replicate n (.run p .ok true)

/-- `initproc` forks a process, which forks a child and sleeps in `wait`. -/
def waits : List Action :=
  [.schedule 0, .call 0 .fork] ++ sections 0 2 ++ [.schedule 1, .call 1 .fork] ++ sections 1 3 ++
    [.call 1 (.wait false)] ++ sections 1 67

/-- The child exits with status 7, and its parent gets that. -/
def reaps : List Action :=
  waits ++ [.schedule 2, .call 2 (.exit 7)] ++ sections 2 70 ++ [.schedule 1] ++ sections 1 4

theorem run_processTree_reaps :
    ∃ s, run reaps boot = some s ∧ s.reports.map Report.exit = [⟨2, 3, 7⟩] ∧
      (s.proc 2).state = .unused ∧ ProcessTree s := by
  have hcheck : (run reaps boot).any (fun s =>
      decide (s.reports.map Report.exit = [⟨2, 3, 7⟩] ∧ (s.proc 2).state = .unused)) = true := by
    decide +kernel
  obtain ⟨s, hs, hprop⟩ := Option.any_eq_true _ _ |>.mp hcheck
  have hprop := of_decide_eq_true hprop
  exact ⟨s, hs, hprop.1, hprop.2, run_processTree reaps s hs⟩

/-- A process that sleeps in `wait`, other than `initproc`, has no zombie child, whether
its lock is free or not. -/
theorem wait_has_no_zombie (as : List Action) (s : State) (hrun : run as boot = some s) (p : Pid)
    (hp : p ≠ initproc) (hsleep : (s.proc p).state = .sleeping)
    (hchan : (s.proc p).chan = some (.proc p)) :
    ∀ c, (s.proc c).parent = some p → (s.proc c).state ≠ .zombie := by
  obtain ⟨hs, -⟩ := run_inv hrun
  intro c hc
  exact asleep_scanned hs hsleep hchan hp c c.isLt hc

theorem wait_has_no_zombie_waits :
    ∃ s, run waits boot = some s ∧ (s.proc 1).state = .sleeping ∧ (s.proc 2).parent = some 1 ∧
      ∀ c, (s.proc c).parent = some 1 → (s.proc c).state ≠ .zombie := by
  have hcheck : (run waits boot).any (fun s => decide ((s.proc 1).state = .sleeping ∧
      (s.proc 1).chan = some (.proc 1) ∧ (s.proc 2).parent = some 1)) = true := by
    decide +kernel
  obtain ⟨s, hs, hprop⟩ := Option.any_eq_true _ _ |>.mp hcheck
  obtain ⟨hsleep, hchan, hparent⟩ := of_decide_eq_true hprop
  exact ⟨s, hs, hsleep, hparent, wait_has_no_zombie waits s hs 1 (by decide) hsleep hchan⟩

/-! ## A deadlock in `exit` -/

theorem setPc_pc_of_ne (hne : p ≠ q) : (s.setPc q pc).pc p = s.pc p := update_of_ne hne ..

theorem setProc_pc : (s.setProc q y).pc = s.pc := rfl

/-- A process in `exit` cannot go on without its own lock, and nobody else moves it. -/
theorem step_lockSelf {status : Int} {op : Pid} (hs : Inv s) (hpc : s.pc p = .lockSelf status op)
    (hlock : s.free p = false) (hx : step a s = some t) : t.pc p = .lockSelf status op := by
  have hrun := (hs.ok_at hpc).2.1
  cases a with
  | run q alloc copied =>
    -- a section moves its own process, or puts a new one in a free entry
    cases hq : s.pc q <;> simp only [step, runSection, hq] at hx
    case forkScan => cases alloc <;> grind [forkScan, forkInto, setPc_pc_of_ne, setProc_pc]
    all_goals grind [wakeInit, readParent, lockParent, lockSelf, reparent, becomeZombie,
      giveAway, waitLock, waitScan, waitChild, killScan, State.release, State.acquire,
      State.wakeup1, setPc_pc_of_ne, setProc_pc, Option.map_eq_some_iff]
  | _ => grind [step, resume, setPc_pc_of_ne, setProc_pc, Pc.preemptible, Option.map_eq_some_iff]

/-- **`exit` can deadlock.**  Once every process of a set has the lock of its parent and waits for
its own, which another one of the set has, none of them goes on, whatever the others do. -/
theorem run_stuck (as bs : List Action) (s t : State) (hrun : run as boot = some s) (W : Set Pid)
    (hW : ∀ p ∈ W, ∃ status op, s.pc p = .lockSelf status op ∧ ∃ q ∈ W, (s.proc p).lock = some q)
    (hmore : run bs s = some t) : ∀ p ∈ W, t.pc p = s.pc p ∧ (t.proc p).lock = (s.proc p).lock := by
  obtain ⟨hs, -⟩ := run_inv hrun
  refine (run_isRun.keeps (I := fun u => Inv u ∧ ∀ p ∈ W, u.pc p = s.pc p ∧
    (u.proc p).lock = (s.proc p).lock)
    (fun a u v ⟨hu, hsame⟩ hx => ?_) ⟨hs, fun _ _ => ⟨rfl, rfl⟩⟩ hmore).2
  have hv := inv_step hu hx
  have hpcs : ∀ p ∈ W, v.pc p = s.pc p := by
    intro p hp
    obtain ⟨status, op, hpc, q, -, hlock⟩ := hW p hp
    rw [hpc]
    refine step_lockSelf hu ((hsame p hp).1.trans hpc) ?_ hx
    rw [State.free, (hsame p hp).2, hlock]
    rfl
  refine ⟨hv, fun p hp => ⟨hpcs p hp, ?_⟩⟩
  obtain ⟨-, -, -, q, hq, hlock⟩ := hW p hp
  rw [hlock, hv.locks, hpcs q hq, ← hs.locks, hlock]

/-- Process 3 finds that its parent is 2.  Then 2 exits, its parent waits for it, and 4, a child of
3, forks a child in its entry.  It and 4 exit too. -/
def deadlock : List Action :=
  waits ++ [.schedule 2, .call 2 .fork] ++ sections 2 4 ++
    [.schedule 3, .call 3 .fork] ++ sections 3 5 ++ [.call 3 (.exit 0)] ++ sections 3 2 ++
    [.call 2 (.exit 0)] ++ sections 2 71 ++ [.schedule 1] ++ sections 1 4 ++
    [.schedule 4, .call 4 .fork] ++ sections 4 3 ++
    [.schedule 2, .call 2 (.exit 0), .call 4 (.exit 0)] ++ sections 2 2 ++
    sections 4 3 ++ sections 3 1 ++ sections 2 1

theorem run_stuck_deadlock : ∃ s, run deadlock boot = some s ∧ ∀ bs t, run bs s = some t →
    t.pc 2 = .lockSelf 0 4 ∧ t.pc 3 = .lockSelf 0 2 ∧ t.pc 4 = .lockSelf 0 3 := by
  have hcheck : (run deadlock boot).any (fun s => decide (
      (s.pc 2 = .lockSelf 0 4 ∧ s.pc 3 = .lockSelf 0 2 ∧ s.pc 4 = .lockSelf 0 3) ∧
      (s.proc 2).lock = some 3 ∧ (s.proc 3).lock = some 4 ∧ (s.proc 4).lock = some 2)) = true := by
    decide +kernel
  obtain ⟨s, hs, hprop⟩ := Option.any_eq_true _ _ |>.mp hcheck
  obtain ⟨⟨h2, h3, h4⟩, hlock2, hlock3, hlock4⟩ := of_decide_eq_true hprop
  refine ⟨s, hs, fun bs t hmore => ?_⟩
  have hstuck := run_stuck deadlock bs s t hs {2, 3, 4} (by
    rintro p (rfl | rfl | rfl)
    · exact ⟨_, _, h2, 3, by simp, hlock2⟩
    · exact ⟨_, _, h3, 4, by simp, hlock3⟩
    · exact ⟨_, _, h4, 2, by simp, hlock4⟩) hmore
  rw [(hstuck 2 (by simp)).1, (hstuck 3 (by simp)).1, (hstuck 4 (by simp)).1]
  exact ⟨h2, h3, h4⟩

end Xv6.Procs
