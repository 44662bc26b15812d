/-
  Virtio/Requests.lean --- what processes do keeps the invariant.
-/
import Xv6.Virtio.Steps

set_option autoImplicit false

namespace Xv6.Virtio

open Function List
open Foundation.Ring (Window)

variable {P B : Type}
variable {s s' : State P B} {p q : P} {r : Req B} {idx : Idx} {aq uq : List (Chain B)}

/-! ## Requests on their way -/

/-- Which chains are on their way, if the same requests are posted. -/
theorem waiting_congr {phase phase' : P → Phase B} {bufDisk bufDisk' : B → Bool}
    (hphase : ∀ q r idx, phase' q = .posted r idx ↔ phase q = .posted r idx)
    (hbuf : ∀ q r idx, phase q = .posted r idx → bufDisk' r.b = bufDisk r.b) (c : Chain B) :
    Waiting phase' bufDisk' c ↔ Waiting phase bufDisk c := by
  rw [Waiting, Waiting]
  refine exists_congr fun q => exists_congr fun r => exists_congr fun idx => ?_
  rw [hphase]
  refine and_congr_right fun hq => ?_
  rw [hbuf q r idx hq]

theorem Counts.congr (hc : Counts s uq)
    (hphase : ∀ q r idx, s'.phase q = .posted r idx ↔ s.phase q = .posted r idx)
    (hbuf : ∀ q r idx, s.phase q = .posted r idx → s'.bufDisk r.b = s.bufDisk r.b)
    (hposted : s'.posted = s.posted) (hcompleted : s'.completed = s.completed)
    (hcleared : s'.cleared = s.cleared) (hreturned : s'.returned = s.returned) :
    Counts s' uq := by
  refine ⟨?_, ?_, ?_, ?_⟩
  · intro b hb
    rw [hposted, hcompleted, hcleared, hreturned]
    exact hc.quiet b fun q r idx hq => hb q r idx ((hphase q r idx).mpr hq)
  · intro q r idx hq
    rw [hphase] at hq
    rw [hposted, hreturned]
    exact hc.posted q r idx hq
  · intro q r idx hq hdisk
    rw [hphase] at hq
    rw [hbuf q r idx hq] at hdisk
    rw [hcompleted, hcleared, hreturned]
    exact hc.done q r idx hq hdisk
  · intro q r idx hq hdisk
    rw [hphase] at hq
    rw [hbuf q r idx hq] at hdisk
    rw [hcompleted, hcleared, hreturned]
    exact hc.waiting q r idx hq hdisk

theorem Inv.fail {f : Fault} (h : Inv s)
    (hf : f = .panic "virtio_disk_intr status" ∧ s.failed = true) : Inv (s.fail f) where
  locking := h.locking
  owned := h.owned
  alone := h.alone
  formed := h.formed
  status := h.status
  fault f' hf' := by
    cases hf'
    exact hf
  flow := by
    obtain ⟨aq, uq, hq, hh, hc⟩ := h.flow
    exact ⟨aq, uq, { hq with }, hh, { hc with }⟩

/-- Only places and the lock change. -/
theorem Inv.relock {place : P → Place} {lock : Option (Holder P)} (h : Inv s)
    (hl : Locking s.phase place lock s.intr) : Inv { s with place, lock } where
  locking := hl
  owned := h.owned
  alone := h.alone
  formed := h.formed
  status := h.status
  fault := h.fault
  flow := by
    obtain ⟨aq, uq, hq, hh, hc⟩ := h.flow
    exact ⟨aq, uq, { hq with }, hh, { hc with }⟩

theorem Phase.idx_of_formed {ph : Phase B} (h : ph = .formatted r idx ∨ ph = .posted r idx) :
    ph.idx = some idx := by
  rcases h with rfl | rfl
  · rfl
  · rfl

theorem Inv.idle (h : Inv s) (hidle : Idle s s') : Inv s' := by
  obtain ⟨desc, place, rfl, hdesc, hplace⟩ := hidle
  refine ⟨h.locking.woken hplace, h.owned, h.alone, ?_, h.status, h.fault, ?_⟩
  · intro q r idx hq
    refine (h.formed q r idx hq).congr (fun i hi => hdesc i ?_) rfl
    exact (h.owned.used i).mpr ⟨q, idx, Phase.idx_of_formed hq, hi⟩
  · obtain ⟨aq, uq, hq, hh, hc⟩ := h.flow
    exact ⟨aq, uq, { hq with }, hh, { hc with }⟩

theorem Queues.avail_cell (hq : Queues s aq uq) : cell s.disk.availIdx =
    Fin.ofNat NUM (s.device.last.toNat + (aq.map Chain.head).length) := by
  rw [cell, hq.avail, Foundation.Ring.ofNat_mod (by decide), length_map]

theorem Queues.used_cell (hq : Queues s aq uq) : cell s.disk.usedId =
    Fin.ofNat NUM (s.disk.used_idx.toNat + (uq.map Chain.head).length) := by
  rw [cell, hq.used, length_map]

/-- A buffer that a process is about to ask for is in no posted request. -/
theorem Inv.ne_posted (h : Inv s) (hbuf : (s.phase p).buf = some r.b)
    (hold : ∀ r' idx', s.phase p ≠ .posted r' idx') {r' : Req B} {idx' : Idx}
    (hq : s.phase q = .posted r' idx') : r'.b ≠ r.b := by
  intro heq
  have hqbuf : (s.phase q).buf = some r.b := by rw [hq, ← heq]; rfl
  rw [h.alone q p r.b hqbuf hbuf] at hq
  exact hold r' idx' hq

/-- Nobody else is between `alloc3_desc` and the increment of `avail[1]`. -/
theorem Inv.only_inside (h : Inv s) (hp : s.place p = .locked) (hqp : q ≠ p) :
    ¬ (s.phase q).inside := by
  intro hin
  have hq := (h.locking.proc q).mp (h.locking.inside q hin)
  rw [(h.locking.proc p).mp hp] at hq
  cases hq
  exact hqp rfl

/-- Two requests with the same first descriptor are the same. -/
theorem Inv.waiting_inj (h : Inv s) {c c' : Chain B} (hc : Waiting s.phase s.bufDisk c)
    (hc' : Waiting s.phase s.bufDisk c') (hstatus : c.status = c'.status) : c = c' := by
  obtain ⟨p, r, idx, hp, -, rfl⟩ := hc
  obtain ⟨q, r', idx', hq, -, rfl⟩ := hc'
  have hi0 : idx.i0 = idx'.i0 := hstatus
  by_cases hpq : p = q
  · rw [hpq, hq] at hp
    cases hp
    rfl
  · have hapart := h.owned.apart p q idx idx' (by rw [hp]; rfl) (by rw [hq]; rfl) hpq
    exact absurd (hi0 ▸ idx'.i0_mem) (Finset.disjoint_left.mp hapart idx.i0_mem)

/-- A ring is never full: the second descriptor of a request is at the head of no chain. -/
theorem Inv.room (h : Inv s) (hq : Queues s aq uq) : (s.chains aq uq).length < NUM := by
  have hnodup : ((s.chains aq uq).map Chain.status).Nodup := by
    refine hq.nodup.map_on ?_
    intro c hc c' hc' hstatus
    exact h.waiting_inj ((hq.mem c).mp hc) ((hq.mem c').mp hc') hstatus
  cases hchains : s.chains aq uq with
  | nil => exact NeZero.pos NUM
  | cons c cs =>
    rw [← hchains]
    have hc : c ∈ s.chains aq uq := by rw [hchains]; exact mem_cons_self
    obtain ⟨p, r, idx, hp, -, -⟩ := (hq.mem c).mp hc
    have hpidx : (s.phase p).idx = some idx := by rw [hp]; rfl
    have hfree : idx.i1 ∉ ((s.chains aq uq).map Chain.status).toFinset := by
      rw [mem_toFinset, mem_map]
      rintro ⟨c', hc', hstatus⟩
      obtain ⟨q, r', idx', hq', -, rfl⟩ := (hq.mem c').mp hc'
      have hi : idx'.i0 = idx.i1 := hstatus
      by_cases hpq : p = q
      · rw [← hpq, hp] at hq'
        cases hq'
        exact (h.owned.distinct p idx hpidx).h01 hi
      · have hapart := h.owned.apart p q idx idx' hpidx (by rw [hq']; rfl) hpq
        exact Finset.disjoint_left.mp hapart idx.i1_mem (hi ▸ idx'.i0_mem)
    have hcard := Finset.card_lt_univ_of_notMem hfree
    rw [toFinset_card_of_nodup hnodup, length_map, Fintype.card_fin] at hcard
    exact hcard

theorem Inv.room_avail (h : Inv s) (hq : Queues s aq uq) : aq.length < NUM := by
  have hlt := h.room hq
  simp only [State.chains, length_append] at hlt
  omega

theorem Inv.room_used (h : Inv s) (hq : Queues s aq uq) : uq.length < NUM := by
  have hlt := h.room hq
  simp only [State.chains, length_append] at hlt
  omega

variable [DecidableEq P]

theorem posted_update {phase : P → Phase B} {ph : Phase B}
    (hold : ∀ r idx, phase p ≠ .posted r idx) (hnew : ∀ r idx, ph ≠ .posted r idx)
    (q : P) (r : Req B) (idx : Idx) :
    update phase p ph q = .posted r idx ↔ phase q = .posted r idx := by
  by_cases hq : q = p
  · rw [hq, update_self]
    exact iff_of_false (hnew r idx) (hold r idx)
  · rw [update_of_ne hq]

theorem move_self (s : State P B) (p : P) (pl : Place) :
    s.move p (s.phase p) pl = { s with place := update s.place p pl } := by
  rw [State.move, update_eq_self]

/-! ## Steps without the lock -/

/-- A process moves on before it writes to its descriptors, which may be new. -/
theorem Inv.early {ph : Phase B} {pl : Place} {free : Fin NUM → Bool} (h : Inv s)
    (hold : ∀ r idx, s.phase p ≠ .posted r idx) (hform : ∀ r idx, ph ≠ .formatted r idx)
    (hpost : ∀ r idx, ph ≠ .posted r idx)
    (hl : Locking (update s.phase p ph) (update s.place p pl) s.lock s.intr)
    (ho : Owned free (update s.phase p ph)) (ha : Alone (update s.phase p ph)) :
    Inv ({ s with disk := { s.disk with free } }.move p ph pl) := by
  have hposted := posted_update hold hpost
  refine ⟨hl, ho, ha, ?_, h.status, h.fault, ?_⟩
  · intro q r idx hq
    by_cases hqp : q = p
    · simp [State.move, hqp, hform, hpost] at hq
    · simp only [State.move, update_of_ne hqp] at hq
      exact (h.formed q r idx hq).congr (fun _ _ => rfl) rfl
  · obtain ⟨aq, uq, hq, hh, hc⟩ := h.flow
    refine ⟨aq, uq, { hq with mem := ?_, ready := ?_ }, hh,
      hc.congr hposted (fun _ _ _ _ => rfl) rfl rfl rfl rfl⟩
    · intro c
      exact (hq.mem c).trans (waiting_congr hposted (fun _ _ _ _ => rfl) c).symm
    · intro q r idx hq'
      by_cases hqp : q = p
      · simp [State.move, hqp, hform] at hq'
      · simp only [State.move, update_of_ne hqp] at hq'
        exact hq.ready q r idx hq'

theorem Inv.call (h : Inv s) (hidle : s.phase p = .idle) (hb : ∀ q, (s.phase q).buf ≠ some r.b) :
    Inv (s.move p (.asking r) .want) := by
  have hout := h.locking.idle p hidle
  refine h.early (by rw [hidle]; simp) (by simp) (by simp) ?_ ?_ (h.alone.call hb rfl)
  · exact h.locking.moveOutside (by rw [hout]; simp) (by simp) (by simp [Phase.inside]) (by simp)
  · exact h.owned.congr (update_phase_idx (by rw [hidle]; rfl))

theorem Inv.acquire (h : Inv s) (hp : s.place p = .want) (hlock : s.lock = none) :
    Inv { s.move p (s.phase p) .locked with lock := some (.proc p) } := by
  have hl := h.locking
  rw [hlock] at hl
  rw [move_self]
  exact h.relock (hl.acquire hp)

theorem Inv.kill (h : Inv s) (hp : s.place p = .asleep) : Inv (s.move p (s.phase p) .want) := by
  have hinside : ¬ (s.phase p).inside := by
    intro hin
    cases hp.symm.trans (h.locking.inside p hin)
  have hidle : s.phase p = .idle → Place.want = .out := by
    intro hidle
    cases hp.symm.trans (h.locking.idle p hidle)
  have hl : Locking (update s.phase p (s.phase p)) _ _ _ :=
    h.locking.moveOutside (by rw [hp]; simp) (by simp) hinside hidle
  rw [update_eq_self] at hl
  rw [move_self]
  exact h.relock hl

/-! ## `virtio_disk_rw` -/

section

variable (h : Inv s)

include h

/-- The process with the lock goes to sleep. -/
theorem Inv.sleep (hp : s.place p = .locked) (hinside : ¬ (s.phase p).inside) :
    Inv (s.move p (s.phase p) .asleep).unlock := by
  have hidle : s.phase p = .idle → Place.asleep = .out := by
    intro hidle
    cases hp.symm.trans (h.locking.idle p hidle)
  have hl : Locking (update s.phase p (s.phase p)) _ _ _ :=
    h.locking.release hp (by simp) hinside hidle
  rw [update_eq_self] at hl
  rw [move_self]
  exact h.relock hl

/-- After `alloc3_desc`. -/
theorem Inv.alloc (hp : s.place p = .locked) (hphase : s.phase p = .asking r)
    (hdist : idx.Distinct) (hfree : ∀ i ∈ idx.set, s.disk.free i = true) :
    Inv ((s.taken idx.set).move p (.holding r idx) .locked) := by
  have hbuf : (Phase.holding r idx).buf = (s.phase p).buf := by rw [hphase]; rfl
  exact h.early (by rw [hphase]; simp) (by simp) (by simp) (h.locking.stay hp (by simp))
    (h.owned.take (by rw [hphase]; rfl) rfl hdist hfree) (h.alone.congr (update_phase_buf hbuf))

end

variable [DecidableEq B]

/-- The descriptors are written, and the ring. -/
theorem Inv.format (h : Inv s) (hp : s.place p = .locked) (hphase : s.phase p = .holding r idx) :
    Inv { s.move p (.formatted r idx) .locked with
      disk := s.disk.format r idx
      bufDisk := update s.bufDisk r.b true } := by
  have hposted : ∀ q r' idx', update s.phase p (.formatted r idx) q = .posted r' idx' ↔
      s.phase q = .posted r' idx' := posted_update (by rw [hphase]; simp) (by simp)
  have hidx : (s.phase p).idx = some idx := by rw [hphase]; rfl
  have hbuf : ∀ q r' idx', s.phase q = .posted r' idx' →
      update s.bufDisk r.b true r'.b = s.bufDisk r'.b := by
    intro q r' idx' hq
    have hne := h.ne_posted (r := r) (by rw [hphase]; rfl) (by rw [hphase]; simp) hq
    exact update_of_ne hne ..
  refine ⟨?_, ?_, ?_, ?_, ?_, h.fault, ?_⟩
  · exact h.locking.stay hp (by simp)
  · exact h.owned.congr (update_phase_idx (by rw [hidx]; rfl))
  · have hbuf : (Phase.formatted r idx).buf = (s.phase p).buf := by rw [hphase]; rfl
    exact h.alone.congr (update_phase_buf hbuf)
  · intro q r' idx' hq
    by_cases hqp : q = p
    · simp only [State.move, hqp, update_self, Phase.formatted.injEq, reduceCtorEq, or_false] at hq
      obtain ⟨rfl, rfl⟩ := hq
      exact format_formed s.disk r (h.owned.distinct p idx hidx)
    · simp only [State.move, update_of_ne hqp] at hq
      have hqidx := Phase.idx_of_formed hq
      have hapart := Finset.disjoint_left.mp (h.owned.apart q p idx' idx hqidx hidx hqp)
      refine (h.formed q r' idx' hq).congr (fun i hi => format_desc_of_notMem (hapart hi)) ?_
      rw [format_info_of_ne]
      intro heq
      exact hapart idx'.i0_mem (heq ▸ idx.i0_mem)
  · intro hfailed i
    by_cases hi : i = idx.i0
    · simp [Disk.format, hi]
    · rw [format_info_of_ne hi]
      exact h.status hfailed i
  · obtain ⟨aq, uq, hq, hh, hc⟩ := h.flow
    refine ⟨aq, uq, { hq with mem := ?_, ring := ?_, ready := ?_ }, hh,
      hc.congr hposted hbuf rfl rfl rfl rfl⟩
    · intro c
      exact (hq.mem c).trans (waiting_congr hposted hbuf c).symm
    · have hroom : (aq.map Chain.head).length < NUM := by
        rw [length_map]
        exact h.room_avail hq
      have hwindow := hq.ring.update_end (x := (idx.i0 : Nat)) hroom
      rw [← hq.avail_cell] at hwindow
      exact hwindow
    · intro q r' idx' hq'
      by_cases hqp : q = p
      · simp only [State.move, hqp, update_self, Phase.formatted.injEq] at hq'
        obtain ⟨rfl, rfl⟩ := hq'
        exact ⟨update_self .., update_self ..⟩
      · simp only [State.move, update_of_ne hqp] at hq'
        exact absurd (by rw [hq']; trivial) (h.only_inside hp hqp)

/-- The chain is on its way. -/
theorem Inv.post (h : Inv s) (hp : s.place p = .locked) (hphase : s.phase p = .formatted r idx) :
    Inv { s.move p (.posted r idx) .locked with
      disk := { s.disk with availIdx := s.disk.availIdx + 1 }
      posted := update s.posted r.b (s.posted r.b + 1) } := by
  have hidx : (s.phase p).idx = some idx := by rw [hphase]; rfl
  have hbufp : (s.phase p).buf = some r.b := by rw [hphase]; rfl
  have hne : ∀ {q r' idx'}, s.phase q = .posted r' idx' → r'.b ≠ r.b := fun hq =>
    h.ne_posted hbufp (by rw [hphase]; simp) hq
  have hposted : ∀ q r' idx', update s.phase p (.posted r idx) q = .posted r' idx' ↔
      q = p ∧ r' = r ∧ idx' = idx ∨ s.phase q = .posted r' idx' := by
    intro q r' idx'
    by_cases hqp : q = p
    · rw [hqp, update_self, hphase]
      simp [eq_comm]
    · rw [update_of_ne hqp]
      simp [hqp]
  refine ⟨?_, ?_, ?_, ?_, h.status, h.fault, ?_⟩
  · exact h.locking.stay hp (by simp)
  · exact h.owned.congr (update_phase_idx (by rw [hidx]; rfl))
  · have hbuf : (Phase.posted r idx).buf = (s.phase p).buf := by rw [hphase]; rfl
    exact h.alone.congr (update_phase_buf hbuf)
  · intro q r' idx' hq
    by_cases hqp : q = p
    · simp only [State.move, hqp, update_self, Phase.posted.injEq, reduceCtorEq, false_or] at hq
      obtain ⟨rfl, rfl⟩ := hq
      exact (h.formed p r idx (Or.inl hphase)).congr (fun _ _ => rfl) rfl
    · simp only [State.move, update_of_ne hqp] at hq
      exact (h.formed q r' idx' hq).congr (fun _ _ => rfl) rfl
  · obtain ⟨aq, uq, hq, hh, hc⟩ := h.flow
    obtain ⟨hring, hdisk⟩ := hq.ready p r idx hphase
    have hnew : chainOf r idx ∉ s.chains aq uq := by
      intro hmem
      obtain ⟨q, r', idx', hq', -, heq⟩ := (hq.mem _).mp hmem
      exact hne hq' (congrArg Chain.data heq).symm
    have hquiet := hc.quiet r.b fun q r' idx' hq' => hne hq'
    have hperm : (aq ++ [chainOf r idx] ++ s.device.inflight ++ s.device.pending.toList ++ uq).Perm
        (chainOf r idx :: s.chains aq uq) := by
      simp only [State.chains, append_assoc]
      exact perm_middle
    refine ⟨aq ++ [chainOf r idx], uq,
      ⟨?_, ?_, ?_, ?_, hq.used_lt, hq.used, hq.elems, hq.pending, ?_⟩, hh, ⟨?_, ?_, ?_, ?_⟩⟩
    · exact hperm.nodup_iff.mpr (nodup_cons.mpr ⟨hnew, hq.nodup⟩)
    · intro c
      refine hperm.mem_iff.trans ?_
      rw [mem_cons, hq.mem]
      constructor
      · rintro (rfl | ⟨q, r', idx', hq', hd, rfl⟩)
        · exact ⟨p, r, idx, (hposted p r idx).mpr (Or.inl ⟨rfl, rfl, rfl⟩), hdisk, rfl⟩
        · exact ⟨q, r', idx', (hposted q r' idx').mpr (Or.inr hq'), hd, rfl⟩
      · rintro ⟨q, r', idx', hq', hd, rfl⟩
        rcases (hposted q r' idx').mp hq' with ⟨-, rfl, rfl⟩ | hq'
        · exact Or.inl rfl
        · exact Or.inr ⟨q, r', idx', hq', hd, rfl⟩
    · have hone : (1 : UInt16).toNat = 1 := rfl
      change (s.disk.availIdx + 1).toNat = (s.device.last.toNat + _) % 2 ^ 16
      rw [UInt16.toNat_add, hq.avail, hone, length_append, length_singleton]
      omega
    · rw [map_append]
      exact hq.ring.snoc (by rw [← hq.avail_cell]; exact hring)
    · intro q r' idx' hq'
      by_cases hqp : q = p
      · simp [State.move, hqp] at hq'
      · simp only [State.move, update_of_ne hqp] at hq'
        exact absurd (by rw [hq']; trivial) (h.only_inside hp hqp)
    · intro b hb
      have hbr : b ≠ r.b := fun heq =>
        hb p r idx ((hposted p r idx).mpr (Or.inl ⟨rfl, rfl, rfl⟩)) heq.symm
      dsimp only
      rw [update_of_ne hbr]
      exact hc.quiet b fun q r' idx' hq' => hb q r' idx' ((hposted q r' idx').mpr (Or.inr hq'))
    · intro q r' idx' hq'
      rcases (hposted q r' idx').mp hq' with ⟨-, rfl, rfl⟩ | hq'
      · dsimp only
        rw [update_self, hquiet.1]
        rfl
      · dsimp only
        rw [update_of_ne (hne hq')]
        exact hc.posted q r' idx' hq'
    · intro q r' idx' hq' hd
      rcases (hposted q r' idx').mp hq' with ⟨-, rfl, rfl⟩ | hq'
      · cases hd.symm.trans hdisk
      · exact hc.done q r' idx' hq' hd
    · intro q r' idx' hq' hd
      rcases (hposted q r' idx').mp hq' with ⟨-, rfl, rfl⟩ | hq'
      · refine ⟨hquiet.2.2, fun hmem => absurd ?_ hnew, fun _ => hquiet.2.1⟩
        exact mem_append_right _ hmem
      · exact hc.waiting q r' idx' hq' hd

/-- The call returns. -/
theorem Inv.finish {desc : Fin NUM → VRingDesc B} {place : P → Place} (h : Inv s)
    (hp : s.place p = .locked) (hphase : s.phase p = .posted r idx) (hdisk : s.bufDisk r.b = false)
    (hdesc : ∀ i, i ∉ idx.set → desc i = s.disk.desc i) (hplace : Woken s.place place) :
    Inv { s with
      disk := { s.disk with
        desc
        free := fun i => if i ∈ idx.set then true else s.disk.free i
        info := update s.disk.info idx.i0 { s.disk.info idx.i0 with b := none } }
      phase := update s.phase p .idle
      place := update place p .out
      lock := none
      returned := update s.returned r.b (s.returned r.b + 1) } := by
  have hidx : (s.phase p).idx = some idx := by rw [hphase]; rfl
  have hposted : ∀ q r' idx', update s.phase p .idle q = .posted r' idx' ↔
      q ≠ p ∧ s.phase q = .posted r' idx' := by
    intro q r' idx'
    by_cases hqp : q = p
    · rw [hqp, update_self]
      simp
    · rw [update_of_ne hqp]
      simp [hqp]
  -- the buffer is in no other call
  have hne : ∀ {q r' idx'}, q ≠ p → s.phase q = .posted r' idx' → r'.b ≠ r.b := by
    intro q r' idx' hqp hq heq
    have hqbuf : (s.phase q).buf = some r.b := by rw [hq, ← heq]; rfl
    exact hqp (h.alone q p r.b hqbuf (by rw [hphase]; rfl))
  have hlocked : place p = .locked := by
    rcases hplace p with heq | ⟨hasleep, -⟩
    · rw [heq]
      exact hp
    · cases hasleep.symm.trans hp
  refine ⟨?_, h.owned.give hidx rfl, h.alone.leave rfl, ?_, ?_, h.fault, ?_⟩
  · exact (h.locking.woken hplace).release hlocked (by simp) (by simp [Phase.inside]) (fun _ => rfl)
  · intro q r' idx' hq
    by_cases hqp : q = p
    · simp [hqp] at hq
    · simp only [update_of_ne hqp] at hq
      have hqidx := Phase.idx_of_formed hq
      have hapart := Finset.disjoint_left.mp (h.owned.apart q p idx' idx hqidx hidx hqp)
      refine (h.formed q r' idx' hq).congr (fun i hi => hdesc i (hapart hi)) ?_
      have hi0 : idx'.i0 ≠ idx.i0 := fun heq => hapart idx'.i0_mem (heq ▸ idx.i0_mem)
      dsimp only
      rw [update_of_ne hi0]
  · intro hfailed i
    by_cases hi : i = idx.i0
    · simp [hi, h.status hfailed]
    · simp [hi, h.status hfailed]
  · obtain ⟨aq, uq, hq, hh, hc⟩ := h.flow
    refine ⟨aq, uq, { hq with mem := ?_, ready := ?_ }, hh, ⟨?_, ?_, ?_, ?_⟩⟩
    · intro c
      refine (hq.mem c).trans ?_
      constructor
      · rintro ⟨q, r', idx', hq', hd, rfl⟩
        have hqp : q ≠ p := by
          intro heq
          rw [heq, hphase] at hq'
          cases hq'
          cases hdisk.symm.trans hd
        exact ⟨q, r', idx', (hposted q r' idx').mpr ⟨hqp, hq'⟩, hd, rfl⟩
      · rintro ⟨q, r', idx', hq', hd, rfl⟩
        exact ⟨q, r', idx', ((hposted q r' idx').mp hq').2, hd, rfl⟩
    · intro q r' idx' hq'
      by_cases hqp : q = p
      · simp [hqp] at hq'
      · simp only [update_of_ne hqp] at hq'
        exact hq.ready q r' idx' hq'
    · intro b hb
      dsimp only
      by_cases hbr : b = r.b
      · obtain ⟨hcompleted, hcleared⟩ := hc.done p r idx hphase hdisk
        rw [hbr, update_self]
        exact ⟨hc.posted p r idx hphase, hcompleted, hcleared⟩
      · rw [update_of_ne hbr]
        refine hc.quiet b fun q r' idx' hq' => ?_
        by_cases hqp : q = p
        · rw [hqp, hphase] at hq'
          cases hq'
          exact Ne.symm hbr
        · exact hb q r' idx' ((hposted q r' idx').mpr ⟨hqp, hq'⟩)
    · intro q r' idx' hq'
      obtain ⟨hqp, hq'⟩ := (hposted q r' idx').mp hq'
      dsimp only
      rw [update_of_ne (hne hqp hq')]
      exact hc.posted q r' idx' hq'
    · intro q r' idx' hq' hd
      obtain ⟨hqp, hq'⟩ := (hposted q r' idx').mp hq'
      dsimp only
      rw [update_of_ne (hne hqp hq')]
      exact hc.done q r' idx' hq' hd
    · intro q r' idx' hq' hd
      obtain ⟨hqp, hq'⟩ := (hposted q r' idx').mp hq'
      dsimp only
      rw [update_of_ne (hne hqp hq')]
      exact hc.waiting q r' idx' hq' hd

/-- Whatever a process does with the lock. -/
theorem Inv.go (h : Inv s) (hp : s.place p = .locked) (hgo : go s p = some s') : Inv s' := by
  rw [Virtio.go] at hgo
  cases hphase : s.phase p with
  | idle =>
    rw [hphase] at hgo
    cases hgo
  | asking r =>
    rw [hphase] at hgo
    dsimp only at hgo
    rcases alloc3_desc_cases s with ⟨idx, halloc, hdist, hfree⟩ | ⟨s₁, halloc, hidle⟩
    · rw [halloc] at hgo
      cases hgo
      exact h.alloc hp hphase hdist hfree
    · rw [halloc] at hgo
      cases hgo
      have hp₁ : s₁.place p = .locked := by
        obtain ⟨desc, place, rfl, -, hplace⟩ := hidle
        rcases hplace p with heq | ⟨hasleep, -⟩
        · exact heq.trans hp
        · cases hasleep.symm.trans hp
      have hphase₁ : s₁.phase p = .asking r := by
        obtain ⟨desc, place, rfl, -, -⟩ := hidle
        exact hphase
      rw [← hphase₁]
      exact (h.idle hidle).sleep hp₁ (by simp [hphase₁, Phase.inside])
  | holding r idx =>
    rw [hphase] at hgo
    cases hgo
    exact h.format hp hphase
  | formatted r idx =>
    rw [hphase] at hgo
    cases hgo
    exact h.post hp hphase
  | posted r idx =>
    rw [hphase] at hgo
    dsimp only at hgo
    split at hgo
    · cases hgo
      rw [← hphase]
      exact h.sleep hp (by simp [hphase, Phase.inside])
    · rename_i hdisk
      have hidx : (s.phase p).idx = some idx := by rw [hphase]; rfl
      have hfree := free_chain_formed (s := { s with disk := { s.disk with
          info := update s.disk.info idx.i0 { s.disk.info idx.i0 with b := none } } })
        (h.formed p r idx (Or.inr hphase)) rfl (h.owned.distinct p idx hidx)
        (fun i hi => (h.owned.used i).mpr ⟨p, idx, hidx, hi⟩)
      rw [hfree] at hgo
      obtain ⟨desc, place, heq, hdesc, hplace⟩ := freedAll_eq { s with disk := { s.disk with
          info := update s.disk.info idx.i0 { s.disk.info idx.i0 with b := none } } } idx
      rw [heq] at hgo
      cases hgo
      exact h.finish hp hphase (by simpa using hdisk) hdesc hplace

end Xv6.Virtio
