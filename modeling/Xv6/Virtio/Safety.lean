/-
  Virtio/Safety.lean --- what the handler and the device do keeps the invariant, so in every run
  driver and device keep to the protocol.
-/
import Mathlib.Algebra.BigOperators.Group.Finset.Basic
import Xv6.Virtio.Requests

set_option autoImplicit false

namespace Xv6.Virtio

open Function List
open Foundation.Ring (Window)

variable {P B : Type}
variable {s s' : State P B} {p q : P} {r : Req B} {idx : Idx} {aq uq : List (Chain B)} {c : Chain B}

/-! ## What the invariant says -/

theorem toNat_mod_NUM (k : UInt16) : (k % UInt16.ofNat NUM).toNat = k.toNat % NUM := by
  rw [UInt16.toNat_mod]
  rfl

/-- The handler finds something in the ring if there is something. -/
theorem Queues.nonempty (hq : Queues s aq uq)
    (hne : s.disk.used_idx % UInt16.ofNat NUM ≠ s.disk.usedId % UInt16.ofNat NUM) : uq ≠ [] := by
  rintro rfl
  apply hne
  have hused := congrArg Fin.val hq.used
  simp only [Fin.val_ofNat, length_nil, Nat.add_zero] at hused
  apply UInt16.toNat_inj.mp
  rw [toNat_mod_NUM, toNat_mod_NUM, hused]

/-- A chain that is on its way, and whose it is. -/
theorem Inv.of_mem (h : Inv s) (hq : Queues s aq uq) (hc : c ∈ s.chains aq uq) :
    ∃ p r idx, s.phase p = .posted r idx ∧ s.bufDisk r.b = true ∧ c = chainOf r idx ∧
      Formed s.disk r idx := by
  obtain ⟨p, r, idx, hp, hdisk, rfl⟩ := (hq.mem c).mp hc
  exact ⟨p, r, idx, hp, hdisk, rfl, h.formed p r idx (Or.inr hp)⟩

theorem mem_chains_used (hc : c ∈ uq) : c ∈ s.chains aq uq :=
  mem_append_right _ hc

/-- Posted requests on the same buffer are the same. -/
theorem Inv.posted_unique (h : Inv s) {r' : Req B} {idx' : Idx} (hp : s.phase p = .posted r idx)
    (hq : s.phase q = .posted r' idx') (hb : r'.b = r.b) : q = p ∧ r' = r ∧ idx' = idx := by
  have hqp : q = p := by
    refine h.alone q p r.b ?_ (by rw [hp]; rfl)
    rw [hq, ← hb]
    rfl
  rw [hqp, hp] at hq
  cases hq
  exact ⟨hqp, rfl, rfl⟩

theorem Handler.snoc {intr : Option IntrPc} (h : Handler intr uq) (c : Chain B) :
    Handler intr (uq ++ [c]) := by
  match intr, h with
  | none, _ => trivial
  | some .test, _ => trivial
  | some .look, _ => exact append_ne_nil_of_right_ne_nil _ (cons_ne_nil _ _)
  | some (.clear id), ⟨c', rest, heq, hid⟩ => exact ⟨c', rest ++ [c], by rw [heq]; rfl, hid⟩

theorem Inv.counts (h : Inv s) (b : B) :
    s.returned b ≤ s.cleared b ∧ s.cleared b ≤ s.completed b ∧
      s.completed b ≤ s.posted b ∧ s.posted b ≤ s.returned b + 1 := by
  obtain ⟨aq, uq, hq, hh, hc⟩ := h.flow
  by_cases hb : ∃ p r idx, s.phase p = .posted r idx ∧ r.b = b
  · obtain ⟨p, r, idx, hp, rfl⟩ := hb
    have hposted := hc.posted p r idx hp
    cases hdisk : s.bufDisk r.b with
    | false =>
      obtain ⟨hcompleted, hcleared⟩ := hc.done p r idx hp hdisk
      omega
    | true =>
      obtain ⟨hcleared, hin, hout⟩ := hc.waiting p r idx hp hdisk
      by_cases hmem : chainOf r idx ∈ uq
      · have := hin hmem
        omega
      · have := hout hmem
        omega
  · obtain ⟨hposted, hcompleted, hcleared⟩ :=
      hc.quiet b fun p r idx hp heq => hb ⟨p, r, idx, hp, heq⟩
    omega

theorem Inv.lookup (h : Inv s) {id : Nat} (hid : s.intr = some (.clear id)) :
    ∃ (h : id < NUM) (b : B), (s.disk.info ⟨id, h⟩).b = some b := by
  obtain ⟨aq, uq, hq, hh, hc⟩ := h.flow
  rw [hid] at hh
  obtain ⟨c, rest, rfl, rfl⟩ := hh
  obtain ⟨p, r, idx, hp, hdisk, rfl, hformed⟩ := h.of_mem hq (mem_chains_used mem_cons_self)
  exact ⟨idx.i0.isLt, r.b, hformed.b⟩

theorem Owned.card [Fintype P] {free : Fin NUM → Bool} {phase : P → Phase B}
    (h : Owned free phase) :
    (Finset.univ.filter fun i => free i = true).card +
      3 * (Finset.univ.filter fun p => (phase p).idx.isSome = true).card = NUM := by
  have hused : (Finset.univ.filter fun i => ¬ free i = true) =
      (Finset.univ.filter fun p => (phase p).idx.isSome = true).biUnion
        fun p => ((phase p).idx.map Idx.set).getD ∅ := by
    ext i
    simp only [Finset.mem_filter, Finset.mem_univ, true_and, Finset.mem_biUnion, Bool.not_eq_true,
      h.used i]
    constructor
    · rintro ⟨p, idx, hp, hi⟩
      exact ⟨p, by rw [hp]; rfl, by rw [hp]; exact hi⟩
    · rintro ⟨p, hsome, hi⟩
      obtain ⟨idx, hp⟩ := Option.isSome_iff_exists.mp hsome
      rw [hp] at hi
      exact ⟨p, idx, hp, hi⟩
  have hcard : (Finset.univ.filter fun i => ¬ free i = true).card =
      3 * (Finset.univ.filter fun p => (phase p).idx.isSome = true).card := by
    rw [hused, Finset.card_biUnion]
    · rw [Finset.sum_const_nat (m := 3), Nat.mul_comm]
      intro p hp
      obtain ⟨idx, hp⟩ := Option.isSome_iff_exists.mp (Finset.mem_filter.mp hp).2
      rw [hp]
      exact (h.distinct p idx hp).card
    · intro p hp q hq hne
      obtain ⟨idx, hp⟩ := Option.isSome_iff_exists.mp (Finset.mem_filter.mp hp).2
      obtain ⟨idx', hq⟩ := Option.isSome_iff_exists.mp (Finset.mem_filter.mp hq).2
      rw [onFun, hp, hq]
      exact h.apart p q idx idx' hp hq hne
  rw [← hcard, Finset.card_filter_add_card_filter_not, Finset.card_univ, Fintype.card_fin]

/-- Only the handler goes on, and with it the lock. -/
theorem Inv.handler {intr : Option IntrPc} {lock : Option (Holder P)} (h : Inv s)
    (hl : Locking s.phase s.place lock intr)
    (hh : ∀ {aq uq}, Queues s aq uq → Handler s.intr uq → Handler intr uq) :
    Inv { s with intr, lock } where
  locking := hl
  owned := h.owned
  alone := h.alone
  formed := h.formed
  status := h.status
  fault := h.fault
  flow := by
    obtain ⟨aq, uq, hq, hh₀, hc⟩ := h.flow
    exact ⟨aq, uq, { hq with }, hh hq hh₀, { hc with }⟩

/-! ## The device -/

theorem Inv.take (h : Inv s) (htake : take s = some s') : Inv s' := by
  obtain ⟨aq, uq, hq, hh, hc⟩ := h.flow
  rw [Virtio.take] at htake
  split at htake
  · cases htake
  · rename_i hne
    cases aq with
    | nil =>
      refine absurd (UInt16.toNat_inj.mp ?_) hne
      have havail := hq.avail
      rw [length_nil, Nat.add_zero, Nat.mod_eq_of_lt (UInt16.toNat_lt _)] at havail
      exact havail.symm
    | cons c aq =>
      have hmem : c ∈ s.chains (c :: aq) uq := by simp [State.chains]
      obtain ⟨p, r, idx, hp, hdisk, hchain, hformed⟩ := h.of_mem hq hmem
      have hread : s.disk.chain (s.disk.ring (cell s.device.last)) = some c := by
        have hhead : s.disk.ring (cell s.device.last) = c.head := Window.head hq.ring
        rw [hhead, hchain]
        exact hformed.chain
      rw [hread] at htake
      cases htake
      have hperm : (aq ++ (c :: s.device.inflight) ++ s.device.pending.toList ++ uq).Perm
          (s.chains (c :: aq) uq) := by
        simp only [State.chains, append_assoc, cons_append]
        exact perm_middle
      have hone : (1 : UInt16).toNat = 1 := rfl
      refine ⟨h.locking, h.owned, h.alone, h.formed, h.status, h.fault, aq, uq,
        { hq with nodup := ?_, mem := ?_, avail := ?_, ring := ?_ }, hh, { hc with }⟩
      · exact hperm.nodup_iff.mpr hq.nodup
      · intro c'
        exact hperm.mem_iff.trans (hq.mem c')
      · dsimp only
        rw [hq.avail, UInt16.toNat_add, hone, length_cons]
        omega
      · refine (Window.tail hq.ring).congr ?_
        rw [UInt16.toNat_add, hone]
        exact Foundation.Ring.ofNat_mod (by decide) _

theorem Inv.complete {k : Nat} {status : UInt8} (h : Inv s)
    (hcomplete : complete s k status = some s') : Inv s' := by
  obtain ⟨aq, uq, hq, hh, hc⟩ := h.flow
  rw [Virtio.complete] at hcomplete
  split at hcomplete
  · rename_i c hpending hget
    cases hcomplete
    have hperm : (aq ++ s.device.inflight.eraseIdx k ++ [c] ++ uq).Perm (s.chains aq uq) := by
      obtain ⟨hk, rfl⟩ := List.getElem?_eq_some_iff.mp hget
      simp only [State.chains, hpending, Option.toList_none, append_nil]
      refine List.Perm.append_right uq ?_
      rw [append_assoc]
      refine List.Perm.append_left aq ?_
      exact perm_append_comm.trans (getElem_cons_eraseIdx_perm hk)
    refine ⟨h.locking, h.owned, h.alone, ?_, ?_, ?_, aq, uq,
      { hq with nodup := ?_, mem := ?_, elems := ?_, pending := ?_ }, hh, { hc with }⟩
    · intro q r idx hq'
      refine (h.formed q r idx hq').congr (fun _ _ => rfl) ?_
      by_cases hi : idx.i0 = c.status
      · simp [hi]
      · simp [hi]
    · intro hfailed i
      simp only [Bool.or_eq_false_iff, decide_eq_false_iff_not, not_not] at hfailed
      by_cases hi : i = c.status
      · simp [hi, hfailed.2]
      · simp [hi, h.status hfailed.1]
    · intro f hf
      obtain ⟨hmsg, hfailed⟩ := h.fault f hf
      exact ⟨hmsg, by simp [hfailed]⟩
    · exact hperm.nodup_iff.mpr hq.nodup
    · intro c'
      exact hperm.mem_iff.trans (hq.mem c')
    · have hroom : (uq.map Chain.head).length < NUM := by
        rw [length_map]
        exact h.room_used hq
      have hwindow := hq.elems.update_end (x := c.head) hroom
      rw [← hq.used_cell] at hwindow
      exact hwindow
    · intro c' hc'
      cases hc'
      exact update_self ..
  · cases hcomplete

variable [DecidableEq B]

theorem Inv.publish (h : Inv s) (hpublish : publish s = some s') : Inv s' := by
  obtain ⟨aq, uq, hq, hh, hc⟩ := h.flow
  rw [Virtio.publish] at hpublish
  split at hpublish
  · cases hpublish
  · rename_i c hpending
    cases hpublish
    have hperm : (aq ++ s.device.inflight ++ (none : Option (Chain B)).toList ++ (uq ++ [c])).Perm
        (s.chains aq uq) := by
      simp only [State.chains, hpending, Option.toList_none, Option.toList_some, append_nil,
        append_assoc]
      exact List.Perm.append_left _ (List.Perm.append_left _ perm_append_comm)
    have hmem : c ∈ s.chains aq uq := by simp [State.chains, hpending]
    have hnotin : c ∉ uq := by
      have hnodup := hq.nodup
      simp only [State.chains, hpending, Option.toList_some] at hnodup
      rw [nodup_append] at hnodup
      intro hc
      exact hnodup.2.2 c (by simp) c hc rfl
    obtain ⟨p, r, idx, hp, hdisk, hchain, hformed⟩ := h.of_mem hq hmem
    subst hchain
    have hone : (1 : UInt16).toNat = 1 := rfl
    refine ⟨h.locking, h.owned, h.alone, ?_, h.status, h.fault, aq, uq ++ [chainOf r idx],
      { hq with nodup := ?_, mem := ?_, used := ?_, elems := ?_, pending := ?_ }, hh.snoc _,
      ⟨?_, ?_, ?_, ?_⟩⟩
    · intro q r' idx' hq'
      exact (h.formed q r' idx' hq').congr (fun _ _ => rfl) rfl
    · exact hperm.nodup_iff.mpr hq.nodup
    · intro c'
      exact hperm.mem_iff.trans (hq.mem c')
    · have hused := Foundation.Ring.ofNat_add_congr hq.used 1
      dsimp only
      rw [UInt16.toNat_add, hone, length_append, length_singleton, ← Nat.add_assoc, ← hused]
      exact Foundation.Ring.ofNat_mod (by decide) _
    · rw [map_append]
      exact hq.elems.snoc (by rw [← hq.used_cell]; exact hq.pending _ hpending)
    · intro c' hc'
      cases hc'
    · intro b hb
      have hbr : b ≠ r.b := fun heq => hb p r idx hp heq.symm
      have hdata : b ≠ (chainOf r idx).data := hbr
      dsimp only
      rw [update_of_ne hdata]
      exact hc.quiet b hb
    · exact hc.posted
    · intro q r' idx' hq' hd
      have hb : r'.b ≠ (chainOf r idx).data := by
        intro hb
        obtain ⟨-, rfl, -⟩ := h.posted_unique hp hq' hb
        cases hd.symm.trans hdisk
      dsimp only
      rw [update_of_ne hb]
      exact hc.done q r' idx' hq' hd
    · intro q r' idx' hq' hd
      obtain ⟨hcleared, hin, hout⟩ := hc.waiting q r' idx' hq' hd
      dsimp only
      by_cases hb : r'.b = r.b
      · obtain ⟨-, rfl, rfl⟩ := h.posted_unique hp hq' hb
        refine ⟨hcleared, fun _ => ?_, fun hmem => absurd (by simp) hmem⟩
        have hself : update s.completed (chainOf r' idx').data
            (s.completed (chainOf r' idx').data + 1) r'.b = s.completed r'.b + 1 :=
          update_self ..
        rw [hself, hout hnotin]
      · have hdata : r'.b ≠ (chainOf r idx).data := hb
        have hne : chainOf r' idx' ≠ chainOf r idx := fun heq => hb (congrArg Chain.data heq)
        rw [update_of_ne hdata]
        refine ⟨hcleared, fun hmem => hin ?_, fun hmem => hout fun h => hmem (by simp [h])⟩
        simpa [hne] using hmem

/-! ## `virtio_disk_intr` -/

/-- `b->disk = 0`, for the first request in the ring. -/
theorem Inv.clear (h : Inv s) (hq : Queues s aq (c :: uq)) (hc : Counts s (c :: uq))
    (hlock : Locking s.phase s.place s.lock (some .test)) (hp : s.phase p = .posted r idx)
    (hdisk : s.bufDisk r.b = true) (hchain : c = chainOf r idx) :
    Inv { s with
      place := s.woken (.buf r.b)
      bufDisk := update s.bufDisk r.b false
      disk := { s.disk with used_idx := (s.disk.used_idx + 1) % UInt16.ofNat NUM }
      intr := some .test
      cleared := update s.cleared r.b (s.cleared r.b + 1) } := by
  have hperm : (s.chains aq (c :: uq)).Perm (c :: s.chains aq uq) := perm_middle
  obtain ⟨hnew, hnodup⟩ := nodup_cons.mp (hperm.nodup_iff.mp hq.nodup)
  have hother : ∀ {q r' idx'}, s.phase q = .posted r' idx' → r'.b ≠ r.b →
      update s.bufDisk r.b false r'.b = s.bufDisk r'.b := by
    intro q r' idx' _ hb
    exact update_of_ne hb ..
  have hcell : Fin.ofNat NUM ((s.disk.used_idx + 1) % UInt16.ofNat NUM).toNat =
      Fin.ofNat NUM (s.disk.used_idx.toNat + 1) := by
    rw [toNat_mod_NUM, Foundation.Ring.ofNat_mod (dvd_refl _), UInt16.toNat_add]
    exact Foundation.Ring.ofNat_mod (by decide) _
  refine ⟨hlock.woken (woken_wakeup s _), h.owned, h.alone, ?_, h.status, h.fault,
    aq, uq, ⟨hnodup, ?_, hq.avail, hq.ring, ?_, ?_, ?_, hq.pending, ?_⟩, trivial, ⟨?_, ?_, ?_, ?_⟩⟩
  · intro q r' idx' hq'
    exact (h.formed q r' idx' hq').congr (fun _ _ => rfl) rfl
  · intro c'
    have hmem : c' ∈ s.chains aq uq ↔ c' ≠ c ∧ c' ∈ s.chains aq (c :: uq) := by
      rw [hperm.mem_iff, mem_cons]
      constructor
      · intro hc'
        exact ⟨fun heq => hnew (heq ▸ hc'), Or.inr hc'⟩
      · rintro ⟨hne, heq | hc'⟩
        · exact absurd heq hne
        · exact hc'
    refine hmem.trans ?_
    rw [hq.mem]
    constructor
    · rintro ⟨hne, q, r', idx', hq', hd, rfl⟩
      have hb : r'.b ≠ r.b := by
        intro hb
        obtain ⟨-, rfl, rfl⟩ := h.posted_unique hp hq' hb
        exact hne hchain.symm
      exact ⟨q, r', idx', hq', (hother hq' hb).trans hd, rfl⟩
    · rintro ⟨q, r', idx', hq', hd, rfl⟩
      have hb : r'.b ≠ r.b := by
        intro hb
        dsimp only at hd
        rw [hb, update_self] at hd
        cases hd
      refine ⟨?_, q, r', idx', hq', (hother hq' hb).symm.trans hd, rfl⟩
      rw [hchain]
      exact fun heq => hb (congrArg Chain.data heq)
  · dsimp only
    rw [toNat_mod_NUM]
    exact Nat.mod_lt _ (NeZero.pos NUM)
  · rw [Foundation.Ring.ofNat_add_congr hcell]
    have hused := hq.used
    rw [length_cons, Nat.add_comm uq.length 1, ← Nat.add_assoc] at hused
    exact hused
  · exact (Window.tail hq.elems).congr hcell
  · intro q r' idx' hq'
    dsimp only at hq'
    obtain ⟨hring, hd⟩ := hq.ready q r' idx' hq'
    have hb : r'.b ≠ r.b := by
      intro hb
      have hqp := h.alone q p r.b (by rw [hq', ← hb]; rfl) (by rw [hp]; rfl)
      rw [hqp, hp] at hq'
      cases hq'
    exact ⟨hring, (update_of_ne hb ..).trans hd⟩
  · intro b hb
    have hbr : b ≠ r.b := fun heq => hb p r idx hp heq.symm
    dsimp only
    rw [update_of_ne hbr]
    exact hc.quiet b hb
  · exact hc.posted
  · intro q r' idx' hq' hd
    dsimp only
    by_cases hb : r'.b = r.b
    · obtain ⟨hcleared, hcompleted, -⟩ := hc.waiting p r idx hp hdisk
      rw [hb, update_self, hcleared]
      exact ⟨hcompleted (hchain ▸ mem_cons_self), rfl⟩
    · rw [update_of_ne hb]
      exact hc.done q r' idx' hq' ((hother hq' hb).symm.trans hd)
  · intro q r' idx' hq' hd
    have hb : r'.b ≠ r.b := by
      intro hb
      dsimp only at hd
      rw [hb, update_self] at hd
      cases hd
    obtain ⟨hcleared, hin, hout⟩ := hc.waiting q r' idx' hq' ((hother hq' hb).symm.trans hd)
    have hne : chainOf r' idx' ≠ c := by
      rw [hchain]
      exact fun heq => hb (congrArg Chain.data heq)
    dsimp only
    rw [update_of_ne hb]
    refine ⟨hcleared, fun hmem => hin (mem_cons_of_mem _ hmem), fun hmem => hout ?_⟩
    rw [mem_cons, not_or]
    exact ⟨hne, hmem⟩

theorem Inv.intr (h : Inv s) (hintr : virtio_disk_intr s = some s') : Inv s' := by
  obtain ⟨aq, uq, hq, hh, hc⟩ := h.flow
  rw [virtio_disk_intr] at hintr
  cases hpc : s.intr with
  | none =>
    rw [hpc] at hintr
    dsimp only at hintr
    split at hintr
    · rename_i hlock
      cases hintr
      refine h.handler ?_ (fun _ _ => trivial)
      refine ⟨fun p => ?_, by simp, h.locking.inside, h.locking.idle⟩
      rw [h.locking.proc, hlock]
      simp
    · cases hintr
  | some pc =>
    have hlock : s.lock = some .intr := h.locking.intr.mp (by rw [hpc]; rfl)
    have hl : ∀ pc', Locking s.phase s.place s.lock (some pc') := fun pc' =>
      ⟨h.locking.proc, iff_of_true rfl hlock, h.locking.inside, h.locking.idle⟩
    rw [hpc] at hintr hh
    cases pc with
    | test =>
      dsimp only at hintr
      split at hintr
      · rename_i hne
        cases hintr
        exact h.handler (hl _) (fun hq _ => hq.nonempty hne)
      · cases hintr
        refine h.handler ?_ (fun _ _ => trivial)
        refine ⟨fun p => ?_, by simp, h.locking.inside, h.locking.idle⟩
        rw [h.locking.proc, hlock]
        simp
    | look =>
      dsimp only at hintr
      rw [dif_pos hq.used_lt] at hintr
      cases hintr
      refine h.handler (hl _) ?_
      intro aq uq hq hh
      rw [hpc] at hh
      cases uq with
      | nil => exact absurd rfl hh
      | cons c rest =>
        refine ⟨c, rest, rfl, ?_⟩
        have hcell : Fin.ofNat NUM s.disk.used_idx.toNat = ⟨s.disk.used_idx.toNat, hq.used_lt⟩ :=
          Fin.ext (Nat.mod_eq_of_lt hq.used_lt)
        have hhead := Window.head hq.elems
        rw [hcell] at hhead
        exact hhead.symm
    | clear id =>
      obtain ⟨c, rest, rfl, hid⟩ := hh
      obtain ⟨p, r, idx, hp, hdisk, hchain, hformed⟩ := h.of_mem hq (mem_chains_used mem_cons_self)
      have hid : id = idx.i0 := by rw [← hid, hchain]; rfl
      subst hid
      dsimp only at hintr
      rw [dif_pos idx.i0.isLt, Fin.eta, hformed.b] at hintr
      split at hintr
      · rename_i hstatus
        cases hintr
        refine h.fail ⟨rfl, ?_⟩
        cases hfailed : s.failed with
        | true => rfl
        | false => exact absurd (h.status hfailed idx.i0) hstatus
      · cases hintr
        exact h.clear hq hc (hl _) hp hdisk hchain

/-! ## Runs -/

variable [Fintype P]

/-- What driver and device owe each other. -/
structure Protocol (s : State P B) : Prop where
  /-- The requests on a buffer are posted, completed, cleared and returned in turn. -/
  counts : ∀ b, s.returned b ≤ s.cleared b ∧ s.cleared b ≤ s.completed b ∧
    s.completed b ≤ s.posted b ∧ s.posted b ≤ s.returned b + 1
  /-- The handler only looks up chains that have a buffer. -/
  lookup : ∀ id, s.intr = some (.clear id) →
    ∃ (h : id < NUM) (b : B), (s.disk.info ⟨id, h⟩).b = some b
  /-- Nothing goes wrong, unless the device says that it could not do what it was asked. -/
  fault : ∀ f, s.fault = some f → f = .panic "virtio_disk_intr status" ∧ s.failed = true
  /-- No descriptor is in two unfinished requests. -/
  apart : ∀ p q idx idx', p ≠ q → (s.phase p).idx = some idx → (s.phase q).idx = some idx' →
    Disjoint idx.set idx'.set
  /-- New descriptors are in no unfinished request. -/
  fresh : ∀ idx s', alloc3_desc s = .ok (some idx, s') →
    ∀ p idx', (s.phase p).idx = some idx' → Disjoint idx.set idx'.set
  /-- A descriptor is free, or one of the three of an unreleased request. -/
  descriptors : (Finset.univ.filter fun i => s.disk.free i = true).card +
    3 * (Finset.univ.filter fun p => (s.phase p).idx.isSome = true).card = NUM

theorem Inv.protocol (h : Inv s) : Protocol s where
  counts := h.counts
  lookup _ hid := h.lookup hid
  fault := h.fault
  apart p q idx idx' hne hp hq := h.owned.apart p q idx idx' hp hq hne
  fresh := by
    intro idx s' halloc p idx' hp
    rcases alloc3_desc_cases s with ⟨idx₁, halloc₁, -, hfree⟩ | ⟨s₁, halloc₁, -⟩
    · rw [halloc₁] at halloc
      cases halloc
      rw [Finset.disjoint_left]
      intro i hi hi'
      have hused := (h.owned.used i).mpr ⟨p, idx', hp, hi'⟩
      rw [hfree i hi] at hused
      cases hused
    · rw [halloc₁] at halloc
      cases halloc
  descriptors := h.owned.card

variable [DecidableEq P]

/-- One step keeps the invariant. -/
theorem step_inv {a : Action P B} (h : Inv s) (hstep : step s a = some s') : Inv s' := by
  unfold step at hstep
  split at hstep
  · cases hstep
  · cases a with
    | call p r =>
      dsimp only at hstep
      split at hstep
      · rename_i hcall
        cases hstep
        have hidle : s.phase p = .idle := by
          cases hphase : s.phase p with
          | idle => rfl
          | asking r | holding r _ | formatted r _ | posted r _ =>
            rw [hphase] at hcall
            cases hcall.1
        exact h.call hidle hcall.2
      · cases hstep
    | acquire p =>
      dsimp only at hstep
      split at hstep
      · rename_i hacquire
        cases hstep
        exact h.acquire hacquire.1 hacquire.2
      · cases hstep
    | go p =>
      dsimp only at hstep
      split at hstep
      · rename_i hp
        exact h.go hp hstep
      · cases hstep
    | kill p =>
      dsimp only at hstep
      split at hstep
      · rename_i hp
        cases hstep
        exact h.kill hp
      · cases hstep
    | intr => exact h.intr hstep
    | take => exact h.take hstep
    | complete k status => exact h.complete hstep
    | publish => exact h.publish hstep

/-- Whatever processes, handler and device do, and in whatever order, they keep to the
protocol. -/
theorem run_protocol {as : List (Action P B)} (hrun : run as boot = some s) : Protocol s :=
  (run_isRun.keeps (fun _ _ _ => step_inv) boot_inv hrun).protocol

local instance two_neZero : NeZero 2 := ⟨by decide⟩

/-- A write and a read, completed in the other order, seen by one interrupt. -/
def twoRequests : List (Action (Fin 2) (Fin 2)) :=
  [.call 0 ⟨0, 40, true⟩, .acquire 0, .go 0, .go 0, .go 0, .go 0,
    .call 1 ⟨1, 41, false⟩, .take, .acquire 1, .go 1, .go 1, .go 1, .take, .go 1,
    .complete 0 0, .publish, .complete 0 0, .publish,
    .intr, .intr, .intr, .intr, .intr, .intr, .intr, .intr,
    .acquire 0, .go 0, .acquire 1, .go 1]

theorem run_protocol_twoRequests :
    ∃ s : State (Fin 2) (Fin 2), run twoRequests boot = some s ∧ s.returned 0 = 1 ∧
      s.returned 1 = 1 ∧ Protocol s := by
  have hrun : (run twoRequests boot).map (fun s => (s.returned 0, s.returned 1)) = some (1, 1) := by
    decide +kernel
  obtain ⟨s, hs, hreturned⟩ := Option.map_eq_some_iff.mp hrun
  exact ⟨s, hs, congrArg Prod.fst hreturned, congrArg Prod.snd hreturned, run_protocol hs⟩

end Xv6.Virtio
