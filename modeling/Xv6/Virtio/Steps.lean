/-
  Virtio/Steps.lean --- what `alloc3_desc` and `free_chain` do, and how the parts of the invariant
  change with it.
-/
import Xv6.Virtio.Invariant

set_option autoImplicit false

namespace Xv6.Virtio

open Function
open Foundation.Ring (Window)

variable {P B : Type}
variable {s s' : State P B} {p q : P} {r : Req B} {idx : Idx} {aq uq : List (Chain B)}

/-! ## Allocating and freeing descriptors -/

section Descriptors

variable {i : Fin NUM} {is : Finset (Fin NUM)}

/-- Nobody falls asleep, and who is woken up was asleep. -/
def Woken (place place' : P → Place) : Prop :=
  ∀ p, place' p = place p ∨ place p = .asleep ∧ place' p = .want

theorem Woken.trans {pl₁ pl₂ pl₃ : P → Place} (h : Woken pl₁ pl₂) (h' : Woken pl₂ pl₃) :
    Woken pl₁ pl₃ := by
  intro p
  rcases h' p with heq | ⟨hasleep, hwant⟩
  · rw [heq]
    exact h p
  · rcases h p with heq | ⟨hasleep', -⟩
    · exact Or.inr ⟨heq.symm.trans hasleep, hwant⟩
    · exact Or.inr ⟨hasleep', hwant⟩

/-- Some descriptors are not free any more. -/
def State.taken (s : State P B) (is : Finset (Fin NUM)) : State P B :=
  { s with disk := { s.disk with free := fun i => if i ∈ is then false else s.disk.free i } }

theorem alloc_desc_cases (s : State P B) :
    (∃ i, s.disk.free i = true ∧ alloc_desc s = (some i, s.taken {i})) ∨
      alloc_desc s = (none, s) := by
  rw [alloc_desc]
  cases hfind : (List.finRange NUM).find? s.disk.free with
  | none => exact Or.inr rfl
  | some i =>
    refine Or.inl ⟨i, List.find?_some hfind, ?_⟩
    have hfree : update s.disk.free i false =
        fun j => if j ∈ ({i} : Finset (Fin NUM)) then false else s.disk.free j := by
      funext j
      by_cases hj : j = i
      · simp [hj]
      · simp [hj]
    dsimp only
    rw [hfree]
    rfl

theorem taken_taken (s : State P B) (is js : Finset (Fin NUM)) :
    (s.taken is).taken js = s.taken (js ∪ is) := by
  have hfree : ∀ i, (if i ∈ js then false else if i ∈ is then false else s.disk.free i) =
      if i ∈ js ∪ is then false else s.disk.free i := by
    intro i
    by_cases hj : i ∈ js
    · simp [hj]
    · simp [hj]
  simp only [State.taken, hfree]

theorem taken_free_of_mem (h : i ∈ is) :
    (s.taken is).disk.free i = false := if_pos h

theorem taken_free_of_notMem (h : i ∉ is) :
    (s.taken is).disk.free i = s.disk.free i := if_neg h

theorem of_taken_free (h : (s.taken is).disk.free i = true) : i ∉ is ∧ s.disk.free i = true := by
  by_cases hi : i ∈ is
  · cases h.symm.trans (taken_free_of_mem hi)
  · exact ⟨hi, (taken_free_of_notMem hi).symm.trans h⟩

/-- Who is awake, and what is in descriptors that nobody has. -/
def Idle (s s' : State P B) : Prop :=
  ∃ desc place, s' = { s with disk := { s.disk with desc }, place } ∧
    (∀ i, s.disk.free i = false → desc i = s.disk.desc i) ∧ Woken s.place place

theorem Idle.refl (s : State P B) : Idle s s :=
  ⟨s.disk.desc, s.place, rfl, fun _ _ => rfl, fun _ => Or.inl rfl⟩

variable [DecidableEq B]

/-- What `free_desc` does to a descriptor that is in use. -/
def State.freed (s : State P B) (i : Fin NUM) : State P B :=
  { s with disk := { s.disk with
      desc := update s.disk.desc i { s.disk.desc i with addr := .null }
      free := update s.disk.free i true } }.wakeup .free

theorem free_desc_used (h : s.disk.free i = false) : free_desc i s = .ok (s.freed i) := by
  rw [free_desc, dif_pos i.isLt]
  dsimp only
  rw [if_neg (by rw [h]; exact Bool.false_ne_true)]
  rfl

theorem freed_free_self (s : State P B) (i : Fin NUM) : (s.freed i).disk.free i = true :=
  update_self ..

theorem freed_free_of_ne {i j : Fin NUM} (h : j ≠ i) :
    (s.freed i).disk.free j = s.disk.free j := update_of_ne h ..

theorem freed_desc_of_ne {i j : Fin NUM} (h : j ≠ i) :
    (s.freed i).disk.desc j = s.disk.desc j := update_of_ne h ..

theorem woken_wakeup (s : State P B) (chan : Chan B) : Woken s.place (s.woken chan) := by
  intro p
  rw [State.woken]
  split
  · rename_i h
    exact Or.inr ⟨h.1, rfl⟩
  · exact Or.inl rfl

theorem freed_woken (s : State P B) (i : Fin NUM) : Woken s.place (s.freed i).place :=
  woken_wakeup s .free

/-- A descriptor is taken and given back. -/
theorem idle_taken_freed (hi : s.disk.free i = true) : Idle s ((s.taken {i}).freed i) := by
  refine ⟨((s.taken {i}).freed i).disk.desc, ((s.taken {i}).freed i).place, ?_, ?_, ?_⟩
  · have hfree : ((s.taken {i}).freed i).disk.free = s.disk.free := by
      funext j
      by_cases hj : j = i
      · rw [hj, freed_free_self, hi]
      · rw [freed_free_of_ne hj, taken_free_of_notMem (by simpa using hj)]
    dsimp only
    rw [← hfree]
    rfl
  · intro j hj
    have hne : j ≠ i := by
      intro h
      rw [h, hi] at hj
      cases hj
    exact freed_desc_of_ne (s := s.taken {i}) hne
  · exact freed_woken (s.taken {i}) i

theorem idle_taken_freed_freed {i j : Fin NUM} (hi : s.disk.free i = true)
    (hj : s.disk.free j = true) :
    Idle s (((s.taken ({j} ∪ {i})).freed i).freed j) := by
  refine ⟨(((s.taken ({j} ∪ {i})).freed i).freed j).disk.desc,
    (((s.taken ({j} ∪ {i})).freed i).freed j).place, ?_, ?_, ?_⟩
  · have hfree : (((s.taken ({j} ∪ {i})).freed i).freed j).disk.free = s.disk.free := by
      funext k
      by_cases hkj : k = j
      · rw [hkj, freed_free_self, hj]
      · rw [freed_free_of_ne hkj]
        by_cases hki : k = i
        · rw [hki, freed_free_self, hi]
        · rw [freed_free_of_ne hki, taken_free_of_notMem (by simp [hkj, hki])]
    dsimp only
    rw [← hfree]
    rfl
  · intro k hk
    have hne : ∀ i, s.disk.free i = true → k ≠ i := by
      intro i hi h
      rw [h, hi] at hk
      cases hk
    rw [freed_desc_of_ne (hne j hj), freed_desc_of_ne (hne i hi)]
    rfl
  · exact (freed_woken (s.taken ({j} ∪ {i})) i).trans (freed_woken _ j)

/-- `alloc3_desc` gets three descriptors, or as good as nothing happens. -/
theorem alloc3_desc_cases (s : State P B) :
    (∃ idx, alloc3_desc s = .ok (some idx, s.taken idx.set) ∧ idx.Distinct ∧
      ∀ i ∈ idx.set, s.disk.free i = true) ∨
    ∃ s', alloc3_desc s = .ok (none, s') ∧ Idle s s' := by
  rw [alloc3_desc]
  rcases alloc_desc_cases s with ⟨i0, h0, halloc⟩ | halloc
  · rw [halloc]
    dsimp only
    rcases alloc_desc_cases (s.taken {i0}) with ⟨i1, h1, halloc⟩ | halloc
    · rw [halloc]
      dsimp only
      rw [taken_taken]
      obtain ⟨h10, h1⟩ := of_taken_free h1
      rw [Finset.mem_singleton] at h10
      rcases alloc_desc_cases (s.taken ({i1} ∪ {i0})) with ⟨i2, h2, halloc⟩ | halloc
      · -- three descriptors
        rw [halloc]
        dsimp only
        rw [taken_taken]
        obtain ⟨h210, h2⟩ := of_taken_free h2
        have hset : ({i2} ∪ ({i1} ∪ {i0}) : Finset (Fin NUM)) = Idx.set ⟨i0, i1, i2⟩ := by
          ext i
          simp only [Finset.mem_union, Finset.mem_singleton, Idx.mem_set]
          tauto
        rw [hset]
        rw [Finset.mem_union, Finset.mem_singleton, Finset.mem_singleton, not_or] at h210
        refine Or.inl ⟨⟨i0, i1, i2⟩, rfl, ⟨Ne.symm h10, Ne.symm h210.2, Ne.symm h210.1⟩, ?_⟩
        intro i hi
        rcases Idx.mem_set.mp hi with rfl | rfl | rfl
        · exact h0
        · exact h1
        · exact h2
      · -- two, which are given back
        rw [halloc]
        dsimp only
        rw [free_desc_used (taken_free_of_mem (by simp))]
        have hused : ((s.taken ({i1} ∪ {i0})).freed i0).disk.free i1 = false := by
          rw [freed_free_of_ne h10, taken_free_of_mem (by simp)]
        refine Or.inr ⟨_, ?_, idle_taken_freed_freed h0 h1⟩
        simp only [bind, Except.bind, free_desc_used hused]
    · -- one, which is given back
      rw [halloc]
      dsimp only
      rw [free_desc_used (taken_free_of_mem (by simp))]
      exact Or.inr ⟨_, rfl, idle_taken_freed h0⟩
  · rw [halloc]
    exact Or.inr ⟨s, rfl, Idle.refl s⟩

theorem freed_desc_self (s : State P B) (i : Fin NUM) :
    (s.freed i).disk.desc i = { s.disk.desc i with addr := .null } := update_self ..

/-- A turn of `free_chain`: the descriptor that is freed keeps its flags and its successor. -/
theorem free_chain_next {turns : Nat} {i j : Fin NUM} (hused : s.disk.free i = false)
    (hflags : (s.disk.desc i).flags &&& VRING_DESC_F_NEXT ≠ 0) (hnext : (s.disk.desc i).next = j) :
    free_chain (turns + 1) i s = free_chain turns j (s.freed i) := by
  rw [free_chain, free_desc_used hused]
  simp only [bind, Except.bind, dif_pos i.isLt, Fin.eta, freed_desc_self, hnext]
  exact if_pos hflags

theorem free_chain_last {turns : Nat} (hused : s.disk.free i = false)
    (hflags : (s.disk.desc i).flags &&& VRING_DESC_F_NEXT = 0) :
    free_chain (turns + 1) i s = .ok (s.freed i) := by
  rw [free_chain, free_desc_used hused]
  simp only [bind, Except.bind, dif_pos i.isLt, Fin.eta, freed_desc_self]
  exact if_neg (not_not_intro hflags)

/-- The state after all descriptors of a request are freed. -/
def State.freedAll (s : State P B) (idx : Idx) : State P B :=
  ((s.freed idx.i0).freed idx.i1).freed idx.i2

theorem freedAll_free (s : State P B) (idx : Idx) :
    (s.freedAll idx).disk.free = fun i => if i ∈ idx.set then true else s.disk.free i := by
  funext i
  rw [State.freedAll]
  by_cases h2 : i = idx.i2
  · rw [h2, freed_free_self, if_pos idx.i2_mem]
  · rw [freed_free_of_ne h2]
    by_cases h1 : i = idx.i1
    · rw [h1, freed_free_self, if_pos idx.i1_mem]
    · rw [freed_free_of_ne h1]
      by_cases h0 : i = idx.i0
      · rw [h0, freed_free_self, if_pos idx.i0_mem]
      · rw [freed_free_of_ne h0, if_neg (by simp [Idx.mem_set, h0, h1, h2])]

theorem freedAll_desc (h : i ∉ idx.set) : (s.freedAll idx).disk.desc i = s.disk.desc i := by
  rw [Idx.mem_set, not_or, not_or] at h
  rw [State.freedAll, freed_desc_of_ne h.2.2, freed_desc_of_ne h.2.1, freed_desc_of_ne h.1]

theorem freedAll_woken (s : State P B) (idx : Idx) : Woken s.place (s.freedAll idx).place :=
  ((freed_woken s _).trans (freed_woken _ _)).trans (freed_woken _ _)

theorem freedAll_eq (s : State P B) (idx : Idx) : ∃ desc place, s.freedAll idx = { s with
      disk := { s.disk with desc, free := fun i => if i ∈ idx.set then true else s.disk.free i }
      place } ∧ (∀ i, i ∉ idx.set → desc i = s.disk.desc i) ∧ Woken s.place place := by
  refine ⟨(s.freedAll idx).disk.desc, (s.freedAll idx).place, ?_, fun i hi => freedAll_desc hi,
    freedAll_woken s idx⟩
  rw [← freedAll_free]
  rfl

theorem flags_next : VRING_DESC_F_NEXT &&& VRING_DESC_F_NEXT ≠ 0 := by decide
theorem flags_last : VRING_DESC_F_WRITE &&& VRING_DESC_F_NEXT = 0 := by decide

/-- `free_chain` frees the three descriptors of a request. -/
theorem free_chain_formed {d : Disk B} (h : Formed d r idx) (hdesc : s.disk.desc = d.desc)
    (hdist : idx.Distinct) (hused : ∀ i ∈ idx.set, s.disk.free i = false) :
    free_chain NUM idx.i0 s = .ok (s.freedAll idx) := by
  have hd0 : s.disk.desc idx.i0 = _ := (congrFun hdesc _).trans h.d0
  have hd1 : (s.freed idx.i0).disk.desc idx.i1 = _ :=
    (freed_desc_of_ne hdist.h01.symm).trans ((congrFun hdesc _).trans h.d1)
  have hd2 : ((s.freed idx.i0).freed idx.i1).disk.desc idx.i2 = _ :=
    (freed_desc_of_ne hdist.h12.symm).trans
      ((freed_desc_of_ne hdist.h02.symm).trans ((congrFun hdesc _).trans h.d2))
  have hu1 : (s.freed idx.i0).disk.free idx.i1 = false :=
    (freed_free_of_ne hdist.h01.symm).trans (hused _ idx.i1_mem)
  have hu2 : ((s.freed idx.i0).freed idx.i1).disk.free idx.i2 = false :=
    (freed_free_of_ne hdist.h12.symm).trans
      ((freed_free_of_ne hdist.h02.symm).trans (hused _ idx.i2_mem))
  calc free_chain NUM idx.i0 s
      = free_chain 7 idx.i1 (s.freed idx.i0) :=
        free_chain_next (hused _ idx.i0_mem) (by rw [hd0]; exact flags_next) (by rw [hd0])
    _ = free_chain 6 idx.i2 ((s.freed idx.i0).freed idx.i1) :=
        free_chain_next hu1 (by rw [hd1]; exact data_flags_next _) (by rw [hd1])
    _ = .ok (s.freedAll idx) := free_chain_last hu2 (by rw [hd2]; exact flags_last)

end Descriptors

/-! ## The parts of the invariant -/

section Parts

variable {phase phase' : P → Phase B} {free : Fin NUM → Bool} {ph : Phase B}
  {place place' : P → Place} {lock : Option (Holder P)} {intr : Option IntrPc}

theorem Owned.congr (h : Owned free phase) (hidx : ∀ q, (phase' q).idx = (phase q).idx) :
    Owned free phase' where
  distinct p idx hp := h.distinct p idx (by rw [← hidx]; exact hp)
  apart p q idx idx' hp hq :=
    h.apart p q idx idx' (by rw [← hidx]; exact hp) (by rw [← hidx]; exact hq)
  used i := by simp only [hidx, h.used]

theorem Alone.congr (h : Alone phase) (hbuf : ∀ q, (phase' q).buf = (phase q).buf) :
    Alone phase' := by
  intro p q b hp hq
  rw [hbuf] at hp hq
  exact h p q b hp hq

theorem Locking.woken (h : Locking phase place lock intr) (hw : Woken place place') :
    Locking phase place' lock intr := by
  have hkeep : ∀ p, place p ≠ .asleep → place' p = place p := by
    intro p hp
    rcases hw p with heq | ⟨hasleep, -⟩
    · exact heq
    · exact absurd hasleep hp
  refine ⟨?_, h.intr, ?_, ?_⟩
  · intro p
    rw [← h.proc]
    rcases hw p with heq | ⟨hasleep, hwant⟩
    · rw [heq]
    · rw [hasleep, hwant]
      simp
  · intro p hp
    have hlocked := h.inside p hp
    rw [hkeep p (by rw [hlocked]; simp), hlocked]
  · intro p hp
    have hout := h.idle p hp
    rw [hkeep p (by rw [hout]; simp), hout]

variable [DecidableEq P]

theorem update_phase_idx (h : ph.idx = (phase p).idx) (q : P) :
    (update phase p ph q).idx = (phase q).idx := by
  by_cases hq : q = p
  · rw [hq, update_self, h]
  · rw [update_of_ne hq]

theorem update_phase_buf (h : ph.buf = (phase p).buf) (q : P) :
    (update phase p ph q).buf = (phase q).buf := by
  by_cases hq : q = p
  · rw [hq, update_self, h]
  · rw [update_of_ne hq]

/-- A process gets descriptors that were free. -/
theorem Owned.take (h : Owned free phase) (hnone : (phase p).idx = none) (hph : ph.idx = some idx)
    (hdist : idx.Distinct) (hfree : ∀ i ∈ idx.set, free i = true) :
    Owned (fun i => if i ∈ idx.set then false else free i) (update phase p ph) := by
  -- nobody has a free descriptor
  have hothers : ∀ q idx', (phase q).idx = some idx' → Disjoint idx.set idx'.set := by
    intro q idx' hq
    rw [Finset.disjoint_left]
    intro i hi hi'
    have hused := (h.used i).mpr ⟨q, idx', hq, hi'⟩
    rw [hfree i hi] at hused
    cases hused
  have hcases : ∀ {q idx'}, (update phase p ph q).idx = some idx' →
      q = p ∧ idx' = idx ∨ q ≠ p ∧ (phase q).idx = some idx' := by
    intro q idx' hq
    by_cases hqp : q = p
    · rw [hqp, update_self, hph] at hq
      exact Or.inl ⟨hqp, (Option.some.inj hq).symm⟩
    · rw [update_of_ne hqp] at hq
      exact Or.inr ⟨hqp, hq⟩
  refine ⟨?_, ?_, ?_⟩
  · intro q idx' hq
    rcases hcases hq with ⟨-, rfl⟩ | ⟨-, hq⟩
    · exact hdist
    · exact h.distinct q idx' hq
  · intro q q' idx' idx'' hq hq' hne
    rcases hcases hq with ⟨rfl, rfl⟩ | ⟨-, hq⟩
    · rcases hcases hq' with ⟨rfl, -⟩ | ⟨-, hq'⟩
      · exact absurd rfl hne
      · exact hothers q' idx'' hq'
    · rcases hcases hq' with ⟨-, rfl⟩ | ⟨-, hq'⟩
      · exact (hothers q idx' hq).symm
      · exact h.apart q q' idx' idx'' hq hq' hne
  · intro i
    by_cases hi : i ∈ idx.set
    · refine iff_of_true (if_pos hi) ⟨p, idx, ?_, hi⟩
      rw [update_self, hph]
    · rw [if_neg hi, h.used]
      constructor
      · rintro ⟨q, idx', hq, hmem⟩
        have hqp : q ≠ p := by
          intro heq
          rw [heq, hnone] at hq
          cases hq
        exact ⟨q, idx', by rw [update_of_ne hqp]; exact hq, hmem⟩
      · rintro ⟨q, idx', hq, hmem⟩
        rcases hcases hq with ⟨-, rfl⟩ | ⟨-, hq⟩
        · exact absurd hmem hi
        · exact ⟨q, idx', hq, hmem⟩

/-- A process gives its descriptors back. -/
theorem Owned.give (h : Owned free phase) (hsome : (phase p).idx = some idx) (hph : ph.idx = none) :
    Owned (fun i => if i ∈ idx.set then true else free i) (update phase p ph) := by
  have hcases : ∀ {q idx'}, (update phase p ph q).idx = some idx' →
      q ≠ p ∧ (phase q).idx = some idx' := by
    intro q idx' hq
    by_cases hqp : q = p
    · rw [hqp, update_self, hph] at hq
      cases hq
    · rw [update_of_ne hqp] at hq
      exact ⟨hqp, hq⟩
  refine ⟨?_, ?_, ?_⟩
  · intro q idx' hq
    exact h.distinct q idx' (hcases hq).2
  · intro q q' idx' idx'' hq hq' hne
    exact h.apart q q' idx' idx'' (hcases hq).2 (hcases hq').2 hne
  · intro i
    by_cases hi : i ∈ idx.set
    · rw [if_pos hi]
      refine iff_of_false (by simp) ?_
      rintro ⟨q, idx', hq, hmem⟩
      obtain ⟨hqp, hq⟩ := hcases hq
      exact Finset.disjoint_left.mp (h.apart q p idx' idx hq hsome hqp) hmem hi
    · rw [if_neg hi, h.used]
      constructor
      · rintro ⟨q, idx', hq, hmem⟩
        have hqp : q ≠ p := by
          intro heq
          rw [heq, hsome] at hq
          cases hq
          exact hi hmem
        exact ⟨q, idx', by rw [update_of_ne hqp]; exact hq, hmem⟩
      · rintro ⟨q, idx', hq, hmem⟩
        exact ⟨q, idx', (hcases hq).2, hmem⟩

/-- A process starts a call with a buffer that no other call is about. -/
theorem Alone.call {b : B} (h : Alone phase) (hb : ∀ q, (phase q).buf ≠ some b)
    (hph : ph.buf = some b) : Alone (update phase p ph) := by
  intro q q' b' hq hq'
  by_cases hqp : q = p
  · rw [hqp, update_self, hph] at hq
    by_cases hqp' : q' = p
    · rw [hqp, hqp']
    · rw [update_of_ne hqp', ← hq] at hq'
      exact absurd hq' (hb q')
  · rw [update_of_ne hqp] at hq
    by_cases hqp' : q' = p
    · rw [hqp', update_self, hph] at hq'
      rw [← hq'] at hq
      exact absurd hq (hb q)
    · rw [update_of_ne hqp'] at hq'
      exact h q q' b' hq hq'

theorem Alone.leave (h : Alone phase) (hph : ph.buf = none) : Alone (update phase p ph) := by
  have hcases : ∀ {q b}, (update phase p ph q).buf = some b → (phase q).buf = some b := by
    intro q b hq
    by_cases hqp : q = p
    · rw [hqp, update_self, hph] at hq
      cases hq
    · rwa [update_of_ne hqp] at hq
  intro q q' b hq hq'
  exact h q q' b (hcases hq) (hcases hq')

section

variable (h : Locking phase place lock intr)

include h

/-- A process without the lock does something. -/
theorem Locking.moveOutside {pl : Place} (hp : place p ≠ .locked) (hpl : pl ≠ .locked)
    (hph : ¬ ph.inside) (hidle : ph = .idle → pl = .out) :
    Locking (update phase p ph) (update place p pl) lock intr := by
  refine ⟨?_, h.intr, ?_, ?_⟩
  · intro q
    rw [← h.proc]
    by_cases hqp : q = p
    · rw [hqp, update_self]
      exact iff_of_false hpl hp
    · rw [update_of_ne hqp]
  · intro q hq
    by_cases hqp : q = p
    · rw [hqp, update_self] at hq
      exact absurd hq hph
    · rw [update_of_ne hqp] at hq ⊢
      exact h.inside q hq
  · intro q hq
    by_cases hqp : q = p
    · rw [hqp, update_self] at hq ⊢
      exact hidle hq
    · rw [update_of_ne hqp] at hq ⊢
      exact h.idle q hq

omit h in
theorem Locking.acquire (h : Locking phase place none intr) (hp : place p = .want) :
    Locking phase (update place p .locked) (some (.proc p)) intr := by
  refine ⟨?_, ?_, ?_, ?_⟩
  · intro q
    by_cases hqp : q = p
    · rw [hqp, update_self]
      simp
    · rw [update_of_ne hqp, h.proc]
      simpa using Ne.symm hqp
  · rw [h.intr]
    simp
  · intro q hq
    exact absurd ((h.proc q).mp (h.inside q hq)) (by simp)
  · intro q hq
    have hout := h.idle q hq
    by_cases hqp : q = p
    · rw [hqp, hp] at hout
      cases hout
    · rw [update_of_ne hqp]
      exact hout

/-- The process with the lock goes on, and keeps it. -/
theorem Locking.stay (hp : place p = .locked) (hph : ph ≠ .idle) :
    Locking (update phase p ph) (update place p .locked) lock intr := by
  have hsame : update place p .locked = place := by
    rw [← hp]
    exact update_eq_self p place
  rw [hsame]
  refine ⟨h.proc, h.intr, ?_, ?_⟩
  · intro q hq
    by_cases hqp : q = p
    · rw [hqp]
      exact hp
    · rw [update_of_ne hqp] at hq
      exact h.inside q hq
  · intro q hq
    by_cases hqp : q = p
    · rw [hqp, update_self] at hq
      exact absurd hq hph
    · rw [update_of_ne hqp] at hq
      exact h.idle q hq

/-- The process with the lock lets go of it. -/
theorem Locking.release {pl : Place} (hp : place p = .locked) (hpl : pl ≠ .locked)
    (hph : ¬ ph.inside) (hidle : ph = .idle → pl = .out) :
    Locking (update phase p ph) (update place p pl) none intr := by
  have hlock := (h.proc p).mp hp
  refine ⟨?_, ?_, ?_, ?_⟩
  · intro q
    refine iff_of_false ?_ (by simp)
    by_cases hqp : q = p
    · rw [hqp, update_self]
      exact hpl
    · rw [update_of_ne hqp, h.proc, hlock]
      simpa using Ne.symm hqp
  · rw [h.intr, hlock]
    simp
  · intro q hq
    by_cases hqp : q = p
    · rw [hqp, update_self] at hq
      exact absurd hq hph
    · rw [update_of_ne hqp] at hq
      have := (h.proc q).mp (h.inside q hq)
      rw [hlock] at this
      cases this
      exact absurd rfl hqp
  · intro q hq
    by_cases hqp : q = p
    · rw [hqp, update_self] at hq ⊢
      exact hidle hq
    · rw [update_of_ne hqp] at hq ⊢
      exact h.idle q hq

end

end Parts

end Xv6.Virtio
