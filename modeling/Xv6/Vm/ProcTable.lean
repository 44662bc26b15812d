/-
  Vm/ProcTable.lean --- page tables of processes: made, and freed with all they map.

  `procTop` is what every process has above its user memory.  `proc_pagetable` gives an
  address space with that and no user memory, or leaves only free pages behind;
  `proc_freepagetable` leaves nothing of an address space.
-/
import Xv6.Vm.Exec
import Xv6.Vm.Grow

set_option autoImplicit false

namespace Xv6.Vm

open Function Foundation

variable {g g' g'' : Nat → Role} {s s' s'' : Phys} {ld : Linker} {r : Nat}
  {top top' : Nat → Option Nat} {pages : List UPage}

/-! ## Above user memory -/

/-- The trapframe page `tf` below the trampoline, and no `PTE_U`. -/
def procTop (ld : Linker) (tf i : Nat) : Option Nat :=
  if i = TOPV then some (leafEntry (tf * PGSIZE) (PTE_R ||| PTE_W) 0)
  else if i = TOPV + 1 then some (leafEntry ld.trampoline (PTE_R ||| PTE_X) 0)
  else none

theorem leafEntry_flags (pa : Nat) {perm : Nat} (hperm : perm < 2 ^ 10) :
    PTE_FLAGS (leafEntry pa perm 0) = perm ||| PTE_V ∧
      leafEntry pa perm 0 &&& PTE_U = (perm ||| PTE_V) &&& PTE_U := by
  have hflags : perm ||| PTE_V < 2 ^ 10 := Nat.or_lt_two_pow hperm (by decide)
  rw [leafEntry, Nat.or_assoc, PA2PTE_or hflags, PTE_FLAGS_eq, and_PTE_U hflags]
  exact ⟨by omega, rfl⟩

/-- All of it is leaves that user code cannot access. -/
theorem procTop_leaf {tf i pte : Nat} (h : procTop ld tf i = some pte) :
    TOPV ≤ i ∧ pte &&& PTE_U = 0 ∧ PTE_FLAGS pte ≠ PTE_V := by
  rw [procTop] at h
  split at h
  · obtain ⟨hflags, huser⟩ :=
      leafEntry_flags (tf * PGSIZE) (show PTE_R ||| PTE_W < 2 ^ 10 by decide)
    rw [← Option.some.inj h, huser, hflags]
    exact ⟨by omega, by decide, by decide⟩
  · split at h
    · obtain ⟨hflags, huser⟩ :=
        leafEntry_flags ld.trampoline (show PTE_R ||| PTE_X < 2 ^ 10 by decide)
      rw [← Option.some.inj h, huser, hflags]
      exact ⟨by omega, by decide, by decide⟩
    · cases h

/-- Entries above user memory change. -/
theorem Space.retop (hpool : Pool ld g s) (h : Space g s r top pages) {m : Nat → Option Nat}
    (hmap : Remapped (InTable r) r m g g' s s') (hlow : ∀ i < TOPV, m i = mapping s.mem r i)
    (hrest : ∀ i, TOPV ≤ i → m i = top' i)
    (hhigh : ∀ i pte, top' i = some pte → TOPV ≤ i ∧ pte &&& PTE_U = 0) :
    Worked ld r top' pages g g' s s' := by
  have hlen := h.length_lt_TOPV hpool
  have hchange : Change (InSpace r) g g' s s' := hmap.change.mono fun _ => InTable.inSpace
  have hroot := hmap.nodes r [] h.root
  have hnot : ∀ i, ¬ InTable r (.user r i) := by
    rintro i (hfree | ⟨p, hp⟩)
    · cases hfree
    · cases hp
  refine ⟨hpool.change hmap.tables hchange fun _ _ _ => hroot, hchange, hroot,
    hmap.inner r h.inner, fun i u hu => ?_, fun n i hn => ?_, fun i hi => ?_, hhigh⟩
  · have hi := (List.getElem?_eq_some_iff.mp hu).1
    obtain ⟨n, hm, hn, hdata⟩ := h.user i u hu
    obtain ⟨hg, hs⟩ := hmap.change.keep n (by rw [hn]; exact hnot i)
    exact ⟨n, by rw [hmap.map, hlow i (by omega), hm], hg.trans hn, hs.trans hdata⟩
  · have hold : g n = .user r i := by
      have hX : ¬ InTable r (g n) := fun hX => hnot i (hn ▸ hmap.change.stay n hX)
      rw [← (hmap.change.keep n hX).1, hn]
    obtain ⟨u, hu, hm⟩ := h.only n i hold
    have hi := (List.getElem?_eq_some_iff.mp hu).1
    exact ⟨u, hu, by rw [hmap.map, hlow i (by omega), hm]⟩
  · rw [hmap.map]
    by_cases hi' : i < TOPV
    · have hnone : top' i = none := by
        cases hpte : top' i with
        | none => rfl
        | some pte => exact absurd (hhigh i pte hpte).1 (by omega)
      rw [hlow i hi', h.rest i hi, h.top_none hi', hnone]
    · exact hrest i (by omega)

/-! ## Freeing -/

/-- Nothing is left of the address space of `r`. -/
structure Gone (ld : Linker) (r : Nat) (g g' : Nat → Role) (s s' : Phys) : Prop where
  pool : Pool ld g' s'
  change : Change (InSpace r) g g' s s'
  gone : ∀ n, InSpace r (g' n) → g' n = .free

theorem Gone.of_worked (h : Worked ld r top pages g g' s s') (h' : Gone ld r g' g'' s' s'') :
    Gone ld r g g'' s s'' :=
  ⟨h'.pool, h.change.trans h'.change, h'.gone⟩

/-- An address space made since `g` and freed again has only cost free pages. -/
theorem Gone.change_free (h : Gone ld r g g' s s') (hpool : Pool ld g s) (hr : g r = .free) :
    Change (· = .free) g g' s s' := by
  refine ⟨fun n hn => h.change.keep n ?_, fun n hn => h.gone n (h.change.stay n ?_)⟩
  · rintro ((hfree | ⟨p, hp⟩) | ⟨w, hw⟩)
    · exact hn hfree
    · cases hr.symm.trans (hpool.tables.root_of hp)
    · cases hr.symm.trans (hpool.owner n r w hw)
  · exact Or.inl (Or.inl hn)

section

variable (hpool : Pool ld g s)

include hpool

theorem freewalk_gone (h : Space g s r top []) (htop : ∀ i, top i = none) :
    Total (freewalk ld 3 (r * PGSIZE)) (fun _ s' => ∃ g', Gone ld r g g' s s') s := by
  have hnone : ∀ i, mapping s.mem r i = none := fun i => (h.rest i (Nat.zero_le i)).trans (htop i)
  refine (freewalk_total hpool.tables h.root h.inner hnone fun n p hn =>
    hpool.managed hn (by simp)).mono ?_
  rintro _ s' ⟨htables, hchange⟩
  have huser : ∀ n i, cleared g r n ≠ .user r i := by
    intro n i hn
    have hold : g n = .user r i := by
      by_cases hnode : ∃ p, g n = .node r p
      · obtain ⟨p, hp⟩ := hnode
        cases (cleared_node hp).symm.trans hn
      · rw [← cleared_of_ne fun p hp => hnode ⟨p, hp⟩, hn]
    obtain ⟨u, hu, -⟩ := h.only n i hold
    cases hu
  have hchange' : Change (InSpace r) g (cleared g r) s s' := hchange.mono fun _ => InTable.inSpace
  refine ⟨cleared g r,
    hpool.change htables hchange' fun n i hn => absurd hn (huser n i), hchange', ?_⟩
  rintro n ((hfree | ⟨p, hp⟩) | ⟨w, hw⟩)
  · exact hfree
  · -- pages of the table have been cleared
    by_cases hnode : ∃ q, g n = .node r q
    · exact cleared_node hnode.choose_spec
    · rw [cleared_of_ne fun q hq => hnode ⟨q, hq⟩] at hp
      exact absurd ⟨p, hp⟩ hnode
  · exact absurd hw (huser n w)

theorem uvmfree_total (h : Space g s r top pages) (htop : ∀ i, top i = none) {sz : Nat}
    (hsz : np sz = pages.length) :
    Total (uvmfree ld (r * PGSIZE) sz) (fun _ s' => ∃ g', Gone ld r g g' s s') s := by
  have hunmap : Total (if 0 < sz then uvmunmap ld (r * PGSIZE) 0 (PGROUNDUP sz / PGSIZE) true
      else pure ()) (fun _ s' => ∃ g', Worked ld r top [] g g' s s') s := by
    have hsmall := h.size_lt hpool hsz
    by_cases hpos : 0 < sz
    · rw [if_pos hpos, PGROUNDUP_eq (by omega), Nat.mul_div_cancel _ (by decide), hsz]
      exact uvmunmap_all hpool h
    · rw [if_neg hpos]
      obtain rfl : sz = 0 := by omega
      obtain rfl := List.eq_nil_of_length_eq_zero (hsz.symm.trans (by decide))
      exact Total.pure ⟨g, Worked.refl hpool h⟩
  rw [uvmfree]
  refine Total.seq hunmap ?_
  rintro _ s₁ ⟨g₁, hworked⟩
  refine (freewalk_gone hworked.pool hworked.space htop).mono ?_
  rintro _ s' ⟨g', hgone⟩
  exact ⟨g', hgone.of_worked hworked⟩

/-- One entry above user memory is removed. -/
theorem uvmunmap_top (h : Space g s r top pages) {v pte : Nat} (hv : TOPV ≤ v ∧ v < MAXVA / PGSIZE)
    (hpte : top v = some pte) (hleaf : PTE_FLAGS pte ≠ PTE_V) :
    Total (uvmunmap ld (r * PGSIZE) (v * PGSIZE) 1 false)
      (fun _ s' => Worked ld r (update top v none) pages g g s s') s := by
  have hlen := h.length_lt_TOPV hpool
  refine (uvmunmap_keep hpool.tables h.root (by omega) fun w hw hw' => ?_).mono ?_
  · obtain rfl : w = v := by omega
    exact ⟨pte, (h.rest w (by omega)).trans hpte, hleaf⟩
  · rintro _ s' ⟨hmap, -⟩
    refine h.retop hpool hmap (fun i hi => if_neg (by omega)) (fun i hi => ?_) fun i pte' hi => ?_
    · rw [dropEntries]
      by_cases hiv : i = v
      · subst hiv
        rw [if_pos (by omega), update_self]
      · rw [if_neg (by omega), update_of_ne hiv, h.rest i (by omega)]
    · by_cases hiv : i = v
      · subst hiv
        rw [update_self] at hi
        cases hi
      · rw [update_of_ne hiv] at hi
        exact h.high i pte' hi

theorem procFreepagetable_total {tf sz : Nat} (h : Space g s r (procTop ld tf) pages)
    (hsz : np sz = pages.length) :
    Total (procFreepagetable ld (r * PGSIZE) sz) (fun _ s' => ∃ g', Gone ld r g g' s s') s := by
  have htrampoline : procTop ld tf (TOPV + 1) =
      some (leafEntry ld.trampoline (PTE_R ||| PTE_X) 0) :=
    (if_neg (by omega)).trans (if_pos rfl)
  have htrapframe : update (procTop ld tf) (TOPV + 1) none TOPV
      = some (leafEntry (tf * PGSIZE) (PTE_R ||| PTE_W) 0) := by
    rw [update_of_ne (by omega)]
    exact if_pos rfl
  have hframe : procTop ld tf TOPV =
    some (leafEntry (tf * PGSIZE) (PTE_R ||| PTE_W) 0) := if_pos rfl
  rw [procFreepagetable]
  refine Total.seq (uvmunmap_top (v := TOPV + 1) hpool h (by decide) htrampoline
    (procTop_leaf htrampoline).2.2) ?_
  intro _ s₁ hfirst
  refine Total.seq (uvmunmap_top (v := TOPV) hfirst.pool hfirst.space (by decide) htrapframe
    (procTop_leaf hframe).2.2) ?_
  intro _ s₂ hsecond
  refine (uvmfree_total hsecond.pool hsecond.space (fun i => ?_) hsz).mono ?_
  · by_cases hi : i = TOPV
    · rw [hi, update_self]
    · rw [update_of_ne hi]
      by_cases hi' : i = TOPV + 1
      · rw [hi', update_self]
      · rw [update_of_ne hi', procTop, if_neg hi, if_neg hi']
  · rintro _ s' ⟨g', hgone⟩
    exact ⟨g', hgone.of_worked (hfirst.trans hsecond)⟩

/-! ## Making -/

/-- One entry above user memory is added, or memory has run out. -/
theorem mappages_top (h : Space g s r top pages) {v pa perm : Nat}
    (hv : TOPV ≤ v ∧ v < MAXVA / PGSIZE) (hnone : top v = none) (hpa : pa < 2 ^ 64)
    (hperm : perm < 2 ^ 10) (huser : (perm ||| PTE_V) &&& PTE_U = 0) :
    Total (mappages (r * PGSIZE) (v * PGSIZE) PGSIZE pa perm) (fun ok s' => ∃ g',
      Worked ld r (if ok then update top v (some (leafEntry pa perm 0)) else top) pages
        g g' s s') s := by
  have hlen := h.length_lt_TOPV hpool
  have hmax : v * PGSIZE + PGSIZE ≤ MAXVA := by
    have hle := Nat.mul_le_mul_right PGSIZE (Nat.succ_le_of_lt hv.2)
    rw [Nat.succ_mul] at hle
    exact le_trans hle (by decide)
  have hfirst : v * PGSIZE / PGSIZE = v := Nat.mul_div_cancel v (by decide)
  have hlast : (v * PGSIZE + PGSIZE - 1) / PGSIZE = v := by
    rw [show PGSIZE = 4096 from rfl]
    omega
  have hmapped := mappages_total hpool.tables h.root (show 0 < PGSIZE by decide) hmax hpa
    (lt_trans hperm (by decide)) (fun w hw hw' => by
      rw [hfirst] at hw
      rw [hlast] at hw'
      obtain rfl : w = v := by omega
      exact (h.rest w (by omega)).trans hnone)
  refine hmapped.mono ?_
  rintro ok s' ⟨g', j, hj, hok, hmap⟩
  rw [hfirst, hlast] at hj hok
  rw [hfirst] at hmap
  refine ⟨g',
    h.retop hpool hmap (fun i hi => if_neg (by omega)) (fun i hi => ?_) fun i pte hi => ?_⟩
  · rw [addEntries]
    cases ok with
    | true =>
      have hj1 : j = 1 := by
        have := hok.mp rfl
        omega
      by_cases hiv : i = v
      · subst hiv
        rw [if_pos (by omega), if_pos rfl, update_self, Nat.sub_self]
      · rw [if_neg (by omega), if_pos rfl, update_of_ne hiv, h.rest i (by omega)]
    | false =>
      have hj0 : j = 0 := by
        have : ¬ j = v + 1 - v := fun hj1 => by cases hok.mpr hj1
        omega
      rw [if_neg (by omega), h.rest i (by omega)]
      rfl
  · cases ok with
    | false => exact h.high i pte hi
    | true =>
      rw [if_pos rfl] at hi
      by_cases hiv : i = v
      · subst hiv
        rw [update_self] at hi
        rw [← Option.some.inj hi, (leafEntry_flags _ hperm).2]
        exact ⟨hv.1, huser⟩
      · rw [update_of_ne hiv] at hi
        exact h.high i pte hi

/-- A page table with the trampoline and the trapframe; or memory has run out, and what was
allocated is free again. -/
theorem procPagetable_total {tf : Nat} (htf : tf * PGSIZE < 2 ^ 64) :
    Total (procPagetable ld (tf * PGSIZE)) (fun res s' =>
      (res = none ∧ ∃ g', Pool ld g' s' ∧ Change (· = .free) g g' s s') ∨
      ∃ n g', res = some (n * PGSIZE) ∧ g n = .free ∧
        Worked ld n (procTop ld tf) [] g g' s s') s := by
  have htramp : ld.trampoline < 2 ^ 64 := by
    have := ld.text
    have := ld.fits
    have hstop : PHYSTOP = 2281701376 := rfl
    omega
  rw [procPagetable]
  refine Total.seq (uvmcreate_total hpool) ?_
  rintro _ s₁ (⟨rfl, rfl⟩ | ⟨n, g₁, rfl, hn, hempty⟩)
  · exact Total.pure (Or.inl ⟨rfl, g, hpool, Change.refl _ g s₁⟩)
  refine Total.seq (mappages_top (v := TOPV + 1) hempty.pool hempty.space (by decide) rfl htramp
    (show PTE_R ||| PTE_X < 2 ^ 10 by decide) (by decide)) ?_
  rintro ok s₂ ⟨g₂, hfirst⟩
  cases ok with
  | false =>
    refine Total.seq (uvmfree_total hfirst.pool hfirst.space (fun _ => rfl) (by decide)) ?_
    rintro _ s₃ ⟨g₃, hgone⟩
    have hall := hgone.of_worked (hempty.trans hfirst)
    exact Total.pure (Or.inl ⟨rfl, g₃, hall.pool, hall.change_free hpool hn⟩)
  | true =>
    rw [if_pos rfl] at hfirst
    refine Total.seq (mappages_top (v := TOPV) hfirst.pool hfirst.space (by decide) ?_ htf
      (show PTE_R ||| PTE_W < 2 ^ 10 by decide) (by decide)) ?_
    · rw [update_of_ne (by omega)]
    rintro ok s₃ ⟨g₃, hsecond⟩
    cases ok with
    | false =>
      rw [if_neg (by decide)] at hsecond
      have htrampoline : procTop ld tf (TOPV + 1) =
          some (leafEntry ld.trampoline (PTE_R ||| PTE_X) 0) :=
            (if_neg (by omega)).trans (if_pos rfl)
      refine Total.seq (uvmunmap_top (v := TOPV + 1) hsecond.pool hsecond.space (by decide)
        (update_self ..) (procTop_leaf htrampoline).2.2) ?_
      intro _ s₄ hthird
      refine Total.seq (uvmfree_total hthird.pool hthird.space (fun i => ?_) (by decide)) ?_
      · by_cases hi : i = TOPV + 1
        · rw [hi, update_self]
        · rw [update_of_ne hi]
          exact update_of_ne hi _ _
      rintro _ s₅ ⟨g₅, hgone⟩
      have hall := hgone.of_worked (((hempty.trans hfirst).trans hsecond).trans hthird)
      exact Total.pure (Or.inl ⟨rfl, g₅, hall.pool, hall.change_free hpool hn⟩)
    | true =>
      refine Total.pure (Or.inr ⟨n, g₃, rfl, hn, ?_⟩)
      have htop : procTop ld tf = update (update (fun _ => none) (TOPV + 1)
          (some (leafEntry ld.trampoline (PTE_R ||| PTE_X) 0))) TOPV
          (some (leafEntry (tf * PGSIZE) (PTE_R ||| PTE_W) 0)) := by
        funext i
        rw [procTop, update_apply, update_apply]
      rw [if_pos rfl, ← htop] at hsecond
      exact (hempty.trans hfirst).trans hsecond

end

end Xv6.Vm
