/-
  Vm/Grow.lean --- the routines of `vm.c` that make, grow, shrink, copy and free user
  memory, each said once of the list of pages.

  They either do what they are for or leave the list as it was: a routine that runs out of
  memory half way has given every page back.
-/
import Xv6.Vm.Space

set_option autoImplicit false

namespace Xv6.Vm

open Function List Foundation

variable {g g' : Nat → Role} {s s' : Phys} {ld : Linker} {r : Nat} {top : Nat → Option Nat}
  {pages : List UPage}

/-! ## Sizes -/

/-- The pages that `sz` bytes take. -/
def np (sz : Nat) : Nat := (sz + (PGSIZE - 1)) / PGSIZE

theorem np_page (k : Nat) : np (k * PGSIZE) = k := by
  rw [np, show PGSIZE = 4096 from rfl]
  omega

theorem np_mono {a b : Nat} (h : a ≤ b) : np a ≤ np b :=
  Nat.div_le_div_right (by omega)

theorem le_np (sz : Nat) : sz ≤ np sz * PGSIZE := by
  rw [np, show PGSIZE = 4096 from rfl]
  omega

theorem PGROUNDUP_eq {sz : Nat} (h : sz < 2 ^ 63) : PGROUNDUP sz = np sz * PGSIZE := by
  have hpg : PGSIZE = 4096 := rfl
  rw [PGROUNDUP, np, Nat.mod_eq_of_lt (by omega), Nat.add_sub_assoc (by decide)]

/-- A size whose pages are mapped is small. -/
theorem Space.size_lt (h : Space g s r top pages) (hpool : Pool ld g s) {sz : Nat}
    (hsz : np sz = pages.length) : sz ≤ 2 ^ 27 := by
  have hlen := h.length_le hpool
  have hle := le_np sz
  rw [hsz] at hle
  have hmul : pages.length * PGSIZE ≤ NPHYS * PGSIZE := Nat.mul_le_mul_right _ hlen
  exact le_trans hle (le_trans hmul (by decide))

theorem viaInt_of_lt {x : Nat} (h : x < 2 ^ 31) : viaInt x = x := by
  rw [viaInt]
  omega

/-! ## `uvmdealloc` and `uvmalloc` -/

theorem uvmdealloc_total (hpool : Pool ld g s) (h : Space g s r top pages) {oldsz newsz : Nat}
    (hsz : np oldsz = pages.length) :
    Total (uvmdealloc ld (r * PGSIZE) oldsz newsz) (fun res s' => res = min oldsz newsz ∧
      ∃ g', Worked ld r top (pages.take (np res)) g g' s s') s := by
  have hsmall := h.size_lt hpool hsz
  have hlen := h.length_le hpool
  have hNP : NPHYS = 32768 := rfl
  have hsame : ∀ sz, np sz = pages.length → pages.take (np sz) = pages := fun sz hnp =>
    take_of_length_le (le_of_eq hnp.symm)
  rw [uvmdealloc]
  by_cases hle : oldsz ≤ newsz
  · rw [if_pos hle]
    refine Total.pure ⟨(Nat.min_eq_left hle).symm, g, ?_⟩
    rw [hsame oldsz hsz]
    exact Worked.refl hpool h
  · rw [if_neg hle, PGROUNDUP_eq (by omega), PGROUNDUP_eq (by omega), hsz]
    have hmono : np newsz ≤ pages.length := hsz ▸ np_mono (by omega)
    have hmin : newsz = min oldsz newsz := (Nat.min_eq_right (by omega)).symm
    split
    · rename_i hlt
      have hcount : viaInt ((pages.length * PGSIZE - np newsz * PGSIZE) / PGSIZE)
          = pages.length - np newsz := by
        rw [← Nat.sub_mul, page_div, viaInt_of_lt (by omega)]
      simp only [hcount]
      refine Total.seq (uvmunmap_user hpool h (Nat.add_sub_cancel' hmono)) fun _ s' hworked => ?_
      exact Total.pure ⟨hmin, hworked⟩
    · rename_i hge
      have heq : np newsz = pages.length := by
        refine le_antisymm hmono (Nat.le_of_not_lt fun hlt => hge ?_)
        exact Nat.mul_lt_mul_of_pos_right hlt (by decide)
      refine Total.pure ⟨hmin, g, ?_⟩
      rw [hsame newsz heq]
      exact Worked.refl hpool h

/-- A page of zeros. -/
def zeroPage : UPage := ⟨fun _ => 0, true⟩

/-- `kalloc` fills a page with fives, `memset` with zeros. -/
theorem Phys.zeroed (s : Phys) (n b : Nat) (l : List Nat) :
    Phys.setPage ⟨update s.mem n fun _ => 5, l, b⟩ n (fun _ => 0) =
      s.withPage n b l fun _ => 0 := by
  rw [Phys.setPage, Phys.withPage, update_idem]

theorem uvmallocLoop_total (newsz k : Nat) : ∀ (j : Nat) (g : Nat → Role) (s : Phys),
    Pool ld g s → Space g s r top (pages ++ replicate j zeroPage) →
    Total (uvmallocLoop ld (r * PGSIZE)
      (pages.length * PGSIZE) newsz k ((pages.length + j) * PGSIZE))
      (fun res s' => ∃ g' pages', Worked ld r top pages' g g' s s' ∧
        (res = newsz ∧ pages' = pages ++ replicate (j + k) zeroPage ∨
          res = 0 ∧ pages' = pages)) s := by
  induction k with
  | zero =>
    intro j g s hpool h
    exact Total.pure ⟨g, _, Worked.refl hpool h, Or.inl ⟨rfl, rfl⟩⟩
  | succ k ih =>
    intro j g s hpool h
    have hlen : (pages ++ replicate j zeroPage).length = pages.length + j := by
      rw [length_append, length_replicate]
    -- giving back what was allocated so far
    have hundo : ∀ (g₁ : Nat → Role) (s₁ : Phys),
        Worked ld r top (pages ++ replicate j zeroPage) g g₁ s s₁ →
        Total (uvmdealloc ld (r * PGSIZE) ((pages.length + j) * PGSIZE) (pages.length * PGSIZE))
          (fun _ s' => ∃ g', Worked ld r top pages g g' s s') s₁ := by
      intro g₁ s₁ hworked
      have hsz : np ((pages.length + j) * PGSIZE)
          = (pages ++ replicate j zeroPage).length := by rw [np_page, hlen]
      refine (uvmdealloc_total hworked.pool hworked.space hsz).mono ?_
      rintro res s' ⟨hres, g', hworked'⟩
      have hmin : res = pages.length * PGSIZE := by
        rw [hres]
        exact Nat.min_eq_right (Nat.mul_le_mul_right _ (by omega))
      rw [hmin, np_page, take_left] at hworked'
      exact ⟨g', hworked.trans hworked'⟩
    rw [uvmallocLoop]
    refine Total.bind (kalloc_total ?_ fun n l b hfree => ?_)
    · refine Total.seq (hundo g s (Worked.refl hpool h)) fun _ s' hworked => ?_
      obtain ⟨g', hworked⟩ := hworked
      exact Total.pure ⟨g', pages, hworked, Or.inr ⟨rfl, rfl⟩⟩
    · have hmanaged : ld.Managed n := hpool.managed (hpool.tables.free_head hfree) (by simp)
      refine Total.bind (memset_total ?_)
      rw [s.zeroed, ← hlen]
      refine Total.seq (mappages_user hpool h hfree zeroPage (by decide) (by decide)) ?_
      intro ok s₁ hok
      cases ok with
      | true =>
        obtain ⟨g₁, hworked, -⟩ := hok
        have hsnoc : pages ++ replicate j zeroPage ++ [zeroPage]
            = pages ++ replicate (j + 1) zeroPage := by
          rw [append_assoc, ← replicate_succ']
        rw [hsnoc] at hworked
        rw [if_pos rfl, ← Nat.succ_mul, hlen]
        refine (ih (j + 1) g₁ s₁ hworked.pool hworked.space).mono ?_
        rintro res s' ⟨g', pages', hworked', hres⟩
        rw [show j + 1 + k = j + (k + 1) by omega] at hres
        exact ⟨g', pages', hworked.trans hworked', hres⟩
      | false =>
        obtain ⟨g₁, hworked⟩ := hok
        rw [if_neg (by simp), hlen]
        refine Total.bind (kfree_total hmanaged ?_)
        refine Total.seq (hundo g₁ _ hworked) fun _ s' hworked' => ?_
        obtain ⟨g', hworked'⟩ := hworked'
        exact Total.pure ⟨g', pages, hworked', Or.inr ⟨rfl, rfl⟩⟩

/-- `uvmalloc` adds zero pages up to the new size, or nothing. -/
theorem uvmalloc_total (hpool : Pool ld g s) (h : Space g s r top pages) {oldsz newsz : Nat}
    (hsz : np oldsz = pages.length) (hle : oldsz ≤ newsz) :
    Total (uvmalloc ld (r * PGSIZE) oldsz newsz) (fun res s' => ∃ g' pages',
      Worked ld r top pages' g g' s s' ∧
        (res = newsz ∧ pages' = pages ++ replicate (np newsz - pages.length) zeroPage ∨
          res = 0 ∧ pages' = pages)) s := by
  have hsmall := h.size_lt hpool hsz
  have hmono : pages.length ≤ np newsz := hsz ▸ np_mono hle
  have hcount : (newsz - pages.length * PGSIZE + (PGSIZE - 1)) / PGSIZE =
      np newsz - pages.length := by
    rw [np] at hmono ⊢
    rw [show PGSIZE = 4096 from rfl] at hmono ⊢
    omega
  rw [uvmalloc, if_neg (by omega), PGROUNDUP_eq (by omega), hsz]
  simp only [hcount]
  have hstart : Space g s r top (pages ++ replicate 0 zeroPage) := by
    rw [replicate_zero, append_nil]
    exact h
  have hloop := uvmallocLoop_total newsz (np newsz - pages.length) 0 g s hpool hstart
  rw [Nat.add_zero, Nat.zero_add] at hloop
  exact hloop

/-! ## `uvmclear` -/

theorem clearU_entry (u : UPage) (n : Nat) (hn : n < 2 ^ 52) :
    clearU (u.entry n) = { u with user := false }.entry n := by
  have hlt : u.entry n < 2 ^ 64 := by
    have hflags := u.flags_lt
    rw [UPage.entry]
    omega
  have hsmall : ∀ b : Bool, ∀ i < 10,
      ((if b then 31 else 15).testBit i && decide (i ≠ 4)) = Nat.testBit 15 i := by decide
  refine Nat.eq_of_testBit_eq fun i => ?_
  rw [testBit_clearU hlt, UPage.entry, UPage.entry, Nat.mul_comm n,
    Nat.testBit_two_pow_mul_add _ u.flags_lt, Nat.testBit_two_pow_mul_add _ (UPage.flags_lt _)]
  by_cases hi : i < 10
  · rw [if_pos hi, if_pos hi, u.flags_eq, UPage.flags_eq, hsmall u.user i hi]
    rfl
  · rw [if_neg hi, if_neg hi, decide_eq_true (by omega), Bool.and_true]

/-- A change of the entry or the contents of one page. -/
theorem Space.set (h : Space g s r top pages) {i n : Nat} {u u' : UPage}
    (hu : pages[i]? = some u) (hn : g n = .user r i) (hroot : g' r = .node r [])
    (hinner : Inner g' s'.mem r) (hrole : ∀ n i, g' n = .user r i ↔ g n = .user r i)
    (hmap : mapping s'.mem r = update (mapping s.mem r) i (some (u'.entry n)))
    (hdata : s'.mem n = u'.data)
    (hmem : ∀ m j, g m = .user r j → j ≠ i → s'.mem m = s.mem m) :
    Space g' s' r top (pages.set i u') := by
  have hi := (List.getElem?_eq_some_iff.mp hu).1
  have hentry : ∀ a b : UPage, ∀ m k : Nat, a.entry m = b.entry k → m = k := by
    intro a b m k hab
    have ha := a.flags_lt
    have hb := b.flags_lt
    rw [UPage.entry, UPage.entry] at hab
    omega
  -- the page at `i` is `n`
  have honly : ∀ m, g m = .user r i → m = n := by
    intro m hm
    obtain ⟨a, -, hma⟩ := h.only m i hm
    obtain ⟨b, -, hnb⟩ := h.only n i hn
    exact hentry a b m n (Option.some.inj (hma.symm.trans hnb))
  refine ⟨hroot, hinner, fun j v hv => ?_, fun m j hm => ?_, fun j hj => ?_, h.high⟩
  · by_cases hji : j = i
    · subst hji
      rw [getElem?_set_self hi] at hv
      obtain rfl := Option.some.inj hv
      exact ⟨n, by rw [hmap, update_self], (hrole n j).mpr hn, hdata⟩
    · rw [getElem?_set_ne (Ne.symm hji)] at hv
      obtain ⟨m, hm, hg, hd⟩ := h.user j v hv
      exact ⟨m, by rw [hmap, update_of_ne hji, hm], (hrole m j).mpr hg,
        (hmem m j hg hji).trans hd⟩
  · have hg := (hrole m j).mp hm
    by_cases hji : j = i
    · subst hji
      obtain rfl := honly m hg
      exact ⟨u', getElem?_set_self hi, by rw [hmap, update_self]⟩
    · obtain ⟨v, hv, hmv⟩ := h.only m j hg
      exact ⟨v, by rw [getElem?_set_ne (Ne.symm hji), hv],
        by rw [hmap, update_of_ne hji, hmv]⟩
  · rw [length_set] at hj
    rw [hmap, update_of_ne (by omega), h.rest j hj]

theorem uvmclear_user (hpool : Pool ld g s) (h : Space g s r top pages) {i : Nat} {u : UPage}
    (hu : pages[i]? = some u) :
    Total (uvmclear (r * PGSIZE) (i * PGSIZE)) (fun _ s' =>
      ∃ g', Worked ld r top (pages.set i { u with user := false }) g g' s s') s := by
  have hi := (List.getElem?_eq_some_iff.mp hu).1
  obtain ⟨n, hm, hn, hdata⟩ := h.user i u hu
  have hmax : i < MAXVA / PGSIZE := lt_trans (lt_trans hi (h.length_lt_TOPV hpool)) (by decide)
  have hsmall := (hpool.managed hn (by simp)).small
  refine (uvmclear_total hpool.tables h.root hmax hm).mono ?_
  rintro _ s' ⟨hmap, -⟩
  have hchange := hmap.change.mono fun _ => InTable.inSpace
  have hkeep : ∀ m j, g m = .user r j → s'.mem m = s.mem m := by
    intro m j hmj
    refine (hmap.change.keep m ?_).2
    rw [hmj]
    exact not_inTable_user
  refine ⟨g, hpool.change hmap.tables hchange fun _ _ _ => h.root, hchange,
    h.set hu hn h.root (hmap.inner r h.inner) (fun _ _ => Iff.rfl) ?_ ?_ ?_⟩
  · rw [hmap.map, clearU_entry u n hsmall]
  · exact (hkeep n i hn).trans hdata
  · exact fun m j hmj _ => hkeep m j hmj

/-! ## `uvmcopy` -/

/-- `uvmunmap` of all user memory. -/
theorem uvmunmap_all (hpool : Pool ld g s) (h : Space g s r top pages) :
    Total (uvmunmap ld (r * PGSIZE) 0 pages.length true)
      (fun _ s' => ∃ g', Worked ld r top [] g g' s s') s := by
  have hunmap := uvmunmap_user (v := 0) hpool h (Nat.zero_add _)
  rw [Nat.zero_mul, take_zero] at hunmap
  exact hunmap

theorem UPage.flags_or (u : UPage) : u.flags ||| PTE_V = u.flags := by
  rw [u.flags_eq]
  cases u.user <;> rfl

variable {top' : Nat → Option Nat}

theorem uvmcopyLoop_total {r' : Nat} (hne : r ≠ r') (k : Nat) :
    ∀ (j : Nat) (g : Nat → Role) (s : Phys), j + k = pages.length → Pool ld g s →
      Space g s r top pages → Space g s r' top' (pages.take j) →
      Total (uvmcopyLoop ld (r * PGSIZE) (r' * PGSIZE) k (j * PGSIZE)) (fun ok s' =>
        ∃ g', Worked ld r' top' (if ok then pages else []) g g' s s') s := by
  induction k with
  | zero =>
    intro j g s hj hpool _ hnew
    rw [take_of_length_le (by omega)] at hnew
    exact Total.pure ⟨g, Worked.refl hpool hnew⟩
  | succ k ih =>
    intro j g s hj hpool hold hnew
    have hjlt : j < pages.length := by omega
    have hlen : (pages.take j).length = j := by
      rw [length_take]
      omega
    have hu := getElem?_eq_getElem hjlt
    obtain ⟨n, hmap, hn, hdata⟩ := hold.user j _ hu
    have hmax : j < MAXVA / PGSIZE :=
      lt_trans (lt_trans hjlt (hold.length_lt_TOPV hpool)) (by decide)
    have hsmall := (hpool.managed hn (by simp)).small
    -- giving back what was copied so far
    have hundo : ∀ (g₁ : Nat → Role) (s₁ : Phys), Worked ld r' top' (pages.take j) g g₁ s s₁ →
        Total (uvmunmap ld (r' * PGSIZE) 0 j true)
          (fun _ s' => ∃ g', Worked ld r' top' [] g g' s s') s₁ := by
      intro g₁ s₁ hworked
      have hunmap := uvmunmap_all hworked.pool hworked.space
      rw [hlen] at hunmap
      refine hunmap.mono ?_
      rintro _ s' ⟨g', hworked'⟩
      exact ⟨g', hworked.trans hworked'⟩
    rw [uvmcopyLoop]
    refine Total.seq (walk_mapped hpool.tables hold.root hmax hmap) ?_
    rintro res s₁ ⟨rfl, m, -, hword, rfl⟩
    refine Total.bind (load_total (mod512 j) ?_)
    rw [hword, if_neg (mapping_valid hmap), UPage.entry_page _ hsmall, UPage.entry_flags, page_div]
    refine Total.bind (kalloc_total ?_ fun x l b hfree => ?_)
    · refine Total.seq (hundo g s₁ (Worked.refl hpool hnew)) fun _ s' hworked => ?_
      exact Total.pure hworked
    · have hx := hpool.tables.free_head hfree
      have hnx : n ≠ x := by
        rintro rfl
        cases hx.symm.trans hn
      have hmanaged : ld.Managed x := hpool.managed hx (by simp)
      refine Total.bind (Total.modify ?_)
      have hmem : Phys.setPage ⟨update s₁.mem x fun _ => 5, l, b⟩ (x * PGSIZE / PGSIZE)
          (update s₁.mem x (fun _ => 5) (n * PGSIZE / PGSIZE))
          = s₁.withPage x b l pages[j].data := by
        rw [page_div, page_div, update_of_ne hnx, hdata, Phys.setPage, Phys.withPage, update_idem]
      rw [hmem]
      have hmapped := mappages_user (b := b) hpool hnew hfree pages[j] pages[j].flags_lt
        pages[j].flags_or
      rw [hlen] at hmapped
      refine Total.seq hmapped ?_
      intro ok s₂ hok
      cases ok with
      | true =>
        obtain ⟨g₂, hworked, -⟩ := hok
        rw [take_append_getElem hjlt] at hworked
        rw [if_pos rfl, ← Nat.succ_mul]
        refine (ih (j + 1) g₂ s₂ (by omega) hworked.pool
          (hold.frame_of_ne hpool.tables hne hworked.change) hworked.space).mono ?_
        rintro ok s' ⟨g', hworked'⟩
        exact ⟨g', hworked.trans hworked'⟩
      | false =>
        obtain ⟨g₂, hworked⟩ := hok
        rw [if_neg (by simp)]
        refine Total.bind (kfree_total hmanaged ?_)
        refine Total.seq (hundo g₂ _ hworked) fun _ s' hworked' => ?_
        exact Total.pure hworked'

/-- `uvmcopy` gives the child all pages of the parent, or none. -/
theorem uvmcopy_total {r' sz : Nat} (hne : r ≠ r') (hpool : Pool ld g s)
    (hold : Space g s r top pages) (hnew : Space g s r' top' []) (hsz : np sz = pages.length) :
    Total (uvmcopy ld (r * PGSIZE) (r' * PGSIZE) sz) (fun ok s' =>
      ∃ g', Worked ld r' top' (if ok then pages else []) g g' s s') s := by
  have hloop := uvmcopyLoop_total hne pages.length 0 g s (Nat.zero_add _) hpool hold
    (by rw [take_zero]; exact hnew)
  rw [Nat.zero_mul] at hloop
  rw [uvmcopy, show (sz + (PGSIZE - 1)) / PGSIZE = pages.length from hsz]
  exact hloop

/-! ## Making and freeing page tables -/

/-- The free page `n` becomes the root of an empty page table. -/
theorem Tables.newRoot (h : Tables g s) {n b : Nat} {l : List Nat} (hfree : s.free = n :: l) :
    Tables (update g n (.node n [])) (s.withPage n b l fun _ => 0) ∧
      ∀ v, mapping (s.withPage n b l fun _ => 0).mem n v = none := by
  have hn := h.free_head hfree
  -- nothing is below the new root
  have hnode : ∀ i p, Vm.node (s.withPage n b l fun _ => 0).mem (i :: p) n = none := by
    intro i p
    rw [Vm.node, descend, show word (s.withPage n b l fun _ => 0).mem n i = 0 from word_fill _ n i,
      child_zero]
    rfl
  have hforeign : ∀ r, g r = .node r [] → ∀ p : List Nat, p.length ≤ 2 →
      Vm.node (s.withPage n b l fun _ => 0).mem p r = Vm.node s.mem p r := by
    intro r hr p hp
    refine h.node_congr hr (fun x q j hx _ => word_update_ne ?_ _ _) hp
    rintro rfl
    cases hn.symm.trans hx
  obtain ⟨hnodup, hrest, hsmall⟩ := h.free_tail hfree (ρ := .node n []) (by simp)
  refine ⟨⟨hnodup, hrest, hsmall, fun x r p => ?_⟩, fun v => mapping_of_no_node (hnode _ _)⟩
  by_cases hr : r = n
  · subst hr
    rw [update_self]
    constructor
    · intro hx
      have hxr : x = r := by
        by_contra hxr
        rw [update_of_ne hxr] at hx
        cases hn.symm.trans (h.root_of hx)
      subst hxr
      rw [update_self] at hx
      obtain rfl := (Role.node.inj hx).2
      exact ⟨by simp, rfl, rfl⟩
    · rintro ⟨-, -, hx⟩
      cases p with
      | nil =>
        obtain rfl := Option.some.inj hx
        exact update_self ..
      | cons i p => cases (hnode i p).symm.trans hx
  · rw [update_of_ne hr]
    by_cases hx : x = n
    · subst hx
      rw [update_self]
      refine iff_of_false (fun heq => hr (Role.node.inj heq).1.symm) ?_
      rintro ⟨hp, hg, hx⟩
      rw [hforeign r hg p hp] at hx
      cases (h.role_of hg hp hx).symm.trans hn
    · rw [update_of_ne hx, h.node]
      exact and_congr_right fun hp => and_congr_right fun hg => by rw [hforeign r hg p hp]

/-- `uvmcreate` makes an empty address space. -/
theorem uvmcreate_total (hpool : Pool ld g s) :
    Total uvmcreate (fun res s' => (res = none ∧ s' = s) ∨
      ∃ n g', res = some (n * PGSIZE) ∧ g n = .free ∧
        Worked ld n (fun _ => none) [] g g' s s') s := by
  rw [uvmcreate]
  refine Total.bind (kalloc_total (Total.pure (Or.inl ⟨rfl, rfl⟩)) fun n l b hfree => ?_)
  have hn := hpool.tables.free_head hfree
  refine Total.bind (memset_total (Total.pure (Or.inr ⟨n, update g n (.node n []), rfl, hn, ?_⟩)))
  rw [s.zeroed]
  obtain ⟨htables, hnone⟩ := hpool.tables.newRoot (b := b) hfree
  have hchange : Change (InSpace n) g (update g n (.node n [])) s
      (s.withPage n b l fun _ => 0) :=
    Change.update (Or.inl (Or.inl hn)) (Or.inl (Or.inr ⟨[], rfl⟩)) fun x hx _ => update_of_ne hx _ _
  -- no page had the new table for its own
  have huser : ∀ x i, update g n (.node n []) x ≠ .user n i := by
    intro x i heq
    by_cases hx : x = n
    · subst hx
      rw [update_self] at heq
      cases heq
    · rw [update_of_ne hx] at heq
      cases hn.symm.trans (hpool.owner x n i heq)
  refine ⟨hpool.change htables hchange fun x i hx => absurd hx (huser x i), hchange,
    update_self .., fun x p i hx _ hV => ?_, fun i u hu => ?_,
    fun x i hx => absurd hx (huser x i), fun i _ => hnone i, fun i pte hpte => ?_⟩
  · have hxn : x = n := by
      by_contra hxn
      rw [update_of_ne hxn] at hx
      cases hn.symm.trans (hpool.tables.root_of hx)
    subst hxn
    exact absurd
      (by rw [show word (s.withPage x b l fun _ => 0).mem x i = 0 from word_fill _ x i]; rfl) hV
  · cases hu
  · cases hpte

end Xv6.Vm
