/-
  Vm/Space.lean --- the address space of a process, and how it grows and shrinks.

  The memory of a user process is a list of pages: page `i` is what the page table maps
  virtual page `i` to.  `Space` says that a page table maps a list of pages, and above it
  what `top` says, and nothing else.  The pages a table maps are its own, so all that
  other routines may do to other roles leaves them alone (`Space.frame`).
-/
import Xv6.Vm.Free

set_option autoImplicit false

namespace Xv6.Vm

open Function List Foundation

variable {g g' g'' : Nat → Role} {s s' s'' : Phys} {ld : Linker}

/-! ## Pages of user memory -/

structure UPage where
  data : Page
  /-- may user code access it?  Not the page below the stack. -/
  user : Bool

/-- The permissions of its entry. -/
def UPage.flags (u : UPage) : Nat :=
  (if u.user then PTE_U else 0) ||| PTE_X ||| PTE_W ||| PTE_R ||| PTE_V

theorem UPage.flags_eq (u : UPage) : u.flags = if u.user then 31 else 15 := by
  rw [flags]
  cases u.user <;> rfl

theorem UPage.flags_lt (u : UPage) : u.flags < 2 ^ 10 := by
  rw [u.flags_eq]
  split <;> omega

/-- The entry for a user page in the physical page `n`. -/
def UPage.entry (u : UPage) (n : Nat) : Nat := n * 2 ^ 10 + u.flags

variable {n : Nat}

theorem UPage.entry_page (u : UPage) (hn : n < 2 ^ 52) : PTE2PA (u.entry n) = n * PGSIZE :=
  PTE2PA_of hn u.flags_lt

theorem UPage.entry_flags (u : UPage) (n : Nat) : PTE_FLAGS (u.entry n) = u.flags := by
  have hlt := u.flags_lt
  rw [PTE_FLAGS_eq, entry]
  omega

/-- It is a leaf. -/
theorem UPage.entry_leaf (u : UPage) (n : Nat) : PTE_FLAGS (u.entry n) ≠ PTE_V := by
  rw [u.entry_flags, u.flags_eq]
  split <;> decide

/-- Permissions do not depend on the page. -/
theorem and_flags {n f mask : Nat} (hf : f < 2 ^ 10) (hmask : mask < 2 ^ 10) :
    (n * 2 ^ 10 + f) &&& mask = f &&& mask := by
  have hmod : ∀ x : Nat, x &&& mask = (x % 2 ^ 10) &&& mask := by
    intro x
    have hand : (x &&& mask) % 2 ^ 10 = (x % 2 ^ 10) &&& (mask % 2 ^ 10) := Nat.and_mod_two_pow
    rw [Nat.mod_eq_of_lt (Nat.and_lt_two_pow x hmask), Nat.mod_eq_of_lt hmask] at hand
    exact hand
  rw [hmod, show (n * 2 ^ 10 + f) % 2 ^ 10 = f by omega]

theorem and_PTE_U {n f : Nat} (hf : f < 2 ^ 10) : (n * 2 ^ 10 + f) &&& PTE_U = f &&& PTE_U :=
  and_flags hf (by decide)

theorem UPage.entry_user (u : UPage) (n : Nat) : u.entry n &&& PTE_U = 0 ↔ u.user = false := by
  rw [entry, and_PTE_U u.flags_lt, u.flags_eq]
  cases u.user <;> decide

/-- The first virtual page above user memory. -/
def TOPV : Nat := TRAPFRAME / PGSIZE

/-- The physical pages there are. -/
def NPHYS : Nat := (PHYSTOP - KERNBASE) / PGSIZE

/-! ## Roles of all pages -/

/-- The free pages and those of the address space of `r`. -/
def InSpace (r : Nat) (ρ : Role) : Prop := InTable r ρ ∨ ∃ w, ρ = .user r w

theorem not_inSpace_outside (r : Nat) : ¬ InSpace r .outside := by
  rintro ((h | ⟨p, h⟩) | ⟨w, h⟩) <;> cases h

theorem inSpace_node {r r' : Nat} {path : List Nat} : InSpace r (.node r' path) ↔ r' = r := by
  refine ⟨?_, fun h => h ▸ Or.inl (Or.inr ⟨path, rfl⟩)⟩
  rintro ((h | ⟨p, h⟩) | ⟨w, h⟩)
  · cases h
  · exact (Role.node.inj h).1
  · cases h

theorem inSpace_user {r r' i : Nat} : InSpace r (.user r' i) ↔ r' = r := by
  refine ⟨?_, fun h => h ▸ Or.inr ⟨i, rfl⟩⟩
  rintro ((h | ⟨p, h⟩) | ⟨w, h⟩)
  · cases h
  · cases h
  · exact (Role.user.inj h).1

/-- The roles are true, the pages with a role are those `kalloc` gives out, and user pages
are the pages of a page table. -/
structure Pool (ld : Linker) (g : Nat → Role) (s : Phys) : Prop where
  tables : Tables g s
  range : ∀ n, g n = .outside ↔ ¬ ld.Managed n
  owner : ∀ n r i, g n = .user r i → g r = .node r []

theorem Pool.managed {ρ : Role} (h : Pool ld g s) (hn : g n = ρ) (hρ : ρ ≠ .outside) :
    ld.Managed n := by
  by_contra hout
  exact hρ (hn.symm.trans ((h.range n).mpr hout))

theorem Pool.change {r : Nat} (h : Pool ld g s) (htables : Tables g' s')
    (hchange : Change (InSpace r) g g' s s')
    (howner : ∀ n i, g' n = .user r i → g' r = .node r []) : Pool ld g' s' := by
  refine ⟨htables, fun n => ?_, fun n r' i hn => ?_⟩
  · rw [← h.range n]
    by_cases hn : InSpace r (g n)
    · refine iff_of_false (fun hout => not_inSpace_outside r ?_)
        (fun hout => not_inSpace_outside r ?_)
      · rw [← hout]
        exact hchange.stay n hn
      · rw [← hout]
        exact hn
    · rw [(hchange.keep n hn).1]
  · by_cases hr : r' = r
    · subst hr
      exact howner n i hn
    · have hX : ¬ InSpace r (g n) := fun hX => by
        have hX' := hchange.stay n hX
        rw [hn] at hX'
        exact hr (inSpace_user.mp hX')
      rw [(hchange.keep n hX).1] at hn
      have hroot := h.owner n r' i hn
      rw [(hchange.keep r' ?_).1, hroot]
      rw [hroot]
      exact mt inSpace_node.mp hr

/-- Roles of pages that are used one by one. -/
def Role.Plain : Role → Prop
  | .arg | .trapframe _ | .pipe | .kernel => True
  | _ => False

variable {ρ : Role}

theorem not_inSpace_plain {r : Nat} (hρ : ρ.Plain) : ¬ InSpace r ρ := by
  rintro ((rfl | ⟨path, rfl⟩) | ⟨w, rfl⟩) <;> cases hρ

theorem Pool.update (h : Pool ld g s) (hn : g n = .free ∨ (g n).Plain) (hρ : ρ = .free ∨ ρ.Plain)
    (htables : Tables (update g n ρ) s') :
    Pool ld (update g n ρ) s' := by
  have hout : ∀ σ : Role, σ = .free ∨ σ.Plain → σ ≠ .outside ∧ (∀ r i, σ ≠ .user r i) ∧
      ∀ r p, σ ≠ .node r p := by
    rintro σ hσ
    refine ⟨?_, fun r i => ?_, fun r p => ?_⟩ <;> rintro rfl <;> rcases hσ with hσ | hσ <;> cases hσ
  refine ⟨htables, fun x => ?_, fun x r i hx => ?_⟩
  · by_cases hxn : x = n
    · subst hxn
      rw [update_self, ← h.range x]
      exact iff_of_false (hout _ hρ).1 (hout _ hn).1
    · rw [update_of_ne hxn]
      exact h.range x
  · by_cases hxn : x = n
    · subst hxn
      rw [update_self] at hx
      exact absurd hx ((hout _ hρ).2.1 r i)
    · rw [update_of_ne hxn] at hx
      have hroot := h.owner x r i hx
      rw [update_of_ne, hroot]
      rintro rfl
      exact (hout _ hn).2.2 _ _ hroot

/-- A page is taken from the free list. -/
theorem Pool.take (h : Pool ld g s) {n b : Nat} {l : List Nat} (hfree : s.free = n :: l)
    (hρ : ρ.Plain) (page : Page) :
    Pool ld (Function.update g n ρ) ⟨Function.update s.mem n page, l, b⟩ := by
  refine h.update (Or.inl (h.tables.free_head hfree)) (Or.inr hρ) (h.tables.take hfree ?_ ?_ page b)
  · rintro rfl
    cases hρ
  · rintro r p rfl
    cases hρ

/-- A page is freed. -/
theorem Pool.give (h : Pool ld g s) (hn : g n = ρ) (hρ : ρ.Plain) (page : Page) :
    Pool ld (Function.update g n .free)
      { s with mem := Function.update s.mem n page, free := n :: s.free } := by
  have hmanaged := h.managed hn (by rintro rfl; cases hρ)
  refine h.update (Or.inr (hn ▸ hρ)) (Or.inl rfl) (h.tables.give ?_ ?_ hmanaged.small page) <;>
    rw [hn]
  · rintro rfl
    cases hρ
  · rintro r p rfl
    cases hρ

/-- The contents of a page that is not part of a page table change. -/
theorem Pool.setPage (h : Pool ld g s) (hn : g n = ρ) (hρ : ρ.Plain) (page : Page) :
    Pool ld g (s.setPage n page) := by
  refine ⟨h.tables.setPage (fun r p hp => ?_) page, h.range, h.owner⟩
  rw [← hn, hp] at hρ
  cases hρ

theorem InTable.inSpace {r : Nat} (h : InTable r ρ) : InSpace r ρ := Or.inl h

theorem InRange.inSpace {r v k : Nat} (h : InRange r v k ρ) : InSpace r ρ := by
  rcases h with htable | ⟨w, -, -, hw⟩
  · exact Or.inl htable
  · exact Or.inr ⟨w, hw⟩

/-! ## Address spaces -/

/-- The page table with root `r` maps the pages of user memory, and above them `top`. -/
structure Space (g : Nat → Role) (s : Phys) (r : Nat) (top : Nat → Option Nat)
    (pages : List UPage) : Prop where
  root : g r = .node r []
  inner : Inner g s.mem r
  user : ∀ i u, pages[i]? = some u →
    ∃ n, mapping s.mem r i = some (u.entry n) ∧ g n = .user r i ∧ s.mem n = u.data
  only : ∀ n i, g n = .user r i → ∃ u, pages[i]? = some u ∧ mapping s.mem r i = some (u.entry n)
  rest : ∀ i, pages.length ≤ i → mapping s.mem r i = top i
  high : ∀ i pte, top i = some pte → TOPV ≤ i ∧ pte &&& PTE_U = 0

namespace Space

variable {r : Nat} {top : Nat → Option Nat} {pages : List UPage}

/-- An address space whose pages have not been touched. -/
theorem transport (h : Space g s r top pages) (hroot : g' r = .node r [])
    (hinner : Inner g' s'.mem r) (hmap : mapping s'.mem r = mapping s.mem r)
    (hto : ∀ n i, g n = .user r i → g' n = .user r i ∧ s'.mem n = s.mem n)
    (hback : ∀ n i, g' n = .user r i → g n = .user r i) : Space g' s' r top pages := by
  refine ⟨hroot, hinner, fun i u hu => ?_, fun n i hn => ?_, fun i hi => ?_, h.high⟩
  · obtain ⟨n, hm, hn, hdata⟩ := h.user i u hu
    obtain ⟨hn', hmem⟩ := hto n i hn
    exact ⟨n, (congrFun hmap i).trans hm, hn', hmem.trans hdata⟩
  · rw [hmap]
    exact h.only n i (hback n i hn)
  · rw [hmap]
    exact h.rest i hi

/-- What is done to other roles does not touch it. -/
theorem frame {X : Role → Prop} (h : Space g s r top pages) (htables : Tables g s)
    (hchange : Change X g g' s s') (hnode : ∀ p, ¬ X (.node r p)) (huser : ∀ w, ¬ X (.user r w)) :
    Space g' s' r top pages := by
  have hkeep : ∀ n p, g n = .node r p → g' n = .node r p ∧ s'.mem n = s.mem n := fun n p hn => by
    obtain ⟨hg, hs⟩ := hchange.keep n (by rw [hn]; exact hnode p)
    exact ⟨hg.trans hn, hs⟩
  have hback : ∀ n ρ, ¬ X ρ → g' n = ρ → g n = ρ := fun n ρ hρ hn => by
    have hX : ¬ X (g n) := fun hX => hρ (hn ▸ hchange.stay n hX)
    rw [← (hchange.keep n hX).1, hn]
  refine h.transport (hkeep r [] h.root).1 (h.inner.congr fun n p _ hn => ?_)
    (htables.mapping_congr h.root fun n p j hn => ?_) (fun n i hn => ?_)
    fun n i hn => hback n _ (huser i) hn
  · have hold := hback n _ (hnode p) hn
    exact ⟨hold, fun i => by rw [word, word, (hkeep n p hold).2]⟩
  · rw [word, word, (hkeep n p hn).2]
  · obtain ⟨hg, hs⟩ := hchange.keep n (by rw [hn]; exact huser i)
    exact ⟨hg.trans hn, hs⟩

/-- Another address space is not touched by work on `r`. -/
theorem frame_of_ne {r' : Nat} (h : Space g s r top pages) (htables : Tables g s)
    (hne : r ≠ r') (hchange : Change (InSpace r') g g' s s') : Space g' s' r top pages := by
  exact h.frame htables hchange (fun _ => mt inSpace_node.mp hne) fun _ => mt inSpace_user.mp hne

section

variable (h : Space g s r top pages)

include h

/-- There are not more pages than physical memory has. -/
theorem length_le (hpool : Pool ld g s) : pages.length ≤ NPHYS := by
  have hpage : ∀ i : Fin pages.length, ∃ n : Fin NPHYS,
      g (KERNBASE / PGSIZE + n.val) = .user r i.val := by
    intro i
    obtain ⟨n, -, hn, -⟩ := h.user i.val pages[i.val] (getElem?_eq_getElem i.isLt)
    have hmanaged := hpool.managed hn (by simp)
    have hlow : KERNBASE + PGSIZE ≤ n * PGSIZE := by
      have htext := ld.text
      have hm := hmanaged.1
      omega
    have hhigh := hmanaged.2
    have hbase : KERNBASE = 2147483648 := rfl
    have hstop : PHYSTOP = 2281701376 := rfl
    have hn4 : n * PGSIZE = n * 4096 := rfl
    have hpg : PGSIZE = 4096 := rfl
    have hphys : NPHYS = 32768 := rfl
    have hfirst : KERNBASE / PGSIZE = 524288 := rfl
    refine ⟨⟨n - KERNBASE / PGSIZE, by omega⟩, ?_⟩
    rw [show KERNBASE / PGSIZE + (n - KERNBASE / PGSIZE) = n by omega]
    exact hn
  choose f hf using hpage
  have hinj : Function.Injective f := by
    intro i j hij
    have huser := (hf i).symm.trans (hij ▸ hf j)
    exact Fin.ext (Role.user.inj huser).2
  have hcard := Fintype.card_le_of_injective f hinj
  rw [Fintype.card_fin, Fintype.card_fin] at hcard
  exact hcard

theorem length_lt_TOPV (hpool : Pool ld g s) : pages.length < TOPV :=
  lt_of_le_of_lt (h.length_le hpool) (by decide)

/-- Below `TOPV` there is user memory or nothing. -/
theorem top_none {i : Nat} (hi : i < TOPV) : top i = none := by
  cases hpte : top i with
  | none => rfl
  | some pte => exact absurd (h.high i pte hpte).1 (by omega)

/-- The pages of a space, as `uvmunmap` finds them. -/
theorem userEntry (hpool : Pool ld g s) {i : Nat}
    (hi : i < pages.length) : UserEntry ld g s r i := by
  have hget := getElem?_eq_getElem hi
  have hentry : ∀ n, g n = .user r i → PTE2PA (pages[i].entry n) = n * PGSIZE := fun n hn =>
    pages[i].entry_page (hpool.managed hn (by simp)).small
  obtain ⟨n, hmap, hn, -⟩ := h.user i _ hget
  refine ⟨⟨n, _, hmap, UPage.entry_leaf _ n, hentry n hn, hn, hpool.managed hn (by simp)⟩, ?_⟩
  intro m pte hm hpte
  obtain ⟨u, hu, hmu⟩ := h.only m i hm
  rw [hget] at hu
  obtain rfl := Option.some.inj hu
  rw [hmu] at hpte
  rw [← Option.some.inj hpte]
  exact hentry m hm

/-- The last pages are unmapped and freed. -/
theorem truncate (hpool : Pool ld g s) {v k : Nat} (hv : v + k = pages.length)
    (hmap : Remapped (InRange r v k) r (dropEntries (mapping s.mem r) v k) g
      (released g r v k) s s') :
    Space (released g r v k) s' r top (pages.take v) := by
  have hlen : (pages.take v).length = v := by
    rw [length_take]
    omega
  have hlow : ∀ i < v, dropEntries (mapping s.mem r) v k i = mapping s.mem r i := fun i hi =>
    if_neg (by omega)
  refine ⟨hmap.nodes r [] h.root, hmap.inner r h.inner, fun i u hu => ?_, fun n i hn => ?_,
    fun i hi => ?_, h.high⟩
  · have hi : i < v := hlen ▸ (List.getElem?_eq_some_iff.mp hu).1
    rw [getElem?_take_of_lt hi] at hu
    obtain ⟨n, hm, hn, hdata⟩ := h.user i u hu
    have hX : ¬ InRange r v k (g n) := by
      rw [hn]
      rintro (htable | ⟨w, hw, -, huser⟩)
      · exact not_inTable_user htable
      · have := (Role.user.inj huser).2
        omega
    obtain ⟨hg, hs⟩ := hmap.change.keep n hX
    exact ⟨n, by rw [hmap.map, hlow i hi, hm], hg.trans hn, hs.trans hdata⟩
  · -- a page that still has its role is below the range
    have hold : g n = .user r i ∧ ¬ (v ≤ i ∧ i < v + k) := by
      rw [released] at hn
      split at hn
      · rename_i r' w hw
        split at hn
        · cases hn
        · rename_i hout
          obtain ⟨rfl, rfl⟩ := Role.user.inj hn
          exact ⟨hw, fun hin => hout ⟨rfl, hin⟩⟩
      · rename_i hne
        exact absurd hn (hne r i)
    obtain ⟨u, hu, hm⟩ := h.only n i hold.1
    have hi : i < v := by
      have := (List.getElem?_eq_some_iff.mp hu).1
      omega
    exact ⟨u, by rw [getElem?_take_of_lt hi, hu], by rw [hmap.map, hlow i hi, hm]⟩
  · rw [hlen] at hi
    rw [hmap.map, dropEntries]
    have htop := h.length_lt_TOPV hpool
    split
    · rw [h.top_none (by omega)]
    · exact h.rest i (by omega)

end

end Space

/-! ## What a routine did to an address space -/

/-- After work on the address space of `r` it has these pages, and no other role has been
touched. -/
structure Worked (ld : Linker) (r : Nat) (top : Nat → Option Nat) (pages : List UPage)
    (g g' : Nat → Role) (s s' : Phys) : Prop where
  pool : Pool ld g' s'
  change : Change (InSpace r) g g' s s'
  space : Space g' s' r top pages

theorem Worked.trans {r : Nat} {top top' : Nat → Option Nat} {pages pages' : List UPage}
    (h : Worked ld r top pages g g' s s') (h' : Worked ld r top' pages' g' g'' s' s'') :
    Worked ld r top' pages' g g'' s s'' :=
  ⟨h'.pool, h.change.trans h'.change, h'.space⟩

theorem Worked.refl {r : Nat} {top : Nat → Option Nat} {pages : List UPage} (hpool : Pool ld g s)
    (h : Space g s r top pages) : Worked ld r top pages g g s s :=
  ⟨hpool, Change.refl _ g s, h⟩

section
variable {r : Nat} {top : Nat → Option Nat} {pages : List UPage}

/-- `uvmunmap` of the pages from `v` on. -/
theorem uvmunmap_user (hpool : Pool ld g s) (h : Space g s r top pages) {v k : Nat}
    (hv : v + k = pages.length) :
    Total (uvmunmap ld (r * PGSIZE) (v * PGSIZE) k true)
      (fun _ s' => ∃ g', Worked ld r top (pages.take v) g g' s s') s := by
  have htop := h.length_lt_TOPV hpool
  have hmax : v + k ≤ MAXVA / PGSIZE := by
    rw [hv]
    exact le_of_lt (lt_trans htop (by decide))
  refine (uvmunmap_free hpool.tables h.root hmax fun w hlow hhigh =>
    h.userEntry hpool (by omega)).mono fun _ s' hmap => ?_
  have hchange := hmap.change.mono fun _ => InRange.inSpace
  exact ⟨_, hpool.change hmap.tables hchange fun _ _ _ => hmap.nodes r [] h.root, hchange,
    h.truncate hpool hv hmap⟩

/-! ## A new page -/

/-- The free page `n` is filled with the contents of `u`, to be mapped next. -/
def Phys.withPage (s : Phys) (n b : Nat) (l : List Nat) (page : Page) : Phys :=
  ⟨update s.mem n page, l, b⟩

/-- `mappages` maps the page after the last one; if it cannot, the page is given back. -/
theorem mappages_user (hpool : Pool ld g s) (h : Space g s r top pages) {n b perm : Nat}
    {l : List Nat} (hfree : s.free = n :: l) (u : UPage) (hperm : perm < 2 ^ 10)
    (hflags : perm ||| PTE_V = u.flags) :
    Total (mappages (r * PGSIZE) (pages.length * PGSIZE) PGSIZE (n * PGSIZE) perm)
      (fun ok s' => if ok then
          ∃ g', Worked ld r top (pages ++ [u]) g g' s s' ∧ g' n = .user r pages.length
        else ∃ g', Worked ld r top pages g g' s
          { s' with mem := update s'.mem n fun _ => 1, free := n :: s'.free })
      (s.withPage n b l u.data) := by
  have htables := hpool.tables
  have hn := htables.free_head hfree
  have hmanaged : ld.Managed n := hpool.managed hn (by simp)
  have htop := h.length_lt_TOPV hpool
  have hpg : PGSIZE = 4096 := rfl
  -- the page is the table's, though it is not mapped yet
  set g₁ := update g n (.user r pages.length) with hg₁
  set s₁ := s.withPage n b l u.data with hs₁
  have hother : ∀ x, x ≠ n → g₁ x = g x := fun x hx => update_of_ne hx _ _
  have hself : g₁ n = .user r pages.length := update_self ..
  have hmem₁ : ∀ x, x ≠ n → s₁.mem x = s.mem x := fun x hx => update_of_ne hx _ _
  have htables₁ : Tables g₁ s₁ := htables.take hfree (by simp) (by simp) _ _
  have hrn : r ≠ n := by
    rintro rfl
    cases hn.symm.trans h.root
  have hroot₁ : g₁ r = .node r [] := (hother r hrn).trans h.root
  have hmap₁ : mapping s₁.mem r = mapping s.mem r :=
    htables.mapping_update h.root (fun p hp => by cases hn.symm.trans hp) _
  have hinner₁ : Inner g₁ s₁.mem r := h.inner.update (by simp)
  have hchange₁ : Change (InSpace r) g g₁ s s₁ :=
    Change.update (Or.inl (Or.inl hn)) (Or.inr ⟨_, rfl⟩) fun x hx _ => hmem₁ x hx
  have hdiv : pages.length * PGSIZE / PGSIZE = pages.length := page_div _
  have hlast : (pages.length * PGSIZE + PGSIZE - 1) / PGSIZE = pages.length := by
    rw [hpg]
    omega
  have hmax : pages.length * PGSIZE + PGSIZE ≤ MAXVA := by
    rw [← Nat.succ_mul]
    exact Nat.mul_le_of_le_div _ _ _ (lt_trans htop (by decide))
  have hpa : n * PGSIZE < 2 ^ 64 := lt_trans hmanaged.2 (by decide)
  have hstart : ∀ w, pages.length * PGSIZE / PGSIZE ≤ w →
      w ≤ (pages.length * PGSIZE + PGSIZE - 1) / PGSIZE → mapping s₁.mem r w = none := by
    intro w hlow hhigh
    rw [hdiv] at hlow
    rw [hlast] at hhigh
    rw [hmap₁, h.rest w hlow, h.top_none (by omega)]
  refine (mappages_total htables₁ hroot₁ (by decide) hmax hpa (by omega) hstart).mono ?_
  rintro ok s₂ ⟨g₂, j, hj, hok, hmap⟩
  rw [hlast, hdiv, show pages.length + 1 - pages.length = 1 by omega] at hj hok
  rw [hdiv, hmap₁] at hmap
  -- user pages are not what `mappages` works on
  have hkeep : ∀ x i, g₁ x = .user r i → g₂ x = .user r i ∧ s₂.mem x = s₁.mem x := by
    intro x i hx
    obtain ⟨hg, hs⟩ := hmap.change.keep x (by rw [hx]; exact not_inTable_user)
    exact ⟨hg.trans hx, hs⟩
  have hback : ∀ x i, g₂ x = .user r i → g₁ x = .user r i := by
    intro x i hx
    have hX : ¬ InTable r (g₁ x) := fun hX => not_inTable_user (hx ▸ hmap.change.stay x hX)
    rw [← (hmap.change.keep x hX).1, hx]
  have hold : ∀ x i, g x = .user r i → x ≠ n := by
    rintro x i hx rfl
    cases hn.symm.trans hx
  have hchange₂ : Change (InSpace r) g g₂ s s₂ :=
    hchange₁.trans (hmap.change.mono fun _ => InTable.inSpace)
  have hpool₂ : Pool ld g₂ s₂ :=
    hpool.change hmap.tables hchange₂ fun _ _ _ => hmap.nodes r [] hroot₁
  obtain ⟨hn₂, hdata₂⟩ := hkeep n _ hself
  cases ok with
  | true =>
    obtain rfl := hok.mp rfl
    have hentry : leafEntry (n * PGSIZE) perm 0 = u.entry n := by
      rw [leafEntry, Nat.zero_mul, Nat.add_zero, Nat.mod_eq_of_lt hpa, Nat.or_assoc, hflags,
        PA2PTE_or u.flags_lt, page_div]
      rfl
    have hnew : mapping s₂.mem r pages.length = some (u.entry n) := by
      rw [hmap.map, addEntries, if_pos (by omega), Nat.sub_self, hentry]
    have hsame : ∀ i, i ≠ pages.length → mapping s₂.mem r i = mapping s.mem r i := by
      intro i hi
      rw [hmap.map, addEntries, if_neg (by omega)]
    refine ⟨g₂, ⟨hpool₂, hchange₂, hmap.nodes r [] hroot₁, hmap.inner r hinner₁, fun i v hv => ?_,
      fun x i hx => ?_, fun i hi => ?_, h.high⟩, hn₂⟩
    · by_cases hi : i < pages.length
      · rw [getElem?_append_left hi] at hv
        obtain ⟨x, hm, hx, hdata⟩ := h.user i v hv
        have hxn := hold x i hx
        obtain ⟨hx₂, hmem₂⟩ := hkeep x i ((hother x hxn).trans hx)
        exact ⟨x, by rw [hsame i (by omega), hm], hx₂, by rw [hmem₂, hmem₁ x hxn, hdata]⟩
      · have hilen := (List.getElem?_eq_some_iff.mp hv).1
        rw [length_append, length_singleton] at hilen
        obtain rfl : i = pages.length := by omega
        rw [getElem?_concat_length] at hv
        obtain rfl := Option.some.inj hv
        refine ⟨n, hnew, hn₂, hdata₂.trans ?_⟩
        exact update_self ..
    · by_cases hxn : x = n
      · subst hxn
        obtain rfl : pages.length = i := (Role.user.inj (hn₂.symm.trans hx)).2
        exact ⟨u, getElem?_concat_length, hnew⟩
      · have hx₁ := hback x i hx
        rw [hother x hxn] at hx₁
        obtain ⟨v, hv, hm⟩ := h.only x i hx₁
        have hi := (List.getElem?_eq_some_iff.mp hv).1
        exact ⟨v, by rw [getElem?_append_left hi, hv], by rw [hsame i (by omega), hm]⟩
    · rw [length_append, length_singleton] at hi
      rw [hsame i (by omega), h.rest i (by omega)]
  | false =>
    obtain rfl : j = 0 := by
      have hne : j ≠ 1 := fun hj1 => by cases hok.mpr hj1
      omega
    rw [addEntries_zero] at hmap
    have hnode₂ : ∀ r p, g₂ n ≠ .node r p := fun r p hp => by cases hn₂.symm.trans hp
    have htables₃ := hmap.tables.give (by rw [hn₂]; simp) hnode₂ hmanaged.small (fun _ => 1)
    have hchange₃ : Change (InSpace r) g (update g₂ n .free) s
        { s₂ with mem := update s₂.mem n fun _ => 1, free := n :: s₂.free } :=
      hchange₂.trans (Change.update (Or.inr ⟨_, hn₂⟩) (Or.inl (Or.inl rfl)) fun x hx _ =>
        update_of_ne hx _ _)
    have hroot₂ := hmap.nodes r [] hroot₁
    have hroot₃ := (update_of_ne hrn .free _).trans hroot₂
    refine ⟨_, hpool.change htables₃ hchange₃ fun _ _ _ => hroot₃, hchange₃,
      h.transport hroot₃ ((hmap.inner r hinner₁).update (by simp)) ?_ (fun x i hx => ?_)
        fun x i hx => ?_⟩
    · rw [hmap.tables.mapping_update hroot₂ (hnode₂ r), hmap.map]
    · have hxn := hold x i hx
      obtain ⟨hx₂, hmem₂⟩ := hkeep x i ((hother x hxn).trans hx)
      refine ⟨(update_of_ne hxn _ _).trans hx₂, ?_⟩
      exact (update_of_ne hxn _ _).trans (hmem₂.trans (hmem₁ x hxn))
    · have hxn : x ≠ n := by
        rintro rfl
        rw [update_self] at hx
        cases hx
      rw [update_of_ne hxn] at hx
      have hx₁ := hback x i hx
      rw [hother x hxn] at hx₁
      exact hx₁

end

end Xv6.Vm
