/-
  Vm/Walk.lean --- page tables refine finite maps.

  Each routine of `vm.c` that touches a page table is shown to do one thing to
  `mapping`: `walk` nothing, even when it makes page-table pages; `mappages` adds a
  range, or as much of it as memory lasts for; `uvmunmap` removes a range; `uvmclear`
  changes one entry.  All of them leave every other page table alone, and every page
  that is neither free nor a page of this table.
-/
import Xv6.Vm.Mapping
import Xv6.Vm.PageTable

set_option autoImplicit false

namespace Xv6.Vm

open Function Foundation

variable {g g' g'' : Nat → Role} {s s' s'' : Phys}

/-! ## Memory accesses and the allocator -/

theorem page_add_div {n off : Nat} (hoff : off < PGSIZE) : (n * PGSIZE + off) / PGSIZE = n := by
  rw [Nat.add_comm, Nat.add_mul_div_right _ _ (by decide), Nat.div_eq_of_lt hoff, Nat.zero_add]

theorem page_add_mod {n off : Nat} (hoff : off < PGSIZE) : (n * PGSIZE + off) % PGSIZE = off := by
  rw [Nat.add_comm, Nat.add_mul_mod_self_right, Nat.mod_eq_of_lt hoff]

/-- An entry of a table is within its page. -/
theorem entry_lt {i : Nat} (hi : i < 512) : 8 * i < PGSIZE := by
  rw [show PGSIZE = 4096 from rfl]
  omega

theorem load_total {n i : Nat} (hi : i < 512) {Q : Nat → Phys → Prop}
    (h : Q (word s.mem n i) s) : Total (load (n * PGSIZE + 8 * i)) Q s := by
  refine Total.bind (Total.get (Total.pure ?_))
  rw [page_add_div (entry_lt hi), page_add_mod (entry_lt hi)]
  exact h

theorem store_total {n i v : Nat} (hi : i < 512) {Q : Unit → Phys → Prop}
    (h : Q () { s with mem := putWord s.mem n i v }) :
    Total (store (n * PGSIZE + 8 * i) v) Q s := by
  refine Total.modify ?_
  rw [page_add_div (entry_lt hi), page_add_mod (entry_lt hi)]
  exact h

theorem page_div (n : Nat) : n * PGSIZE / PGSIZE = n := Nat.mul_div_cancel n (by decide)

theorem page_mod (n : Nat) : n * PGSIZE % PGSIZE = 0 := Nat.mul_mod_left n PGSIZE

theorem memset_total {n : Nat} {c : UInt8} {Q : Unit → Phys → Prop}
    (h : Q () (s.setPage n fun _ => c)) : Total (memset (n * PGSIZE) c) Q s := by
  refine Total.modify ?_
  rw [page_div]
  exact h

variable {Q : Option Nat → Phys → Prop}

theorem kalloc_total (hnone : Q none s) (hsome : ∀ n l b, s.free = n :: l →
      Q (some (n * PGSIZE)) ⟨update s.mem n fun _ => 5, l, b⟩) : Total kalloc Q s := by
  refine Total.bind (Total.get ?_)
  split
  · rename_i b n l hb hfree
    refine Total.bind (Total.set (Total.bind (memset_total (Total.pure ?_))))
    exact hsome n l b hfree
  · exact Total.pure hnone

/-- A page that `kfree` takes. -/
def Linker.Managed (ld : Linker) (n : Nat) : Prop := ld.kend ≤ n * PGSIZE ∧ n * PGSIZE < PHYSTOP

variable {ld : Linker}

theorem Linker.Managed.small {n : Nat} (h : ld.Managed n) : n < 2 ^ 52 := by
  have hstop : n * 4096 < 2281701376 := h.2
  omega

theorem kfree_total {n : Nat} (hn : ld.Managed n) {Q : Unit → Phys → Prop}
    (h : Q () { s with mem := update s.mem n fun _ => 1, free := n :: s.free }) :
    Total (kfree ld (n * PGSIZE)) Q s := by
  rw [kfree, if_neg ?_]
  · refine Total.bind (memset_total (Total.modify ?_))
    rw [page_div]
    exact h
  · rw [page_mod]
    have hlow := hn.1
    have hhigh := hn.2
    omega

/-! ## What may change -/

/-- The pages with a role in `X` may change roles within `X` and contents; the others are
as before. -/
structure Change (X : Role → Prop) (g g' : Nat → Role) (s s' : Phys) : Prop where
  keep : ∀ n, ¬ X (g n) → g' n = g n ∧ s'.mem n = s.mem n
  stay : ∀ n, X (g n) → X (g' n)

namespace Change

variable {X Y : Role → Prop}

theorem refl (X : Role → Prop) (g : Nat → Role) (s : Phys) : Change X g g s s :=
  ⟨fun _ _ => ⟨rfl, rfl⟩, fun _ h => h⟩

theorem trans (h : Change X g g' s s') (h' : Change X g' g'' s' s'') : Change X g g'' s s'' := by
  refine ⟨fun n hn => ?_, fun n hn => h'.stay n (h.stay n hn)⟩
  obtain ⟨hg, hs⟩ := h.keep n hn
  obtain ⟨hg', hs'⟩ := h'.keep n (by rw [hg]; exact hn)
  exact ⟨hg'.trans hg, hs'.trans hs⟩

theorem mono (h : Change X g g' s s') (hXY : ∀ ρ, X ρ → Y ρ) : Change Y g g' s s' := by
  refine ⟨fun n hn => h.keep n fun hX => hn (hXY _ hX), fun n hn => ?_⟩
  by_cases hX : X (g n)
  · exact hXY _ (h.stay n hX)
  · rw [(h.keep n hX).1]
    exact hn

end Change

/-- The role of one page changes, and the contents of pages that may change. -/
theorem Change.update {X : Role → Prop} {n : Nat} {ρ : Role} (hn : X (g n)) (hρ : X ρ)
    (hmem : ∀ m, m ≠ n → ¬ X (g m) → s'.mem m = s.mem m) :
    Change X g (Function.update g n ρ) s s' := by
  refine ⟨fun m hm => ?_, fun m hm => ?_⟩
  · have hmn : m ≠ n := by
      rintro rfl
      exact hm hn
    exact ⟨update_of_ne hmn _ _, hmem m hmn hm⟩
  · by_cases hmn : m = n
    · rw [hmn, update_self]
      exact hρ
    · rw [update_of_ne hmn]
      exact hm

/-- The free pages and those of the page table with root `r`. -/
def InTable (r : Nat) (ρ : Role) : Prop := ρ = .free ∨ ∃ p, ρ = .node r p

theorem not_inTable_user {r r' i : Nat} : ¬ InTable r (.user r' i) := by
  rintro (hfree | ⟨p, hp⟩)
  · cases hfree
  · cases hp

/-- A root other than `r` is not the business of `r`. -/
theorem not_inTable {r r' : Nat} (hne : r' ≠ r) : ¬ InTable r (.node r' []) := by
  rintro (hfree | ⟨p, hp⟩)
  · cases hfree
  · exact hne (Role.node.inj hp).1

/-- The page table with root `r` may have more pages, and nothing else has changed. -/
structure Grown (r : Nat) (g g' : Nat → Role) (s s' : Phys) : Prop where
  tables : Tables g' s'
  change : Change (InTable r) g g' s s'
  nodes : ∀ n p, g n = .node r p → g' n = .node r p
  inner : ∀ r', Inner g s.mem r' → Inner g' s'.mem r'
  maps : ∀ r', g r' = .node r' [] → mapping s'.mem r' = mapping s.mem r'

namespace Grown

variable {r : Nat}

theorem refl (r : Nat) (h : Tables g s) : Grown r g g s s :=
  ⟨h, Change.refl _ g s, fun _ _ hn => hn, fun _ hr' => hr', fun _ _ => rfl⟩

/-- Roots stay roots. -/
theorem root (h : Grown r g g' s s') {r' : Nat} (hr' : g r' = .node r' []) :
    g' r' = .node r' [] := by
  by_cases hrr : r' = r
  · subst hrr
    exact h.nodes r' [] hr'
  · rw [(h.change.keep r' ?_).1, hr']
    rw [hr']
    exact not_inTable hrr

theorem trans (h : Grown r g g' s s') (h' : Grown r g' g'' s' s'') : Grown r g g'' s s'' :=
  ⟨h'.tables, h.change.trans h'.change, fun n p hn => h'.nodes n p (h.nodes n p hn),
    fun r' hr' => h'.inner r' (h.inner r' hr'), fun r' hr' => (h'.maps r' (h.root hr')).trans
      (h.maps r' hr')⟩

end Grown

/-! ## `walk` -/

theorem PTE2PA_page (pte : Nat) : PTE2PA pte = PTE2PA pte / PGSIZE * PGSIZE := by
  rw [PTE2PA_eq, show PGSIZE = 4096 from rfl]
  omega

/-- The entry of a virtual page, in a page-table page of the last level. -/
def EntryAt (g : Nat → Role) (r vpn pte : Nat) : Prop :=
  ∃ n, g n = .node r (upper vpn) ∧ pte = n * PGSIZE + 8 * (vpn % 512)

theorem upper_of_PX (va : Nat) : [] ++ [PX 2 va] ++ [PX 1 va] = upper (va / PGSIZE) := by
  rw [PX_eq, PX_eq]
  rfl

theorem PX_zero (va : Nat) : PX 0 va = va / PGSIZE % 512 := by
  rw [PX_eq, Nat.mul_zero, pow_zero, Nat.div_one]

/-- One level of `walk` with `alloc`. -/
theorem walkLoop_alloc {r n va level : Nat} {p : List Nat} (h : Tables g s) (hn : g n = .node r p)
    (hp : p.length < 2) (hnone : Q none s)
    (hnext : ∀ g' s' m, Grown r g g' s s' → g' m = .node r (p ++ [PX (level + 1) va]) →
      Total (walkLoop va true level (m * PGSIZE)) Q s') :
    Total (walkLoop va true (level + 1) (n * PGSIZE)) Q s := by
  have hi := PX_lt (level + 1) va
  rw [walkLoop]
  refine Total.bind (load_total hi ?_)
  by_cases hV : word s.mem n (PX (level + 1) va) &&& PTE_V ≠ 0
  · rw [if_pos hV, PTE2PA_page]
    refine hnext g s _ (Grown.refl r h) (h.role_of (h.root_of hn) ?_ ?_)
    · rw [List.length_append, List.length_singleton]
      omega
    · rw [node, descend_snoc, show descend child (word s.mem) p r = some n from h.node_of hn]
      exact child_of hV
  · rw [if_neg hV]
    simp only [Bool.not_true, Bool.false_eq_true, if_false]
    refine Total.bind (kalloc_total (Total.pure hnone) fun m l b hfree => ?_)
    refine Total.bind (memset_total (Total.bind (store_total hi ?_)))
    have hm := h.free_head hfree
    have hsmall : m < 2 ^ 52 := h.small m (hfree ▸ List.mem_cons_self)
    have hmn : m ≠ n := by
      rintro rfl
      cases hm.symm.trans hn
    have hlinked := linked_putWord s.mem hmn hi hsmall
    have hmem : update (update s.mem m fun _ => 5) m (fun _ => 0)
        = update s.mem m fun _ => (0 : UInt8) := update_idem _ _ _
    simp only [Phys.setPage, hmem]
    refine hnext _ _ m ⟨h.link hn hp (not_not.mp hV) hfree hlinked rfl,
      Change.update (Or.inl hm) (Or.inr ⟨_, rfl⟩) fun x hxm hx => ?_, fun x q hx => ?_,
      fun r' hr' => hr'.link hlinked,
      fun r' hr' => h.link_mapping hn (not_not.mp hV) hm hsmall hlinked hp hr'⟩ (update_self ..)
    · have hxn : x ≠ n := by
        rintro rfl
        exact hx (Or.inr ⟨p, hn⟩)
      exact (update_of_ne hxn _ _).trans (update_of_ne hxm _ _)
    · rw [update_of_ne ?_, hx]
      rintro rfl
      cases hm.symm.trans hx

/-- `walk` with `alloc` changes no mapping. -/
theorem walk_alloc {r va : Nat} (h : Tables g s) (hr : g r = .node r []) (hva : va < MAXVA) :
    Total (walk (r * PGSIZE) va true) (fun res s' => ∃ g', Grown r g g' s s' ∧
      ∀ pte, res = some pte → EntryAt g' r (va / PGSIZE) pte) s := by
  have hfail : ∀ (g' : Nat → Role) (s' : Phys), Grown r g g' s s' → ∃ g', Grown r g g' s s' ∧
      ∀ pte, (none : Option Nat) = some pte → EntryAt g' r (va / PGSIZE) pte :=
    fun g' s' hg => ⟨g', hg, fun _ hpte => by cases hpte⟩
  rw [walk, if_neg (by omega)]
  refine walkLoop_alloc h hr (by simp) (hfail g s (Grown.refl r h)) fun g₁ s₁ m₁ h₁ hm₁ => ?_
  refine walkLoop_alloc h₁.tables hm₁ (by simp) (hfail g₁ s₁ h₁) fun g₂ s₂ m₂ h₂ hm₂ => ?_
  refine Total.pure ⟨g₂, h₁.trans h₂, fun pte hpte => ⟨m₂, ?_, ?_⟩⟩
  · rw [hm₂, upper_of_PX]
  · rw [← Option.some.inj hpte, PX_zero]

/-- One level of `walk` without `alloc`. -/
theorem walkLoop_find {r n va level : Nat} {p : List Nat} (hn : node s.mem p r = some n)
    (hnone : node s.mem (p ++ [PX (level + 1) va]) r = none → Q none s)
    (hnext : ∀ m, node s.mem (p ++ [PX (level + 1) va]) r = some m →
      Total (walkLoop va false level (m * PGSIZE)) Q s) :
    Total (walkLoop va false (level + 1) (n * PGSIZE)) Q s := by
  have hnode : node s.mem (p ++ [PX (level + 1) va]) r
      = child (word s.mem n (PX (level + 1) va)) := by
    rw [node, descend_snoc, show descend child (word s.mem) p r = some n from hn]
    rfl
  rw [walkLoop]
  refine Total.bind (load_total (PX_lt (level + 1) va) ?_)
  by_cases hV : word s.mem n (PX (level + 1) va) &&& PTE_V ≠ 0
  · rw [if_pos hV, PTE2PA_page]
    exact hnext _ (hnode.trans (child_of hV))
  · rw [if_neg hV]
    exact Total.pure (hnone (hnode.trans (child_eq_none (not_not.mp hV))))

/-- `walk` without `alloc` finds the entry if there is a page-table page for it, whatever
is in memory. -/
theorem walk_find {r va : Nat} (hva : va < MAXVA) :
    Total (walk (r * PGSIZE) va false) (fun res s' => s' = s ∧
      (res = none → node s.mem (upper (va / PGSIZE)) r = none) ∧
      ∀ pte, res = some pte → ∃ n, node s.mem (upper (va / PGSIZE)) r = some n ∧
        pte = n * PGSIZE + 8 * (va / PGSIZE % 512)) s := by
  rw [walk, if_neg (by omega)]
  refine walkLoop_find (show node s.mem [] r = some r from rfl) (fun hnone => ?_) fun m₁ hm₁ => ?_
  · refine ⟨rfl, fun _ => ?_, fun _ hpte => by cases hpte⟩
    rw [← upper_of_PX, node, descend_snoc,
      show descend child (word s.mem) ([] ++ [PX 2 va]) r = none from hnone]
    rfl
  · refine walkLoop_find hm₁ (fun hnone => ?_) fun m₂ hm₂ => ?_
    · refine ⟨rfl, fun _ => ?_, fun _ hpte => by cases hpte⟩
      rw [← upper_of_PX]
      exact hnone
    · refine Total.pure ⟨rfl, fun hnone => by (cases hnone), fun pte hpte => ⟨m₂, ?_, ?_⟩⟩
      · rw [← upper_of_PX]
        exact hm₂
      · rw [← Option.some.inj hpte, PX_zero]

theorem walk_read {r va : Nat} (h : Tables g s) (hr : g r = .node r []) (hva : va < MAXVA) :
    Total (walk (r * PGSIZE) va false) (fun res s' => s' = s ∧
      (res = none → node s.mem (upper (va / PGSIZE)) r = none) ∧
      ∀ pte, res = some pte → EntryAt g r (va / PGSIZE) pte) s := by
  refine (walk_find hva).mono ?_
  rintro res s' ⟨rfl, hnone, hsome⟩
  refine ⟨rfl, hnone, fun pte hpte => ?_⟩
  obtain ⟨n, hn, hentry⟩ := hsome pte hpte
  exact ⟨n, h.role_of hr (le_refl 2) hn, hentry⟩

/-! ## `walkaddr` -/

/-- The physical address of a page that user code may access, and 0 if there is none. -/
def userAddr : Option Nat → Nat
  | some pte => if pte &&& PTE_U = 0 then 0 else PTE2PA pte
  | none => 0

theorem vpn_lt {va : Nat} (hva : va < MAXVA) : va / PGSIZE < NVPN := by
  have hmax : MAXVA = 274877906944 := rfl
  have hN : NVPN = 134217728 := rfl
  rw [show PGSIZE = 4096 from rfl]
  omega

/-- The virtual pages below `MAXVA`. -/
theorem page_lt_MAXVA {v : Nat} (hv : v < MAXVA / PGSIZE) : v * PGSIZE < MAXVA := by
  have hmul := Nat.mul_lt_mul_of_pos_right hv (show 0 < PGSIZE by decide)
  exact hmul

/-- The map, read off the entry that `walk` found. -/
theorem mapping_of_entry {r vpn n : Nat} (h : Tables g s) (hvpn : vpn < NVPN)
    (hn : g n = .node r (upper vpn)) :
    mapping s.mem r vpn =
      if word s.mem n (vpn % 512) &&& PTE_V ≠ 0 then some (word s.mem n (vpn % 512)) else none :=
  mapping_of_node hvpn (h.node_of hn)

theorem mod512 (vpn : Nat) : vpn % 512 < 512 := Nat.mod_lt _ (by norm_num)

/-- `walkaddr` is a lookup in the map, whatever is in memory. -/
theorem walkaddr_total {r va : Nat} : Total (walkaddr (r * PGSIZE) va) (fun pa s' => s' = s ∧
      pa = if va < MAXVA then userAddr (mapping s.mem r (va / PGSIZE)) else 0) s := by
  rw [walkaddr]
  by_cases hva : MAXVA ≤ va
  · rw [if_pos hva]
    exact Total.pure ⟨rfl, (if_neg (by omega)).symm⟩
  · rw [if_neg hva, if_pos (by omega)]
    refine Total.seq (walk_find (by omega)) fun res s' hres => ?_
    obtain ⟨rfl, hnone, hsome⟩ := hres
    cases res with
    | none =>
      refine Total.pure ⟨rfl, ?_⟩
      rw [mapping_of_no_node (hnone rfl), userAddr]
    | some pte =>
      obtain ⟨n, hn, rfl⟩ := hsome pte rfl
      refine Total.bind (load_total (mod512 _) ?_)
      rw [mapping_of_node (vpn_lt (by omega)) hn]
      by_cases hV : word s'.mem n (va / PGSIZE % 512) &&& PTE_V = 0
      · rw [if_pos hV, if_neg (not_not.mpr hV)]
        exact Total.pure ⟨rfl, rfl⟩
      · rw [if_neg hV, if_pos hV, userAddr]
        split
        · exact Total.pure ⟨rfl, rfl⟩
        · exact Total.pure ⟨rfl, rfl⟩

/-! ## `mappages` -/

/-- The map with `k` more entries from `v` on. -/
def addEntries (m : Nat → Option Nat) (v k : Nat) (entry : Nat → Nat) : Nat → Option Nat :=
  fun w => if v ≤ w ∧ w < v + k then some (entry (w - v)) else m w

theorem addEntries_zero (m : Nat → Option Nat) (v : Nat) (entry : Nat → Nat) :
    addEntries m v 0 entry = m := by
  funext w
  rw [addEntries, if_neg (by omega)]

/-- The first entry, and then the others. -/
theorem addEntries_succ (m : Nat → Option Nat) (v k : Nat) (entry : Nat → Nat) :
    addEntries (update m v (some (entry 0))) (v + 1) k (fun i => entry (i + 1))
      = addEntries m v (k + 1) entry := by
  funext w
  simp only [addEntries]
  by_cases hw : w = v
  · subst hw
    rw [if_neg (by omega), update_self, if_pos (by omega), Nat.sub_self]
  · rw [update_of_ne hw]
    by_cases hin : v + 1 ≤ w ∧ w < v + 1 + k
    · rw [if_pos hin, if_pos (by omega), show w - (v + 1) + 1 = w - v by omega]
    · rw [if_neg hin, if_neg (by omega)]

/-- The entry `mappages` makes for the page `i` of its range. -/
def leafEntry (pa perm i : Nat) : Nat := PA2PTE ((pa + i * PGSIZE) % 2 ^ 64) ||| perm ||| PTE_V

theorem leafEntry_valid (pa perm i : Nat) : leafEntry pa perm i &&& PTE_V ≠ 0 := by
  have hbit :
      ((PA2PTE ((pa + i * PGSIZE) % 2 ^ 64) ||| perm ||| PTE_V) &&& PTE_V).testBit 0 = true := by
    rw [Nat.testBit_and, Nat.testBit_or]
    simp [PTE_V]
  intro hzero
  rw [leafEntry] at hzero
  rw [hzero, Nat.zero_testBit] at hbit
  cases hbit

theorem leafEntry_lt (pa i : Nat) {perm : Nat} (hperm : perm < 2 ^ 64) :
    leafEntry pa perm i < 2 ^ 64 := by
  have hpa : PA2PTE ((pa + i * PGSIZE) % 2 ^ 64) < 2 ^ 64 := by
    rw [PA2PTE_eq, show PGSIZE = 4096 from rfl]
    omega
  exact Nat.or_lt_two_pow (Nat.or_lt_two_pow hpa hperm) (by decide)

theorem leafEntry_succ (pa perm i : Nat) :
    leafEntry ((pa + PGSIZE) % 2 ^ 64) perm i = leafEntry pa perm (i + 1) := by
  rw [leafEntry, leafEntry, Nat.mod_add_mod, Nat.succ_mul, Nat.add_assoc, Nat.add_comm PGSIZE]

/-- The page table with root `r` maps `m` now; its pages may be more, and pages with roles
outside `X` have not changed. -/
structure Remapped (X : Role → Prop) (r : Nat) (m : Nat → Option Nat) (g g' : Nat → Role)
    (s s' : Phys) : Prop where
  tables : Tables g' s'
  change : Change X g g' s s'
  nodes : ∀ n p, g n = .node r p → g' n = .node r p
  inner : ∀ r', Inner g s.mem r' → Inner g' s'.mem r'
  others : ∀ r', r' ≠ r → g r' = .node r' [] → mapping s'.mem r' = mapping s.mem r'
  map : mapping s'.mem r = m

theorem Grown.remapped {r : Nat} (h : Grown r g g' s s') (hr : g r = .node r []) :
    Remapped (InTable r) r (mapping s.mem r) g g' s s' :=
  ⟨h.tables, h.change, h.nodes, h.inner, fun r' _ hr' => h.maps r' hr', h.maps r hr⟩

theorem Remapped.mono {X Y : Role → Prop} {r : Nat} {m : Nat → Option Nat}
    (h : Remapped X r m g g' s s') (hXY : ∀ ρ, X ρ → Y ρ) : Remapped Y r m g g' s s' :=
  ⟨h.tables, h.change.mono hXY, h.nodes, h.inner, h.others, h.map⟩

theorem Remapped.trans {X : Role → Prop} {r : Nat} {m m' : Nat → Option Nat}
    (h : Remapped X r m g g' s s') (h' : Remapped X r m' g' g'' s' s'')
    (hX : ∀ r', r' ≠ r → ¬ X (.node r' [])) : Remapped X r m' g g'' s s'' := by
  refine ⟨h'.tables, h.change.trans h'.change, fun n p hn => h'.nodes n p (h.nodes n p hn),
    fun r' hr' => h'.inner r' (h.inner r' hr'), ?_, h'.map⟩
  intro r' hne hr'
  have hroot : g' r' = .node r' [] := by
    rw [(h.change.keep r' (by rw [hr']; exact hX r' hne)).1, hr']
  rw [h'.others r' hne hroot, h.others r' hne hr']

/-- One entry is stored. -/
theorem Tables.remapped {r vpn n v : Nat} (h : Tables g s) (hvpn : vpn < NVPN)
    (hn : g n = .node r (upper vpn)) (hv : v < 2 ^ 64) :
    Remapped (InTable r) r (update (mapping s.mem r) vpn (if v &&& PTE_V ≠ 0 then some v else none))
      g g s { s with mem := Vm.putWord s.mem n (vpn % 512) v } := by
  obtain ⟨htables, hothers, hmap⟩ := h.putWord hvpn hn hv
  refine ⟨htables, ⟨fun x hx => ⟨rfl, ?_⟩, fun _ hx => hx⟩, fun _ _ hx => hx, fun r' hr' => ?_,
    hothers, hmap⟩
  · refine update_of_ne ?_ _ _
    rintro rfl
    exact hx (Or.inr ⟨_, hn⟩)
  · refine hr'.congr fun x p hp hx => ⟨hx, fun i => word_putWord_ne (Or.inl ?_)⟩
    rintro rfl
    rw [(Role.node.inj (hx.symm.trans hn)).2] at hp
    exact absurd hp (by simp [upper])

/-- One page of `mappages`. -/
theorem mappagesLoop_step {r perm last fuel v pa : Nat} (h : Tables g s) (hr : g r = .node r [])
    (hperm : perm < 2 ^ 64) (hpa : pa < 2 ^ 64) (hv : v < MAXVA / PGSIZE)
    (hnone : mapping s.mem r v = none) {Q : Bool → Phys → Prop}
    (hfail : ∀ g' s', Remapped (InTable r) r (mapping s.mem r) g g' s s' → Q false s')
    (hok : ∀ g' s', Remapped (InTable r) r
        (update (mapping s.mem r) v (some (leafEntry pa perm 0))) g g' s s' →
      if v * PGSIZE = last then Q true s'
      else Total (mappagesLoop (r * PGSIZE) perm last fuel ((v + 1) * PGSIZE)
        ((pa + PGSIZE) % 2 ^ 64)) Q s') :
    Total (mappagesLoop (r * PGSIZE) perm last (fuel + 1) (v * PGSIZE) pa) Q s := by
  have hmax := page_lt_MAXVA hv
  have hvpn : v < NVPN := by
    have hlt := vpn_lt hmax
    rw [page_div] at hlt
    exact hlt
  have hnext : (v * PGSIZE + PGSIZE) % 2 ^ 64 = (v + 1) * PGSIZE := by
    have hmaxva : MAXVA = 274877906944 := rfl
    have hpage : PGSIZE = 4096 := rfl
    rw [Nat.succ_mul, Nat.mod_eq_of_lt (by omega)]
  rw [mappagesLoop]
  refine Total.seq (walk_alloc h hr hmax) fun res s₁ hres => ?_
  obtain ⟨g₁, hgrown, hentry⟩ := hres
  have hmap := hgrown.remapped hr
  cases res with
  | none => exact Total.pure (hfail g₁ s₁ hmap)
  | some pte =>
    obtain ⟨n, hn, rfl⟩ := hentry pte rfl
    rw [page_div] at hn ⊢
    refine Total.bind (load_total (mod512 v) ?_)
    have hempty : ¬ word s₁.mem n (v % 512) &&& PTE_V ≠ 0 := by
      intro hV
      have hlook := mapping_of_entry hgrown.tables hvpn hn
      rw [hmap.map, hnone, if_pos hV] at hlook
      cases hlook
    rw [if_neg hempty]
    refine Total.bind (store_total (mod512 v) ?_)
    have hleaf : PA2PTE pa ||| perm ||| PTE_V = leafEntry pa perm 0 := by
      rw [leafEntry, Nat.zero_mul, Nat.add_zero, Nat.mod_eq_of_lt hpa]
    have hstored := hgrown.tables.remapped hvpn hn (leafEntry_lt pa 0 hperm)
    rw [if_pos (leafEntry_valid pa perm 0), hmap.map] at hstored
    have hthen := hok _ _ (hmap.trans hstored fun _ => not_inTable)
    rw [hleaf]
    split at hthen
    · rename_i hlast
      rw [if_pos hlast]
      exact Total.pure hthen
    · rename_i hlast
      rw [if_neg hlast, hnext]
      exact hthen

/-- The loop of `mappages`, with `k` pages to go after the one at `v`. -/
theorem mappagesLoop_total {r perm : Nat} (hperm : perm < 2 ^ 64) (k : Nat) :
    ∀ (fuel v pa : Nat) (g : Nat → Role) (s : Phys), Tables g s → g r = .node r [] →
      v + k < MAXVA / PGSIZE → (∀ w, v ≤ w → w ≤ v + k → mapping s.mem r w = none) →
      pa < 2 ^ 64 →
      Total (mappagesLoop (r * PGSIZE) perm ((v + k) * PGSIZE) (fuel + k + 1) (v * PGSIZE) pa)
        (fun ok s' => ∃ g' j, j ≤ k + 1 ∧ (ok = true ↔ j = k + 1) ∧
          Remapped (InTable r) r
            (addEntries (mapping s.mem r) v j (leafEntry pa perm)) g g' s s') s := by
  induction k with
  | zero =>
    intro fuel v pa g s h hr hmax hnone hpa
    refine mappagesLoop_step h hr hperm hpa hmax (hnone v le_rfl le_rfl)
      (fun g' s' hmap => ⟨g', 0, by omega, by simp, ?_⟩) fun g' s' hmap => ?_
    · rw [addEntries_zero]
      exact hmap
    · rw [if_pos (by rw [Nat.add_zero])]
      refine ⟨g', 1, le_rfl, by simp, ?_⟩
      rw [← addEntries_succ, addEntries_zero]
      exact hmap
  | succ k ih =>
    intro fuel v pa g s h hr hmax hnone hpa
    refine mappagesLoop_step h hr hperm hpa (by omega) (hnone v le_rfl (by omega))
      (fun g' s' hmap => ⟨g', 0, by omega, by simp, ?_⟩) fun g' s' hmap => ?_
    · rw [addEntries_zero]
      exact hmap
    · have hmore : v * PGSIZE ≠ (v + (k + 1)) * PGSIZE := fun heq => by
        have hcancel := Nat.eq_of_mul_eq_mul_right (show 0 < PGSIZE by decide) heq
        omega
      rw [if_neg hmore, show v + (k + 1) = v + 1 + k by omega]
      have hunmapped : ∀ w, v + 1 ≤ w → w ≤ v + 1 + k → mapping s'.mem r w = none := by
        intro w hlow hhigh
        rw [hmap.map, update_of_ne (by omega)]
        exact hnone w (by omega) (by omega)
      refine (ih fuel (v + 1) ((pa + PGSIZE) % 2 ^ 64) g' s' hmap.tables (hmap.nodes r [] hr)
        (by omega) hunmapped (Nat.mod_lt _ (by norm_num))).mono ?_
      rintro ok s'' ⟨g'', j, hj, hok, hrest⟩
      refine ⟨g'', j + 1, by omega, by rw [hok]; omega, ?_⟩
      rw [← addEntries_succ]
      have hentries : leafEntry ((pa + PGSIZE) % 2 ^ 64) perm =
          fun i => leafEntry pa perm (i + 1) :=
        funext fun i => leafEntry_succ pa perm i
      rw [hmap.map, hentries] at hrest
      exact hmap.trans hrest fun _ => not_inTable

/-- `mappages` adds its range, or, when it runs out of memory, the first pages of it. -/
theorem mappages_total {r va size pa perm : Nat} (h : Tables g s) (hr : g r = .node r [])
    (hsize : 0 < size) (hmax : va + size ≤ MAXVA) (hpa : pa < 2 ^ 64) (hperm : perm < 2 ^ 64)
    (hnone : ∀ w, va / PGSIZE ≤ w → w ≤ (va + size - 1) / PGSIZE → mapping s.mem r w = none) :
    Total (mappages (r * PGSIZE) va size pa perm) (fun ok s' => ∃ g' j,
      j ≤ (va + size - 1) / PGSIZE + 1 - va / PGSIZE ∧
      (ok = true ↔ j = (va + size - 1) / PGSIZE + 1 - va / PGSIZE) ∧
      Remapped (InTable r) r (addEntries (mapping s.mem r) (va / PGSIZE) j (leafEntry pa perm))
        g g' s s') s := by
  have hpage : PGSIZE = 4096 := rfl
  have hmaxva : MAXVA = 274877906944 := rfl
  obtain ⟨k, hk⟩ : ∃ k, (va + size - 1) / PGSIZE = va / PGSIZE + k :=
    ⟨(va + size - 1) / PGSIZE - va / PGSIZE, by rw [hpage]; omega⟩
  have hlast : PGROUNDDOWN ((va + size + (2 ^ 64 - 1)) % 2 ^ 64) = (va / PGSIZE + k) * PGSIZE := by
    rw [PGROUNDDOWN, ← hk, show (va + size + (2 ^ 64 - 1)) % 2 ^ 64 = va + size - 1 by omega]
  obtain ⟨fuel, hfuel⟩ : ∃ fuel, MAXVA / PGSIZE + 1 = fuel + k + 1 :=
    ⟨MAXVA / PGSIZE - k, by rw [hpage] at hk ⊢; omega⟩
  have hcount : va / PGSIZE + k + 1 - va / PGSIZE = k + 1 := by omega
  rw [hk] at hnone ⊢
  rw [mappages, hlast, hfuel, hcount]
  refine mappagesLoop_total hperm k fuel (va / PGSIZE) pa g s h hr ?_ hnone hpa
  have hspan : PGSIZE * (MAXVA / PGSIZE) = MAXVA := rfl
  rw [← hk]
  exact Nat.div_lt_of_lt_mul (by omega)

/-! ## `uvmunmap` -/

/-- The map without `k` entries from `v` on. -/
def dropEntries (m : Nat → Option Nat) (v k : Nat) : Nat → Option Nat :=
  fun w => if v ≤ w ∧ w < v + k then none else m w

theorem dropEntries_zero (m : Nat → Option Nat) (v : Nat) : dropEntries m v 0 = m := by
  funext w
  rw [dropEntries, if_neg (by omega)]

theorem dropEntries_succ (m : Nat → Option Nat) (v k : Nat) :
    dropEntries (update m v none) (v + 1) k = dropEntries m v (k + 1) := by
  funext w
  simp only [dropEntries]
  by_cases hw : w = v
  · subst hw
    rw [if_neg (by omega), update_self, if_pos (by omega)]
  · rw [update_of_ne hw]
    exact if_congr (by omega) rfl rfl

/-- The pages of the range are free, the others have the roles they had. -/
def released (g : Nat → Role) (r v k : Nat) (n : Nat) : Role :=
  match g n with
  | .user r' w => if r' = r ∧ v ≤ w ∧ w < v + k then .free else .user r' w
  | ρ => ρ

theorem released_of_ne {r v k n : Nat}
    (h : ∀ w, v ≤ w → w < v + k → g n ≠ .user r w) : released g r v k n = g n := by
  rw [released]
  split
  · rename_i r' w hn
    rw [hn, if_neg]
    rintro ⟨rfl, hlow, hhigh⟩
    exact h w hlow hhigh hn
  · rfl

theorem released_of_eq {r v k n w : Nat} (hn : g n = .user r w) (hlow : v ≤ w)
    (hhigh : w < v + k) : released g r v k n = .free := by
  rw [released, hn]
  exact if_pos ⟨rfl, hlow, hhigh⟩

/-- The free pages, those of the page table with root `r`, and the user pages it maps in a
range. -/
def InRange (r v k : Nat) (ρ : Role) : Prop :=
  InTable r ρ ∨ ∃ w, v ≤ w ∧ w < v + k ∧ ρ = .user r w

theorem not_inRange {r v k r' : Nat} (hne : r' ≠ r) : ¬ InRange r v k (.node r' []) := by
  rintro (htable | ⟨w, -, -, hw⟩)
  · exact not_inTable hne htable
  · cases hw

/-- The entry `walk` finds for a page that is mapped. -/
theorem walk_mapped {r v pte : Nat} (h : Tables g s) (hr : g r = .node r [])
    (hv : v < MAXVA / PGSIZE) (hmap : mapping s.mem r v = some pte) :
    Total (walk (r * PGSIZE) (v * PGSIZE) false) (fun res s' => s' = s ∧
      ∃ n, g n = .node r (upper v) ∧ word s.mem n (v % 512) = pte ∧
        res = some (n * PGSIZE + 8 * (v % 512))) s := by
  have hmax := page_lt_MAXVA hv
  have hvpn := vpn_lt hmax
  rw [page_div] at hvpn
  refine (walk_read h hr hmax).mono ?_
  rintro res s' ⟨rfl, hnone, hsome⟩
  rw [page_div] at hnone hsome
  refine ⟨rfl, ?_⟩
  cases res with
  | none =>
    rw [mapping_of_no_node (hnone rfl)] at hmap
    cases hmap
  | some a =>
    obtain ⟨n, hn, rfl⟩ := hsome a rfl
    refine ⟨n, hn, ?_, rfl⟩
    rw [mapping_of_entry h hvpn hn] at hmap
    exact (Option.ite_none_right_eq_some.mp hmap).2 |> Option.some.inj

/-- `uvmunmap` without `do_free` removes its entries. -/
theorem uvmunmapLoop_keep {r : Nat} (k : Nat) :
    ∀ (v : Nat) (s : Phys), Tables g s → g r = .node r [] → v + k ≤ MAXVA / PGSIZE →
      (∀ w, v ≤ w → w < v + k → ∃ pte, mapping s.mem r w = some pte ∧ PTE_FLAGS pte ≠ PTE_V) →
      Total (uvmunmapLoop ld (r * PGSIZE) false k (v * PGSIZE)) (fun _ s' =>
        Remapped (InTable r) r (dropEntries (mapping s.mem r) v k) g g s s' ∧
          s'.free = s.free) s := by
  induction k with
  | zero =>
    intro v s h hr _ _
    refine Total.pure ⟨?_, rfl⟩
    rw [dropEntries_zero]
    exact (Grown.refl r h).remapped hr
  | succ k ih =>
    intro v s h hr hmax hleaf
    obtain ⟨pte, hmap, hflags⟩ := hleaf v le_rfl (by omega)
    have hvpn : v < NVPN := Nat.lt_trans (show v < MAXVA / PGSIZE by omega) (by decide)
    rw [uvmunmapLoop]
    refine Total.seq (walk_mapped h hr (by omega) hmap) ?_
    rintro res s₁ ⟨rfl, n, hn, hword, rfl⟩
    refine Total.bind (load_total (mod512 v) ?_)
    rw [hword, if_neg (mapping_valid hmap), if_neg hflags]
    refine Total.bind (Total.pure (Total.bind (store_total (mod512 v) ?_)))
    have hstored := h.remapped hvpn hn (show 0 < 2 ^ 64 by norm_num)
    rw [if_neg (by simp)] at hstored
    rw [← Nat.succ_mul]
    refine (ih (v + 1) _ hstored.tables hr (by omega) ?_).mono ?_
    · intro w hlow hhigh
      rw [hstored.map, update_of_ne (by omega)]
      exact hleaf w (by omega) (by omega)
    · rintro _ s' ⟨hrest, hfree⟩
      refine ⟨?_, hfree⟩
      rw [hstored.map, dropEntries_succ] at hrest
      exact hstored.trans hrest fun _ => not_inTable

/-- A user page of the range, as `uvmunmap` finds it. -/
structure UserEntry (ld : Linker) (g : Nat → Role) (s : Phys) (r w : Nat) : Prop where
  mapped : ∃ n pte, mapping s.mem r w = some pte ∧ PTE_FLAGS pte ≠ PTE_V ∧
    PTE2PA pte = n * PGSIZE ∧ g n = .user r w ∧ ld.Managed n
  only : ∀ n pte, g n = .user r w → mapping s.mem r w = some pte → PTE2PA pte = n * PGSIZE

/-- A user page is freed, and then its entry is cleared. -/
theorem Tables.freeEntry {r v n x : Nat} (h : Tables g s) (hr : g r = .node r []) (hvpn : v < NVPN)
    (hn : g n = .node r (upper v)) (hx : g x = .user r v) (hsmall : x < 2 ^ 52) :
    Remapped (InRange r v 1) r (update (mapping s.mem r) v none) g (update g x .free) s
      { s with mem := Vm.putWord (update s.mem x fun _ => 1) n (v % 512) 0,
               free := x :: s.free } := by
  have hxnode : ∀ r p, g x ≠ .node r p := fun r p heq => by
    rw [hx] at heq
    cases heq
  have hold : ∀ {y r p}, g y = .node r p → update g x Role.free y = .node r p := fun hy => by
    rw [update_of_ne (fun heq => hxnode _ _ (heq ▸ hy)), hy]
  have hmap₁ : ∀ r', g r' = .node r' [] →
      mapping (update s.mem x fun _ => (1 : UInt8)) r' = mapping s.mem r' :=
    fun r' hr' => h.mapping_update hr' (hxnode r') _
  have hgiven := h.give (by rw [hx]; simp) hxnode hsmall (fun _ => 1)
  have hstored := hgiven.remapped hvpn (hold hn) (show 0 < 2 ^ 64 by norm_num)
  rw [if_neg (by simp), hmap₁ r hr] at hstored
  have hfreed : Change (InRange r v 1) g (update g x .free) s
      { s with mem := update s.mem x fun _ => 1, free := x :: s.free } :=
    Change.update (Or.inr ⟨v, le_rfl, by omega, hx⟩) (Or.inl (Or.inl rfl)) fun y hy _ =>
      update_of_ne hy _ _
  refine ⟨hstored.tables, hfreed.trans (hstored.change.mono fun _ => Or.inl), fun _ _ hy => hold hy,
    fun r' hr' => hstored.inner r' (hr'.update (by simp)), fun r' hne hr' => ?_, hstored.map⟩
  rw [hstored.others r' hne (hold hr'), hmap₁ r' hr']

/-- The first page of a range is released, and then the others. -/
theorem released_succ {r v k x : Nat} (hx : g x = .user r v)
    (honly : ∀ y, g y = .user r v → y = x) :
    released (update g x .free) r (v + 1) k = released g r v (k + 1) := by
  funext y
  by_cases hyx : y = x
  · subst hyx
    rw [released_of_eq hx le_rfl (by omega), released_of_ne, update_self]
    intro w _ _
    rw [update_self]
    simp
  · simp only [released, update_of_ne hyx]
    split
    · rename_i r' w hy
      refine if_congr ⟨fun hin => ⟨hin.1, by omega, by omega⟩, fun hin => ⟨hin.1, ?_, by omega⟩⟩
        rfl rfl
      have hwv : w ≠ v := by
        rintro rfl
        exact hyx (honly y (by rw [hy, hin.1]))
      omega
    · rfl

theorem InRange.mono {r v k v' k' : Nat} {ρ : Role} (h : InRange r v k ρ) (hlow : v' ≤ v)
    (hhigh : v + k ≤ v' + k') : InRange r v' k' ρ := by
  rcases h with htable | ⟨w, hw, hw', hρ⟩
  · exact Or.inl htable
  · exact Or.inr ⟨w, by omega, by omega, hρ⟩

/-- `uvmunmap` with `do_free` removes its entries and frees their pages. -/
theorem uvmunmapLoop_free {r : Nat} (k : Nat) :
    ∀ (v : Nat) (g : Nat → Role) (s : Phys), Tables g s → g r = .node r [] →
      v + k ≤ MAXVA / PGSIZE → (∀ w, v ≤ w → w < v + k → UserEntry ld g s r w) →
      Total (uvmunmapLoop ld (r * PGSIZE) true k (v * PGSIZE)) (fun _ s' =>
        Remapped (InRange r v k) r (dropEntries (mapping s.mem r) v k) g
          (released g r v k) s s') s := by
  induction k with
  | zero =>
    intro v g s h hr _ _
    refine Total.pure ?_
    have hsame : released g r v 0 = g := funext fun n => released_of_ne fun w _ _ => by omega
    rw [dropEntries_zero, hsame]
    exact ((Grown.refl r h).remapped hr).mono fun _ => Or.inl
  | succ k ih =>
    intro v g s h hr hmax hleaf
    obtain ⟨⟨x, pte, hmap, hflags, hpa, hx, hmanaged⟩, honly⟩ := hleaf v le_rfl (by omega)
    have hvpn : v < NVPN := Nat.lt_trans (show v < MAXVA / PGSIZE by omega) (by decide)
    rw [uvmunmapLoop]
    refine Total.seq (walk_mapped h hr (by omega) hmap) ?_
    rintro res s₁ ⟨rfl, n, hn, hword, rfl⟩
    refine Total.bind (load_total (mod512 v) ?_)
    rw [hword, if_neg (mapping_valid hmap), if_neg hflags, if_pos rfl, hpa, ← Nat.succ_mul]
    refine Total.bind (kfree_total hmanaged (Total.bind (store_total (mod512 v) ?_)))
    have hfirst := h.freeEntry hr hvpn hn hx hmanaged.small
    refine (ih (v + 1) _ _ hfirst.tables (hfirst.nodes r [] hr) (by omega) ?_).mono ?_
    · intro w hlow hhigh
      obtain ⟨⟨y, pte', hmap', hflags', hpa', hy, hmanaged'⟩, honly'⟩ :=
        hleaf w (by omega) (by omega)
      have hw : mapping _ r w = mapping s₁.mem r w :=
        (congrFun hfirst.map w).trans (update_of_ne (show w ≠ v by omega) _ _)
      have hyx : y ≠ x := by
        rintro rfl
        have hvw := (Role.user.inj (hx.symm.trans hy)).2
        omega
      constructor
      · exact ⟨y, pte', hw.trans hmap', hflags', hpa', (update_of_ne hyx _ _).trans hy, hmanaged'⟩
      · intro z pte'' hz hmap''
        have hzx : z ≠ x := by
          rintro rfl
          rw [update_self] at hz
          cases hz
        rw [update_of_ne hzx] at hz
        exact honly' z pte'' hz (hw.symm.trans hmap'')
    · intro _ s' hrest
      have hunique : ∀ y, g y = .user r v → y = x := fun y hy =>
        Nat.eq_of_mul_eq_mul_right (show 0 < PGSIZE by decide)
          ((honly y pte hy hmap).symm.trans hpa)
      rw [hfirst.map, dropEntries_succ, released_succ hx hunique] at hrest
      refine (hfirst.mono fun ρ hρ => ?_).trans (hrest.mono fun ρ hρ => ?_) fun _ => not_inRange
      · exact hρ.mono le_rfl (by omega)
      · exact hρ.mono (by omega) (by omega)

/-- The number of rounds of the loop. -/
theorem unmap_rounds {v k : Nat} (h : v + k ≤ MAXVA / PGSIZE) :
    ((v * PGSIZE + k * PGSIZE) % 2 ^ 64 - v * PGSIZE) / PGSIZE = k := by
  have hle : (v + k) * PGSIZE ≤ MAXVA := Nat.mul_le_of_le_div PGSIZE (v + k) MAXVA h
  have hlt : (v + k) * PGSIZE < 2 ^ 64 := lt_of_le_of_lt hle (by decide)
  rw [← Nat.add_mul, Nat.mod_eq_of_lt hlt, Nat.add_mul, Nat.add_sub_cancel_left, page_div]

theorem uvmunmap_keep {r v k : Nat} (h : Tables g s) (hr : g r = .node r [])
    (hmax : v + k ≤ MAXVA / PGSIZE) (hleaf : ∀ w, v ≤ w → w < v + k →
      ∃ pte, mapping s.mem r w = some pte ∧ PTE_FLAGS pte ≠ PTE_V) :
    Total (uvmunmap ld (r * PGSIZE) (v * PGSIZE) k false) (fun _ s' =>
      Remapped (InTable r) r (dropEntries (mapping s.mem r) v k) g g s s' ∧
        s'.free = s.free) s := by
  rw [uvmunmap, if_neg (not_not.mpr (page_mod v)), unmap_rounds hmax]
  exact uvmunmapLoop_keep k v s h hr hmax hleaf

theorem uvmunmap_free {r v k : Nat} (h : Tables g s) (hr : g r = .node r [])
    (hmax : v + k ≤ MAXVA / PGSIZE) (hleaf : ∀ w, v ≤ w → w < v + k → UserEntry ld g s r w) :
    Total (uvmunmap ld (r * PGSIZE) (v * PGSIZE) k true) (fun _ s' =>
      Remapped (InRange r v k) r (dropEntries (mapping s.mem r) v k) g
        (released g r v k) s s') s := by
  rw [uvmunmap, if_neg (not_not.mpr (page_mod v)), unmap_rounds hmax]
  exact uvmunmapLoop_free k v g s h hr hmax hleaf

/-! ## `uvmclear` -/

/-- An entry without `PTE_U`. -/
def clearU (pte : Nat) : Nat := pte &&& (2 ^ 64 - 1 - PTE_U)

theorem testBit_clearU {pte : Nat} (hpte : pte < 2 ^ 64) (i : Nat) :
    (clearU pte).testBit i = (pte.testBit i && decide (i ≠ 4)) := by
  rw [clearU, Nat.testBit_and]
  by_cases hi : i < 64
  · have hmask : ∀ i < 64, (2 ^ 64 - 1 - PTE_U).testBit i = decide (i ≠ 4) := by decide
    rw [hmask i hi]
  · have hzero : pte.testBit i = false :=
      Nat.testBit_lt_two_pow (lt_of_lt_of_le hpte (Nat.pow_le_pow_right (by norm_num) (by omega)))
    rw [hzero, Bool.false_and, Bool.false_and]

theorem clearU_valid {pte : Nat} (hpte : pte < 2 ^ 64) (h : pte &&& PTE_V ≠ 0) :
    clearU pte &&& PTE_V ≠ 0 := by
  rw [and_PTE_V] at h ⊢
  have hbit := testBit_clearU hpte 0
  rw [Nat.testBit_zero, Nat.testBit_zero] at hbit
  simp at hbit
  omega

theorem uvmclear_total {r v pte : Nat} (h : Tables g s) (hr : g r = .node r [])
    (hv : v < MAXVA / PGSIZE) (hmap : mapping s.mem r v = some pte) :
    Total (uvmclear (r * PGSIZE) (v * PGSIZE)) (fun _ s' =>
      Remapped (InTable r) r (update (mapping s.mem r) v (some (clearU pte))) g g s s' ∧
        s'.free = s.free) s := by
  have hvpn : v < NVPN := Nat.lt_trans hv (by decide)
  rw [uvmclear]
  refine Total.seq (walk_mapped h hr hv hmap) ?_
  rintro res s₁ ⟨rfl, n, hn, hword, rfl⟩
  refine Total.bind (load_total (mod512 v) (store_total (mod512 v) ⟨?_, rfl⟩))
  have hpte : pte < 2 ^ 64 := hword ▸ word_lt _ _ _
  have hclear : clearU pte < 2 ^ 64 := lt_of_le_of_lt Nat.and_le_left hpte
  have hstored := h.remapped hvpn hn hclear
  rw [if_pos (clearU_valid hpte (mapping_valid hmap))] at hstored
  rw [hword]
  exact hstored

end Xv6.Vm
