/-
  Vm/FiniteMap.lean --- every page table is a finite map, and `vm.c` works on it as one.

  The results of `Vm/Walk.lean` are about roles.  Here they are said of any page table in
  memory: its pages are distinct, and none of them is free.  Roles for it can always be
  found, and what they say is what is left when they are forgotten again.
-/
import Xv6.Vm.Boot

set_option autoImplicit false

namespace Xv6.Vm

open Function Foundation

variable {g : Nat → Role} {s s' : Phys} {r : Nat}

/-- A page table in memory: no page is reached on two paths, and none is on the free
list. -/
structure PageTable (s : Phys) (r : Nat) : Prop where
  distinct : ∀ p q n, p.length ≤ 2 → q.length ≤ 2 →
    node s.mem p r = some n → node s.mem q r = some n → p = q
  used : ∀ p n, p.length ≤ 2 → node s.mem p r = some n → n ∉ s.free
  nodup : s.free.Nodup
  small : ∀ n ∈ s.free, n < 2 ^ 52

theorem Tables.pageTable (h : Tables g s) (hr : g r = .node r []) : PageTable s r := by
  refine ⟨fun p q n hp hq hpn hqn => ?_, fun p n hp hpn hfree => ?_, h.nodup, h.small⟩
  · have hrole := (h.role_of hr hp hpn).symm.trans (h.role_of hr hq hqn)
    exact (Role.node.inj hrole).2
  · have hrole := (h.role_of hr hp hpn).symm.trans ((h.free n).mp hfree)
    cases hrole

/-- A user page of a page table that is freed when it is unmapped: it is no page of the
table, and it is not free. -/
structure Frame (ld : Linker) (s : Phys) (r w n : Nat) : Prop where
  mapped : ∃ pte, mapping s.mem r w = some pte ∧ PTE_FLAGS pte ≠ PTE_V ∧ PTE2PA pte = n * PGSIZE
  managed : ld.Managed n
  used : n ∉ s.free
  apart : ∀ p, p.length ≤ 2 → node s.mem p r ≠ some n

open Classical in
/-- Roles for one page table, and for the user pages `U` of it. -/
noncomputable def rolesOf (s : Phys) (r : Nat) (U : Nat → Nat → Prop) (n : Nat) : Role :=
  if n ∈ s.free then .free
  else if hnode : ∃ p, p.length ≤ 2 ∧ node s.mem p r = some n then .node r hnode.choose
  else if huser : ∃ w, U n w then .user r huser.choose
  else .outside

variable {U : Nat → Nat → Prop}

theorem rolesOf_node (h : PageTable s r) {n : Nat} {p : List Nat} (hp : p.length ≤ 2)
    (hn : node s.mem p r = some n) : rolesOf s r U n = .node r p := by
  have hex : ∃ p, p.length ≤ 2 ∧ node s.mem p r = some n := ⟨p, hp, hn⟩
  rw [rolesOf, if_neg (h.used p n hp hn), dif_pos hex]
  exact congrArg _ (h.distinct _ _ n hex.choose_spec.1 hp hex.choose_spec.2 hn)

theorem rolesOf_tables (h : PageTable s r) (U : Nat → Nat → Prop) : Tables (rolesOf s r U) s := by
  have hroot : rolesOf s r U r = .node r [] := rolesOf_node h (by simp) rfl
  refine ⟨h.nodup, fun n => ?_, h.small, fun n r' p => ⟨fun hn => ?_, ?_⟩⟩
  · rw [rolesOf]
    split
    · exact iff_of_true (by assumption) rfl
    · rename_i hfree
      refine iff_of_false hfree ?_
      split
      · simp
      · split <;> simp
  · rw [rolesOf] at hn
    split at hn
    · cases hn
    · split at hn
      · rename_i hnode
        obtain ⟨rfl, rfl⟩ := Role.node.inj hn
        exact ⟨hnode.choose_spec.1, hroot, hnode.choose_spec.2⟩
      · split at hn <;> cases hn
  · rintro ⟨hp, hr', hnode⟩
    -- the only root is `r`
    have hrr : r' = r := by
      rw [rolesOf] at hr'
      split at hr'
      · cases hr'
      · split at hr'
        · exact (Role.node.inj hr').1.symm
        · split at hr' <;> cases hr'
    subst hrr
    exact rolesOf_node h hp hnode

theorem rolesOf_user (hfun : ∀ n w w', U n w → U n w' → w = w') (hused : ∀ n w, U n w → n ∉ s.free)
    (hapart : ∀ n w, U n w → ∀ p, p.length ≤ 2 → node s.mem p r ≠ some n) {n w : Nat} :
    rolesOf s r U n = .user r w ↔ U n w := by
  rw [rolesOf]
  constructor
  · intro hn
    split at hn
    · cases hn
    · split at hn
      · cases hn
      · split at hn
        · rename_i huser
          exact (Role.user.inj hn).2 ▸ huser.choose_spec
        · cases hn
  · intro hU
    have hnode : ¬ ∃ p, p.length ≤ 2 ∧ node s.mem p r = some n := fun ⟨p, hp, hn⟩ =>
      hapart n w hU p hp hn
    have hex : ∃ w, U n w := ⟨w, hU⟩
    rw [if_neg (hused n w hU), dif_neg hnode, dif_pos hex]
    exact congrArg _ (hfun n _ _ hex.choose_spec hU)

/-! ## Entries -/

/-- The page and the permissions of an entry that `mappages` makes. -/
theorem leafEntry_page {pa perm i : Nat} (hperm : perm < 2 ^ 10) :
    PTE2PA (leafEntry pa perm i) = PGROUNDDOWN ((pa + i * PGSIZE) % 2 ^ 64) ∧
      PTE_FLAGS (leafEntry pa perm i) = perm ||| PTE_V := by
  have hflags : perm ||| PTE_V < 2 ^ 10 := Nat.or_lt_two_pow hperm (by decide)
  have hlt : (pa + i * PGSIZE) % 2 ^ 64 < 2 ^ 64 := Nat.mod_lt _ (by norm_num)
  have hpage : (pa + i * PGSIZE) % 2 ^ 64 / PGSIZE < 2 ^ 52 :=
    Nat.div_lt_of_lt_mul (lt_of_lt_of_eq hlt (by rfl))
  rw [leafEntry, Nat.or_assoc, PA2PTE_or hflags, PTE2PA_of hpage hflags, PTE_FLAGS_eq]
  exact ⟨rfl, by omega⟩

/-! ## The routines -/

/-- The pages of the range of `mappages`. -/
def npages (va size : Nat) : Nat := (va + size - 1) / PGSIZE + 1 - va / PGSIZE

/-- Page tables refine finite maps: `walk` changes no mapping; `mappages` adds its range, or
the first pages of it when it runs out of memory; `uvmunmap` removes its pages; `uvmclear`
clears one bit of one entry; `walkaddr` is the lookup of a page that user code may access. -/
theorem pageTable_refines_map (ld : Linker) (h : PageTable s r) :
    (∀ va < MAXVA, Total (walk (r * PGSIZE) va true)
      (fun _ s' => PageTable s' r ∧ mapping s'.mem r = mapping s.mem r) s) ∧
    (∀ va size pa perm, 0 < size → va + size ≤ MAXVA → pa < 2 ^ 64 → perm < 2 ^ 10 →
      (∀ w, va / PGSIZE ≤ w → w ≤ (va + size - 1) / PGSIZE → mapping s.mem r w = none) →
      Total (mappages (r * PGSIZE) va size pa perm) (fun ok s' => PageTable s' r ∧
        ∃ j, j ≤ npages va size ∧ (ok = true ↔ j = npages va size) ∧
          mapping s'.mem r = addEntries (mapping s.mem r) (va / PGSIZE) j (leafEntry pa perm)) s ∧
      ∀ i, PTE2PA (leafEntry pa perm i) = PGROUNDDOWN ((pa + i * PGSIZE) % 2 ^ 64) ∧
        PTE_FLAGS (leafEntry pa perm i) = perm ||| PTE_V) ∧
    (∀ v k, v + k ≤ MAXVA / PGSIZE →
      (∀ w, v ≤ w → w < v + k → ∃ pte, mapping s.mem r w = some pte ∧ PTE_FLAGS pte ≠ PTE_V) →
      Total (uvmunmap ld (r * PGSIZE) (v * PGSIZE) k false) (fun _ s' => PageTable s' r ∧
        mapping s'.mem r = dropEntries (mapping s.mem r) v k) s) ∧
    (∀ v k, v + k ≤ MAXVA / PGSIZE → ∀ frame : Nat → Nat,
      (∀ w, v ≤ w → w < v + k → Frame ld s r w (frame w)) →
      (∀ w w', v ≤ w → w < v + k → v ≤ w' → w' < v + k → frame w = frame w' → w = w') →
      Total (uvmunmap ld (r * PGSIZE) (v * PGSIZE) k true) (fun _ s' => PageTable s' r ∧
        mapping s'.mem r = dropEntries (mapping s.mem r) v k) s) ∧
    (∀ v pte, v < MAXVA / PGSIZE → mapping s.mem r v = some pte →
      Total (uvmclear (r * PGSIZE) (v * PGSIZE)) (fun _ s' => PageTable s' r ∧
        mapping s'.mem r = update (mapping s.mem r) v (some (clearU pte))) s ∧
      ∀ i, (clearU pte).testBit i = (pte.testBit i && decide (i ≠ 4))) ∧
    (∀ va, Total (walkaddr (r * PGSIZE) va) (fun pa s' => s' = s ∧
      pa = if va < MAXVA then userAddr (mapping s.mem r (va / PGSIZE)) else 0) s) := by
  have htables := rolesOf_tables h fun _ _ => False
  have hroot : rolesOf s r (fun _ _ => False) r = .node r [] := rolesOf_node h (by simp) rfl
  refine ⟨fun va hva => ?_, fun va size pa perm hsize hmax hpa hperm hnone => ⟨?_, fun i => ?_⟩,
    fun v k hmax hleaf => ?_, fun v k hmax frame hframe hinj => ?_, fun v pte hv hmap => ⟨?_, ?_⟩,
    fun va => walkaddr_total⟩
  · refine (walk_alloc htables hroot hva).mono ?_
    rintro res s' ⟨g', hgrown, -⟩
    exact ⟨hgrown.tables.pageTable (hgrown.nodes r [] hroot), hgrown.maps r hroot⟩
  · have hperm64 : perm < 2 ^ 64 := by omega
    refine (mappages_total htables hroot hsize hmax hpa hperm64 hnone).mono ?_
    rintro ok s' ⟨g', j, hj, hok, hmap⟩
    exact ⟨hmap.tables.pageTable (hmap.nodes r [] hroot), j, hj, hok, hmap.map⟩
  · exact leafEntry_page hperm
  · refine (uvmunmap_keep htables hroot hmax hleaf).mono ?_
    rintro _ s' ⟨hmap, -⟩
    exact ⟨hmap.tables.pageTable (hmap.nodes r [] hroot), hmap.map⟩
  · -- the pages to be freed are user pages of this table
    let U : Nat → Nat → Prop := fun n w => v ≤ w ∧ w < v + k ∧ frame w = n
    have huser : ∀ {n w}, rolesOf s r U n = .user r w ↔ U n w := by
      refine rolesOf_user ?_ ?_ ?_
      · rintro n w w' ⟨hlow, hhigh, hw⟩ ⟨hlow', hhigh', hw'⟩
        exact hinj w w' hlow hhigh hlow' hhigh' (hw.trans hw'.symm)
      · rintro n w ⟨hlow, hhigh, rfl⟩
        exact (hframe w hlow hhigh).used
      · rintro n w ⟨hlow, hhigh, rfl⟩
        exact (hframe w hlow hhigh).apart
    have hroot' : rolesOf s r U r = .node r [] := rolesOf_node h (by simp) rfl
    refine (uvmunmap_free (rolesOf_tables h U) hroot' hmax fun w hlow hhigh => ?_).mono ?_
    · obtain ⟨pte, hmap, hflags, hpa⟩ := (hframe w hlow hhigh).mapped
      refine ⟨⟨frame w, pte, hmap, hflags, hpa, huser.mpr ⟨hlow, hhigh, rfl⟩,
        (hframe w hlow hhigh).managed⟩, fun n pte' hn hmap' => ?_⟩
      obtain ⟨-, -, rfl⟩ := huser.mp hn
      rw [hmap] at hmap'
      rw [← Option.some.inj hmap', hpa]
    · intro _ s' hmap
      exact ⟨hmap.tables.pageTable (hmap.nodes r [] hroot'), hmap.map⟩
  · refine (uvmclear_total htables hroot hv hmap).mono ?_
    rintro _ s' ⟨hmap', -⟩
    exact ⟨hmap'.tables.pageTable (hmap'.nodes r [] hroot), hmap'.map⟩
  · have hpte : pte < 2 ^ 64 := by
      obtain ⟨n, -, hn⟩ := mapping_word hmap
      rw [← hn]
      exact word_lt _ _ _
    exact testBit_clearU hpte

/-- Memory that is all zero. -/
def blank : Phys := (bootState 0).phys

theorem blank_word (n i : Nat) : word blank.mem n i = 0 := by
  have hfill := word_fill blank.mem n i
  rw [show (fun _ => 0) = blank.mem n from rfl, update_eq_self] at hfill
  exact hfill

/-- An empty page table, in the page that the kernel has. -/
theorem blank_pageTable : PageTable blank 557055 := by
  have hnode : ∀ p n, node blank.mem p 557055 = some n → p = [] ∧ n = 557055 := by
    intro p n hn
    cases p with
    | nil => exact ⟨rfl, (Option.some.inj hn).symm⟩
    | cons i p =>
      rw [node, descend, blank_word, child_zero] at hn
      cases hn
  refine ⟨fun p q n _ _ hp hq => ?_, fun p n _ hn => ?_, by decide, by decide⟩
  · rw [(hnode p n hp).1, (hnode q n hq).1]
  · rw [(hnode p n hn).2]
    decide

theorem blank_mapping (w : Nat) : mapping blank.mem 557055 w = none := by
  cases hw : mapping blank.mem 557055 w with
  | none => rfl
  | some pte =>
    obtain ⟨n, hvalid, rfl⟩ := mapping_word hw
    rw [blank_word] at hvalid
    exact absurd (Nat.zero_and _) hvalid

/-- Two pages are mapped, and the first of them is unmapped. -/
theorem pageTable_refines_map_two : ∃ s₁ s₂,
    (mappages (557055 * PGSIZE) 0 (2 * PGSIZE) KERNBASE PTE_R).run blank = .ok (true, s₁) ∧
      (uvmunmap bootKernel (557055 * PGSIZE) 0 1 false).run s₁ = .ok ((), s₂) ∧
      PageTable s₂ 557055 ∧ mapping s₂.mem 557055 0 = none ∧
      mapping s₂.mem 557055 1 = some (leafEntry KERNBASE PTE_R 1) := by
  obtain ⟨-, hmap, -⟩ := pageTable_refines_map bootKernel blank_pageTable
  obtain ⟨⟨ok, s₁, hrun₁, htable₁, j, -, hall, hentries⟩, hflags⟩ :=
    hmap 0 (2 * PGSIZE) KERNBASE PTE_R (by decide) (by decide) (by decide) (by decide)
      fun w _ _ => blank_mapping w
  have hok : ok = true := by
    have hcheck : ((mappages (557055 * PGSIZE) 0 (2 * PGSIZE) KERNBASE PTE_R).run
        blank).toOption.any Prod.fst = true := by decide +kernel
    rw [hrun₁] at hcheck
    exact hcheck
  have hj : j = 2 := hall.mp hok
  subst hok hj
  obtain ⟨-, -, hunmap, -⟩ := pageTable_refines_map bootKernel htable₁
  obtain ⟨_, s₂, hrun₂, htable₂, hdropped⟩ := hunmap 0 1 (by decide) fun w hlow hhigh => by
    obtain rfl : w = 0 := by omega
    refine ⟨leafEntry KERNBASE PTE_R 0, ?_, ?_⟩
    · rw [hentries]
      rfl
    · rw [(hflags 0).2]
      decide
  refine ⟨s₁, s₂, hrun₁, hrun₂, htable₂, ?_, ?_⟩
  · rw [hdropped]
    rfl
  · rw [hdropped, hentries]
    rfl

end Xv6.Vm
