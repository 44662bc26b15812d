/-
  Vm/Mapping.lean --- what a page table maps, and who has which page.

  `mapping` reads a three-level page table as a finite map from virtual page numbers to
  entries.  It is defined on the bytes of memory, as the hardware would walk them.

  A page has one role: it is on the free list, it is the node of one page table at one
  path, or something else has it.  `Tables` says that the roles are true of memory.  Since
  a page has one role only, the page-table pages of all tables are distinct from each
  other and from the free pages, and that is what makes a write to one of them a change
  of one entry of one table.
-/
import Mathlib.Tactic.NormNum
import Xv6.Foundation.Radix
import Xv6.Vm.Memory

set_option autoImplicit false

namespace Xv6.Vm

open Function List Foundation

/-! ## Entries -/

theorem and_PTE_V (pte : Nat) : pte &&& PTE_V = pte % 2 := Nat.and_one_is_mod pte

theorem PX_eq (level va : Nat) : PX level va = va / PGSIZE / 2 ^ (9 * level) % 512 := by
  have hmask : (0x1FF : Nat) = 2 ^ 9 - 1 := by norm_num
  have hpage : PGSIZE = 2 ^ 12 := rfl
  rw [PX, hmask, Nat.and_two_pow_sub_one_eq_mod, Nat.shiftRight_eq_div_pow, hpage,
    Nat.div_div_eq_div_mul, pow_add]

theorem PX_lt (level va : Nat) : PX level va < 512 := by
  rw [PX_eq]
  exact Nat.mod_lt _ (by norm_num)

theorem PA2PTE_eq (pa : Nat) : PA2PTE pa = pa / PGSIZE * 2 ^ 10 := by
  rw [PA2PTE, Nat.shiftLeft_eq, Nat.shiftRight_eq_div_pow]
  rfl

theorem PTE2PA_eq (pte : Nat) : PTE2PA pte = pte / 2 ^ 10 * PGSIZE % 2 ^ 64 := by
  rw [PTE2PA, Nat.shiftLeft_eq, Nat.shiftRight_eq_div_pow]
  rfl

theorem PTE_FLAGS_eq (pte : Nat) : PTE_FLAGS pte = pte % 2 ^ 10 :=
  Nat.and_two_pow_sub_one_eq_mod pte 10

/-- An entry of the page `n` with some permissions. -/
theorem PA2PTE_or {pa perm : Nat} (hperm : perm < 2 ^ 10) :
    PA2PTE pa ||| perm = pa / PGSIZE * 2 ^ 10 + perm := by
  rw [PA2PTE_eq, Nat.mul_comm, Nat.two_pow_add_eq_or_of_lt hperm]

/-- The page an entry of this form is about. -/
theorem PTE2PA_of {n perm : Nat} (hn : n < 2 ^ 52) (hperm : perm < 2 ^ 10) :
    PTE2PA (n * 2 ^ 10 + perm) = n * PGSIZE := by
  have hdiv : (n * 2 ^ 10 + perm) / 2 ^ 10 = n := by omega
  rw [PTE2PA_eq, hdiv, show PGSIZE = 4096 from rfl, Nat.mod_eq_of_lt (by omega)]

/-! ## Words of a page -/

/-- Entry `i` of the page `n`. -/
def word (mem : Nat → Page) (n i : Nat) : Nat := getLE (mem n) 8 (8 * i)

theorem word_lt (mem : Nat → Page) (n i : Nat) : word mem n i < 2 ^ 64 := by
  have h := getLE_lt (mem n) 8 (8 * i)
  have h8 : (256 : Nat) ^ 8 = 2 ^ 64 := by norm_num
  rw [h8] at h
  exact h

theorem word_update_ne {mem : Nat → Page} {n m : Nat} (hne : m ≠ n) (page : Page) (i : Nat) :
    word (update mem n page) m i = word mem m i := by
  rw [word, word, update_of_ne hne]

theorem word_fill (mem : Nat → Page) (n i : Nat) : word (update mem n fun _ => 0) n i = 0 := by
  have hbyte : ∀ k, getByte (fun _ : Fin PGSIZE => (0 : UInt8)) k = 0 := by
    intro k
    simp [getByte]
  have hzero : ∀ w off, getLE (fun _ : Fin PGSIZE => (0 : UInt8)) w off = 0 := by
    intro w
    induction w with
    | zero => exact fun _ => rfl
    | succ w ih =>
      intro off
      rw [getLE, hbyte, ih]
      rfl
  rw [word, update_self, hzero]

/-- The memory after an entry was stored. -/
def putWord (mem : Nat → Page) (n i v : Nat) : Nat → Page :=
  update mem n (putLE (mem n) 8 (8 * i) v)

theorem word_putWord_self {mem : Nat → Page} {n i v : Nat} (hi : i < 512) (hv : v < 2 ^ 64) :
    word (putWord mem n i v) n i = v := by
  have hpage : PGSIZE = 4096 := rfl
  have h8 : (256 : Nat) ^ 8 = 2 ^ 64 := by norm_num
  rw [word, putWord, update_self, getLE_putLE (by omega), h8, Nat.mod_eq_of_lt hv]

theorem word_putWord_ne {mem : Nat → Page} {n i v m j : Nat} (hne : m ≠ n ∨ j ≠ i) :
    word (putWord mem n i v) m j = word mem m j := by
  by_cases hm : m = n
  · subst hm
    have hj : j ≠ i := hne.resolve_left fun h => h rfl
    rw [word, putWord, update_self, getLE_putLE_ne (by omega)]
    rfl
  · exact word_update_ne hm _ _

/-! ## The map -/

/-- The page a valid entry points to. -/
def child (pte : Nat) : Option Nat := if pte &&& PTE_V ≠ 0 then some (PTE2PA pte / PGSIZE) else none

theorem child_eq_none {pte : Nat} (h : pte &&& PTE_V = 0) : child pte = none := by
  rw [child, if_neg (not_not.mpr h)]

theorem child_zero : child 0 = none := rfl

theorem child_of {pte : Nat} (h : pte &&& PTE_V ≠ 0) : child pte = some (PTE2PA pte / PGSIZE) :=
  if_pos h

/-- The page-table page at a path of indices below the root `r`. -/
def node (mem : Nat → Page) (p : List Nat) (r : Nat) : Option Nat := descend child (word mem) p r

/-- Virtual page numbers: three indices of nine bits. -/
def NVPN : Nat := 2 ^ 27

/-- The path to the last level. -/
def upper (vpn : Nat) : List Nat := [vpn / 2 ^ 18 % 512, vpn / 2 ^ 9 % 512]

/-- A page number is its path and its last index. -/
theorem upper_inj {v w : Nat} (hv : v < NVPN) (hw : w < NVPN) (hup : upper v = upper w)
    (hlow : v % 512 = w % 512) : v = w := by
  have hN : NVPN = 134217728 := rfl
  simp only [upper, List.cons.injEq, and_true] at hup
  omega

/-- What the page table with root `r` maps a virtual page to. -/
def mapping (mem : Nat → Page) (r vpn : Nat) : Option Nat :=
  if vpn < NVPN then
    (node mem (upper vpn) r).bind fun n =>
      let pte := word mem n (vpn % 512)
      if pte &&& PTE_V ≠ 0 then some pte else none
  else none

/-- What is mapped is a valid entry of a page-table page. -/
theorem mapping_word {mem : Nat → Page} {r vpn pte : Nat} (h : mapping mem r vpn = some pte) :
    ∃ n, pte &&& PTE_V ≠ 0 ∧ word mem n (vpn % 512) = pte := by
  rw [mapping] at h
  split at h
  · obtain ⟨n, -, hn⟩ := Option.bind_eq_some_iff.mp h
    simp only [Option.ite_none_right_eq_some, Option.some.injEq] at hn
    exact ⟨n, hn.2 ▸ hn.1, hn.2⟩
  · cases h

theorem mapping_valid {mem : Nat → Page} {r vpn pte : Nat} (h : mapping mem r vpn = some pte) :
    pte &&& PTE_V ≠ 0 := by
  obtain ⟨n, hvalid, -⟩ := mapping_word h
  exact hvalid

/-- The map, where the page-table page is known. -/
theorem mapping_of_node {mem : Nat → Page} {r vpn n : Nat} (hvpn : vpn < NVPN)
    (hn : node mem (upper vpn) r = some n) :
    mapping mem r vpn =
      if word mem n (vpn % 512) &&& PTE_V ≠ 0 then some (word mem n (vpn % 512)) else none := by
  rw [mapping, if_pos hvpn, hn]
  rfl

theorem mapping_of_no_node {mem : Nat → Page} {r vpn : Nat} (hn : node mem (upper vpn) r = none) :
    mapping mem r vpn = none := by
  rw [mapping, hn]
  exact ite_self none

theorem mapping_eq {mem mem' : Nat → Page} {r vpn : Nat}
    (hnode : node mem' (upper vpn) r = node mem (upper vpn) r)
    (hword : ∀ n, node mem (upper vpn) r = some n →
      word mem' n (vpn % 512) = word mem n (vpn % 512)) :
    mapping mem' r vpn = mapping mem r vpn := by
  rw [mapping, mapping, hnode]
  cases hn : node mem (upper vpn) r with
  | none => simp only [Option.bind_none]
  | some n => simp only [Option.bind_some, hword n hn]

/-! ## Roles -/

inductive Role where
  | free
  /-- a page of the page table with root `r` -/
  | node (r : Nat) (path : List Nat)
  /-- a page of user memory, mapped by the page table with root `r` -/
  | user (r vpn : Nat)
  /-- an argument string of `sys_exec` -/
  | arg
  | trapframe (p : Pid)
  | pipe
  /-- in use since the kernel booted -/
  | kernel
  /-- not a page that `kalloc` gives out -/
  | outside

structure Tables (g : Nat → Role) (s : Phys) : Prop where
  nodup : s.free.Nodup
  free : ∀ n, n ∈ s.free ↔ g n = .free
  small : ∀ n ∈ s.free, n < 2 ^ 52
  node : ∀ n r p, g n = .node r p ↔
    p.length ≤ 2 ∧ g r = .node r [] ∧ node s.mem p r = some n

/-- The entries above the last level have no permissions: they point to page-table pages. -/
def Inner (g : Nat → Role) (mem : Nat → Page) (r : Nat) : Prop :=
  ∀ n p i, g n = .node r p → p.length < 2 → word mem n i &&& PTE_V ≠ 0 →
    word mem n i &&& (PTE_R ||| PTE_W ||| PTE_X) = 0

namespace Tables

variable {g : Nat → Role} {s s' : Phys}

section

variable (h : Tables g s)

include h

/-- The page at a path of a table. -/
theorem node_of {n r : Nat} {p : List Nat} (hn : g n = .node r p) : Vm.node s.mem p r = some n :=
  ((h.node n r p).mp hn).2.2

theorem root_of {n r : Nat} {p : List Nat} (hn : g n = .node r p) : g r = .node r [] :=
  ((h.node n r p).mp hn).2.1

theorem role_of {n r : Nat} {p : List Nat} (hr : g r = .node r [])
    (hp : p.length ≤ 2) (hn : Vm.node s.mem p r = some n) : g n = .node r p :=
  (h.node n r p).mpr ⟨hp, hr, hn⟩

/-- A page table depends on the entries of its own inner pages only. -/
theorem node_congr {mem' : Nat → Page} {r : Nat} (hr : g r = .node r [])
    (hsame : ∀ x q j, g x = .node r q → q.length < 2 → word mem' x j = word s.mem x j)
    {p : List Nat} (hp : p.length ≤ 2) : Vm.node mem' p r = Vm.node s.mem p r := by
  refine descend_congr fun q j m hq hm => ?_
  have hlen := hq.length_le
  rw [length_append, length_singleton] at hlen
  exact hsame m q j (h.role_of hr (by omega) hm) (by omega)

/-- What it maps depends on the entries of its pages. -/
theorem mapping_congr {mem' : Nat → Page} {r : Nat} (hr : g r = .node r [])
    (hsame : ∀ x q j, g x = .node r q → word mem' x j = word s.mem x j) :
    mapping mem' r = mapping s.mem r := by
  funext vpn
  exact mapping_eq (h.node_congr hr (fun x q j hx _ => hsame x q j hx) (le_refl 2))
    fun n hn => hsame n _ _ (h.role_of hr (le_refl 2) hn)

/-- A page that is no node does not matter. -/
theorem mapping_update {n r : Nat} (hr : g r = .node r [])
    (hn : ∀ p, g n ≠ .node r p) (page : Page) :
    mapping (update s.mem n page) r = mapping s.mem r := by
  refine h.mapping_congr hr fun x q j hx => word_update_ne ?_ page j
  rintro rfl
  exact hn q hx

/-- The contents of a page that is no node do not matter. -/
theorem setPage {n : Nat} (hn : ∀ r p, g n ≠ .node r p) (page : Page) :
    Tables g (s.setPage n page) := by
  refine ⟨h.nodup, h.free, h.small, fun x r p => ?_⟩
  have hsame : ∀ y q j, g y = .node r q → word (update s.mem n page) y j = word s.mem y j := by
    intro y q j hy
    refine word_update_ne ?_ page j
    rintro rfl
    exact hn r q hy
  rw [h.node]
  refine and_congr_right fun hp => and_congr_right fun hr => ?_
  exact Eq.congr (h.node_congr hr (fun y q j hy _ => hsame y q j hy) hp).symm rfl

/-- A page that is no node gets another role that is none. -/
theorem node_update {n : Nat} {ρ : Role} (hn : ∀ r p, g n ≠ .node r p) (hρ : ∀ r p, ρ ≠ .node r p)
    (page : Page) (x r : Nat) (p : List Nat) : update g n ρ x = .node r p ↔
      p.length ≤ 2 ∧ update g n ρ r = .node r [] ∧ Vm.node (update s.mem n page) p r = some x := by
  have hsame : ∀ y q, update g n ρ y = .node r q ↔ g y = .node r q := by
    intro y q
    by_cases hy : y = n
    · subst hy
      rw [update_self]
      exact iff_of_false (hρ r q) (hn r q)
    · rw [update_of_ne hy]
  rw [hsame x p, hsame r []]
  exact (h.setPage hn page).node x r p

section

variable {n : Nat} {l : List Nat} (hfree : s.free = n :: l)

include hfree

/-- The first free page. -/
theorem free_head : g n = .free := (h.free n).mp (hfree ▸ mem_cons_self)

/-- The free pages that are left when the first one is used. -/
theorem free_tail {ρ : Role} (hρ : ρ ≠ .free) :
    l.Nodup ∧ (∀ x, x ∈ l ↔ update g n ρ x = .free) ∧ ∀ x ∈ l, x < 2 ^ 52 := by
  have hnodup := nodup_cons.mp (hfree ▸ h.nodup)
  refine ⟨hnodup.2, fun x => ?_, fun x hx => h.small x (hfree ▸ mem_cons_of_mem n hx)⟩
  by_cases hx : x = n
  · subst hx
    rw [update_self]
    exact iff_of_false hnodup.1 hρ
  · rw [update_of_ne hx, ← h.free x, hfree, mem_cons]
    exact (or_iff_right hx).symm

/-- A page is taken off the free list. -/
theorem take {ρ : Role} (hρ : ρ ≠ .free) (hnode : ∀ r p, ρ ≠ .node r p) (page : Page) (b : Nat) :
    Tables (update g n ρ) { mem := update s.mem n page, free := l, budget := b } := by
  obtain ⟨hnodup, hmem, hsmall⟩ := h.free_tail hfree hρ
  refine ⟨hnodup, hmem, hsmall, h.node_update (fun r p hn => ?_) hnode page⟩
  cases (h.free_head hfree).symm.trans hn

end

/-- A page that is not a node is put on the free list. -/
theorem give {n : Nat} (hfree : g n ≠ .free) (hnode : ∀ r p, g n ≠ .node r p)
    (hsmall : n < 2 ^ 52) (page : Page) :
    Tables (update g n .free) { s with mem := update s.mem n page, free := n :: s.free } := by
  refine ⟨nodup_cons.mpr ⟨mt (h.free n).mp hfree, h.nodup⟩, fun x => ?_, ?_,
    h.node_update hnode (by simp) page⟩
  · rw [mem_cons, h.free x]
    by_cases hx : x = n
    · subst hx
      rw [update_self]
      exact iff_of_true (Or.inl rfl) rfl
    · rw [update_of_ne hx]
      exact or_iff_right hx
  · intro x hx
    rcases mem_cons.mp hx with rfl | hx
    · exact hsmall
    · exact h.small x hx

end

end Tables

/-! ## Linking a page into a table -/

/-- The words of memory after the blank page `m` was linked into entry `i` of `n`. -/
structure Linked (mem mem' : Nat → Page) (n i m : Nat) : Prop where
  link : word mem' n i = m * 2 ^ 10 + 1
  blank : ∀ j, word mem' m j = 0
  rest : ∀ x j, x ≠ m → x ≠ n ∨ j ≠ i → word mem' x j = word mem x j

theorem linked_putWord (mem : Nat → Page) {n i m : Nat} (hmn : m ≠ n) (hi : i < 512)
    (hm : m < 2 ^ 52) :
    Linked mem (putWord (update mem m fun _ => 0) n i (PA2PTE (m * PGSIZE) ||| PTE_V)) n i m := by
  have hpte : PA2PTE (m * PGSIZE) ||| PTE_V = m * 2 ^ 10 + 1 := by
    rw [PA2PTE_or (by decide), Nat.mul_div_cancel m (by decide)]
    rfl
  refine ⟨?_, fun j => ?_, fun x j hx hxj => ?_⟩
  · rw [word_putWord_self hi (by rw [hpte]; omega), hpte]
  · rw [word_putWord_ne (Or.inl hmn), word_fill]
  · rw [word_putWord_ne hxj, word_update_ne hx]

theorem child_link {m : Nat} (hm : m < 2 ^ 52) : child (m * 2 ^ 10 + 1) = some m := by
  have hV : (m * 2 ^ 10 + 1) &&& PTE_V ≠ 0 := by
    rw [and_PTE_V]
    omega
  rw [child_of hV, PTE2PA_of hm (by norm_num), Nat.mul_div_cancel m (by decide)]

namespace Tables

variable {g : Nat → Role} {s s' : Phys} {n m r i b : Nat} {l p : List Nat}

section

variable (h : Tables g s) (hn : g n = .node r p)

include h hn

/-- Nothing was at its path before. -/
theorem link_new (hempty : word s.mem n i &&& PTE_V = 0) : Vm.node s.mem (p ++ [i]) r = none := by
  rw [Vm.node, descend_snoc, show descend child (word s.mem) p r = some n from h.node_of hn]
  exact child_eq_none hempty

section

variable (hempty : word s.mem n i &&& PTE_V = 0) (hm : g m = .free) (hsmall : m < 2 ^ 52)
  (hlinked : Linked s.mem s'.mem n i m)

include hempty hm hsmall hlinked

/-- The new page is at one path of its table, and nothing else changes. -/
theorem link_node ⦃r' : Nat⦄ ⦃q : List Nat⦄ (hr' : g r' = .node r' []) (hq : q.length ≤ 2) :
    (r' = r ∧ q = p ++ [i] → Vm.node s'.mem q r' = some m) ∧
      (¬ (r' = r ∧ q = p ++ [i]) → Vm.node s'.mem q r' = Vm.node s.mem q r') := by
  by_cases hrr : r' = r
  · subst hrr
    simp only [true_and]
    refine descend_link (h.node_of hn) (fun q hq hqn => ?_) (fun q hq hqm => ?_)
      (child_eq_none hempty) (by rw [hlinked.link, child_link hsmall])
      (fun j => by rw [hlinked.blank j, child_zero]) hlinked.rest hq
    · exact (Role.node.inj ((h.role_of hr' hq hqn).symm.trans hn)).2
    · cases (h.role_of hr' hq hqm).symm.trans hm
  · refine ⟨fun hnew => absurd hnew.1 hrr, fun _ => h.node_congr hr' (fun x q j hx _ => ?_) hq⟩
    refine hlinked.rest x j ?_ (Or.inl ?_)
    · rintro rfl
      cases hm.symm.trans hx
    · rintro rfl
      exact hrr (Role.node.inj (hn.symm.trans hx)).1.symm

/-- No table maps anything else than before. -/
theorem link_mapping (hp : p.length < 2) {r' : Nat} (hr' : g r' = .node r' []) :
    mapping s'.mem r' = mapping s.mem r' := by
  funext vpn
  have hnode :=
    h.link_node hn hempty hm hsmall hlinked hr' (show (upper vpn).length ≤ 2 from le_refl 2)
  by_cases hnew : r' = r ∧ upper vpn = p ++ [i]
  · have hold : Vm.node s.mem (upper vpn) r' = none := by
      rw [hnew.2, hnew.1]
      exact h.link_new hn hempty
    rw [mapping_of_no_node hold, mapping, hnode.1 hnew]
    simp [hlinked.blank]
  · refine mapping_eq (hnode.2 hnew) fun x hx => ?_
    have hrole := h.role_of hr' (le_refl 2) hx
    refine hlinked.rest x _ ?_ (Or.inl ?_)
    · rintro rfl
      cases hm.symm.trans hrole
    · rintro rfl
      rw [(Role.node.inj (hn.symm.trans hrole)).2] at hp
      exact absurd hp (by simp [upper])

end

/-- A blank page is linked into a page table. -/
theorem link (hp : p.length < 2) (hempty : word s.mem n i &&& PTE_V = 0) (hfree : s.free = m :: l)
    (hlinked : Linked s.mem s'.mem n i m) (hl : s'.free = l) :
    Tables (update g m (.node r (p ++ [i]))) s' := by
  have hm := h.free_head hfree
  have hsmall : m < 2 ^ 52 := h.small m (hfree ▸ mem_cons_self)
  have hroot := h.root_of hn
  have hnode := h.link_node hn hempty hm hsmall hlinked
  subst hl
  obtain ⟨hnodup, hrest, hsmalls⟩ := h.free_tail hfree (ρ := .node r (p ++ [i])) (by simp)
  refine ⟨hnodup, hrest, hsmalls, fun x r' q => ?_⟩
  -- no table has `m` for its root
  have hroots : update g m (.node r (p ++ [i])) r' = .node r' [] ↔ g r' = .node r' [] := by
    by_cases hx : r' = m
    · subst hx
      rw [update_self, hm]
      exact iff_of_false (by simp) (by simp)
    · rw [update_of_ne hx]
  rw [hroots]
  by_cases hnew : r' = r ∧ q = p ++ [i]
  · obtain ⟨rfl, rfl⟩ := hnew
    have hlen : (p ++ [i]).length ≤ 2 := by
      rw [length_append, length_singleton]
      omega
    rw [(hnode hroot hlen).1 ⟨rfl, rfl⟩]
    by_cases hx : x = m
    · subst hx
      exact iff_of_true (update_self ..) ⟨hlen, hroot, rfl⟩
    · rw [update_of_ne hx]
      refine iff_of_false (fun hold => ?_) fun hmx => hx (Option.some.inj hmx.2.2).symm
      cases (h.node_of hold).symm.trans (h.link_new hn hempty)
  · by_cases hx : x = m
    · subst hx
      rw [update_self]
      refine iff_of_false (fun heq => hnew ?_) ?_
      · obtain ⟨rfl, rfl⟩ := Role.node.inj heq
        exact ⟨rfl, rfl⟩
      · rintro ⟨hlen, hg, hqx⟩
        rw [(hnode hg hlen).2 hnew] at hqx
        cases (h.role_of hg hlen hqx).symm.trans hm
    · rw [update_of_ne hx, h.node]
      exact and_congr_right fun hlen => and_congr_right fun hg => by rw [(hnode hg hlen).2 hnew]

end

/-- An entry of the last level is stored. -/
theorem putWord (h : Tables g s) {n r vpn v : Nat} (hvpn : vpn < NVPN)
    (hn : g n = .node r (upper vpn)) (hv : v < 2 ^ 64) :
    Tables g { s with mem := Vm.putWord s.mem n (vpn % 512) v } ∧
      (∀ r', r' ≠ r → g r' = .node r' [] →
        mapping (Vm.putWord s.mem n (vpn % 512) v) r' = mapping s.mem r') ∧
      mapping (Vm.putWord s.mem n (vpn % 512) v) r =
        update (mapping s.mem r) vpn (if v &&& PTE_V ≠ 0 then some v else none) := by
  have hi : vpn % 512 < 512 := Nat.mod_lt _ (by norm_num)
  have hroot := h.root_of hn
  have hother : ∀ x j, x ≠ n → word (Vm.putWord s.mem n (vpn % 512) v) x j = word s.mem x j :=
    fun x j hx => word_putWord_ne (Or.inl hx)
  -- `n` is on the last level, so no path goes through it
  have hsub : ∀ r', g r' = .node r' [] → ∀ q : List Nat, q.length ≤ 2 →
      Vm.node (Vm.putWord s.mem n (vpn % 512) v) q r' = Vm.node s.mem q r' := by
    intro r' hr' q hq
    refine h.node_congr hr' (fun x p j hx hp => hother x j ?_) hq
    rintro rfl
    rw [hn] at hx
    rw [← (Role.node.inj hx).2] at hp
    exact absurd hp (by simp [upper])
  refine ⟨⟨h.nodup, h.free, h.small, fun x r' q => ?_⟩, ?_, ?_⟩
  · rw [h.node]
    exact and_congr_right fun hq => and_congr_right fun hr' => by rw [hsub r' hr' q hq]
  · intro r' hr' hg
    refine h.mapping_congr hg fun x q j hx => hother x j ?_
    rintro rfl
    rw [hn] at hx
    exact hr' (Role.node.inj hx).1.symm
  · funext w
    by_cases hw : w = vpn
    · subst hw
      have hnode : Vm.node (Vm.putWord s.mem n (w % 512) v) (upper w) r = some n := by
        rw [hsub r hroot _ (le_refl 2)]
        exact h.node_of hn
      rw [update_self, mapping_of_node hvpn hnode, word_putWord_self hi hv]
    · rw [update_of_ne hw]
      by_cases hlt : w < NVPN
      · refine mapping_eq (hsub r hroot _ (le_refl 2)) fun x hx => ?_
        by_cases hxn : x = n
        · subst hxn
          have hrole := h.role_of hroot (le_refl 2) hx
          rw [hn] at hrole
          have hpath : upper w = upper vpn := (Role.node.inj hrole).2.symm
          exact word_putWord_ne (Or.inr fun hlow => hw (upper_inj hlt hvpn hpath hlow))
        · exact hother x _ hxn
      · rw [mapping, mapping, if_neg hlt, if_neg hlt]

end Tables

/-! ## Inner entries -/

namespace Inner

variable {g g' : Nat → Role} {s : Phys} {mem mem' : Nat → Page} {r : Nat}

/-- The inner entries of a table are in its inner pages. -/
theorem congr (h : Inner g mem r) (hsame : ∀ n p, p.length < 2 → g' n = .node r p →
      g n = .node r p ∧ ∀ i, word mem' n i = word mem n i) : Inner g' mem' r := by
  intro n p i hn hp hV
  obtain ⟨hold, hword⟩ := hsame n p hp hn
  rw [hword i] at hV ⊢
  exact h n p i hold hp hV

/-- The role of a page changes, to one that is not a node of the table. -/
theorem update {n : Nat} {ρ : Role} {page : Page} (h : Inner g mem r) (hρ : ∀ p, ρ ≠ .node r p) :
    Inner (update g n ρ) (update mem n page) r := by
  refine h.congr fun x p _ hx => ?_
  have hxn : x ≠ n := by
    rintro rfl
    rw [update_self] at hx
    exact hρ p hx
  exact ⟨(update_of_ne hxn _ _).symm.trans hx, word_update_ne hxn page⟩

theorem link {n m i r' : Nat} {p : List Nat} (h : Inner g mem r) (hlinked : Linked mem mem' n i m) :
    Inner (Function.update g m (.node r' (p ++ [i]))) mem' r := by
  intro x q j hx hq hV
  by_cases hxm : x = m
  · subst hxm
    rw [hlinked.blank j] at hV
    exact absurd rfl hV
  · rw [update_of_ne hxm] at hx
    by_cases hxj : x = n ∧ j = i
    · obtain ⟨rfl, rfl⟩ := hxj
      have hmask : PTE_R ||| PTE_W ||| PTE_X = 14 := by decide
      have h14 : ∀ x : Nat, (x * 2 ^ 10 + 1) &&& 14 = 0 := by
        intro x
        have hmod : ((x * 2 ^ 10 + 1) &&& 14) % 2 ^ 4 = 0 := by
          rw [Nat.and_mod_two_pow, show (x * 2 ^ 10 + 1) % 2 ^ 4 = 1 by omega]
          rfl
        have hle : (x * 2 ^ 10 + 1) &&& 14 ≤ 14 := Nat.and_le_right
        omega
      rw [hlinked.link, hmask, h14]
    · rw [hlinked.rest x j hxm (by tauto)] at hV ⊢
      exact h x q j hx hq hV

end Inner

end Xv6.Vm
