/-
  Vm/UserBytes.lean --- `copyin` and `copyout` copy bytes of virtual memory.

  User memory is a partial map from virtual addresses to bytes: the page table says where
  in physical memory the byte of an address is.  `copyout` stores its bytes one after the
  other in that map and `copyin` reads them, page by page, and both stop at the first page
  that user code may not access.

  Nothing is assumed of the page table for reading.  For writing, the pages that it maps
  for user code must be distinct, and none of them may be a page of the table itself.
-/
import Xv6.Vm.Boot
import Xv6.Vm.Image

set_option autoImplicit false

namespace Xv6.Vm

open Function List Foundation
open Procs (initproc)

variable {s s' s'' : Phys} {mem : Nat → Page} {r va : Nat} {ld : Linker} {g : Nat → Role}
  {top : Nat → Option Nat} {pages : Pages}

/-! ## Virtual memory as a map -/

/-- The page of physical memory that user code sees at a virtual page.  There is no memory
at physical page 0: an entry for it maps nothing. -/
def userFrame (mem : Nat → Page) (r v : Nat) : Option Nat :=
  if v < MAXVA / PGSIZE then
    match mapping mem r v with
    | some pte => if pte &&& PTE_U = 0 ∨ PTE2PA pte = 0 then none else some (PTE2PA pte / PGSIZE)
    | none => none
  else none

/-- Where in physical memory the byte at a user address is: a page, and an offset in it. -/
def place (mem : Nat → Page) (r va : Nat) : Option (Nat × Nat) :=
  (userFrame mem r (va / PGSIZE)).map fun n => (n, va % PGSIZE)

/-- The byte that user code sees at an address. -/
def userByte (mem : Nat → Page) (r va : Nat) : Option UInt8 :=
  (place mem r va).map fun x => getByte (mem x.1) x.2

theorem place_some {n i : Nat} : place mem r va = some (n, i) ↔
    userFrame mem r (va / PGSIZE) = some n ∧ i = va % PGSIZE := by
  rw [place, Option.map_eq_some_iff]
  constructor
  · rintro ⟨m, hm, heq⟩
    obtain ⟨rfl, rfl⟩ := Prod.mk.inj heq
    exact ⟨hm, rfl⟩
  · rintro ⟨hn, rfl⟩
    exact ⟨n, hn, rfl⟩

theorem place_none : place mem r va = none ↔ userFrame mem r (va / PGSIZE) = none := by
  rw [place, Option.map_eq_none_iff]

variable {x : Nat × Nat}

theorem lt_MAXVA_of_place (h : place mem r va = some x) : va < MAXVA := by
  have hpage := (place_some (n := x.1) (i := x.2)).mp h
  have hlt : va / PGSIZE < MAXVA / PGSIZE := by
    by_contra hge
    rw [userFrame, if_neg hge] at hpage
    cases hpage.1
  by_contra hva
  exact absurd (Nat.div_le_div_right (Nat.le_of_not_lt hva)) (Nat.not_le.mpr hlt)

theorem page_add {va j : Nat} (hj : va % PGSIZE + j < PGSIZE) :
    (va + j) / PGSIZE = va / PGSIZE ∧ (va + j) % PGSIZE = va % PGSIZE + j := by
  rw [show PGSIZE = 4096 from rfl] at *
  omega

/-- The next bytes up to the end of the page are in the same page. -/
theorem place_add {n j : Nat} (h : place mem r va = some (n, va % PGSIZE))
    (hj : va % PGSIZE + j < PGSIZE) : place mem r (va + j) = some (n, va % PGSIZE + j) := by
  obtain ⟨hdiv, hmod⟩ := page_add hj
  rw [place_some, hdiv, hmod]
  exact ⟨(place_some.mp h).1, rfl⟩

/-- `walkaddr` finds the page of a byte. -/
theorem walkaddr_place (r va : Nat) :
    Total (walkaddr (r * PGSIZE) (PGROUNDDOWN va)) (fun pa s' => s' = s ∧
      ((place s.mem r va = none ∧ pa = 0) ∨
        ∃ n, place s.mem r va = some (n, va % PGSIZE) ∧ n * PGSIZE ≠ 0 ∧ pa = n * PGSIZE)) s := by
  refine walkaddr_total.mono ?_
  rintro pa s' ⟨rfl, hpa⟩
  refine ⟨rfl, ?_⟩
  have hmax : MAXVA = 67108864 * PGSIZE := by decide
  have hdiv : PGROUNDDOWN va / PGSIZE = va / PGSIZE := page_div _
  have hbound : PGROUNDDOWN va < MAXVA ↔ va / PGSIZE < MAXVA / PGSIZE := by
    rw [PGROUNDDOWN, hmax, page_div]
    exact Nat.mul_lt_mul_right (by decide)
  rw [hdiv] at hpa
  by_cases hlt : va / PGSIZE < MAXVA / PGSIZE
  · rw [if_pos (hbound.mpr hlt)] at hpa
    cases hmap : mapping s'.mem r (va / PGSIZE) with
    | none =>
      rw [hmap] at hpa
      refine Or.inl ⟨?_, hpa⟩
      rw [place_none, userFrame, if_pos hlt, hmap]
    | some pte =>
      rw [hmap, userAddr] at hpa
      by_cases hseen : pte &&& PTE_U = 0 ∨ PTE2PA pte = 0
      · refine Or.inl ⟨?_, ?_⟩
        · rw [place_none, userFrame, if_pos hlt, hmap]
          exact if_pos hseen
        · rw [hpa]
          split
          · rfl
          · exact hseen.resolve_left (by assumption)
      · have hU : ¬ pte &&& PTE_U = 0 := fun h => hseen (Or.inl h)
        rw [if_neg hU, PTE2PA_page] at hpa
        refine Or.inr ⟨PTE2PA pte / PGSIZE, ?_, ?_, hpa⟩
        · rw [place_some, userFrame, if_pos hlt, hmap]
          exact ⟨if_neg hseen, rfl⟩
        · rw [← PTE2PA_page]
          exact fun h => hseen (Or.inr h)
  · rw [if_neg fun h => hlt (hbound.mp h)] at hpa
    refine Or.inl ⟨?_, hpa⟩
    rw [place_none, userFrame, if_neg hlt]

/-- After a mapped byte the next page is at the next address: nothing wraps. -/
theorem nextPage_of_place (h : place mem r va = some x) :
    Pages.nextPage va = va + (PGSIZE - va % PGSIZE) := by
  have hva := lt_MAXVA_of_place h
  have hmax : MAXVA = 274877906944 := rfl
  rw [Pages.nextPage, show PGSIZE = 4096 from rfl]
  omega

/-! ## Bytes read -/

/-- The bytes of a list are those that user code sees from `va` on. -/
def Reads (mem : Nat → Page) (r va : Nat) (bytes : List UInt8) : Prop :=
  ∀ j b, bytes[j]? = some b → userByte mem r (va + j) = some b

theorem Reads.nil : Reads mem r va [] := fun _ _ hb => by cases hb

theorem Reads.append {bs cs : List UInt8} (hbs : Reads mem r va bs)
    (hcs : Reads mem r (va + bs.length) cs) : Reads mem r va (bs ++ cs) := by
  intro j b hb
  by_cases hj : j < bs.length
  · rw [getElem?_append_left hj] at hb
    exact hbs j b hb
  · rw [getElem?_append_right (by omega)] at hb
    have hread := hcs _ b hb
    rwa [Nat.add_assoc, Nat.add_sub_cancel' (by omega)] at hread

/-- Reading is a function: two lists of the same length are the same. -/
theorem Reads.unique {bs cs : List UInt8} (hbs : Reads mem r va bs) (hcs : Reads mem r va cs)
    (hlen : bs.length = cs.length) : bs = cs := by
  refine ext_getElem hlen fun j hj hj' => ?_
  have hb := hbs j _ (getElem?_eq_getElem hj)
  have hc := hcs j _ (getElem?_eq_getElem hj')
  exact Option.some.inj (hb.symm.trans hc)

/-- Bytes that are read are mapped. -/
theorem Reads.mapped {bs : List UInt8} (h : Reads mem r va bs) {j : Nat} (hj : j < bs.length) :
    ∃ x, place mem r (va + j) = some x := by
  obtain ⟨x, hx, -⟩ := Option.map_eq_some_iff.mp (h j _ (getElem?_eq_getElem hj))
  exact ⟨x, hx⟩

/-- The bytes of a page from an address on. -/
theorem reads_page {n k : Nat} (h : place mem r va = some (n, va % PGSIZE))
    (hk : va % PGSIZE + k ≤ PGSIZE) : Reads mem r va (bytesAt (mem n) (va % PGSIZE) k) := by
  intro j b hb
  have hj := (List.getElem?_eq_some_iff.mp hb).1
  rw [length_bytesAt] at hj
  rw [bytesAt, getElem?_map, getElem?_range hj] at hb
  rw [userByte, place_add h (by omega)]
  exact hb

/-! ## `copyin` -/

/-- The loop of `copyin`, with the bytes it has stored at `dst` when it returns. -/
def copyinDstLoop (pagetable : Nat) : Nat → Nat → Nat → Code (List UInt8 × Bool)
  | _, _, 0 => return ([], true)
  | 0, _, _ + 1 => return ([], false)
  | fuel + 1, srcva, len + 1 => do
      let va0 := PGROUNDDOWN srcva
      let pa0 ← walkaddr pagetable va0
      if pa0 = 0 then return ([], false)
      else do
        let n := min (PGSIZE - (srcva - va0)) (len + 1)
        let bytes ← loadBytes (pa0 + (srcva - va0)) n
        let rest ← copyinDstLoop pagetable fuel ((va0 + PGSIZE) % 2 ^ 64) (len + 1 - n)
        return (bytes ++ rest.1, rest.2)

def copyinDst (pagetable srcva len : Nat) : Code (List UInt8 × Bool) :=
  copyinDstLoop pagetable len srcva len

/-- What `copyin` returns when it has stored some bytes. -/
def stored (x : List UInt8 × Bool) : Option (List UInt8) := if x.2 then some x.1 else none

theorem stored_append (bytes : List UInt8) (x : List UInt8 × Bool) :
    stored (bytes ++ x.1, x.2) = (stored x).map (bytes ++ ·) := by
  obtain ⟨dst, ok⟩ := x
  cases ok <;> rfl

theorem copyinLoop_eq (pagetable fuel : Nat) : ∀ va len,
    copyinLoop pagetable fuel va len = stored <$> copyinDstLoop pagetable fuel va len := by
  induction fuel with
  | zero =>
    intro va len
    cases len with
    | zero => rfl
    | succ len => rfl
  | succ fuel ih =>
    intro va len
    cases len with
    | zero => rfl
    | succ len =>
      rw [copyinLoop, copyinDstLoop, map_bind]
      refine congrArg _ (funext fun pa0 => ?_)
      by_cases hpa : pa0 = 0
      · rw [if_pos hpa, if_pos hpa]
        rfl
      · simp only [if_neg hpa, ih, map_bind, bind_map_left, map_pure, stored_append]

theorem copyin_eq (pagetable va len : Nat) :
    copyin pagetable va len = stored <$> copyinDst pagetable va len :=
  copyinLoop_eq pagetable len va len

/-- A copy of `len` bytes that stopped after `k` of them: at the end, or at the first byte
of a page that user code may not access. -/
def Stopped (mem : Nat → Page) (r va len k : Nat) : Bool → Prop
  | true => k = len
  | false => k < len ∧ place mem r (va + k) = none ∧ (k = 0 ∨ (va + k) % PGSIZE = 0)

/-- The rest of a copy, after the first page. -/
theorem Stopped.later {len m k : Nat} {ok : Bool} (hm : m ≤ len)
    (hend : m = len ∨ (va + m) % PGSIZE = 0)
    (h : Stopped mem r (va + m) (len - m) k ok) : Stopped mem r va len (m + k) ok := by
  cases ok with
  | true =>
    have hk : k = len - m := h
    exact (by omega : m + k = len)
  | false =>
    obtain ⟨hk, hnone, hbound⟩ := h
    rw [Nat.add_assoc] at hnone hbound
    refine ⟨by omega, hnone, Or.inr ?_⟩
    rcases hbound with rfl | hbound
    · exact hend.resolve_left (by omega)
    · exact hbound

/-- The bytes that go into the first page. -/
theorem chunk_bounds (va : Nat) {len : Nat} (hlen : 0 < len) : 0 < Pages.chunk va len ∧
    va % PGSIZE + Pages.chunk va len ≤ PGSIZE ∧ Pages.chunk va len ≤ len ∧
    (Pages.chunk va len = len ∨ va + Pages.chunk va len = va + (PGSIZE - va % PGSIZE)) := by
  have hlt := mod_lt_page va
  rw [Pages.chunk]
  omega

theorem next_aligned : (va + (PGSIZE - va % PGSIZE)) % PGSIZE = 0 := by
  rw [show PGSIZE = 4096 from rfl]
  omega

theorem copyinDstLoop_total (fuel : Nat) : ∀ (va len : Nat), len ≤ fuel →
    Total (copyinDstLoop (r * PGSIZE) fuel va len) (fun x s' => s' = s ∧
      Reads s.mem r va x.1 ∧ Stopped s.mem r va len x.1.length x.2) s := by
  induction fuel with
  | zero =>
    intro va len hlen
    obtain rfl : len = 0 := by omega
    exact Total.pure ⟨rfl, Reads.nil, rfl⟩
  | succ fuel ih =>
    intro va len hlen
    cases len with
    | zero => exact Total.pure ⟨rfl, Reads.nil, rfl⟩
    | succ len =>
      rw [copyinDstLoop]
      refine Total.seq (walkaddr_place r va) ?_
      rintro pa s₁ ⟨rfl, ⟨hnone, rfl⟩ | ⟨n, hplace, hn, rfl⟩⟩
      · rw [if_pos rfl]
        exact Total.pure ⟨rfl, Reads.nil, Nat.succ_pos len, hnone, Or.inl rfl⟩
      · rw [if_neg hn, page_offset, nextPage_eq, nextPage_of_place hplace]
        refine Total.bind (loadBytes_total (mod_lt_page va) ?_)
        obtain ⟨hpos, hfits, hle, hend⟩ := chunk_bounds va (Nat.succ_pos len)
        rw [← show Pages.chunk va (len + 1) = min (PGSIZE - va % PGSIZE) (len + 1) from rfl]
        generalize Pages.chunk va (len + 1) = m at *
        have hfirst := reads_page hplace hfits
        have hrest : Total (copyinDstLoop (r * PGSIZE) fuel (va + (PGSIZE - va % PGSIZE))
            (len + 1 - m)) (fun x s' => s' = s₁ ∧ Reads s₁.mem r (va + m) x.1 ∧
              Stopped s₁.mem r (va + m) (len + 1 - m) x.1.length x.2) s₁ := by
          rcases hend with rfl | hnext
          · -- nothing is left, whatever the next address
            rw [Nat.sub_self]
            cases fuel with
            | zero => exact Total.pure ⟨rfl, Reads.nil, rfl⟩
            | succ fuel => exact Total.pure ⟨rfl, Reads.nil, rfl⟩
          · rw [← hnext]
            exact ih (va + m) (len + 1 - m) (by omega)
        refine Total.seq hrest ?_
        rintro x s' ⟨rfl, hreads, hstop⟩
        have hlength : (bytesAt (s'.mem n) (va % PGSIZE) m).length = m := length_bytesAt _ _ _
        refine Total.pure ⟨rfl, hfirst.append (hlength.symm ▸ hreads), ?_⟩
        rw [length_append, hlength]
        refine hstop.later hle (hend.imp_right fun hnext => ?_)
        rw [hnext]
        exact next_aligned

/-- `copyin` succeeds exactly where every byte is mapped. -/
theorem Stopped.iff_mapped {len k : Nat} {ok : Bool} (h : Stopped mem r va len k ok)
    (hread : ∀ j < k, ∃ x, place mem r (va + j) = some x) :
    ok = true ↔ ∀ j < len, ∃ x, place mem r (va + j) = some x := by
  cases ok with
  | true =>
    obtain rfl : k = len := h
    exact iff_of_true rfl hread
  | false =>
    refine iff_of_false Bool.false_ne_true fun hall => ?_
    obtain ⟨x, hx⟩ := hall k h.1
    cases h.2.1.symm.trans hx

/-! ## `copyout` -/

/-- The pages that user code sees are distinct, and none is a page of the table. -/
structure Leaves (mem : Nat → Page) (r : Nat) : Prop where
  distinct : ∀ v w n, userFrame mem r v = some n → userFrame mem r w = some n → v = w
  apart : ∀ v n p, userFrame mem r v = some n → p.length ≤ 2 → node mem p r ≠ some n

/-- What user code sees of an address space are its pages. -/
theorem Space.userFrame (hpool : Pool ld g s) (h : Space g s r top pages) {v n : Nat}
    (hn : Vm.userFrame s.mem r v = some n) : g n = .user r v := by
  rw [Vm.userFrame] at hn
  split at hn
  · split at hn
    · rename_i pte hmap
      split at hn
      · cases hn
      · rename_i huser
        cases hn
        by_cases hv : v < pages.length
        · obtain ⟨m, hm, hg, -⟩ := h.user v _ (getElem?_eq_getElem hv)
          cases hm.symm.trans hmap
          rw [UPage.entry_page _ (hpool.managed hg (by simp)).small, page_div]
          exact hg
        · rw [h.rest v (by omega)] at hmap
          exact absurd (Or.inl (h.high v pte hmap).2) huser
    · cases hn
  · cases hn

theorem Space.userFrame_some (hpool : Pool ld g s) (h : Space g s r top pages) {v : Nat} {u : UPage}
    (hu : pages[v]? = some u) (huser : u.user = true) : ∃ n, Vm.userFrame s.mem r v = some n := by
  obtain ⟨n, hmap, hn, -⟩ := h.user v u hu
  have hmanaged := hpool.managed hn (by simp)
  have hlen := h.length_le hpool
  have hv := (List.getElem?_eq_some_iff.mp hu).1
  have hmax : v < MAXVA / PGSIZE := lt_of_lt_of_le hv (hlen.trans (by decide))
  refine ⟨n, ?_⟩
  rw [Vm.userFrame, if_pos hmax, hmap]
  dsimp only
  rw [UPage.entry_page _ hmanaged.small, page_div, if_neg]
  rintro (hnot | hzero)
  · cases huser.symm.trans ((u.entry_user n).mp hnot)
  · exact Managed.ne_zero hmanaged ((Nat.mul_eq_zero.mp hzero).resolve_right (by decide))

theorem Space.leaves (hpool : Pool ld g s) (h : Space g s r top pages) : Leaves s.mem r where
  distinct v w n hv hw :=
    (Role.user.inj ((h.userFrame hpool hv).symm.trans (h.userFrame hpool hw))).2
  apart v n p hv hp hn := by
    have hnode := (hpool.tables.node n r p).mpr ⟨hp, h.root, hn⟩
    cases hnode.symm.trans (h.userFrame hpool hv)

theorem Leaves.place_inj (h : Leaves mem r) {vb : Nat} (ha : place mem r va = some x)
    (hb : place mem r vb = some x) : va = vb := by
  obtain ⟨hpage, hoff⟩ := (place_some (n := x.1) (i := x.2)).mp ha
  obtain ⟨hpage', hoff'⟩ := (place_some (n := x.1) (i := x.2)).mp hb
  have hdiv := h.distinct _ _ _ hpage hpage'
  rw [← Nat.div_add_mod va PGSIZE, ← Nat.div_add_mod vb PGSIZE, hdiv, ← hoff, ← hoff']

/-- Two memories with the same page table. -/
structure SameTable (r : Nat) (mem mem' : Nat → Page) : Prop where
  node : ∀ p, p.length ≤ 2 → Vm.node mem' p r = Vm.node mem p r
  mapping : Vm.mapping mem' r = Vm.mapping mem r

namespace SameTable

variable {mem' mem'' : Nat → Page}

theorem refl : SameTable r mem mem := ⟨fun _ _ => rfl, rfl⟩

section

variable (h : SameTable r mem mem')

include h

theorem trans (h' : SameTable r mem' mem'') : SameTable r mem mem'' :=
  ⟨fun p hp => (h'.node p hp).trans (h.node p hp), h'.mapping.trans h.mapping⟩

theorem userFrame (v : Nat) : Vm.userFrame mem' r v = Vm.userFrame mem r v := by
  rw [Vm.userFrame, Vm.userFrame, h.mapping]

theorem place (va : Nat) : Vm.place mem' r va = Vm.place mem r va := by
  rw [Vm.place, Vm.place, h.userFrame]

theorem leaves (hleaves : Leaves mem r) : Leaves mem' r := by
  refine ⟨fun v w n hv hw => ?_, fun v n p hv hp => ?_⟩
  · rw [h.userFrame] at hv hw
    exact hleaves.distinct v w n hv hw
  · rw [h.userFrame] at hv
    rw [h.node p hp]
    exact hleaves.apart v n p hv hp

end

/-- Writing to a page that is not part of the table. -/
theorem update {n : Nat} (hn : ∀ p, p.length ≤ 2 → Vm.node mem p r ≠ some n) (page : Page) :
    SameTable r mem (Function.update mem n page) := by
  have hword : ∀ p m j, p.length ≤ 2 → Vm.node mem p r = some m →
      word (Function.update mem n page) m j = word mem m j := by
    intro p m j hp hm
    refine word_update_ne ?_ page j
    rintro rfl
    exact hn p hp hm
  have hnode : ∀ p, p.length ≤ 2 → Vm.node (Function.update mem n page) p r = Vm.node mem p r := by
    intro p hp
    refine descend_congr fun q j m hq hm => hword q m j ?_ hm
    have hlen := hq.length_le
    rw [length_append, length_singleton] at hlen
    omega
  refine ⟨hnode, funext fun v => ?_⟩
  exact mapping_eq (hnode (upper v) (le_refl 2)) fun m hm => hword (upper v) m _ (le_refl 2) hm

end SameTable

/-- What a copy to user memory does: user code sees the bytes from `va` on, and nothing
else has changed. -/
structure CopiedOut (r va : Nat) (bytes : List UInt8) (s s' : Phys) : Prop where
  table : SameTable r s.mem s'.mem
  free : s'.free = s.free
  budget : s'.budget = s.budget
  reads : Reads s'.mem r va bytes
  others : ∀ n i, (∀ j < bytes.length, place s.mem r (va + j) ≠ some (n, i)) →
    getByte (s'.mem n) i = getByte (s.mem n) i

namespace CopiedOut

variable {bs cs : List UInt8}

theorem refl : CopiedOut r va [] s s :=
  ⟨SameTable.refl, rfl, rfl, Reads.nil, fun _ _ _ => rfl⟩

/-- Bytes at other addresses are not changed. -/
theorem userByte (h : CopiedOut r va bs s s') (hleaves : Leaves s.mem r) {vb : Nat}
    (hvb : ∀ j < bs.length, va + j ≠ vb) : userByte s'.mem r vb = Vm.userByte s.mem r vb := by
  rw [Vm.userByte, Vm.userByte, h.table.place]
  cases hx : place s.mem r vb with
  | none => rfl
  | some x =>
    refine congrArg some (h.others x.1 x.2 fun j hj hplace => hvb j hj ?_)
    exact hleaves.place_inj hplace hx

/-- One copy after the other. -/
theorem trans (h : CopiedOut r va bs s s') (h' : CopiedOut r (va + bs.length) cs s' s'')
    (hleaves : Leaves s.mem r) : CopiedOut r va (bs ++ cs) s s'' := by
  refine ⟨h.table.trans h'.table, h'.free.trans h.free, h'.budget.trans h.budget,
    Reads.append (fun j b hb => ?_) h'.reads, fun n i hother => ?_⟩
  · -- the second copy is behind the first
    have hj := (List.getElem?_eq_some_iff.mp hb).1
    rw [h'.userByte (h.table.leaves hleaves) fun k _ => by omega]
    exact h.reads j b hb
  · rw [length_append] at hother
    rw [h'.others n i fun j hj => ?_, h.others n i fun j hj => hother j (by omega)]
    rw [h.table.place, Nat.add_assoc]
    exact hother _ (by omega)

/-- Bytes stored within one page. -/
theorem page (hleaves : Leaves s.mem r) {n : Nat}
    (hplace : place s.mem r va = some (n, va % PGSIZE)) (hfits : va % PGSIZE + bs.length ≤ PGSIZE) :
    CopiedOut r va bs s (s.setPage n (storeBytes (s.mem n) (va % PGSIZE) bs)) := by
  have hmapped := (place_some.mp hplace).1
  have htable : SameTable r s.mem (s.setPage n (storeBytes (s.mem n) (va % PGSIZE) bs)).mem :=
    SameTable.update (fun p hp => hleaves.apart _ n p hmapped hp) _
  have hself : (s.setPage n (storeBytes (s.mem n) (va % PGSIZE) bs)).mem n
      = storeBytes (s.mem n) (va % PGSIZE) bs := update_self ..
  refine ⟨htable, rfl, rfl, fun j b hb => ?_, fun m i hother => ?_⟩
  · have hj := (List.getElem?_eq_some_iff.mp hb).1
    rw [Vm.userByte, htable.place, place_add hplace (by omega), Option.map_some, hself,
      getByte_storeBytes_add hfits hb]
  · by_cases hm : m = n
    · subst hm
      rw [hself]
      by_cases hlow : i < va % PGSIZE
      · exact getByte_storeBytes_lt hlow
      · by_cases hhigh : va % PGSIZE + bs.length ≤ i
        · exact getByte_storeBytes_ge hhigh
        · refine absurd (place_add hplace (j := i - va % PGSIZE) (by omega)) ?_
          have hi : va % PGSIZE + (i - va % PGSIZE) = i := by omega
          rw [hi]
          exact hother _ (by omega)
    · exact congrArg (getByte · i) (update_of_ne hm _ _)

end CopiedOut

theorem copyoutLoop_place (fuel : Nat) : ∀ (va : Nat) (src : List UInt8) (s : Phys),
    src.length ≤ fuel → Leaves s.mem r →
    Total (copyoutLoop (r * PGSIZE) fuel va src) (fun ok s' => ∃ k,
      CopiedOut r va (src.take k) s s' ∧ Stopped s.mem r va src.length k ok) s := by
  induction fuel with
  | zero =>
    intro va src s hlen hleaves
    obtain rfl : src = [] := length_eq_zero_iff.mp (by omega)
    exact Total.pure ⟨0, CopiedOut.refl, rfl⟩
  | succ fuel ih =>
    intro va src s hlen hleaves
    cases src with
    | nil => exact Total.pure ⟨0, CopiedOut.refl, rfl⟩
    | cons x xs =>
      rw [copyoutLoop]
      refine Total.seq (walkaddr_place r va) ?_
      rintro pa s₁ ⟨rfl, ⟨hnone, rfl⟩ | ⟨n, hplace, hn, rfl⟩⟩
      · rw [if_pos rfl]
        exact Total.pure ⟨0, CopiedOut.refl, Nat.succ_pos _, hnone, Or.inl rfl⟩
      · rw [if_neg hn, page_offset, nextPage_eq, nextPage_of_place hplace]
        refine Total.bind (memmove_total (mod_lt_page va) ?_)
        obtain ⟨hpos, hfits, hle, hend⟩ :=
          chunk_bounds va (show 0 < (x :: xs).length from Nat.succ_pos _)
        rw [← show Pages.chunk va (x :: xs).length = min (PGSIZE - va % PGSIZE) (x :: xs).length
          from rfl]
        generalize Pages.chunk va (x :: xs).length = m at *
        generalize x :: xs = src at *
        have htake : (src.take m).length = m := length_take_of_le hle
        have hfirst :=
          CopiedOut.page hleaves hplace (show _ + (src.take m).length ≤ _ from htake.symm ▸ hfits)
        revert hfirst
        generalize s₁.setPage n (storeBytes (s₁.mem n) (va % PGSIZE) (src.take m)) = s₂
        intro hfirst
        have hrest : Total (copyoutLoop (r * PGSIZE) fuel (va + (PGSIZE - va % PGSIZE))
            (src.drop m)) (fun ok s' => ∃ k, CopiedOut r (va + m) ((src.drop m).take k) s₂ s' ∧
              Stopped s₂.mem r (va + m) (src.length - m) k ok) s₂ := by
          rcases hend with rfl | hnext
          · rw [drop_length, Nat.sub_self]
            cases fuel with
            | zero => exact Total.pure ⟨0, CopiedOut.refl, rfl⟩
            | succ fuel => exact Total.pure ⟨0, CopiedOut.refl, rfl⟩
          · have hdrop : (src.drop m).length = src.length - m := length_drop
            rw [← hnext, ← hdrop]
            exact ih (va + m) (src.drop m) s₂ (by omega) (hfirst.table.leaves hleaves)
        refine hrest.mono ?_
        rintro ok s' ⟨k, hcopied, hstop⟩
        refine ⟨m + k, ?_, ?_⟩
        · rw [take_add]
          exact hfirst.trans (htake.symm ▸ hcopied) hleaves
        · have hstop' : Stopped s₁.mem r (va + m) (src.length - m) k ok := by
            cases ok with
            | true => exact hstop
            | false => exact ⟨hstop.1, (hfirst.table.place _).symm.trans hstop.2.1, hstop.2.2⟩
          refine hstop'.later hle (hend.imp_right fun hnext => ?_)
          rw [hnext]
          exact next_aligned

/-! ## Ranges of 64-bit addresses -/

/-- Every byte of a range is in a page that user code may access.  The addresses of the
range are 64-bit ones: they wrap. -/
def Mapped (mem : Nat → Page) (r : Nat) (va : UInt64) (len : Nat) : Prop :=
  ∀ j < len, ∃ x, place mem r ((va.toNat + j) % 2 ^ 64) = some x

/-- A range that wraps has an address beyond `MAXVA` in it. -/
theorem mapped_iff {va : UInt64} {len : Nat} :
    Mapped mem r va len ↔ ∀ j < len, ∃ x, place mem r (va.toNat + j) = some x := by
  have hmax : MAXVA = 274877906944 := rfl
  have hva : va.toNat < 2 ^ 64 := va.toNat_lt
  constructor
  · intro h j hj
    by_cases hlt : va.toNat + j < 2 ^ 64
    · have hmapped := h j hj
      rwa [Nat.mod_eq_of_lt hlt] at hmapped
    · obtain ⟨x, hx⟩ := h (2 ^ 64 - 1 - va.toNat) (by omega)
      rw [Nat.add_sub_cancel' (by omega)] at hx
      have hbound := lt_MAXVA_of_place hx
      omega
  · intro h j hj
    obtain ⟨x, hx⟩ := h j hj
    have hbound := lt_MAXVA_of_place hx
    rw [Nat.mod_eq_of_lt (by omega)]
    exact ⟨x, hx⟩

theorem copyinDst_total (va : UInt64) (len : Nat) :
    Total (copyinDst (r * PGSIZE) va.toNat len) (fun x s' => s' = s ∧
      (x.2 = true ↔ Mapped s.mem r va len) ∧ Reads s.mem r va.toNat x.1 ∧
      Stopped s.mem r va.toNat len x.1.length x.2) s := by
  refine (copyinDstLoop_total len va.toNat len (le_refl len)).mono ?_
  rintro x s' ⟨rfl, hreads, hstop⟩
  refine ⟨rfl, ?_, hreads, hstop⟩
  rw [mapped_iff]
  exact hstop.iff_mapped fun j hj => hreads.mapped hj

/-- `copyin` of bytes that were copied out. -/
theorem copyin_copied {va : UInt64} {src : List UInt8} (h : CopiedOut r va.toNat src s s') :
    Total (copyin (r * PGSIZE) va.toNat src.length)
      (fun res s'' => s'' = s' ∧ res = some src) s' := by
  rw [copyin_eq, ← bind_pure_comp]
  refine Total.seq (copyinDst_total va src.length) ?_
  rintro ⟨dst, ok⟩ s'' ⟨rfl, hok, hreads, hstop⟩
  have hmapped : Mapped s''.mem r va src.length := mapped_iff.mpr fun j hj => h.reads.mapped hj
  obtain rfl : ok = true := hok.mpr hmapped
  refine Total.pure ⟨rfl, ?_⟩
  exact congrArg some (hreads.unique h.reads hstop)

/-- `copyin` and `copyout` copy bytes of virtual memory: they return 0 exactly when every
byte of the range is in a page that user code may access; `copyout` then makes the bytes
of the range those of `src` and changes nothing else, so that `copyin` reads them again,
and `copyin` stores the bytes of the range at `dst`.  Otherwise a part of the range was
copied that ends before a page. -/
theorem copies_virtual_memory (va : UInt64) (hleaves : Leaves s.mem r) :
    (∀ src, Total (copyout (r * PGSIZE) va.toNat src) (fun ok s' =>
      (ok = true ↔ Mapped s.mem r va src.length) ∧
      (ok = true → CopiedOut r va.toNat src s s' ∧
        Total (copyin (r * PGSIZE) va.toNat src.length)
          (fun res s'' => s'' = s' ∧ res = some src) s') ∧
      (ok = false → ∃ k < src.length, (k = 0 ∨ (va.toNat + k) % PGSIZE = 0) ∧
        CopiedOut r va.toNat (src.take k) s s')) s) ∧
    (∀ len, copyin (r * PGSIZE) va.toNat len = stored <$> copyinDst (r * PGSIZE) va.toNat len ∧
      Total (copyinDst (r * PGSIZE) va.toNat len) (fun x s' => s' = s ∧
        (x.2 = true ↔ Mapped s.mem r va len) ∧ Reads s.mem r va.toNat x.1 ∧
        (x.2 = true → x.1.length = len) ∧
        (x.2 = false → x.1.length < len ∧
          (x.1 = [] ∨ (va.toNat + x.1.length) % PGSIZE = 0))) s) := by
  refine ⟨fun src => ?_, fun len => ⟨copyin_eq _ _ _, ?_⟩⟩
  · refine (copyoutLoop_place src.length va.toNat src s (le_refl _) hleaves).mono ?_
    rintro ok s' ⟨k, hcopied, hstop⟩
    refine ⟨?_, ?_, ?_⟩
    · rw [mapped_iff]
      refine hstop.iff_mapped fun j hj => ?_
      obtain ⟨x, hx⟩ := hcopied.reads.mapped (j := j) (by
        have hk : k ≤ src.length := by
          cases ok with
          | true => exact le_of_eq hstop
          | false => exact le_of_lt hstop.1
        rwa [length_take_of_le hk])
      exact ⟨x, (hcopied.table.place _).symm.trans hx⟩
    · rintro rfl
      obtain rfl : k = src.length := hstop
      rw [take_length] at hcopied
      exact ⟨hcopied, copyin_copied hcopied⟩
    · rintro rfl
      exact ⟨k, hstop.1, hstop.2.2, hcopied⟩
  · refine (copyinDst_total va len).mono ?_
    rintro ⟨dst, ok⟩ s' ⟨rfl, hok, hreads, hstop⟩
    refine ⟨rfl, hok, hreads, ?_, ?_⟩
    · rintro rfl
      exact hstop
    · rintro rfl
      exact ⟨hstop.1, hstop.2.2.imp_left length_eq_zero_iff.mp⟩

/-- The first process has one page: the last two bytes of it can be written; two bytes across
its end cannot. -/
theorem copies_virtual_memory_init : ∃ sys r,
    (userinit bootKernel).run (bootState 5) = .ok ((), sys) ∧
    (sys.proc initproc).pagetable = r * PGSIZE ∧
    Total (copyout (r * PGSIZE) 4094 [7, 8]) (fun ok s' => ok = true ∧
      CopiedOut r 4094 [7, 8] sys.phys s') sys.phys ∧
    Total (copyout (r * PGSIZE) 4095 [7, 8]) (fun ok s' => ok = false ∧
      ∃ k < 2, (k = 0 ∨ (4095 + k) % PGSIZE = 0) ∧
        CopiedOut r 4095 ([7, 8].take k) sys.phys s') sys.phys := by
  obtain ⟨sys, m, g, r, tf, hrun, -, -, hacc, hspace⟩ := userinit_space (bootState_booted 5)
  have hleaves := hspace.space.leaves hacc.pool
  refine ⟨sys, r, hrun, hspace.pagetable, ?_, ?_⟩
  · refine ((copies_virtual_memory 4094 hleaves).1 [7, 8]).mono ?_
    rintro ok s' ⟨hok, hcopied, -⟩
    obtain ⟨n, hn⟩ := hspace.space.userFrame_some hacc.pool (v := 0) rfl rfl
    have hmapped : Mapped sys.phys.mem r 4094 2 := by
      refine mapped_iff.mpr fun j hj => ⟨(n, (4094 + j) % PGSIZE), place_some.mpr ⟨?_, rfl⟩⟩
      have hpage : (4094 + j) / PGSIZE = 0 := Nat.div_eq_of_lt (show 4094 + j < 4096 by omega)
      exact hpage ▸ hn
    obtain rfl := hok.mpr hmapped
    exact ⟨rfl, (hcopied rfl).1⟩
  · refine ((copies_virtual_memory 4095 hleaves).1 [7, 8]).mono ?_
    rintro ok s' ⟨hok, -, hfail⟩
    have hmapped : ¬ Mapped sys.phys.mem r 4095 2 := fun h => by
      obtain ⟨x, hx⟩ := mapped_iff.mp h 1 (by norm_num)
      have hrole := hspace.space.userFrame hacc.pool ((place_some (n := x.1) (i := x.2)).mp hx).1
      obtain ⟨u, hu, -⟩ := hspace.space.only _ _ hrole
      cases hu
    cases ok with
    | true => exact absurd (hok.mp rfl) hmapped
    | false => exact ⟨rfl, hfail rfl⟩

end Xv6.Vm
