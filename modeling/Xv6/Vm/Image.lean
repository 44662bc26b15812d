/-
  Vm/Image.lean --- the routines that read and write user memory refine the operations on
  lists of pages.

  A routine that copies succeeds and fails as the operation on pages does.  None of the
  panics is reached.
-/
import Xv6.Vm.Pages

set_option autoImplicit false

namespace Xv6.Vm

open Function Foundation

variable {g g' : Nat → Role} {s s' : Phys} {ld : Linker} {r : Nat} {top : Nat → Option Nat}
  {pages : Pages}

/-! ## Single pages -/

/-- What `walkaddr` returns for a page of user memory. -/
def Found (g : Nat → Role) (s : Phys) (r : Nat) (pages : Pages) (va pa : Nat) : Prop :=
  match pages.lookup va with
  | none => pa = 0
  | some u => ∃ n, pa = n * PGSIZE ∧ n ≠ 0 ∧ pages[va / PGSIZE]? = some u ∧
      g n = .user r (va / PGSIZE) ∧ s.mem n = u.data

theorem Managed.ne_zero {n : Nat} (h : ld.Managed n) : n ≠ 0 := by
  rintro rfl
  have hlow := h.1
  have htext := ld.text
  rw [Nat.zero_mul] at hlow
  have hbase : 0 < KERNBASE := by decide
  omega

theorem walkaddr_user (hpool : Pool ld g s) (h : Space g s r top pages) (va : Nat) :
    Total (walkaddr (r * PGSIZE) va) (fun pa s' => s' = s ∧ Found g s r pages va pa) s := by
  refine walkaddr_total.mono ?_
  rintro pa s' ⟨rfl, rfl⟩
  refine ⟨rfl, ?_⟩
  have htop := h.length_lt_TOPV hpool
  by_cases hi : va / PGSIZE < pages.length
  · -- the page is part of user memory
    have hu := List.getElem?_eq_getElem hi
    obtain ⟨n, hmap, hn, hdata⟩ := h.user _ _ hu
    have hmanaged := hpool.managed hn (by simp)
    have hva : va < MAXVA := by
      have hlt : va / PGSIZE < MAXVA / PGSIZE := lt_trans (lt_trans hi htop) (by decide)
      by_contra hge
      exact absurd (Nat.div_le_div_right (Nat.le_of_not_lt hge)) (Nat.not_le.mpr hlt)
    rw [if_pos hva, hmap, userAddr, Found, Pages.lookup, hu]
    cases huser : pages[va / PGSIZE].user with
    | false =>
      rw [if_pos ((UPage.entry_user _ n).mpr huser), Option.filter_some_neg (by simp [huser])]
    | true =>
      have hU : ¬ UPage.entry pages[va / PGSIZE] n &&& PTE_U = 0 := fun hU => by
        rw [(UPage.entry_user _ n).mp hU] at huser
        cases huser
      rw [if_neg hU, Option.filter_some_pos huser, UPage.entry_page _ hmanaged.small]
      exact ⟨n, rfl, Managed.ne_zero hmanaged, rfl, hn, hdata⟩
  · -- it is not, and what else is mapped has no `PTE_U`
    have hnone : pages.lookup va = none := by
      rw [Pages.lookup, List.getElem?_eq_none (by omega)]
      rfl
    have hzero : userAddr (mapping s'.mem r (va / PGSIZE)) = 0 := by
      rw [h.rest _ (by omega)]
      cases hpte : top (va / PGSIZE) with
      | none => rfl
      | some pte => exact if_pos (h.high _ pte hpte).2
    rw [hzero, ite_self, Found, hnone]

/-- The contents of a user page change. -/
theorem Space.write (hpool : Pool ld g s) (h : Space g s r top pages) {i n : Nat} {u : UPage}
    (hu : pages[i]? = some u) (hn : g n = .user r i) (page : Page) :
    Worked ld r top (pages.set i { u with data := page }) g g s (s.setPage n page) := by
  have hnode : ∀ r p, g n ≠ .node r p := fun r p hp => by cases hn.symm.trans hp
  have hmem : ∀ m, m ≠ n → (s.setPage n page).mem m = s.mem m := fun m hm =>
    update_of_ne hm _ _
  have htables := hpool.tables.setPage hnode page
  have hmap : mapping (s.setPage n page).mem r = mapping s.mem r :=
    hpool.tables.mapping_update h.root (hnode r) page
  have hchange : Change (InSpace r) g g s (s.setPage n page) := by
    refine ⟨fun x hx => ⟨rfl, hmem x ?_⟩, fun _ hx => hx⟩
    rintro rfl
    exact hx (Or.inr ⟨i, hn⟩)
  obtain ⟨v, hv, hentry⟩ := h.only n i hn
  rw [hu] at hv
  obtain rfl := Option.some.inj hv
  refine ⟨hpool.change htables hchange fun _ _ _ => h.root, hchange,
    h.set hu hn h.root ?_ (fun _ _ => Iff.rfl) ?_ (update_self ..) ?_⟩
  · refine h.inner.congr fun x p _ hx => ⟨hx, fun j => word_update_ne ?_ page j⟩
    rintro rfl
    exact hnode r p hx
  · rw [hmap]
    exact (update_eq_self_iff.mpr hentry.symm).symm
  · intro m j hm hj
    refine hmem m ?_
    rintro rfl
    exact hj (Role.user.inj (hm.symm.trans hn)).2

theorem memmove_total {n off : Nat} {bytes : List UInt8} (hoff : off < PGSIZE)
    {Q : Unit → Phys → Prop} (h : Q () (s.setPage n (storeBytes (s.mem n) off bytes))) :
    Total (memmove (n * PGSIZE + off) bytes) Q s := by
  refine Total.modify ?_
  rw [page_add_div hoff, page_add_mod hoff]
  exact h

variable {Q : List UInt8 → Phys → Prop}

theorem loadBytes_total {n off k : Nat} (hoff : off < PGSIZE) (h : Q (bytesAt (s.mem n) off k) s) :
    Total (loadBytes (n * PGSIZE + off) k) Q s := by
  refine Total.bind (Total.get (Total.pure ?_))
  rw [page_add_div hoff, page_add_mod hoff]
  exact h

theorem page_offset (va : Nat) : va - PGROUNDDOWN va = va % PGSIZE := by
  have hdiv := Nat.div_add_mod va PGSIZE
  rw [PGROUNDDOWN, Nat.mul_comm]
  omega

theorem nextPage_eq (va : Nat) : (PGROUNDDOWN va + PGSIZE) % 2 ^ 64 = Pages.nextPage va := by
  rw [PGROUNDDOWN, ← Nat.succ_mul]
  rfl

theorem found_page {va pa : Nat} (h : Found g s r pages (PGROUNDDOWN va) pa) :
    Found g s r pages va pa := by
  have hdiv : PGROUNDDOWN va / PGSIZE = va / PGSIZE := page_div _
  rw [Found, Pages.lookup, hdiv] at h
  exact h

theorem mod_lt_page (va : Nat) : va % PGSIZE < PGSIZE := Nat.mod_lt _ (by decide)

/-! ## Copying -/

theorem copyoutLoop_total (fuel : Nat) : ∀ (va : Nat) (bytes : List UInt8) (s : Phys)
    (pages : Pages), Pool ld g s → Space g s r top pages →
    Total (copyoutLoop (r * PGSIZE) fuel va bytes) (fun ok s' =>
      ok = (Pages.copyoutFrom fuel va bytes pages).2 ∧
        Worked ld r top (Pages.copyoutFrom fuel va bytes pages).1 g g s s') s := by
  induction fuel with
  | zero =>
    intro va bytes s pages hpool h
    cases bytes with
    | nil => exact Total.pure ⟨rfl, Worked.refl hpool h⟩
    | cons x xs => exact Total.pure ⟨rfl, Worked.refl hpool h⟩
  | succ fuel ih =>
    intro va bytes s pages hpool h
    cases bytes with
    | nil => exact Total.pure ⟨rfl, Worked.refl hpool h⟩
    | cons x xs =>
      rw [copyoutLoop, Pages.copyoutFrom]
      refine Total.seq (walkaddr_user hpool h _) ?_
      rintro pa s₁ ⟨rfl, hfound⟩
      have hfound := found_page hfound
      rw [Found] at hfound
      cases hlook : pages.lookup va with
      | none =>
        rw [hlook] at hfound
        rw [if_pos hfound]
        exact Total.pure ⟨rfl, Worked.refl hpool h⟩
      | some u =>
        rw [hlook] at hfound
        obtain ⟨n, rfl, hn0, hu, hn, hdata⟩ := hfound
        have hpos : 0 < PGSIZE := by decide
        rw [if_neg (Nat.mul_ne_zero hn0 (by decide)), page_offset, nextPage_eq]
        refine Total.bind (memmove_total (mod_lt_page va) ?_)
        rw [hdata]
        have hworked := h.write hpool hu hn (storeBytes u.data (va % PGSIZE)
          ((x :: xs).take (Pages.chunk va (x :: xs).length)))
        refine (ih (Pages.nextPage va) _ _ _ hworked.pool hworked.space).mono ?_
        rintro ok s' ⟨hok, hworked'⟩
        exact ⟨hok, hworked.trans hworked'⟩

theorem copyout_user (hpool : Pool ld g s) (h : Space g s r top pages) (va : Nat)
    (bytes : List UInt8) : Total (copyout (r * PGSIZE) va bytes) (fun ok s' =>
      ok = (pages.copyout va bytes).2 ∧ Worked ld r top (pages.copyout va bytes).1 g g s s') s :=
  copyoutLoop_total bytes.length va bytes s pages hpool h

/-- A page of what is copied in. -/
theorem found_load {va k pa : Nat} {u : UPage} (hlook : pages.lookup va = some u)
    (hfound : Found g s r pages va pa) (hQ : Q (bytesAt u.data (va % PGSIZE) k) s) :
    pa ≠ 0 ∧ Total (loadBytes (pa + va % PGSIZE) k) Q s := by
  rw [Found, hlook] at hfound
  obtain ⟨n, rfl, hn0, -, -, hdata⟩ := hfound
  refine ⟨Nat.mul_ne_zero hn0 (by decide), loadBytes_total (mod_lt_page va) ?_⟩
  rw [hdata]
  exact hQ

section

variable (hpool : Pool ld g s) (h : Space g s r top pages)

include hpool h

theorem copyinLoop_total (fuel : Nat) :
    ∀ va len : Nat, Total (copyinLoop (r * PGSIZE) fuel va len) (fun res s' =>
      s' = s ∧ res = pages.copyinFrom fuel va len) s := by
  induction fuel with
  | zero =>
    intro va len
    cases len with
    | zero => exact Total.pure ⟨rfl, rfl⟩
    | succ len => exact Total.pure ⟨rfl, rfl⟩
  | succ fuel ih =>
    intro va len
    cases len with
    | zero => exact Total.pure ⟨rfl, rfl⟩
    | succ len =>
      rw [copyinLoop, Pages.copyinFrom]
      refine Total.seq (walkaddr_user hpool h _) ?_
      rintro pa s₁ ⟨rfl, hfound⟩
      have hfound := found_page hfound
      cases hlook : pages.lookup va with
      | none =>
        rw [Found, hlook] at hfound
        rw [if_pos hfound]
        exact Total.pure ⟨rfl, rfl⟩
      | some u =>
        rw [page_offset, nextPage_eq]
        have hload := found_load (k := Pages.chunk va (len + 1)) hlook hfound
          (Q := fun bytes s' => s' = s₁ ∧ bytes = bytesAt u.data (va % PGSIZE)
            (Pages.chunk va (len + 1))) ⟨rfl, rfl⟩
        rw [if_neg hload.1]
        refine Total.seq hload.2 ?_
        rintro _ s₂ ⟨rfl, rfl⟩
        refine Total.seq (ih (Pages.nextPage va) (len + 1 - Pages.chunk va (len + 1))) ?_
        rintro _ s₃ ⟨rfl, rfl⟩
        exact Total.pure ⟨rfl, rfl⟩

theorem copyin_user (va len : Nat) :
    Total (copyin (r * PGSIZE) va len) (fun res s' => s' = s ∧ res = pages.copyin va len) s :=
  copyinLoop_total hpool h len va len

theorem copyinstrLoop_total (fuel : Nat) :
    ∀ va max : Nat, Total (copyinstrLoop (r * PGSIZE) fuel va max) (fun res s' =>
      s' = s ∧ res = pages.copyinstrFrom fuel va max) s := by
  induction fuel with
  | zero =>
    intro va max
    cases max with
    | zero => exact Total.pure ⟨rfl, rfl⟩
    | succ max => exact Total.pure ⟨rfl, rfl⟩
  | succ fuel ih =>
    intro va max
    cases max with
    | zero => exact Total.pure ⟨rfl, rfl⟩
    | succ max =>
      rw [copyinstrLoop, Pages.copyinstrFrom]
      refine Total.seq (walkaddr_user hpool h _) ?_
      rintro pa s₁ ⟨rfl, hfound⟩
      have hfound := found_page hfound
      cases hlook : pages.lookup va with
      | none =>
        rw [Found, hlook] at hfound
        rw [if_pos hfound]
        exact Total.pure ⟨rfl, rfl⟩
      | some u =>
        rw [page_offset, nextPage_eq]
        have hload := found_load (k := Pages.chunk va (max + 1)) hlook hfound
          (Q := fun bytes s' => s' = s₁ ∧ bytes = bytesAt u.data (va % PGSIZE)
            (Pages.chunk va (max + 1))) ⟨rfl, rfl⟩
        rw [if_neg hload.1]
        refine Total.seq hload.2 ?_
        rintro bytes s₂ ⟨rfl, hbytes⟩
        simp only [← hbytes]
        split
        · exact Total.pure ⟨rfl, rfl⟩
        · refine Total.seq (ih (Pages.nextPage va) (max + 1 - Pages.chunk va (max + 1))) ?_
          rintro _ s₃ ⟨rfl, rfl⟩
          exact Total.pure ⟨rfl, rfl⟩

theorem copyinstr_user (va max : Nat) : Total (copyinstr (r * PGSIZE) va max) (fun res s' =>
      s' = s ∧ res = pages.copyinstr va max) s :=
  copyinstrLoop_total hpool h max va max

end

end Xv6.Vm
