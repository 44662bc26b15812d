/-
  Vm/UserString.lean --- `copyinstr` accepts exactly the strings that end within `max` bytes.

  `Fetched` records what `copyinstr` has done when it returns: the bytes that it stored at
  `dst`, and the pages that it looked at.  The `copyinstr` of `Vm/PageTable.lean` is what
  is left when the record is forgotten.  `fetchstr` and `argstr` are on top of it.
-/
import Xv6.Vm.UserBytes

set_option autoImplicit false

namespace Xv6.Vm

open List Foundation

variable {s s' : Phys} {mem : Nat → Page} {r va : Nat}

/-! ## The code -/

/-- What `copyinstr` has done. -/
structure Fetched where
  /-- the bytes stored at `dst`, from the first on -/
  dst : List UInt8
  /-- the addresses of the pages looked at -/
  pages : List Nat
  /-- `got_null` -/
  gotNull : Bool

/-- The inner loop, over the bytes of one page: what is stored, and whether it was left at
a null byte. -/
def scan : List UInt8 → List UInt8 × Bool
  | [] => ([], false)
  | b :: bs => if b = 0 then ([0], true) else (b :: (scan bs).1, (scan bs).2)

def copyinstrDstLoop (pagetable : Nat) : Nat → Nat → Nat → Code Fetched
  | _, _, 0 => return ⟨[], [], false⟩
  | 0, _, _ + 1 => return ⟨[], [], false⟩
  | fuel + 1, srcva, max + 1 => do
      let va0 := PGROUNDDOWN srcva
      let pa0 ← walkaddr pagetable va0
      if pa0 = 0 then return ⟨[], [va0], false⟩
      else do
        let n := min (PGSIZE - (srcva - va0)) (max + 1)
        let bytes ← loadBytes (pa0 + (srcva - va0)) n
        if (scan bytes).2 then return ⟨(scan bytes).1, [va0], true⟩
        else do
          let rest ← copyinstrDstLoop pagetable fuel ((va0 + PGSIZE) % 2 ^ 64) (max + 1 - n)
          return ⟨(scan bytes).1 ++ rest.dst, va0 :: rest.pages, rest.gotNull⟩

/-- `copyinstr`, with the record of what it did. -/
def copyinstrDst (pagetable srcva max : Nat) : Code Fetched :=
  copyinstrDstLoop pagetable max srcva max

def strlen : List UInt8 → Nat
  | [] => 0
  | b :: bs => if b = 0 then 0 else strlen bs + 1

/-- `fetchstr`: the length or -1, and the buffer.  The `int` is converted to the `uint64`
that `copyinstr` takes. -/
def fetchstr (pagetable addr : Nat) (buf : List UInt8) (max : Int32) :
    Code (Int × List UInt8) := do
  let f ← copyinstrDst pagetable addr (max.toInt % 2 ^ 64).toNat
  let buf := f.dst ++ buf.drop f.dst.length
  if f.gotNull then return (strlen buf, buf) else return (-1, buf)

/-- `argraw`: the argument registers `a0` to `a5` of the trapframe. -/
def argraw (a : Fin 6 → UInt64) (n : Nat) : Code UInt64 :=
  if h : n < 6 then return a ⟨n, h⟩ else throw "argraw"

def argstr (pagetable : Nat) (a : Fin 6 → UInt64) (n : Nat) (buf : List UInt8) (max : Int32) :
    Code (Int × List UInt8) := do
  let addr ← argraw a n
  fetchstr pagetable addr.toNat buf max

/-! ## One page -/

variable {str rest : List UInt8}

theorem scan_append (h : 0 ∉ str) : scan (str ++ 0 :: rest) = (str ++ [0], true) := by
  induction str with
  | nil => rfl
  | cons b str ih =>
    have hb : b ≠ 0 := fun heq => h (heq ▸ mem_cons_self)
    rw [cons_append, scan, if_neg hb, ih fun hmem => h (mem_cons_of_mem b hmem)]
    rfl

theorem takeWhile_append (h : 0 ∉ str) : (str ++ 0 :: rest).takeWhile (· ≠ 0) = str := by
  have hall : ∀ b ∈ str, decide (b ≠ 0) = true := fun b hb =>
    decide_eq_true fun heq => h (heq ▸ hb)
  rw [takeWhile_append_of_pos hall, takeWhile_cons_of_neg (by simp), append_nil]

theorem strlen_append (h : 0 ∉ str) : strlen (str ++ 0 :: rest) = str.length := by
  induction str with
  | nil => rfl
  | cons b str ih =>
    have hb : b ≠ 0 := fun heq => h (heq ▸ mem_cons_self)
    rw [cons_append, strlen, if_neg hb, ih fun hmem => h (mem_cons_of_mem b hmem)]
    rfl

theorem scan_of_not_mem {bs : List UInt8} (h : 0 ∉ bs) : scan bs = (bs, false) := by
  induction bs with
  | nil => rfl
  | cons b bs ih =>
    have hb : b ≠ 0 := fun heq => h (heq ▸ mem_cons_self)
    rw [scan, if_neg hb, ih fun hbs => h (mem_cons_of_mem b hbs)]

/-- The string without its null byte, if there is one. -/
def Fetched.string (f : Fetched) : Option (List UInt8) :=
  if f.gotNull then some (f.dst.takeWhile (· ≠ 0)) else none

theorem Fetched.string_append {bytes : List UInt8} (h : 0 ∉ bytes) (p : Nat) (f : Fetched) :
    Fetched.string ⟨bytes ++ f.dst, p :: f.pages, f.gotNull⟩ = f.string.map (bytes ++ ·) := by
  have hall : ∀ b ∈ bytes, decide (b ≠ 0) = true := fun b hb =>
    decide_eq_true fun heq => h (heq ▸ hb)
  rw [Fetched.string, Fetched.string]
  cases f.gotNull with
  | false => rfl
  | true => exact congrArg some (takeWhile_append_of_pos hall)

theorem copyinstrLoop_eq (pagetable fuel : Nat) : ∀ va max, copyinstrLoop pagetable fuel va max
      = Fetched.string <$> copyinstrDstLoop pagetable fuel va max := by
  induction fuel with
  | zero =>
    intro va max
    cases max with
    | zero => rfl
    | succ max => rfl
  | succ fuel ih =>
    intro va max
    cases max with
    | zero => rfl
    | succ max =>
      rw [copyinstrLoop, copyinstrDstLoop, map_bind]
      refine congrArg _ (funext fun pa0 => ?_)
      by_cases hpa : pa0 = 0
      · rw [if_pos hpa, if_pos hpa]
        rfl
      · simp only [if_neg hpa, map_bind]
        refine congrArg _ (funext fun bytes => ?_)
        by_cases hzero : 0 ∈ bytes
        · obtain ⟨str, rest, rfl, hnot⟩ := eq_append_cons_of_mem hzero
          rw [if_pos hzero, scan_append hnot, if_pos rfl, map_pure, Fetched.string, if_pos rfl,
            takeWhile_append hnot, takeWhile_append hnot]
        · simp only [if_neg hzero, scan_of_not_mem hzero, if_neg Bool.false_ne_true, ih, map_bind,
            bind_map_left, map_pure, Fetched.string_append hzero]

/-- The record can be forgotten. -/
theorem copyinstr_eq (pagetable va max : Nat) :
    copyinstr pagetable va max = Fetched.string <$> copyinstrDst pagetable va max :=
  copyinstrLoop_eq pagetable max va max

/-! ## What was fetched -/

/-- What holds of the record of a run of `copyinstr` at `va`. -/
structure Fetches (mem : Nat → Page) (r va max : Nat) (f : Fetched) : Prop where
  reads : Reads mem r va f.dst
  short : f.dst.length ≤ max
  /-- a null byte is the last one stored -/
  null : f.gotNull = true → ∃ str, f.dst = str ++ [0] ∧ 0 ∉ str
  /-- without one, it went to the end or to a page that cannot be accessed -/
  noNull : f.gotNull = false → 0 ∉ f.dst ∧
    (f.dst.length = max ∨ place mem r (va + f.dst.length) = none)
  /-- a page is looked at after bytes that are not null -/
  pages : ∀ p ∈ f.pages, ∃ j ≤ f.dst.length, p = PGROUNDDOWN (va + j) ∧ 0 ∉ f.dst.take j

theorem Fetches.done : Fetches mem r va 0 ⟨[], [], false⟩ :=
  ⟨Reads.nil, le_refl 0, fun h => (nomatch h), fun _ => ⟨not_mem_nil, Or.inl rfl⟩,
    fun _ hp => (nomatch hp)⟩

/-- The page of the next byte cannot be accessed. -/
theorem Fetches.unmapped {max : Nat} (h : place mem r va = none) :
    Fetches mem r va max ⟨[], [PGROUNDDOWN va], false⟩ := by
  refine ⟨Reads.nil, Nat.zero_le _, fun h => (nomatch h), fun _ => ⟨not_mem_nil, Or.inr h⟩,
    fun p hp => ⟨0, le_refl 0, mem_singleton.mp hp, not_mem_nil⟩⟩

/-- The null byte is in the first page. -/
theorem Fetches.found {max : Nat} (hreads : Reads mem r va (str ++ 0 :: rest))
    (hlen : (str ++ 0 :: rest).length ≤ max) (hnot : 0 ∉ str) :
    Fetches mem r va max ⟨str ++ [0], [PGROUNDDOWN va], true⟩ := by
  have happ : str ++ 0 :: rest = (str ++ [0]) ++ rest := by
    rw [append_assoc, singleton_append]
  rw [happ] at hreads hlen
  refine ⟨fun j b hb => hreads j b ?_, ?_, fun _ => ⟨str, rfl, hnot⟩, fun h => (nomatch h),
    fun p hp => ⟨0, Nat.zero_le _, mem_singleton.mp hp, not_mem_nil⟩⟩
  · rw [List.getElem?_append_left (List.getElem?_eq_some_iff.mp hb).1]
    exact hb
  · rw [length_append] at hlen
    exact le_trans (Nat.le_add_right _ _) hlen

/-- The first page, and what follows. -/
theorem Fetches.cons {max : Nat} {bytes : List UInt8} {f : Fetched}
    (hreads : Reads mem r va bytes) (hlen : bytes.length ≤ max) (hzero : 0 ∉ bytes)
    (h : Fetches mem r (va + bytes.length) (max - bytes.length) f) :
    Fetches mem r va max ⟨bytes ++ f.dst, PGROUNDDOWN va :: f.pages, f.gotNull⟩ := by
  refine ⟨hreads.append h.reads, ?_, fun hnull => ?_, fun hnull => ?_, fun p hp => ?_⟩
  · have hshort := h.short
    rw [length_append]
    omega
  · obtain ⟨str, hstr, hnot⟩ := h.null hnull
    refine ⟨bytes ++ str, ?_, ?_⟩
    · rw [append_assoc, ← hstr]
    · exact fun hmem => (mem_append.mp hmem).elim hzero hnot
  · obtain ⟨hnot, hend⟩ := h.noNull hnull
    refine ⟨fun hmem => (mem_append.mp hmem).elim hzero hnot, ?_⟩
    rw [length_append, ← Nat.add_assoc]
    exact hend.imp_left fun heq => by omega
  · rcases mem_cons.mp hp with rfl | hp
    · exact ⟨0, Nat.zero_le _, rfl, not_mem_nil⟩
    · obtain ⟨j, hj, hpage, hnot⟩ := h.pages p hp
      refine ⟨bytes.length + j, ?_, ?_, ?_⟩
      · rw [length_append]
        omega
      · rw [← Nat.add_assoc]
        exact hpage
      · rw [take_length_add_append]
        exact fun hmem => (mem_append.mp hmem).elim hzero hnot

theorem copyinstrDstLoop_total (fuel : Nat) : ∀ (va max : Nat), max ≤ fuel →
    Total (copyinstrDstLoop (r * PGSIZE) fuel va max) (fun f s' => s' = s ∧
      Fetches s.mem r va max f) s := by
  induction fuel with
  | zero =>
    intro va max hmax
    obtain rfl : max = 0 := by omega
    exact Total.pure ⟨rfl, Fetches.done⟩
  | succ fuel ih =>
    intro va max hmax
    cases max with
    | zero => exact Total.pure ⟨rfl, Fetches.done⟩
    | succ max =>
      rw [copyinstrDstLoop]
      refine Total.seq (walkaddr_place r va) ?_
      rintro pa s₁ ⟨rfl, ⟨hnone, rfl⟩ | ⟨n, hplace, hn, rfl⟩⟩
      · rw [if_pos rfl]
        exact Total.pure ⟨rfl, Fetches.unmapped hnone⟩
      · rw [if_neg hn, page_offset, nextPage_eq, nextPage_of_place hplace]
        refine Total.bind (loadBytes_total (mod_lt_page va) ?_)
        obtain ⟨hpos, hfits, hle, hend⟩ := chunk_bounds va (Nat.succ_pos max)
        rw [← show Pages.chunk va (max + 1) = min (PGSIZE - va % PGSIZE) (max + 1) from rfl]
        generalize Pages.chunk va (max + 1) = m at *
        have hfirst := reads_page hplace hfits
        have hlength : (bytesAt (s₁.mem n) (va % PGSIZE) m).length = m := length_bytesAt _ _ _
        generalize bytesAt (s₁.mem n) (va % PGSIZE) m = bytes at *
        by_cases hzero : 0 ∈ bytes
        · obtain ⟨str, rest, rfl, hnot⟩ := eq_append_cons_of_mem hzero
          rw [scan_append hnot, if_pos rfl]
          exact Total.pure ⟨rfl, Fetches.found hfirst (by omega) hnot⟩
        · rw [scan_of_not_mem hzero, if_neg Bool.false_ne_true]
          have hrest : Total (copyinstrDstLoop (r * PGSIZE) fuel (va + (PGSIZE - va % PGSIZE))
              (max + 1 - m)) (fun f s' => s' = s₁ ∧
                Fetches s₁.mem r (va + m) (max + 1 - m) f) s₁ := by
            rcases hend with rfl | hnext
            · rw [Nat.sub_self]
              cases fuel with
              | zero => exact Total.pure ⟨rfl, Fetches.done⟩
              | succ fuel => exact Total.pure ⟨rfl, Fetches.done⟩
            · rw [← hnext]
              exact ih (va + m) (max + 1 - m) (by omega)
          refine Total.seq hrest ?_
          rintro f s' ⟨rfl, hf⟩
          subst hlength
          exact Total.pure ⟨rfl, Fetches.cons hfirst hle hzero hf⟩

/-! ## Strings that end -/

/-- The bytes from a 64-bit address on are mapped for user code up to byte `k`, which is
the first null byte. -/
def EndsAt (mem : Nat → Page) (r : Nat) (va : UInt64) (k : Nat) : Prop :=
  (∀ j < k, ∃ b, userByte mem r ((va.toNat + j) % 2 ^ 64) = some b ∧ b ≠ 0) ∧
    userByte mem r ((va.toNat + k) % 2 ^ 64) = some 0

/-- The addresses of a string that ends do not wrap. -/
theorem endsAt_iff {va : UInt64} {k : Nat} : EndsAt mem r va k ↔
    (∀ j < k, ∃ b, userByte mem r (va.toNat + j) = some b ∧ b ≠ 0) ∧
      userByte mem r (va.toNat + k) = some 0 := by
  have hmax : MAXVA = 274877906944 := rfl
  have hplace : ∀ {va b}, userByte mem r va = some b → ∃ x, place mem r va = some x :=
    fun h => ⟨_, (Option.map_eq_some_iff.mp h).choose_spec.1⟩
  constructor
  · rintro ⟨hbefore, hnull⟩
    have hmapped : Mapped mem r va (k + 1) := by
      intro j hj
      rcases Nat.lt_succ_iff_lt_or_eq.mp hj with hj | rfl
      · obtain ⟨b, hb, -⟩ := hbefore j hj
        exact hplace hb
      · exact hplace hnull
    have hmod : ∀ j < k + 1, (va.toNat + j) % 2 ^ 64 = va.toNat + j := by
      intro j hj
      obtain ⟨x, hx⟩ := mapped_iff.mp hmapped j hj
      have hlt := lt_MAXVA_of_place hx
      exact Nat.mod_eq_of_lt (by omega)
    refine ⟨fun j hj => ?_, ?_⟩
    · rw [← hmod j (by omega)]
      exact hbefore j hj
    · rw [← hmod k (by omega)]
      exact hnull
  · rintro ⟨hbefore, hnull⟩
    have hmod : ∀ {j b}, userByte mem r (va.toNat + j) = some b →
        (va.toNat + j) % 2 ^ 64 = va.toNat + j := by
      intro j b hb
      obtain ⟨x, hx⟩ := hplace hb
      have hlt := lt_MAXVA_of_place hx
      exact Nat.mod_eq_of_lt (by omega)
    refine ⟨fun j hj => ?_, ?_⟩
    · obtain ⟨b, hb, hne⟩ := hbefore j hj
      exact ⟨b, by rw [hmod hb, hb], hne⟩
    · rw [hmod hnull, hnull]

namespace Fetches

variable {va : UInt64} {max : Nat} {f : Fetched}

section

variable (h : Fetches mem r va.toNat max f)

include h

/-- The string that was found ends where its null byte is. -/
theorem endsAt {str : List UInt8} (hdst : f.dst = str ++ [0])
    (hnot : 0 ∉ str) : EndsAt mem r va str.length := by
  have hreads := hdst ▸ h.reads
  refine endsAt_iff.mpr ⟨fun j hj => ⟨str[j], hreads j _ ?_, ?_⟩, hreads _ 0 ?_⟩
  · rw [getElem?_append_left hj]
    exact getElem?_eq_getElem hj
  · exact fun heq => hnot (heq ▸ getElem_mem hj)
  · rw [getElem?_append_right (le_refl _), Nat.sub_self]
    rfl

/-- The bytes stored before the end of a string are not null, and the one at the end is. -/
theorem null_at {k : Nat} (hk : EndsAt mem r va k)
    (hlen : k < f.dst.length) : f.dst[k]? = some 0 := by
  have hread := h.reads k _ (getElem?_eq_getElem hlen)
  rw [(endsAt_iff.mp hk).2] at hread
  rw [getElem?_eq_getElem hlen, ← hread]

theorem gotNull_iff : f.gotNull = true ↔ ∃ k < max, EndsAt mem r va k := by
  constructor
  · intro hnull
    obtain ⟨str, hdst, hnot⟩ := h.null hnull
    have hshort := h.short
    rw [hdst, length_append, length_singleton] at hshort
    exact ⟨str.length, by omega, h.endsAt hdst hnot⟩
  · rintro ⟨k, hk, hends⟩
    by_contra hnull
    obtain ⟨hnot, hstop⟩ := h.noNull (Bool.eq_false_iff.mpr hnull)
    by_cases hlen : k < f.dst.length
    · -- the null byte was stored
      exact hnot (mem_of_getElem? (h.null_at hends hlen))
    · -- it was not reached, but then a page before it is not mapped
      rcases hstop with hmax | hnone
      · omega
      · obtain ⟨hbefore, hzero⟩ := endsAt_iff.mp hends
        rcases Nat.lt_or_eq_of_le (Nat.le_of_not_lt hlen) with hlt | heq
        · obtain ⟨b, hb, -⟩ := hbefore _ hlt
          rw [userByte, hnone] at hb
          cases hb
        · rw [← heq, userByte, hnone] at hzero
          cases hzero

/-- No page is looked at after that of the null byte. -/
theorem pages_le {k p : Nat} (hk : EndsAt mem r va k)
    (hp : p ∈ f.pages) : p / PGSIZE ≤ (va.toNat + k) / PGSIZE := by
  obtain ⟨j, hj, rfl, hnot⟩ := h.pages p hp
  have hjk : j ≤ k := by
    by_contra hlt
    have hnull := h.null_at hk (by omega)
    rw [← getElem?_take_of_lt (by omega : k < j)] at hnull
    exact hnot (mem_of_getElem? hnull)
  rw [show PGROUNDDOWN (va.toNat + j) / PGSIZE = (va.toNat + j) / PGSIZE from page_div _]
  exact Nat.div_le_div_right (by omega)

end

end Fetches

theorem copyinstrDst_total (va : UInt64) (max : Nat) :
    Total (copyinstrDst (r * PGSIZE) va.toNat max) (fun f s' => s' = s ∧
      Fetches s.mem r va.toNat max f) s :=
  copyinstrDstLoop_total max va.toNat max (le_refl max)

/-! ## `fetchstr` and `argstr` -/

/-- What `fetchstr` returns, and what it leaves in the buffer, for the string at `va`. -/
structure FetchedString (mem : Nat → Page) (r : Nat) (va : UInt64) (buf : List UInt8) (max : Int32)
    (str : List UInt8) (res : Int) (buf' : List UInt8) : Prop where
  length : res = str.length
  bound : 0 ≤ max.toInt → res < max.toInt
  endsAt : EndsAt mem r va str.length
  notNull : 0 ∉ str
  reads : Reads mem r va.toNat (str ++ [0])
  buffer : buf' = str ++ 0 :: buf.drop (str.length + 1)

theorem fetchstr_total (va : UInt64) (buf : List UInt8) (max : Int32) :
    Total (fetchstr (r * PGSIZE) va.toNat buf max) (fun x s' => s' = s ∧
      (x.1 = -1 ∨ ∃ str, FetchedString s.mem r va buf max str x.1 x.2)) s := by
  refine Total.seq (copyinstrDst_total va _) ?_
  rintro f s' ⟨rfl, hf⟩
  cases hnull : f.gotNull with
  | false =>
    rw [if_neg Bool.false_ne_true]
    exact Total.pure ⟨rfl, Or.inl rfl⟩
  | true =>
    rw [if_pos rfl]
    obtain ⟨str, hdst, hnot⟩ := hf.null hnull
    have hshort := hf.short
    have hlength : f.dst.length = str.length + 1 := by
      rw [hdst, length_append, length_singleton]
    have hbuf : f.dst ++ buf.drop f.dst.length = str ++ 0 :: buf.drop (str.length + 1) := by
      rw [hlength, hdst, append_assoc, singleton_append]
    rw [hbuf, strlen_append hnot]
    refine Total.pure ⟨rfl, Or.inr ⟨str, rfl, fun hmax => ?_, hf.endsAt hdst hnot, hnot,
      hdst ▸ hf.reads, rfl⟩⟩
    have hlt : max.toInt < 2 ^ 31 := max.toInt_lt
    rw [Int.emod_eq_of_lt hmax (by omega), hlength] at hshort
    omega

/-- `copyinstr` returns 0 exactly when a string of less than `max` bytes that are mapped
for user code ends at `srcva + k`; `dst` is then that string with its null byte.  It never
stores more than `max` bytes and never looks at a page after that of the null byte.
`fetchstr` and `argstr` return the length of that string, or -1. -/
theorem copyinstr_terminated (s : Phys) (r : Nat) (va : UInt64) :
    (∀ max, copyinstr (r * PGSIZE) va.toNat max
        = Fetched.string <$> copyinstrDst (r * PGSIZE) va.toNat max ∧
      Total (copyinstrDst (r * PGSIZE) va.toNat max) (fun f s' => s' = s ∧
        (f.gotNull = true ↔ ∃ k < max, EndsAt s.mem r va k) ∧
        (f.gotNull = true → ∃ str, f.dst = str ++ [0] ∧ 0 ∉ str ∧ EndsAt s.mem r va str.length) ∧
        Reads s.mem r va.toNat f.dst ∧ f.dst.length ≤ max ∧
        ∀ k, EndsAt s.mem r va k → ∀ p ∈ f.pages, p / PGSIZE ≤ (va.toNat + k) / PGSIZE) s) ∧
    (∀ buf max, Total (fetchstr (r * PGSIZE) va.toNat buf max) (fun x s' => s' = s ∧
      (x.1 = -1 ∨ ∃ str, FetchedString s.mem r va buf max str x.1 x.2)) s) ∧
    (∀ (a : Fin 6 → UInt64) (n : Fin 6) buf max, Total (argstr (r * PGSIZE) a n buf max)
      (fun x s' => s' = s ∧
        (x.1 = -1 ∨ ∃ str, FetchedString s.mem r (a n) buf max str x.1 x.2)) s) := by
  refine ⟨fun max => ⟨copyinstr_eq _ _ _, ?_⟩, fun buf max => fetchstr_total va buf max,
    fun a n buf max => ?_⟩
  · refine (copyinstrDst_total va max).mono ?_
    rintro f s' ⟨rfl, hf⟩
    refine ⟨rfl, hf.gotNull_iff, fun hnull => ?_, hf.reads, hf.short,
      fun k hk p hp => hf.pages_le hk hp⟩
    obtain ⟨str, hdst, hnot⟩ := hf.null hnull
    exact ⟨str, hdst, hnot, hf.endsAt hdst hnot⟩
  · rw [argstr, argraw, dif_pos n.isLt]
    exact Total.bind (Total.pure (fetchstr_total (a n) buf max))

end Xv6.Vm
