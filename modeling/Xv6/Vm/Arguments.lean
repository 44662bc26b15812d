/-
  Vm/Arguments.lean --- the argument stack that `exec` builds.

  The strings and then the array of pointers are pushed on one page, each rounded up to 16
  bytes.  `Pages.arguments_eq` says which page that gives, and that it fails exactly when the
  rounded sizes do not fit in the page.
-/
import Xv6.Vm.ExecCall

set_option autoImplicit false

namespace Xv6.Vm

open List Foundation

variable {ld : Linker} {g : Nat → Role} {s : Phys} {k : ExecState} {p : Pid} {r tf : Nat}
  {pages : Pages}

/-! ## Pushing -/

/-- Rounded up to a multiple of 16. -/
def align16 (n : Nat) : Nat := (n + 15) / 16 * 16

theorem le_align16 (n : Nat) : n ≤ align16 n := by
  rw [align16]
  omega

theorem align16_mod (n : Nat) : align16 n % 16 = 0 := by
  rw [align16]
  omega

theorem push_eq {sp n : Nat} (hsp : sp % 16 = 0) (hn : n ≤ sp) (hlt : sp < 2 ^ 63) :
    push sp n = sp - align16 n := by
  rw [push, align16]
  omega

/-- What is pushed below address 0 ends up above all memory. -/
theorem push_wrap {sp n : Nat} (hn : sp < n) (hlt : n < 2 ^ 62) : 2 ^ 63 ≤ push sp n := by
  rw [push]
  omega

/-! ## The page of the stack -/

/-- The pages of a program with a guard page and this stack page. -/
def Pages.withStack (pages : Pages) (page : Page) : Pages :=
  pages ++ [⟨fun _ => 0, false⟩, ⟨page, true⟩]

/-- The lowest address of the stack page. -/
def Pages.stackBase (pages : Pages) : Nat := (pages.length + 1) * PGSIZE

theorem Pages.stackTop_eq (pages : Pages) : pages.stackTop = pages.stackBase + PGSIZE := by
  rw [stackTop, stackBase, ← Nat.succ_mul]

theorem Pages.le_stackBase (pages : Pages) : PGSIZE ≤ pages.stackBase := by
  rw [stackBase, show PGSIZE = 4096 from rfl]
  omega

theorem Pages.getElem?_withStack (pages : Pages) (page : Page) :
    (pages.withStack page)[pages.length + 1]? = some ⟨page, true⟩ := by
  rw [withStack, getElem?_append_right (by omega), Nat.add_sub_cancel_left]
  rfl

theorem Pages.set_withStack (pages : Pages) (page page' : Page) :
    (pages.withStack page).set (pages.length + 1) ⟨page', true⟩ = pages.withStack page' := by
  rw [withStack, set_append_right _ _ (by omega), Nat.add_sub_cancel_left]
  rfl

variable {va : Nat}

/-- The page and the offset of an address in the stack page. -/
theorem Pages.stack_addr (hlow : pages.stackBase ≤ va) (hhigh : va < pages.stackTop) :
    va / PGSIZE = pages.length + 1 ∧ va % PGSIZE = va - pages.stackBase := by
  rw [stackTop_eq] at hhigh
  rw [stackBase] at *
  rw [show PGSIZE = 4096 from rfl] at *
  omega

/-- Bytes that fit in the page are copied there. -/
theorem Pages.copyout_stack {page : Page} {bytes : List UInt8} (hbytes : bytes ≠ [])
    (hlow : pages.stackBase ≤ va) (hhigh : va + bytes.length ≤ pages.stackTop) :
    (pages.withStack page).copyout va bytes
      = (pages.withStack (storeBytes page (va - pages.stackBase) bytes), true) := by
  obtain ⟨x, xs, rfl⟩ := exists_cons_of_ne_nil hbytes
  rw [length_cons] at hhigh
  obtain ⟨hdiv, hmod⟩ := Pages.stack_addr hlow (show va < pages.stackTop by omega)
  have hlook : (pages.withStack page).lookup va = some ⟨page, true⟩ := by
    rw [lookup, hdiv, getElem?_withStack]
    rfl
  have hchunk : chunk va (x :: xs).length = (x :: xs).length := by
    rw [stackTop_eq] at hhigh
    rw [chunk, hmod, length_cons]
    omega
  rw [copyout, length_cons, copyoutFrom, hlook]
  dsimp only
  rw [hchunk, drop_length, take_length, write, hdiv, hmod]
  have hnil : ∀ (fuel va : Nat) (pages : Pages), copyoutFrom fuel va [] pages = (pages, true) := by
    intro fuel va pages
    cases fuel <;> rfl
  rw [hnil]
  exact congrArg (·, true) (set_withStack pages page _)

/-- Nothing is copied above all memory. -/
theorem Pages.copyout_high {bytes : List UInt8} (hbytes : bytes ≠ [])
    (hva : pages.length ≤ va / PGSIZE) : (pages.copyout va bytes).2 = false := by
  obtain ⟨x, xs, rfl⟩ := exists_cons_of_ne_nil hbytes
  have hlook : pages.lookup va = none := by
    rw [lookup, getElem?_eq_none hva]
    rfl
  rw [copyout, length_cons, copyoutFrom, hlook]

/-! ## The strings -/

/-- The bytes of the stack that the strings take. -/
def argSize (strs : List (List UInt8)) : Nat := (strs.map fun str => align16 (str.length + 1)).sum

/-- Where the strings are, pushed from `sp` on. -/
def argAddrs : Nat → List (List UInt8) → List Nat
  | _, [] => []
  | sp, str :: strs =>
      (sp - align16 (str.length + 1)) :: argAddrs (sp - align16 (str.length + 1)) strs

/-- The stack page after the strings were pushed. -/
def argPage (base : Nat) : Nat → List (List UInt8) → Page → Page
  | _, [], page => page
  | sp, str :: strs, page =>
      argPage base (sp - align16 (str.length + 1)) strs
        (storeBytes page (sp - align16 (str.length + 1) - base) (str ++ [0]))

theorem argSize_cons (str : List UInt8) (strs : List (List UInt8)) :
    argSize (str :: strs) = align16 (str.length + 1) + argSize strs := by
  rw [argSize, map_cons, sum_cons]
  rfl

theorem argSize_mod (strs : List (List UInt8)) : argSize strs % 16 = 0 := by
  induction strs with
  | nil => rfl
  | cons str strs ih =>
    have hmod := align16_mod (str.length + 1)
    rw [argSize_cons]
    omega

theorem length_argAddrs (strs : List (List UInt8)) :
    ∀ sp, (argAddrs sp strs).length = strs.length := by
  induction strs with
  | nil => exact fun _ => rfl
  | cons str strs ih =>
    intro sp
    rw [argAddrs, length_cons, length_cons, ih]

/-- The loop of `exec` over the arguments, on the page of the stack. -/
theorem Pages.pushArgs_eq (hsmall : pages.stackTop < 2 ^ 62) (strs : List (List UInt8)) :
    ∀ (sp : Nat) (ustack : List Nat) (page : Page), (∀ str ∈ strs, str.length ≤ PGSIZE) →
      sp % 16 = 0 → pages.stackBase ≤ sp → sp ≤ pages.stackTop → ustack.length ≤ MAXARG →
      pushArgs pages.stackBase strs sp ustack (pages.withStack page)
        = if pages.stackBase + argSize strs ≤ sp ∧ ustack.length + strs.length ≤ MAXARG then
            some (sp - argSize strs, ustack ++ argAddrs sp strs,
              pages.withStack (argPage pages.stackBase sp strs page))
          else none := by
  induction strs with
  | nil =>
    intro sp ustack page _ _ hlow _ hmax
    have hsize : argSize [] = 0 := rfl
    rw [pushArgs, hsize, length_nil, Nat.add_zero, Nat.add_zero, if_pos ⟨hlow, hmax⟩, argAddrs,
      append_nil]
    rfl
  | cons str strs ih =>
    intro sp ustack page hlen halign hlow hhigh hmax
    have hstr := hlen str mem_cons_self
    have hpg : PGSIZE = 4096 := rfl
    have hmin := pages.le_stackBase
    have hsize := argSize_cons str strs
    have hle := le_align16 (str.length + 1)
    have hmod := align16_mod (str.length + 1)
    have hbytes : str ++ [0] ≠ [] := by simp
    have hlength : (str ++ [0]).length = str.length + 1 := length_append
    rw [pushArgs]
    by_cases hmany : MAXARG ≤ ustack.length
    · rw [if_pos (Or.inl hmany), if_neg fun h => by
        have hcount := h.2
        rw [length_cons] at hcount
        omega]
    by_cases hwrap : sp < str.length + 1
    · -- the address has wrapped around, so `copyout` fails
      have hhuge := push_wrap hwrap (by omega)
      have hbase : ¬ (MAXARG ≤ ustack.length ∨ push sp (str.length + 1) < pages.stackBase) := by
        rintro (h | h)
        · exact hmany h
        · rw [stackTop_eq] at hsmall
          omega
      have hout :
          ((pages.withStack page).copyout (push sp (str.length + 1)) (str ++ [0])).2 = false := by
        refine copyout_high hbytes ?_
        rw [withStack, length_append, length_cons, length_singleton]
        rw [stackTop, hpg] at hsmall
        rw [hpg]
        omega
      have hpair : (pages.withStack page).copyout (push sp (str.length + 1)) (str ++ [0])
          = (((pages.withStack page).copyout (push sp (str.length + 1)) (str ++ [0])).1, false) :=
        Prod.ext rfl hout
      rw [if_neg hbase, hpair]
      dsimp only
      rw [if_neg (by simp), if_neg fun h => by
        have hfit := h.1
        omega]
    · have hpush := push_eq (n := str.length + 1) halign (by omega) (by omega)
      rw [hpush]
      by_cases hfit : sp - align16 (str.length + 1) < pages.stackBase
      · rw [if_pos (Or.inr hfit), if_neg fun h => by
          have hfit' := h.1
          omega]
      · rw [if_neg (not_or.mpr ⟨hmany, hfit⟩),
          copyout_stack hbytes (by omega) (by rw [hlength]; omega)]
        dsimp only
        rw [if_pos rfl, ih _ _ _ (fun str' h => hlen str' (mem_cons_of_mem _ h)) (by omega)
          (by omega) (by omega) (by rw [length_append, length_singleton]; omega)]
        have hiff : (pages.stackBase + argSize strs ≤ sp - align16 (str.length + 1) ∧
            (ustack ++ [sp - align16 (str.length + 1)]).length + strs.length ≤ MAXARG) ↔
            (pages.stackBase + argSize (str :: strs) ≤ sp ∧
              ustack.length + (str :: strs).length ≤ MAXARG) := by
          rw [hsize, length_append, length_singleton, length_cons]
          omega
        rw [if_congr hiff rfl rfl, hsize, Nat.sub_sub, argAddrs, argPage, append_assoc]
        rfl

/-! ## The whole stack -/

/-- Strings and pointers fit in the page. -/
def Fits (strs : List (List UInt8)) : Prop :=
  argSize strs + align16 (8 * (strs.length + 1)) ≤ PGSIZE

instance (strs : List (List UInt8)) : Decidable (Fits strs) := inferInstanceAs (Decidable (_ ≤ _))

theorem length_bytes64 (xs : List Nat) : (bytes64 xs).length = 8 * xs.length := by
  induction xs with
  | nil => rfl
  | cons x xs ih =>
    rw [bytes64, flatMap_cons, length_append, ← bytes64, ih, length_map, length_range, length_cons]
    omega

theorem length_argWords (sp : Nat) (strs : List (List UInt8)) :
    (bytes64 (argAddrs sp strs ++ [0])).length = 8 * (strs.length + 1) := by
  rw [length_bytes64, length_append, length_singleton, length_argAddrs]

/-- The stack pointer of the new program. -/
def Pages.argSp (pages : Pages) (strs : List (List UInt8)) : Nat :=
  pages.stackTop - argSize strs - align16 (8 * (strs.length + 1))

/-- Its stack page. -/
def Pages.argStack (pages : Pages) (strs : List (List UInt8)) : Page :=
  storeBytes (argPage pages.stackBase pages.stackTop strs fun _ => 0)
    (pages.argSp strs - pages.stackBase) (bytes64 (argAddrs pages.stackTop strs ++ [0]))

variable {strs : List (List UInt8)}

theorem Pages.arguments_eq (hsmall : pages.stackTop < 2 ^ 62)
    (hlen : ∀ str ∈ strs, str.length ≤ PGSIZE) :
    pages.guarded.arguments pages.stackTop strs = if Fits strs ∧ strs.length ≤ MAXARG then
          some (pages.withStack (pages.argStack strs), pages.argSp strs)
        else none := by
  have htop := pages.stackTop_eq
  have hpg : PGSIZE = 4096 := rfl
  have hbase : pages.stackTop - PGSIZE = pages.stackBase := by omega
  have halign : pages.stackTop % 16 = 0 := by
    rw [stackTop, hpg]
    omega
  have hmin := pages.le_stackBase
  have hguarded : pages.guarded = pages.withStack fun _ => 0 := rfl
  have hle := le_align16 (8 * (strs.length + 1))
  have hmul : ∀ ustack : List Nat, (ustack.length + 1) * 8 = 8 * (ustack.length + 1) := fun _ =>
    Nat.mul_comm ..
  rw [arguments, hbase, hguarded, pushArgs_eq hsmall strs _ [] _ hlen halign (by omega) (le_refl _)
    (Nat.zero_le _)]
  by_cases hstrings : pages.stackBase + argSize strs ≤ pages.stackTop ∧ strs.length ≤ MAXARG
  · have hmany := hstrings.2
    have hsum := argSize_mod strs
    have hMAX : MAXARG = 32 := rfl
    have hpush : push (pages.stackTop - argSize strs) (8 * (strs.length + 1)) =
        pages.argSp strs := by
      rw [push_eq (by omega) (by omega) (by omega), argSp]
    rw [if_pos ⟨hstrings.1, by rw [length_nil]; omega⟩, Option.bind_some, nil_append]
    dsimp only
    rw [hmul, length_argAddrs, hpush]
    by_cases hfit : Fits strs
    · have hfit' := hfit
      rw [Fits] at hfit'
      have hlength := length_argWords pages.stackTop strs
      have hbytes : bytes64 (argAddrs pages.stackTop strs ++ [0]) ≠ [] := fun h => by
        rw [h, length_nil] at hlength
        omega
      rw [if_neg (by rw [argSp]; omega), copyout_stack hbytes (by rw [argSp]; omega)
        (by rw [hlength, argSp]; omega)]
      dsimp only
      rw [if_pos rfl, if_pos ⟨hfit, hmany⟩]
      rfl
    · have hlow : pages.argSp strs < pages.stackBase := by
        rw [Fits] at hfit
        rw [argSp]
        omega
      rw [if_pos hlow, if_neg fun h => hfit h.1]
  · rw [if_neg, if_neg]
    · rfl
    · rintro ⟨hfit, hmany⟩
      rw [Fits] at hfit
      exact hstrings ⟨by omega, hmany⟩
    · rintro ⟨hfit, hmany⟩
      rw [length_nil] at hmany
      exact hstrings ⟨hfit, by omega⟩

/-! ## What is on the stack -/

/-- What is above the stack pointer stays. -/
theorem getByte_argPage {base : Nat} (strs : List (List UInt8)) :
    ∀ {sp : Nat} {page : Page} {i : Nat}, base + argSize strs ≤ sp → sp - base ≤ i →
      getByte (argPage base sp strs page) i = getByte page i := by
  induction strs with
  | nil => exact fun _ _ => rfl
  | cons str strs ih =>
    intro sp page i hfit hi
    have hle := le_align16 (str.length + 1)
    rw [argSize_cons] at hfit
    rw [argPage, ih (by omega) (by omega), getByte_storeBytes_ge]
    rw [length_append, length_singleton]
    omega

/-- One string on the stack. -/
structure StringAt (page : Page) (base low high addr : Nat) (str : List UInt8) : Prop where
  aligned : addr % 16 = 0
  low : low ≤ addr
  high : addr + (str.length + 1) ≤ high
  bytes : ∀ t b, (str ++ [0])[t]? = some b → getByte page (addr - base + t) = b

theorem argPage_string {base : Nat} (strs : List (List UInt8)) :
    ∀ {sp : Nat} {page : Page} {i : Nat}
    {str : List UInt8} {addr : Nat}, sp % 16 = 0 → base + argSize strs ≤ sp → sp ≤ base + PGSIZE →
      strs[i]? = some str → (argAddrs sp strs)[i]? = some addr →
      StringAt (argPage base sp strs page) base (sp - argSize strs) sp addr str := by
  induction strs with
  | nil =>
    intro sp page i str addr _ _ _ hstr
    cases hstr
  | cons str₀ strs ih =>
    intro sp page i str addr halign hfit htop hstr haddr
    have hle := le_align16 (str₀.length + 1)
    have hmod := align16_mod (str₀.length + 1)
    rw [argSize_cons] at hfit ⊢
    rw [argAddrs] at haddr
    rw [argPage]
    cases i with
    | zero =>
      obtain rfl := Option.some.inj hstr
      obtain rfl := Option.some.inj haddr
      refine ⟨by omega, by omega, by omega, fun t b ht => ?_⟩
      have hlt := (List.getElem?_eq_some_iff.mp ht).1
      rw [length_append, length_singleton] at hlt
      -- the strings that follow are below it
      rw [getByte_argPage strs (by omega) (by omega), getByte_storeBytes_add ?_ ht]
      rw [length_append, length_singleton]
      omega
    | succ i =>
      have hstring : StringAt (argPage base (sp - align16 (str₀.length + 1)) strs
          (storeBytes page (sp - align16 (str₀.length + 1) - base) (str₀ ++ [0]))) base
          (sp - align16 (str₀.length + 1) - argSize strs)
            (sp - align16 (str₀.length + 1)) addr str :=
        ih (by omega) (by omega) (by omega) hstr haddr
      have hlow := hstring.low
      have hhigh := hstring.high
      exact ⟨hstring.aligned, by omega, by omega, hstring.bytes⟩

/-- Two ranges of addresses, each given by its start and its length. -/
def Separate (x y : Nat × Nat) : Prop := x.1 + x.2 ≤ y.1 ∨ y.1 + y.2 ≤ x.1

/-- Where the strings are, with their lengths. -/
def argRanges (addrs : List Nat) (strs : List (List UInt8)) : List (Nat × Nat) :=
  addrs.zip (strs.map fun str => str.length + 1)

/-- The strings are between the stack pointer before and after, and each below the ones
before it. -/
theorem argRanges_separate (strs : List (List UInt8)) : ∀ {sp : Nat}, argSize strs ≤ sp →
    (argRanges (argAddrs sp strs) strs).Pairwise Separate ∧
      ∀ x ∈ argRanges (argAddrs sp strs) strs, sp - argSize strs ≤ x.1 ∧ x.1 + x.2 ≤ sp := by
  induction strs with
  | nil =>
    intro sp _
    exact ⟨List.Pairwise.nil, fun x hx => by cases hx⟩
  | cons str strs ih =>
    intro sp hfit
    have hle := le_align16 (str.length + 1)
    rw [argSize_cons] at hfit ⊢
    obtain ⟨hpair, hin⟩ := ih (show argSize strs ≤ sp - align16 (str.length + 1) by omega)
    rw [argRanges, argAddrs, map_cons, zip_cons_cons]
    refine ⟨pairwise_cons.mpr ⟨fun x hx => Or.inr (hin x hx).2, hpair⟩, fun x hx => ?_⟩
    rcases mem_cons.mp hx with rfl | hx
    · dsimp only
      omega
    · have hx' := hin x hx
      omega

/-! ## The new process -/

/-- The byte at a virtual address, if it is mapped. -/
def loadByte (mem : Nat → Page) (r va : Nat) : Option UInt8 :=
  (mapping mem r (va / PGSIZE)).map fun pte => getByte (mem (entryPage pte)) (va % PGSIZE)

/-- These bytes are at a virtual address. -/
def HasBytes (mem : Nat → Page) (r va : Nat) (bytes : List UInt8) : Prop :=
  ∀ i b, bytes[i]? = some b → loadByte mem r (va + i) = some b

variable {top : Nat → Option Nat}

theorem Space.loadByte {u : UPage} (hpool : Pool ld g s) (h : Space g s r top pages)
    (hu : pages[va / PGSIZE]? = some u) :
    Vm.loadByte s.mem r va = some (getByte u.data (va % PGSIZE)) := by
  obtain ⟨n, hmap, hn, hdata⟩ := h.user _ u hu
  rw [Vm.loadByte, hmap, Option.map_some,
    u.entryPage_entry (hpool.managed hn (by simp)).small, hdata]

/-- The arguments of a program, as `main` finds them: the array `argv` at `sp`, and the
strings. -/
structure ArgStack (mem : Nat → Page) (r sz sp : Nat) (strs : List (List UInt8)) (argv : List Nat) :
    Prop where
  aligned : sp % 16 = 0
  count : argv.length = strs.length
  array : HasBytes mem r sp (bytes64 (argv ++ [0]))
  string : ∀ (i : Nat) str addr, strs[i]? = some str → argv[i]? = some addr →
    addr % 16 = 0 ∧ HasBytes mem r addr (str ++ [0])
  separate : ((sp, 8 * (argv.length + 1)) :: argRanges argv strs).Pairwise Separate
  inside : ∀ x ∈ (sp, 8 * (argv.length + 1)) :: argRanges argv strs, sz - PGSIZE ≤ x.1 ∧
    x.1 + x.2 ≤ sz

/-- The stack page holds the arguments. -/
theorem Space.argStack (hpool : Pool ld g s)
    (h : Space g s r top (pages.withStack (pages.argStack strs))) (hfit : Fits strs) :
    ArgStack s.mem r pages.stackTop (pages.argSp strs) strs (argAddrs pages.stackTop strs) := by
  have htop := pages.stackTop_eq
  have hpg : PGSIZE = 4096 := rfl
  have hle := le_align16 (8 * (strs.length + 1))
  have hmod := align16_mod (8 * (strs.length + 1))
  have halign : pages.stackTop % 16 = 0 := by
    rw [Pages.stackTop, hpg]
    omega
  have hsum : argSize strs % 16 = 0 := argSize_mod strs
  rw [Fits] at hfit
  have hsp : pages.argSp strs = pages.stackTop - argSize strs
    - align16 (8 * (strs.length + 1)) := rfl
  have hlength := length_argWords pages.stackTop strs
  -- every byte of the stack page
  have hbyte : ∀ va, pages.stackBase ≤ va → va < pages.stackTop →
      Vm.loadByte s.mem r va = some (getByte (pages.argStack strs) (va - pages.stackBase)) := by
    intro va hlow hhigh
    obtain ⟨hdiv, hmod⟩ := Pages.stack_addr hlow hhigh
    have hu : (pages.withStack (pages.argStack strs))[va / PGSIZE]? =
        some ⟨pages.argStack strs, true⟩ := by
      rw [hdiv]
      exact Pages.getElem?_withStack ..
    rw [h.loadByte hpool hu, hmod]
  obtain ⟨hpair, hin⟩ := argRanges_separate strs (show argSize strs ≤ pages.stackTop by omega)
  refine ⟨by omega, length_argAddrs .., fun i b hb => ?_, fun i str addr hstr haddr => ?_, ?_, ?_⟩
  · have hi := (List.getElem?_eq_some_iff.mp hb).1
    rw [hlength] at hi
    have hoff : pages.argSp strs + i - pages.stackBase =
        pages.argSp strs - pages.stackBase + i := by
      omega
    rw [hbyte _ (by omega) (by omega), hoff, Pages.argStack,
      getByte_storeBytes_add (by rw [hlength]; omega) hb]
  · have hstring : StringAt (argPage pages.stackBase pages.stackTop strs fun _ => 0) pages.stackBase
        (pages.stackTop - argSize strs) pages.stackTop addr str :=
      argPage_string strs halign (by omega) (by omega) hstr haddr
    have hlow := hstring.low
    have hhigh := hstring.high
    refine ⟨hstring.aligned, fun t b hb => ?_⟩
    have ht := (List.getElem?_eq_some_iff.mp hb).1
    rw [length_append, length_singleton] at ht
    have hoff : addr + t - pages.stackBase = addr - pages.stackBase + t := by omega
    rw [hbyte _ (by omega) (by omega), hoff, Pages.argStack, getByte_storeBytes_ge,
      hstring.bytes t b hb]
    rw [hlength]
    omega
  · rw [length_argAddrs]
    refine pairwise_cons.mpr ⟨fun x hx => Or.inl ?_, hpair⟩
    have hx' := (hin x hx).1
    dsimp only
    omega
  · rw [length_argAddrs]
    intro x hx
    rcases mem_cons.mp hx with rfl | hx
    · dsimp only
      omega
    · have hx' := hin x hx
      omega

/-- If there is a stack and the arguments fit, `exec` succeeds. -/
theorem Executed.ne_none {path : List UInt8} {found : Option (Slot × List UInt8)} {k' : ExecState}
    {res : Option Nat} (h : Executed ld g path found strs tf k res k')
    (hload : ¬ LoadFails ld found k) (hlen : ∀ str ∈ strs, str.length ≤ PGSIZE) (hfit : Fits strs)
    (hcount : strs.length ≤ MAXARG) : res ≠ none := by
  cases h with
  | failed _ _ hcause =>
    rcases hcause with hfails | ⟨x, -, pages', sz, -, hsmall, hnone⟩
    · exact absurd hfails hload
    · rw [Pages.arguments_eq (by omega) hlen, if_pos ⟨hfit, hcount⟩] at hnone
      cases hnone
  | done => simp

/-- `exec` with fewer than `MAXARG` strings, each in a page.  Unless `ilock` panics, it fails
before there is a stack, or because the strings and the pointers do not fit in the stack page;
or they fit, and it returns their number, with `a1` and the stack pointer at the array of
pointers. -/
theorem exec_arguments {path : List UInt8} {found : Option (Slot × List UInt8)} {argv : List Nat}
    (h : Caller ld g k p r tf pages) (hargs : ∀ a ∈ argv, g (a / PGSIZE) = .arg)
    (hclosed : ∀ x ∈ found, Closed k x.1) (hcount : argv.length < MAXARG)
    (hstrs : ∀ str ∈ strings k.phys argv, str.length < PGSIZE) :
    (∃ x ∈ found, NoType k x.1) ∧
      (execCall ld path found argv).run k = .error "ilock: no type" ∨
    Total (execCall ld path found argv) (fun res k' =>
      (res = none ∧ (LoadFails ld found k ∨ ¬ Fits (strings k.phys argv))) ∨
      (res = some argv.length ∧ Fits (strings k.phys argv) ∧ ∃ sp ptrs,
        getLE (k'.phys.mem tf) 8 Trapframe.a1 = sp ∧ getLE (k'.phys.mem tf) 8 Trapframe.sp = sp ∧
        ArgStack k'.phys.mem (k'.pagetable / PGSIZE) k'.sz sp (strings k.phys argv) ptrs)) k := by
  have hlen : (strings k.phys argv).length = argv.length := length_map ..
  have hle : ∀ str ∈ strings k.phys argv, str.length ≤ PGSIZE := fun str hstr =>
    le_of_lt (hstrs str hstr)
  by_cases hno : ∃ x ∈ found, NoType k x.1
  · have ⟨x, hx, hx'⟩ := hno
    have hfound : found = some x := hx
    subst hfound
    exact Or.inl ⟨hno, execCall_noType (hclosed x rfl) hx'⟩
  have htype : ∀ x ∈ found, ¬ NoType k x.1 := fun x hx hx' => hno ⟨x, hx, hx'⟩
  refine Or.inr ((execCall_total h hargs hclosed htype).mono fun res k' hres => ?_)
  have hsome := fun hload hfit => hres.ne_none hload hle hfit (by omega)
  cases hres with
  | failed _ _ _ =>
    refine Or.inl ⟨rfl, ?_⟩
    by_contra hcause
    obtain ⟨hload, hfit⟩ := not_or.mp hcause
    exact hsome hload (not_not.mp hfit) rfl
  | done _ ip file n pages' sz pages'' sp _ _ _ hsmall harguments hcommitted =>
    rw [Pages.arguments_eq (by omega) hle] at harguments
    by_cases hfit : Fits (strings k.phys argv)
    · rw [if_pos ⟨hfit, by omega⟩] at harguments
      obtain ⟨rfl, rfl⟩ := Prod.mk.inj (Option.some.inj harguments)
      obtain ⟨g', hpool, hspace⟩ := hcommitted.space
      have hsp : pages'.argSp (strings k.phys argv) < 2 ^ 64 := by
        rw [Pages.argSp]
        omega
      have hwords := @execFrame_words (k.phys.mem tf) (Elfhdr.entry (readi file 0 ELFHDRSIZE)) _ hsp
      rw [← hcommitted.frame] at hwords
      have htable : k'.pagetable / PGSIZE = n := by
        rw [hcommitted.same]
        exact page_div n
      have hsz : k'.sz = pages'.stackTop := by rw [hcommitted.same]
      rw [hlen, htable, hsz]
      exact Or.inr ⟨rfl, hfit, _, _, hwords.1, hwords.2, hspace.argStack hpool hfit⟩
    · rw [if_neg fun hboth => hfit hboth.1] at harguments
      cases harguments

theorem exec_arguments_init : ∃ k argv k' tf sp ptrs, initCaller = .ok (k, argv) ∧
    (execCall bootKernel initPath (inFirst (elfFile 0 1 1)) argv).run k = .ok (some 1, k') ∧
    getLE (k'.phys.mem tf) 8 Trapframe.a1 = sp ∧ getLE (k'.phys.mem tf) 8 Trapframe.sp = sp ∧
    ArgStack k'.phys.mem (k'.pagetable / PGSIZE) k'.sz sp [initPath] ptrs := by
  obtain ⟨g, k, argv, r, tf, hk, hcaller, hargs, hstrings, hclosed⟩ := initCaller_caller
  have hlen : argv.length = 1 := by
    have hlength := congrArg length hstrings
    rw [strings, length_map] at hlength
    exact hlength
  have hload := not_loadFails hk (show (initLoads (elfFile 0 1 1)).toOption = some true by
    decide +kernel)
  have hexec : Total (execCall bootKernel initPath (inFirst (elfFile 0 1 1)) argv) _ k :=
    (exec_arguments hcaller hargs (fun x _ => (hclosed x.1).1) (by rw [hlen]; decide)
      (by rw [hstrings]; decide)).resolve_left fun hno => by
        obtain ⟨⟨x, -, hx⟩, -⟩ := hno
        exact (hclosed x.1).2 hx
  rw [hstrings, hlen] at hexec
  obtain ⟨res, k', hrun, ⟨-, hfails | hfit⟩ | ⟨rfl, -, sp, ptrs, ha1, hsp, hstack⟩⟩ := hexec
  · exact absurd hfails hload
  · exact absurd (show Fits [initPath] by decide) hfit
  · exact ⟨k, argv, k', tf, sp, ptrs, hk, hrun, ha1, hsp, hstack⟩

end Xv6.Vm
