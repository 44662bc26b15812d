/-
  Umalloc/Sbrk.lean --- `malloc` over the kernel's `sbrk`.

  `morecore` multiplies headers by their size in 64 bits and passes the product as an
  `int`.  From `2 ^ 31` bytes on it is another number there; up to that, `malloc` never
  hands out memory above the break.
-/
import Xv6.Umalloc.Sound
import Xv6.Vm.Calls

set_option autoImplicit false

namespace Xv6.Umalloc

open Foundation

/-! ## `sys_sbrk` -/

/-- The size of a process after `growproc(n)`, unless that fails.  `memory` says whether
there are free pages; for more than all of memory there never are. -/
def growSize (sz : Nat) (n : Int32) (memory : Bool) : Option Nat :=
  if 0 < n.toInt then
    if memory ∧ Vm.addInt sz n ≤ 2 ^ 27 then some (max sz (Vm.addInt sz n)) else none
  else if n.toInt < 0 then some (min sz (Vm.addInt sz n))
  else some sz

/-- That is what `growproc` does to the size. -/
theorem growproc_growSize {ld : Vm.Linker} {K : Nat → Prop} {m : Pid → Vm.Pages} {s : Vm.Sys}
    {p : Pid} (h : Vm.Inv ld K m s) (hp : (s.proc p).state = .runnable) (n : Int32) :
    Total (Vm.growproc ld p n) (fun ok s' => ∃ memory,
      growSize (s.proc p).sz n memory = if ok then some (s'.proc p).sz else none) s := by
  refine (Vm.growproc_total h hp n).mono ?_
  rintro ok s' ⟨m', hafter, hmem, hrun, hok⟩
  refine ⟨ok, ?_⟩
  obtain ⟨g, hacc⟩ := hafter.inv.accounts
  obtain ⟨r, tf, hspace⟩ := hacc.hasSpace (hafter.inv.pagetable hrun)
  have hsmall := hspace.space.size_lt hacc.pool hspace.size
  cases ok with
  | false =>
    have hpos : 0 < n.toInt := by
      by_contra hn
      cases hok (by omega)
    rw [growSize, if_pos hpos]
    rfl
  | true =>
    have hsz : (s'.proc p).sz = ((Vm.umem m s p).sbrk n).sz := congrArg Vm.UMem.sz hmem
    rw [if_pos rfl, hsz, growSize]
    rw [hsz] at hsmall
    rw [Vm.UMem.sbrk] at hsmall ⊢
    change _ = some _
    split
    · rename_i hpos
      rw [if_pos hpos] at hsmall
      rw [if_pos ⟨rfl, (le_max_right _ _).trans hsmall⟩]
      rfl
    · split <;> rfl

/-- `sbrk(nu * sizeof(Header))`: the product becomes an `int`, and so does the old size,
which is what is returned. -/
def sysSbrk (h : Heap) (nu : Nat) (memory : Bool) : Option (Nat × Heap) :=
  (growSize h.brk (Int32.ofNat (HDR * nu)) memory).map fun sz =>
    (((Int32.ofNat h.brk).toInt % 2 ^ 64).toNat,
      { h with brk := sz, obtained := h.obtained + nu })

/-- `morecore`; what it returns, if it does, is nothing or the heap. -/
def morecoreSys (fuel : Nat) (h : Heap) (nu : Nat) (memory : Bool) : Option (Option Heap) :=
  match sysSbrk h (request nu) memory with
  | none => some none
  | some (hp, h) => (free fuel (h.setSize hp (request nu)) hp).map some

/-- The loop of `malloc`. -/
def mallocLoopSys (nunits : Nat) :
    Nat → List Bool → Nat → Nat → Heap → Option (Option Nat × Heap)
  | 0, _, _, _, _ => none
  | fuel + 1, memory, prevp, p, h =>
    if nunits ≤ (h.mem p).size then
      let (q, h) := takeBlock h nunits prevp p
      some (some q, h)
    else if p = h.freep then
      match morecoreSys fuel h nunits (memory.headD false) with
      | none => none
      | some none => some (none, h)
      | some (some h) => mallocLoopSys nunits fuel memory.tail h.freep (h.next h.freep) h
    else mallocLoopSys nunits fuel memory p (h.next p) h

/-- `malloc(nbytes)` -/
def mallocSys (base fuel : Nat) (h : Heap) (nbytes : UInt32) (memory : List Bool) :
    Option (Option Nat × Heap) :=
  let h := h.start base
  mallocLoopSys (units nbytes) fuel memory h.freep (h.next h.freep) h

/-! ## Requests that an `int` can hold -/

/-- No process is larger than memory, and its heap is part of it. -/
structure Small (h : Heap) : Prop where
  obtained : HDR * h.obtained ≤ h.brk
  brk : h.brk ≤ 2 ^ 27

theorem Small.of_same {h h' : Heap} (hs : Small h)
    (hsame : h'.brk = h.brk ∧ h'.obtained = h.obtained) : Small h' := by
  obtain ⟨hbrk, hobtained⟩ := hsame
  exact ⟨by rw [hbrk, hobtained]; exact hs.obtained, by rw [hbrk]; exact hs.brk⟩

theorem Small.lt {h : Heap} (hs : Small h) : h.obtained < 2 ^ 32 := by
  have hobtained := hs.obtained
  have hbrk := hs.brk
  rw [HDR] at hobtained
  omega

/-- Then `sbrk` gives what it is asked for, at the break. -/
theorem sysSbrk_cases {h : Heap} {nu : Nat} (hs : Small h) (hpos : 0 < nu)
    (hfit : HDR * nu < 2 ^ 31) (memory : Bool) :
    sysSbrk h nu memory = none ∨
      sysSbrk h nu memory = some (sbrk h nu 0) ∧ Small (sbrk h nu 0).2 := by
  have hobtained := hs.obtained
  have hbrk := hs.brk
  have hint := Int32.toInt_ofNat_of_lt hfit
  have hadd : Vm.addInt h.brk (Int32.ofNat (HDR * nu)) = h.brk + HDR * nu := by
    rw [Vm.addInt, hint]
    omega
  have haddr : ((Int32.ofNat h.brk).toInt % 2 ^ 64).toNat = h.brk := by
    rw [Int32.toInt_ofNat_of_lt (by omega)]
    omega
  rw [HDR] at *
  rw [sysSbrk, growSize, HDR, hint, hadd, haddr, if_pos (by omega)]
  split
  · rename_i hmem
    refine .inr ⟨?_, ?_, hmem.2⟩
    · rw [Option.map_some, max_eq_right (Nat.le_add_right _ _)]
      rfl
    · change 16 * (h.obtained + nu) ≤ h.brk + 0 + 16 * nu
      omega
  · exact .inl rfl

theorem morecoreSys_cases {h : Heap} {nunits : Nat} (hs : Small h)
    (hfit : HDR * request nunits < 2 ^ 31) (fuel : Nat) (memory : Bool) :
    morecoreSys fuel h nunits memory = some none ∨
      morecoreSys fuel h nunits memory = (morecore fuel h nunits 0).map some ∧
        ∀ h', morecore fuel h nunits 0 = some h' → Small h' := by
  rcases sysSbrk_cases hs (le_request nunits).2 hfit memory with hnone | ⟨hsome, hsmall⟩
  · left
    rw [morecoreSys, hnone]
  · right
    rw [morecoreSys, hsome]
    refine ⟨rfl, fun h' hrun => ?_⟩
    have hsame := free_same hrun
    exact hsmall.of_same hsame

/-- `malloc` does what it does over a `sbrk` that works. -/
theorem mallocLoopSys_sim {nunits fuel prevp p : Nat} {memory : List Bool} {h h' : Heap}
    {r : Option Nat} (hfit : HDR * request nunits < 2 ^ 31) (hs : Small h)
    (hrun : mallocLoopSys nunits fuel memory prevp p h = some (r, h')) :
    (∃ gaps, mallocLoop nunits fuel gaps prevp p h = some (r, h')) ∧ Small h' := by
  induction fuel generalizing memory prevp p h with
  | zero => cases hrun
  | succ fuel ih =>
    simp only [mallocLoop]
    rw [mallocLoopSys] at hrun
    split at hrun
    · rename_i hbig
      cases hrun
      exact ⟨⟨[], if_pos hbig⟩, hs.of_same (takeBlock_same ..)⟩
    · rename_i hbig
      simp only [if_neg hbig]
      split at hrun
      · rename_i hp
        simp only [if_pos hp]
        rcases morecoreSys_cases hs hfit fuel (memory.headD false) with hnone | ⟨hsome, hsmall⟩
        · rw [hnone] at hrun
          cases hrun
          exact ⟨⟨[], rfl⟩, hs⟩
        · cases hcore : morecore fuel h nunits 0 with
          | none =>
            rw [hsome, hcore] at hrun
            cases hrun
          | some h₁ =>
            rw [hsome, hcore] at hrun
            obtain ⟨⟨gaps, hloop⟩, hsmall'⟩ := ih (hsmall h₁ hcore) hrun
            refine ⟨⟨some 0 :: gaps, ?_⟩, hsmall'⟩
            simp only [List.head?_cons, Option.join_some, hcore]
            exact hloop
      · rename_i hp
        simp only [if_neg hp]
        exact ih hs hrun

/-! ## Programs -/

/-- What a program has after `malloc(nbytes)`. -/
def State.returned (s : State) (nbytes : UInt32) (h : Heap) : Option Nat → State
  | none => { s with heap := h }
  | some p => ⟨h, ⟨⟨p - HDR, (h.mem (p - HDR)).size⟩, nbytes⟩ :: s.live⟩

/-- The states a program comes to by calls that return, when it passes to `malloc` only
what is `Ok`.  It may also take memory from `sbrk` itself. -/
inductive Runs (base : Nat) (Ok : UInt32 → Prop) (s : State) : State → Prop where
  | refl : Runs base Ok s s
  | malloc {s' : State} {r : Option Nat} {h : Heap} (fuel : Nat) (nbytes : UInt32)
      (memory : List Bool) : Runs base Ok s s' → Ok nbytes →
      mallocSys base fuel s'.heap nbytes memory = some (r, h) →
      Runs base Ok s (s'.returned nbytes h r)
  | other {s' s'' : State} (fuel : Nat) (a : Action) : Runs base Ok s s' →
      (∀ nbytes gaps, a ≠ .malloc nbytes gaps) → step base fuel s' a = some s'' →
      Runs base Ok s s''
  | sbrk {s' : State} {sz : Nat} (n : Int32) (memory : Bool) : Runs base Ok s s' →
      0 ≤ n.toInt → growSize s'.heap.brk n memory = some sz →
      Runs base Ok s { s' with heap := { s'.heap with brk := sz } }

/-- A program before its first call, of the given size. -/
def State.fresh (mem : Nat → Header) (sz : Nat) : State := ⟨⟨mem, 0, sz, 0⟩, []⟩

/-- All that the program and the free list have lies below the break, and no two live
blocks overlap, nor do the bytes that were asked for. -/
structure Within (base : Nat) (s : State) : Prop where
  live : ∀ v ∈ s.live, v.block.addr + HDR + v.nbytes.toNat ≤ s.heap.brk
  enough : ∀ v ∈ s.live, units v.nbytes ≤ v.block.size
  apart : s.live.Pairwise fun v w => Apart v.block w.block
  bytes : s.live.Pairwise fun v w => v.block.addr + HDR + v.nbytes.toNat ≤ w.block.addr ∨
    w.block.addr + HDR + w.nbytes.toNat ≤ v.block.addr
  free : s.heap.freep ≠ 0 → ∃ F, Chain.Seg s.heap.next base (addrs F) base ∧
    ∀ b ∈ F, (s.heap.mem b.addr).size = b.size ∧ b.stop ≤ s.heap.brk

/-- A block that is large enough has the bytes that were asked for. -/
theorem bytes_le_stop {v : Live} (h : units v.nbytes ≤ v.block.size) :
    v.block.addr + HDR + v.nbytes.toNat ≤ v.block.stop := by
  rw [units, HDR] at h
  rw [Block.stop, HDR]
  omega

theorem request_fits {nbytes : UInt32} (h : nbytes.toNat ≤ 2 ^ 31 - 32) :
    HDR * request (units nbytes) < 2 ^ 31 := by
  rw [request, units, HDR]
  split <;> omega

theorem growSize_small {h : Heap} (hs : Small h) {n : Int32} {memory : Bool} {sz : Nat}
    (hn : 0 ≤ n.toInt) (hgrow : growSize h.brk n memory = some sz) : h.brk ≤ sz ∧ sz ≤ 2 ^ 27 := by
  have hbrk := hs.brk
  rw [growSize] at hgrow
  split at hgrow
  · split at hgrow
    · rename_i hmem
      cases hgrow
      exact ⟨le_max_left _ _, max_le hbrk hmem.2⟩
    · cases hgrow
  · rw [if_neg (by omega)] at hgrow
    cases hgrow
    exact ⟨Nat.le_refl _, hbrk⟩

theorem Good.raise {base sz : Nat} {s : State} (h : Good base s) (hle : s.heap.brk ≤ sz) :
    Good base { s with heap := { s.heap with brk := sz } } := by
  rcases h with ⟨hfreep, hlive, hobtained, hbrk⟩ | ⟨F, hwf, hunits⟩
  · exact .inl ⟨hfreep, hlive, hobtained, hbrk.trans hle⟩
  · refine .inr ⟨F, { hwf with brk := hwf.brk.trans hle, free := ?_, live := ?_ }, hunits⟩
    · exact fun b hb => (hwf.free b hb).keep rfl hle
    · exact fun v hv => (hwf.live v hv).keep rfl hle

/-- One call of `malloc`. -/
theorem malloc_good {base fuel : Nat} {s : State} {nbytes : UInt32} {memory : List Bool}
    {r : Option Nat} {h : Heap} (hbase : 0 < base) (hgood : Good base s) (hs : Small s.heap)
    (hok : nbytes.toNat ≤ 2 ^ 31 - 32)
    (hrun : mallocSys base fuel s.heap nbytes memory = some (r, h)) :
    Good base (s.returned nbytes h r) ∧ Small (s.returned nbytes h r).heap := by
  obtain ⟨F, hkept⟩ := hgood.start hbase
  obtain ⟨⟨gaps, hloop⟩, hsmall⟩ :=
    mallocLoopSys_sim (request_fits hok) (hs.of_same (start_same s.heap base)) hrun
  have hended := mallocLoop_ended hkept hloop hsmall.lt
  cases r with
  | none => exact ⟨.inr hended, hsmall⟩
  | some p => exact ⟨.inr hended, hsmall⟩

theorem step_same {base fuel : Nat} {s s' : State} {a : Action}
    (ha : ∀ nbytes gaps, a ≠ .malloc nbytes gaps) (hstep : step base fuel s a = some s') :
    s'.heap.brk = s.heap.brk ∧ s'.heap.obtained = s.heap.obtained := by
  cases a with
  | malloc nbytes gaps => exact absurd rfl (ha nbytes gaps)
  | free ap =>
    rw [step] at hstep
    split at hstep
    · split at hstep
      · cases hstep
      · rename_i h hrun
        cases hstep
        exact free_same hrun
    · cases hstep
  | write mem =>
    cases hstep
    exact ⟨rfl, rfl⟩

theorem runs_good {base sz : Nat} {mem : Nat → Header} {s : State} (hbase : 0 < base)
    (hsz : base + HDR ≤ sz) (hmax : sz ≤ 2 ^ 27)
    (h : Runs base (fun nbytes => nbytes.toNat ≤ 2 ^ 31 - 32) (.fresh mem sz) s) :
    Good base s ∧ Small s.heap := by
  induction h with
  | refl => exact ⟨.inl ⟨rfl, rfl, rfl, hsz⟩, Nat.zero_le _, hmax⟩
  | malloc fuel nbytes memory _ hok hrun ih => exact malloc_good hbase ih.1 ih.2 hok hrun
  | other fuel a _ ha hstep ih =>
    have hsmall := ih.2.of_same (step_same ha hstep)
    exact ⟨step_good hbase ih.1 hstep hsmall.lt, hsmall⟩
  | sbrk n memory _ hn hgrow ih =>
    obtain ⟨hle, hmax⟩ := growSize_small ih.2 hn hgrow
    exact ⟨ih.1.raise hle, ih.2.obtained.trans hle, hmax⟩

/-- A program of any size that never asks `malloc` for more than `2 ^ 31 - 32` bytes has
all its blocks, and the free list all of its own, below the break. -/
theorem malloc_within {base sz : Nat} (hbase : 0 < base) (hsz : base + HDR ≤ sz)
    (hmax : sz ≤ 2 ^ 27) {mem : Nat → Header} {s : State}
    (h : Runs base (fun nbytes => nbytes.toNat ≤ 2 ^ 31 - 32) (.fresh mem sz) s) :
    Within base s := by
  rcases (runs_good hbase hsz hmax h).1 with ⟨hfreep, hlive, -, -⟩ | ⟨F, hwf, -⟩
  · have hnone : ∀ v ∈ s.live, False := by
      rw [hlive]
      exact fun v hv => List.not_mem_nil hv
    exact ⟨fun v hv => (hnone v hv).elim, fun v hv => (hnone v hv).elim, hlive ▸ .nil, hlive ▸ .nil,
      fun hne => absurd hfreep hne⟩
  · refine ⟨fun v hv => ?_, hwf.enough, hwf.liveApart, ?_, fun _ => ⟨F, hwf.ring, fun b hb => ?_⟩⟩
    · exact (bytes_le_stop (hwf.enough v hv)).trans (hwf.live v hv).below
    · refine hwf.liveApart.imp_of_mem fun {v w} hv hw hapart => ?_
      exact hapart.imp (bytes_le_stop (hwf.enough v hv)).trans
        (bytes_le_stop (hwf.enough w hw)).trans
    · exact ⟨(hwf.free b hb).size, (hwf.free b hb).below⟩

/-- A program that calls `malloc(10)` and `malloc(100)`. -/
theorem malloc_within_ten : ∃ s, s.live.map (·.nbytes.toNat) = [100, 10] ∧ Within 4096 s := by
  refine ⟨_, ?_, malloc_within (by decide) (by decide) (by decide) (.malloc 20 100 []
    (.malloc 20 10 [true] (.refl (s := .fresh (fun _ => ⟨0, 0⟩) 8192)) (by decide) rfl)
    (by decide) rfl)⟩
  rfl

/-- `malloc(2 ^ 32 - 1)` needs `2 ^ 28 + 1` headers.  These are `2 ^ 32 + 16` bytes, and
`sbrk` is asked for 16. -/
theorem malloc_above_break : ∃ s, Runs 4096 (fun _ => True) (.fresh (fun _ => ⟨0, 0⟩) 8192) s ∧
    ∃ v ∈ s.live, s.heap.brk < v.block.addr + HDR + v.nbytes.toNat :=
  ⟨_, .malloc 20 4294967295 [true] .refl trivial rfl, _, List.mem_cons_self, by decide⟩

end Xv6.Umalloc
