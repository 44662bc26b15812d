/-
  Vm/Segments.lean --- `exec` loads the segments of the file.

  The program headers may list the segments in any order, so that memory grows with some of
  them and not with others.  What is loaded is said byte by byte: the bytes of a segment are
  those of the file, and all others are zero.  The offset of the program headers is narrowed
  to an `int`, and that of a segment to a `uint` on its way to `loadseg`; `exec_image_iff` says
  that this is all that can go wrong.
-/
import Xv6.Vm.Arguments

set_option autoImplicit false

namespace Xv6.Vm

open List Foundation
open Procs (initproc)

variable {ld : Linker} {g : Nat → Role} {s : Phys} {k : ExecState} {p : Pid} {r tf : Nat}
  {pages pages' : Pages} {file ph : List UInt8} {sz sz' : Nat}

/-! ## Bytes of pages -/

/-- The byte at an address, zero outside the pages. -/
def Pages.byte (pages : Pages) (va : Nat) : UInt8 :=
  match pages[va / PGSIZE]? with
  | some u => getByte u.data (va % PGSIZE)
  | none => 0

theorem Pages.byte_of_page {va : Nat} {u : UPage} (hu : pages[va / PGSIZE]? = some u) :
    pages.byte va = getByte u.data (va % PGSIZE) := by
  rw [byte, hu]

theorem getByte_zero {n : Nat} (i : Nat) : getByte (fun _ : Fin n => (0 : UInt8)) i = 0 := by
  rw [getByte]
  split <;> rfl

/-- Growing adds zeros. -/
theorem Pages.byte_grow (pages : Pages) (sz va : Nat) :
    (pages.grow sz).byte va = pages.byte va := by
  rw [byte, byte, grow]
  by_cases hlen : va / PGSIZE < pages.length
  · rw [getElem?_append_left hlen]
  · have hnone : pages[va / PGSIZE]? = none := getElem?_eq_none (by omega)
    rw [getElem?_append_right (by omega), getElem?_replicate, hnone]
    split
    · rename_i u hu
      split at hu
      · obtain rfl := Option.some.inj hu
        exact getByte_zero _
      · cases hu
    · rfl

/-- Bytes are written to one page. -/
theorem Pages.byte_write {va : Nat} {u : UPage} {bytes : List UInt8}
    (hu : pages[va / PGSIZE]? = some u) (hroom : va % PGSIZE + bytes.length ≤ PGSIZE) :
    (∀ t b, bytes[t]? = some b → (pages.write va u bytes).byte (va + t) = b) ∧
      ∀ a, a < va ∨ va + bytes.length ≤ a → (pages.write va u bytes).byte a = pages.byte a := by
  have hidx := (List.getElem?_eq_some_iff.mp hu).1
  have hpg : PGSIZE = 4096 := rfl
  have hself : ∀ a, a / PGSIZE = va / PGSIZE → (pages.write va u bytes).byte a
      = getByte (storeBytes u.data (va % PGSIZE) bytes) (a % PGSIZE) := by
    intro a ha
    have hset : (pages.write va u bytes)[a / PGSIZE]?
        = some { u with data := storeBytes u.data (va % PGSIZE) bytes } := by
      rw [write, ha, getElem?_set_self hidx]
    rw [byte_of_page hset]
  refine ⟨fun t b hb => ?_, fun a ha => ?_⟩
  · have ht := (List.getElem?_eq_some_iff.mp hb).1
    have hdiv : (va + t) / PGSIZE = va / PGSIZE := by
      rw [hpg] at hroom ⊢
      omega
    have hmod : (va + t) % PGSIZE = va % PGSIZE + t := by
      rw [hpg] at hroom ⊢
      omega
    rw [hself _ hdiv, hmod, getByte_storeBytes_add hroom hb]
  · by_cases hdiv : a / PGSIZE = va / PGSIZE
    · have hu' : pages[a / PGSIZE]? = some u := by rw [hdiv, hu]
      rw [hself a hdiv, byte_of_page hu']
      rcases ha with ha | ha
      · refine getByte_storeBytes_lt ?_
        rw [hpg] at hdiv ⊢
        omega
      · refine getByte_storeBytes_ge ?_
        rw [hpg] at hdiv ⊢
        omega
    · rw [byte, byte, write, getElem?_set_ne (Ne.symm hdiv)]

/-! ## One segment -/

/-- All bytes that were asked for have been read. -/
theorem readi_full {off n : Nat} (hn : 0 < n) (hread : (readi file off n).length = n) :
    off + n ≤ file.length ∧ ∀ t, t < n → (readi file off n)[t]? = file[off + t]? := by
  rw [readi] at hread
  split at hread
  · rw [length_nil] at hread
    omega
  · rename_i hok
    rw [length_take, length_drop] at hread
    refine ⟨by omega, fun t ht => ?_⟩
    rw [readi, if_neg hok, getElem?_take_of_lt ht, getElem?_drop]

/-- The bytes from `i` on have been loaded. -/
structure SegLoaded (file : List UInt8) (va offset i sz : Nat) (pages pages' : Pages) : Prop where
  length : pages'.length = pages.length
  data : ∀ t, i ≤ t → t < sz → ∃ b, file[offset + t]? = some b ∧ pages'.byte (va + t) = b
  rest : ∀ a, a < va + i ∨ va + sz ≤ a → pages'.byte a = pages.byte a

theorem Pages.loadseg_loaded (hfile : file.length < 2 ^ 32) {va offset sz : Nat}
    (hva : va % PGSIZE = 0) (n : Nat) : ∀ (j : Nat) (pages : Pages), j + n = np sz →
      offset + j * PGSIZE < 2 ^ 32 →
      loadseg va file offset sz n (j * PGSIZE) pages = some pages' →
      SegLoaded file va offset (j * PGSIZE) sz pages pages' := by
  have hpg : PGSIZE = 4096 := rfl
  induction n with
  | zero =>
    intro j pages hj _ hload
    obtain rfl := Option.some.inj hload
    have hle := le_np sz
    refine ⟨rfl, fun t hlow hhigh => ?_, fun _ _ => rfl⟩
    rw [Nat.add_zero] at hj
    rw [← hj] at hle
    omega
  | succ n ih =>
    intro j pages hj hoff hload
    have hj' : j * PGSIZE < sz := by
      rw [np] at hj
      rw [hpg] at hj ⊢
      omega
    rw [loadseg, Nat.mod_eq_of_lt hoff] at hload
    cases hlook : pages.lookup (va + j * PGSIZE) with
    | none =>
      rw [hlook] at hload
      cases hload
    | some u =>
      rw [hlook] at hload
      dsimp only at hload
      obtain ⟨len, hlen⟩ :
          ∃ len, len = if sz - j * PGSIZE < PGSIZE then sz - j * PGSIZE else PGSIZE := ⟨_, rfl⟩
      have hpos : 0 < len ∧ len ≤ sz - j * PGSIZE ∧ len ≤ PGSIZE ∧
          (len = sz - j * PGSIZE ∨ len = PGSIZE) := by
        rw [hlen]
        split <;> omega
      rw [← hlen] at hload
      by_cases hread : (readi file (offset + j * PGSIZE) len).length ≠ len
      · rw [if_pos hread] at hload
        cases hload
      rw [if_neg hread, ← Nat.succ_mul] at hload
      obtain ⟨hend, hbytes⟩ := readi_full hpos.1 (not_not.mp hread)
      have hu : pages[(va + j * PGSIZE) / PGSIZE]? = some u := by
        rw [lookup] at hlook
        exact (Option.filter_eq_some_iff.mp hlook).1
      have hzero : (va + j * PGSIZE) % PGSIZE = 0 := by rw [Nat.add_mul_mod_self_right, hva]
      obtain ⟨hnew, hold⟩ := byte_write hu
        (show (va + j * PGSIZE) % PGSIZE + (readi file (offset + j * PGSIZE) len).length ≤ PGSIZE by
          rw [not_not.mp hread, hzero]
          omega)
      rw [not_not.mp hread] at hold
      by_cases hlast : len = PGSIZE
      · have hrest := ih (j + 1) _ (by omega) (by rw [Nat.succ_mul]; omega) hload
        rw [Nat.succ_mul] at hrest
        refine ⟨hrest.length.trans (length_write ..), fun t hlow hhigh => ?_, fun a ha => ?_⟩
        · by_cases ht : j * PGSIZE + PGSIZE ≤ t
          · exact hrest.data t ht hhigh
          · have hlt : t - j * PGSIZE < len := by omega
            have hsome : file[offset + t]? = some file[offset + t] :=
              getElem?_eq_getElem (by omega)
            refine ⟨_, hsome, ?_⟩
            rw [hrest.rest _ (Or.inl (by omega)),
              show va + t = va + j * PGSIZE + (t - j * PGSIZE) by omega]
            refine hnew _ _ ?_
            rw [hbytes _ hlt, show offset + j * PGSIZE + (t - j * PGSIZE) =
              offset + t by omega, hsome]
        · rw [hrest.rest a (by omega), hold a (by omega)]
      · -- the last page is a short one
        have hshort : len = sz - j * PGSIZE := hpos.2.2.2.resolve_right hlast
        obtain rfl : n = 0 := by
          rw [np] at hj
          rw [hpg] at hj hj' hshort hlast hpos
          omega
        obtain rfl := Option.some.inj hload
        refine ⟨length_write .., fun t hlow hhigh => ?_, fun a ha => hold a (by omega)⟩
        have hsome : file[offset + t]? = some file[offset + t] :=
          getElem?_eq_getElem (by omega)
        refine ⟨_, hsome, ?_⟩
        rw [show va + t = va + j * PGSIZE + (t - j * PGSIZE) by omega]
        refine hnew _ _ ?_
        rw [hbytes _ (by omega), show offset + j * PGSIZE + (t - j * PGSIZE) =
          offset + t by omega, hsome]

/-! ## All segments -/

/-- The header asks for a segment to be loaded. -/
def IsLoad (ph : List UInt8) : Prop := Proghdr.type ph = ELF_PROG_LOAD

instance (ph : List UInt8) : Decidable (IsLoad ph) := inferInstanceAs (Decidable (_ = _))

/-- The end of a segment in memory. -/
def segEnd (ph : List UInt8) : Nat := Proghdr.vaddr ph + Proghdr.memsz ph

/-- An address is in the memory of a segment. -/
def InSegment (ph : List UInt8) (a : Nat) : Prop := Proghdr.vaddr ph ≤ a ∧ a < segEnd ph

/-- An address is in the part of it that is loaded from the file. -/
def InFile (ph : List UInt8) (a : Nat) : Prop :=
  Proghdr.vaddr ph ≤ a ∧ a < Proghdr.vaddr ph + Proghdr.filesz ph

/-- The memory of two segments does not overlap. -/
def NoOverlap (ph ph' : List UInt8) : Prop := ∀ a, ¬ (InSegment ph a ∧ InSegment ph' a)

/-- The end of the highest segment, from `sz` on. -/
def topEnd (phs : List (List UInt8)) (sz : Nat) : Nat :=
  phs.foldl (fun n ph => max n (segEnd ph)) sz

theorem le_topEnd (phs : List (List UInt8)) : ∀ sz, sz ≤ topEnd phs sz := by
  induction phs with
  | nil => exact fun sz => le_refl sz
  | cons ph phs ih =>
    intro sz
    exact le_trans (Nat.le_max_left sz (segEnd ph)) (ih _)

theorem segEnd_le_topEnd {phs : List (List UInt8)} (hph : ph ∈ phs) :
    ∀ sz, segEnd ph ≤ topEnd phs sz := by
  induction phs with
  | nil => cases hph
  | cons ph' phs ih =>
    intro sz
    rcases mem_cons.mp hph with rfl | hph
    · exact le_trans (Nat.le_max_right sz (segEnd ph)) (le_topEnd phs _)
    · exact ih hph _

theorem Pages.loadHeader_skip (hskip : ¬ IsLoad ph) :
    loadHeader file ph sz pages = some (pages, sz) := if_pos hskip

/-- The size does not shrink. -/
theorem Pages.loadHeader_le (hload : loadHeader file ph sz pages = some (pages', sz')) :
    sz ≤ sz' := by
  by_cases hph : IsLoad ph
  · have htype : ¬ Proghdr.type ph ≠ ELF_PROG_LOAD := not_not.mpr hph
    rw [loadHeader, if_neg htype] at hload
    split at hload
    · cases hload
    split at hload
    · cases hload
    dsimp only at hload
    split at hload
    · cases hload
    obtain ⟨pages₁, -, heq⟩ := Option.map_eq_some_iff.mp hload
    rw [← (Prod.mk.inj heq).2]
    exact Nat.le_max_left ..
  · rw [loadHeader_skip hph] at hload
    exact le_of_eq (Prod.mk.inj (Option.some.inj hload)).2

theorem Pages.loadProgram_le (phnum : Nat) : ∀ {off sz : Nat} {pages : Pages},
    loadProgram file phnum off sz pages = some (pages', sz') → sz ≤ sz' := by
  induction phnum with
  | zero =>
    intro off sz pages hload
    exact le_of_eq (Prod.mk.inj (Option.some.inj hload)).2
  | succ phnum ih =>
    intro off sz pages hload
    rw [loadProgram] at hload
    dsimp only at hload
    split at hload
    · cases hload
    obtain ⟨⟨pages₁, sz₁⟩, hheader, hrest⟩ := Option.bind_eq_some_iff.mp hload
    exact le_trans (loadHeader_le hheader) (ih hrest)

/-- One header that asks for a segment. -/
structure HeaderLoaded (file ph : List UInt8) (sz sz' : Nat) (pages pages' : Pages) : Prop where
  size : sz' = max sz (segEnd ph)
  length : pages'.length = np sz'
  filesz : Proghdr.filesz ph ≤ Proghdr.memsz ph
  data : ∀ t < Proghdr.filesz ph, ∃ b, file[Proghdr.off ph % 2 ^ 32 + t]? = some b ∧
    pages'.byte (Proghdr.vaddr ph + t) = b
  rest : ∀ a, ¬ InFile ph a → pages'.byte a = pages.byte a

theorem Pages.loadHeader_loaded (hfile : file.length < 2 ^ 32) (hph : IsLoad ph)
    (hlen : np sz = pages.length) (hload : loadHeader file ph sz pages = some (pages', sz'))
    (hsmall : sz' < 2 ^ 32) : HeaderLoaded file ph sz sz' pages pages' := by
  have htype : ¬ Proghdr.type ph ≠ ELF_PROG_LOAD := not_not.mpr hph
  rw [loadHeader, if_neg htype] at hload
  split at hload
  · cases hload
  rename_i hmemsz
  split at hload
  · cases hload
  rename_i hover
  have hvaddr : Proghdr.vaddr ph < 2 ^ 64 := leAt_lt ph 16 8
  have hmem : Proghdr.memsz ph < 2 ^ 64 := leAt_lt ph 40 8
  have hsum : (Proghdr.vaddr ph + Proghdr.memsz ph) % 2 ^ 64 = segEnd ph := by
    rw [segEnd]
    omega
  rw [hsum] at hload
  dsimp only at hload
  split at hload
  · cases hload
  rename_i hok
  obtain ⟨pages₁, hseg, heq⟩ := Option.map_eq_some_iff.mp hload
  obtain ⟨rfl, rfl⟩ := Prod.mk.inj heq
  have hfilesz : Proghdr.filesz ph % 2 ^ 32 = Proghdr.filesz ph := by
    refine Nat.mod_eq_of_lt ?_
    rw [segEnd] at hsmall
    omega
  rw [hfilesz] at hseg
  have hloaded := loadseg_loaded hfile (not_not.mp (not_or.mp hok).2) (np (Proghdr.filesz ph)) 0
    (pages.grow (max sz (segEnd ph))) (Nat.zero_add _)
    (show Proghdr.off ph % 2 ^ 32 + 0 * PGSIZE < 2 ^ 32 by omega) (by rw [Nat.zero_mul]; exact hseg)
  rw [Nat.zero_mul] at hloaded
  refine ⟨rfl, ?_, by omega, fun t ht => hloaded.data t (Nat.zero_le t) ht, fun a ha => ?_⟩
  · rw [hloaded.length, length_grow]
    rw [← hlen]
    exact np_mono (Nat.le_max_left ..)
  · rw [InFile] at ha
    rw [hloaded.rest a (by omega), byte_grow]

/-- The headers that the loop of `exec` reads. -/
def headersFrom (file : List UInt8) : Nat → Nat → List (List UInt8)
  | 0, _ => []
  | phnum + 1, off =>
    readi file off PROGHDRSIZE :: headersFrom file phnum ((off + PROGHDRSIZE) % 2 ^ 32)

/-- All segments of a list have been loaded. -/
structure ProgramLoaded (file : List UInt8) (phs : List (List UInt8)) (sz sz' : Nat)
    (pages pages' : Pages) : Prop where
  size : sz' = topEnd phs sz
  length : np sz' = pages'.length
  filesz : ∀ ph ∈ phs, Proghdr.filesz ph ≤ Proghdr.memsz ph
  data : ∀ ph ∈ phs, ∀ t < Proghdr.filesz ph, ∃ b, file[Proghdr.off ph % 2 ^ 32 + t]? = some b ∧
    pages'.byte (Proghdr.vaddr ph + t) = b
  rest : ∀ a, (∀ ph ∈ phs, ¬ InFile ph a) → pages'.byte a = pages.byte a

theorem Pages.loadProgram_loaded (hfile : file.length < 2 ^ 32) (hsmall : sz' < 2 ^ 32)
    (phnum : Nat) :
    ∀ (off sz : Nat) (pages : Pages), np sz = pages.length →
      loadProgram file phnum off sz pages = some (pages', sz') →
      ((headersFrom file phnum off).filter IsLoad).Pairwise NoOverlap →
      ProgramLoaded file ((headersFrom file phnum off).filter IsLoad) sz sz' pages pages' := by
  induction phnum with
  | zero =>
    intro off sz pages hlen hload _
    obtain ⟨rfl, rfl⟩ := Prod.mk.inj (Option.some.inj hload)
    exact ⟨rfl, hlen, fun _ h => (by cases h), fun _ h => (by cases h), fun _ _ => rfl⟩
  | succ phnum ih =>
    intro off sz pages hlen hload hsep
    rw [headersFrom] at hsep ⊢
    rw [loadProgram] at hload
    dsimp only at hload
    split at hload
    · cases hload
    obtain ⟨⟨pages₁, sz₁⟩, hheader, hrest⟩ := Option.bind_eq_some_iff.mp hload
    dsimp only at hrest
    by_cases hph : IsLoad (readi file off PROGHDRSIZE)
    · rw [filter_cons_of_pos (by simpa using hph)] at hsep ⊢
      obtain ⟨hfirst, hsep'⟩ := pairwise_cons.mp hsep
      have hle := loadProgram_le phnum hrest
      have hone := loadHeader_loaded hfile hph hlen hheader (by omega)
      have hloaded := ih _ sz₁ pages₁ hone.length.symm hrest hsep'
      refine ⟨?_, hloaded.length, fun ph hmem => ?_, fun ph hmem => ?_, fun a ha => ?_⟩
      · rw [hloaded.size, hone.size]
        rfl
      · rcases mem_cons.mp hmem with rfl | hmem
        · exact hone.filesz
        · exact hloaded.filesz ph hmem
      · rcases mem_cons.mp hmem with rfl | hmem
        · -- the segments that follow do not overwrite it
          intro t ht
          obtain ⟨b, hb, hbyte⟩ := hone.data t ht
          refine ⟨b, hb, ?_⟩
          rw [hloaded.rest, hbyte]
          intro ph' hmem' hin
          have hfilesz := hone.filesz
          have hfilesz' := hloaded.filesz ph' hmem'
          refine hfirst ph' hmem' (Proghdr.vaddr (readi file off PROGHDRSIZE) + t)
            ⟨⟨by omega, ?_⟩, hin.1, ?_⟩
          · rw [segEnd]
            omega
          · have hlt := hin.2
            rw [segEnd]
            omega
        · exact hloaded.data ph hmem
      · rw [hloaded.rest a fun ph' hmem' => ha ph' (mem_cons_of_mem _ hmem'),
          hone.rest a (ha _ mem_cons_self)]
    · rw [filter_cons_of_neg (by simpa using hph)] at hsep ⊢
      rw [loadHeader_skip hph] at hheader
      obtain ⟨rfl, rfl⟩ := Prod.mk.inj (Option.some.inj hheader)
      exact ih _ sz pages hlen hrest hsep

/-! ## The file -/

/-- The program headers of a file. -/
def progHeaders (file : List UInt8) : List (List UInt8) :=
  let elf := readi file 0 ELFHDRSIZE
  (range (Elfhdr.phnum elf)).map fun i =>
    (file.drop (Elfhdr.phoff elf + PROGHDRSIZE * i)).take PROGHDRSIZE

/-- Its segments: the headers that ask for one. -/
def segments (file : List UInt8) : List (List UInt8) := (progHeaders file).filter IsLoad

/-- The offset of the table of program headers fits a `uint`, if there are any. -/
def TableFits (file : List UInt8) : Prop :=
  Elfhdr.phnum (readi file 0 ELFHDRSIZE) = 0 ∨ Elfhdr.phoff (readi file 0 ELFHDRSIZE) < 2 ^ 32

/-- A load that succeeds has read the whole table. -/
theorem Pages.headersFrom_eq (hfile : file.length < 2 ^ 32) (phnum : Nat) :
    ∀ {off sz : Nat} {pages : Pages}, loadProgram file phnum off sz pages = some (pages', sz') →
      headersFrom file phnum off
        = (range phnum).map fun i => (file.drop (off + PROGHDRSIZE * i)).take PROGHDRSIZE := by
  have hsize : PROGHDRSIZE = 56 := rfl
  induction phnum with
  | zero => exact fun _ => rfl
  | succ phnum ih =>
    intro off sz pages hload
    rw [loadProgram] at hload
    dsimp only at hload
    split at hload
    · cases hload
    rename_i hlen
    obtain ⟨⟨pages₁, sz₁⟩, -, hrest⟩ := Option.bind_eq_some_iff.mp hload
    have hend := (readi_full (by decide) (not_not.mp hlen)).1
    have hread : readi file off PROGHDRSIZE = (file.drop off).take PROGHDRSIZE := by
      rw [readi, if_neg]
      rw [hsize] at hend ⊢
      omega
    rw [Nat.mod_eq_of_lt (by omega)] at hrest
    rw [headersFrom, hread, Nat.mod_eq_of_lt (by omega), ih hrest, range_succ_eq_map,
      map_cons, map_map, Nat.mul_zero, Nat.add_zero]
    congr 1
    refine map_congr_left fun i _ => ?_
    rw [Function.comp_apply, Nat.mul_succ, Nat.add_assoc, Nat.add_comm PROGHDRSIZE]

/-- What `Pages.program` loads from an ELF file. -/
theorem Pages.program_loaded (hfile : file.length < 2 ^ 32) (htable : TableFits file)
    (hsep : (segments file).Pairwise NoOverlap) (hload : program file = some (pages, sz))
    (hsmall : sz < 2 ^ 32) : ProgramLoaded file (segments file) 0 sz [] pages := by
  rw [program] at hload
  split at hload
  · cases hload
  have hheaders : (headersFrom file (Elfhdr.phnum (readi file 0 ELFHDRSIZE))
      (Elfhdr.phoff (readi file 0 ELFHDRSIZE) % 2 ^ 32)).filter IsLoad = segments file := by
    rw [headersFrom_eq hfile _ hload, segments, progHeaders]
    rcases htable with hnone | hfits
    · rw [hnone]
      rfl
    · rw [Nat.mod_eq_of_lt hfits]
  have hloaded := loadProgram_loaded hfile hsmall _ _ 0 [] (by decide) hload
  rw [hheaders] at hloaded
  exact hloaded hsep

/-- Memory is the image that a file describes. -/
structure ImageOf (file : List UInt8) (mem : Nat → Page) (r sz : Nat) : Prop where
  data : ∀ ph ∈ segments file, ∀ j < Proghdr.filesz ph, ∃ b, file[Proghdr.off ph + j]? = some b ∧
    loadByte mem r (Proghdr.vaddr ph + j) = some b
  zero : ∀ a < topEnd (segments file) 0, (∀ ph ∈ segments file, ¬ InFile ph a) →
    loadByte mem r a = some 0
  guard : ∃ pte, mapping mem r (sz / PGSIZE - 2) = some pte ∧ pte &&& PTE_U = 0
  size : sz = np (topEnd (segments file) 0) * PGSIZE + 2 * PGSIZE

theorem Space.imageOf {top : Nat → Option Nat} {page : Page} (hpool : Pool ld g s)
    (h : Space g s r top (pages.withStack page))
    (hloaded : ProgramLoaded file (segments file) 0 sz [] pages)
    (hoff : ∀ ph ∈ segments file, 0 < Proghdr.filesz ph → Proghdr.off ph < 2 ^ 32) :
    ImageOf file s.mem r pages.stackTop := by
  have hpg : PGSIZE = 4096 := rfl
  have htop : topEnd (segments file) 0 = sz := hloaded.size.symm
  -- below the end of the program, memory is the pages of the program
  have hbyte : ∀ a < sz, Vm.loadByte s.mem r a = some (pages.byte a) := by
    intro a ha
    have hle := le_np sz
    rw [hloaded.length] at hle
    have hidx : a / PGSIZE < pages.length := (Nat.div_lt_iff_lt_mul (by decide)).mpr (by omega)
    have hu := getElem?_eq_getElem hidx
    have hu' : (pages.withStack page)[a / PGSIZE]? = some pages[a / PGSIZE] := by
      rw [Pages.withStack, getElem?_append_left hidx, hu]
    rw [h.loadByte hpool hu', Pages.byte_of_page hu]
  have hend : ∀ ph ∈ segments file, segEnd ph ≤ sz := fun ph hph => htop ▸ segEnd_le_topEnd hph 0
  refine ⟨fun ph hph j hj => ?_, fun a ha hout => ?_, ?_, ?_⟩
  · obtain ⟨b, hb, hbyte'⟩ := hloaded.data ph hph j hj
    have hle := hend ph hph
    have hfilesz := hloaded.filesz ph hph
    rw [segEnd] at hle
    rw [Nat.mod_eq_of_lt (hoff ph hph (by omega))] at hb
    exact ⟨b, hb, by rw [hbyte _ (by omega), hbyte']⟩
  · rw [hbyte a (by omega), hloaded.rest a hout]
    rfl
  · have hguard : (pages.withStack page)[pages.length]? = some ⟨fun _ => 0, false⟩ := by
      rw [Pages.withStack, getElem?_append_right (le_refl _), Nat.sub_self]
      rfl
    obtain ⟨n, hmap, -, -⟩ := h.user _ _ hguard
    refine ⟨(⟨fun _ => 0, false⟩ : UPage).entry n, ?_, (UPage.entry_user _ n).mpr rfl⟩
    rw [Pages.stackTop, Nat.mul_div_cancel _ (by decide), Nat.add_sub_cancel]
    exact hmap
  · rw [htop, hloaded.length, Pages.stackTop, Nat.add_mul]

theorem length_strOf (page : Page) : (strOf page).length ≤ PGSIZE := by
  have hlen := (takeWhile_sublist (· ≠ 0) (l := bytesAt page 0 PGSIZE)).length_le
  rw [length_bytesAt] at hlen
  exact hlen

/-- `exec` of an ELF file whose segments do not overlap and whose program headers are found,
when it succeeds: memory is the image that the file describes if and only if no offset of a
segment is cut off to 32 bits. -/
theorem exec_image_iff {path : List UInt8} {ip : Slot} {argv : List Nat} {n : Nat} {k' : ExecState}
    (h : Caller ld g k p r tf pages) (hargs : ∀ a ∈ argv, g (a / PGSIZE) = .arg)
    (hclosed : Closed k ip) (hfile : file.length < 2 ^ 32) (htable : TableFits file)
    (hsep : (segments file).Pairwise NoOverlap)
    (hrun : (execCall ld path (some (ip, file)) argv).run k = .ok (some n, k')) :
    ImageOf file k'.phys.mem (k'.pagetable / PGSIZE) k'.sz ↔
      ∀ ph ∈ segments file, 0 < Proghdr.filesz ph → Proghdr.off ph < 2 ^ 32 := by
  have hle : ∀ str ∈ strings k.phys argv, str.length ≤ PGSIZE := by
    intro str hstr
    obtain ⟨a, -, rfl⟩ := mem_map.mp hstr
    exact length_strOf _
  have htype : ¬ NoType k ip := fun hno => by cases hrun.symm.trans (execCall_noType hclosed hno)
  have hexec : Total (execCall ld path (some (ip, file)) argv) _ k :=
    execCall_total h hargs (fun _ hx => Option.some.inj hx ▸ hclosed) fun _ hx =>
      Option.some.inj hx ▸ htype
  cases hexec.elim hrun with
  | done _ ip' file' n pages' sz pages'' sp hfound hprogram hsize hsmall harguments hcommitted =>
    obtain ⟨rfl, rfl⟩ := Prod.mk.inj (Option.some.inj hfound)
    refine ⟨fun himage ph hph hpos => ?_, fun hoff => ?_⟩
    · obtain ⟨b, hb, -⟩ := himage.data ph hph 0 hpos
      have hlt := (List.getElem?_eq_some_iff.mp hb).1
      omega
    · rw [Pages.arguments_eq (by omega) hle] at harguments
      split at harguments
      · obtain ⟨rfl, rfl⟩ := Prod.mk.inj (Option.some.inj harguments)
        obtain ⟨g', hpool, hspace⟩ := hcommitted.space
        have hlow : sz < 2 ^ 32 := by
          have hnp := le_np sz
          rw [hsize] at hnp
          rw [Pages.stackTop, Nat.add_mul] at hsmall
          omega
        have hroot : k'.pagetable / PGSIZE = n := by
          rw [hcommitted.same]
          exact page_div n
        have hsz : k'.sz = pages'.stackTop := by rw [hcommitted.same]
        rw [hroot, hsz]
        exact hspace.imageOf hpool (Pages.program_loaded hfile htable hsep hprogram hlow) hoff
      · cases harguments

/-! ## A file with one segment -/

theorem segments_elfFile_zero :
    segments (elfFile 0 1 1) = [bytes64 [ELF_PROG_LOAD, 0, 0, 0, 1, 1, 0]] := by
  decide +kernel

theorem segments_elfFile_high :
    segments (elfFile (2 ^ 32) 1 1) = [bytes64 [ELF_PROG_LOAD, 2 ^ 32, 0, 0, 1, 1, 0]] := by
  decide +kernel

/-- A run that succeeds, without arguments. -/
theorem initCaller_runs {file : List UInt8} (hloads : (initLoads file).toOption = some true) :
    ∃ g k argv r tf n k', initCaller = .ok (k, argv) ∧
      Caller bootKernel g k initproc r tf initPages ∧ (∀ ip, Closed k ip) ∧
      (execCall bootKernel initPath (inFirst file) []).run k = .ok (some n, k') := by
  obtain ⟨g, k, argv, r, tf, hk, hcaller, -, -, hclosed⟩ := initCaller_caller
  have hexec : Total (execCall bootKernel initPath (inFirst file) []) _ k :=
    execCall_total hcaller (fun _ h => absurd h not_mem_nil) (fun x _ => (hclosed x.1).1)
      fun x _ => (hclosed x.1).2
  obtain ⟨res, k', hrun, hexec⟩ := hexec
  have hnil : strings k.phys [] = [] := rfl
  rw [hnil] at hexec
  have hsome :=
    hexec.ne_none (not_loadFails hk hloads) (fun _ h => absurd h not_mem_nil) (by decide)
    (by decide)
  obtain ⟨n, rfl⟩ := Option.ne_none_iff_exists'.mp hsome
  exact ⟨g, k, argv, r, tf, n, k', hk, hcaller, fun ip => (hclosed ip).1, hrun⟩

theorem exec_image_iff_init : ∃ k argv n k', initCaller = .ok (k, argv) ∧
    (execCall bootKernel initPath (inFirst (elfFile 0 1 1)) []).run k = .ok (some n, k') ∧
    ImageOf (elfFile 0 1 1) k'.phys.mem (k'.pagetable / PGSIZE) k'.sz := by
  obtain ⟨g, k, argv, r, tf, n, k', hk, hcaller, hclosed, hrun⟩ :=
    initCaller_runs (show (initLoads (elfFile 0 1 1)).toOption = some true by decide +kernel)
  have hsep : (segments (elfFile 0 1 1)).Pairwise NoOverlap := by
    rw [segments_elfFile_zero]
    exact pairwise_singleton ..
  refine ⟨k, argv, n, k', hk, hrun, (exec_image_iff hcaller (fun _ h => absurd h not_mem_nil)
    (hclosed _) (by decide +kernel) (Or.inr (by decide +kernel)) hsep hrun).mpr ?_⟩
  rw [segments_elfFile_zero]
  decide +kernel

/-- A file whose segment is at offset 2^32, far behind its end.  `exec` loads the byte at
offset 0. -/
theorem exec_image_offset_cut : TableFits (elfFile (2 ^ 32) 1 1) ∧
    (segments (elfFile (2 ^ 32) 1 1)).Pairwise NoOverlap ∧
    (∀ ph ∈ segments (elfFile (2 ^ 32) 1 1), Proghdr.vaddr ph % PGSIZE = 0) ∧
    ∃ k argv n k', initCaller = .ok (k, argv) ∧
      (execCall bootKernel initPath (inFirst (elfFile (2 ^ 32) 1 1)) []).run k
        = .ok (some n, k') ∧
      ¬ ImageOf (elfFile (2 ^ 32) 1 1) k'.phys.mem (k'.pagetable / PGSIZE) k'.sz := by
  obtain ⟨g, k, argv, r, tf, n, k', hk, -, -, hrun⟩ :=
    initCaller_runs (show (initLoads (elfFile (2 ^ 32) 1 1)).toOption = some true by decide +kernel)
  refine ⟨Or.inr (by decide +kernel), ?_, ?_, k, argv, n, k', hk, hrun, fun himage => ?_⟩
  · rw [segments_elfFile_high]
    exact pairwise_singleton ..
  · rw [segments_elfFile_high]
    decide +kernel
  · have hmem :
        bytes64 [ELF_PROG_LOAD, 2 ^ 32, 0, 0, 1, 1, 0] ∈ segments (elfFile (2 ^ 32) 1 1) := by
      rw [segments_elfFile_high]
      exact mem_singleton_self _
    obtain ⟨b, hb, -⟩ := himage.data _ hmem 0 (by decide +kernel)
    have hnone :
      (elfFile (2 ^ 32) 1 1)[Proghdr.off (bytes64 [ELF_PROG_LOAD, 2 ^ 32, 0, 0, 1, 1, 0]) + 0]?
        = none := by
      refine getElem?_eq_none ?_
      decide +kernel
    cases hnone.symm.trans hb

end Xv6.Vm
