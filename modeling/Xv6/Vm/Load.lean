/-
  Vm/Load.lean --- `exec` builds the memory image that the file and the arguments say.

  `exec` on the page table it builds does what the operations on pages do, or it fails; it
  may also fail for lack of memory.  When it fails nothing is left of the page table.
-/
import Mathlib.Data.List.TakeWhile
import Xv6.Vm.Image
import Xv6.Vm.ProcTable

set_option autoImplicit false

namespace Xv6.Vm

open Function List Foundation

variable {g g' : Nat → Role} {s s' : Phys} {ld : Linker} {r : Nat} {top : Nat → Option Nat}
  {pages : Pages}

/-! ## Loading a program -/

/-- User code may access all pages. -/
def Pages.Open (pages : Pages) : Prop := ∀ u ∈ pages, u.user = true

theorem Pages.Open.lookup (h : pages.Open) {va : Nat} (hva : va / PGSIZE < pages.length) :
    ∃ u, pages[va / PGSIZE]? = some u ∧ pages.lookup va = some u := by
  have hu := List.getElem?_eq_getElem hva
  refine ⟨_, hu, ?_⟩
  rw [Pages.lookup, hu, Option.filter_some_pos (h _ (getElem_mem hva))]

theorem Pages.Open.write (h : pages.Open) {va : Nat} {u : UPage} (hu : pages[va / PGSIZE]? = some u)
    (bytes : List UInt8) : (pages.write va u bytes).Open := by
  intro v hv
  rcases mem_or_eq_of_mem_set hv with hv | rfl
  · exact h v hv
  · exact h u (mem_of_getElem? hu)

theorem Pages.Open.grow (h : pages.Open) (sz : Nat) : (pages.grow sz).Open := by
  intro v hv
  rcases mem_append.mp hv with hv | hv
  · exact h v hv
  · rw [eq_of_mem_replicate hv]
    rfl

theorem Pages.length_write (pages : Pages) (va : Nat) (u : UPage) (bytes : List UInt8) :
    (pages.write va u bytes).length = pages.length := length_set

variable {sz : Nat}

theorem Pages.length_grow (pages : Pages) (h : pages.length ≤ np sz) :
    (pages.grow sz).length = np sz := by
  rw [Pages.grow, length_append, length_replicate]
  omega

theorem loadsegLoop_total (file : List UInt8) (offset : Nat) {va sz : Nat} (hva : va % PGSIZE = 0)
    (k : Nat) : ∀ (j : Nat) (s : Phys) (pages : Pages), Pool ld g s → Space g s r top pages →
      pages.Open → j + k = np sz → va + sz ≤ pages.length * PGSIZE →
      Total (loadsegLoop (r * PGSIZE) va file offset sz k (j * PGSIZE)) (fun ok s' =>
        ∃ pages' : Pages, Worked ld r top pages' g g s s' ∧ pages'.length = pages.length ∧
          pages'.Open ∧ (ok = true →
            Pages.loadseg va file offset sz k (j * PGSIZE) pages = some pages')) s := by
  induction k with
  | zero =>
    intro j s pages hpool h hopen _ _
    exact Total.pure ⟨pages, Worked.refl hpool h, rfl, hopen, fun _ => rfl⟩
  | succ k ih =>
    intro j s pages hpool h hopen hj hlen
    have hsmall := h.length_le hpool
    have hNP : NPHYS = 32768 := rfl
    have hj' : j * PGSIZE < sz := by
      rw [np] at hj
      rw [show PGSIZE = 4096 from rfl] at hj ⊢
      omega
    have hpg : pages.length * PGSIZE ≤ NPHYS * PGSIZE := Nat.mul_le_mul_right _ hsmall
    have hbound : NPHYS * PGSIZE < 2 ^ 64 := by decide
    have hidx : (va + j * PGSIZE) / PGSIZE < pages.length :=
      (Nat.div_lt_iff_lt_mul (by decide)).mpr (by omega)
    have hzero : (va + j * PGSIZE) % PGSIZE = 0 := by
      rw [Nat.add_mul_mod_self_right, hva]
    obtain ⟨u, hu, hlook⟩ := hopen.lookup hidx
    rw [loadsegLoop, Pages.loadseg, Nat.mod_eq_of_lt (by omega), hlook]
    refine Total.seq (walkaddr_user hpool h _) ?_
    rintro pa s₁ ⟨rfl, hfound⟩
    rw [Found, hlook] at hfound
    obtain ⟨n, rfl, hn0, -, hn, hdata⟩ := hfound
    rw [if_neg (Nat.mul_ne_zero hn0 (by decide))]
    obtain ⟨len, hlen'⟩ :
        ∃ len, len = if sz - j * PGSIZE < PGSIZE then sz - j * PGSIZE else PGSIZE := ⟨_, rfl⟩
    obtain ⟨bytes, hbytes⟩ : ∃ bytes, bytes = readi file ((offset + j * PGSIZE) % 2 ^ 32) len :=
      ⟨_, rfl⟩
    simp only [← hlen', ← hbytes]
    refine Total.bind ?_
    rw [← Nat.add_zero (n * PGSIZE)]
    refine memmove_total (by decide) ?_
    have hworked := h.write hpool hu hn (storeBytes u.data 0 bytes)
    have hwrite : pages.set ((va + j * PGSIZE) / PGSIZE)
        { u with data := storeBytes u.data 0 bytes } = pages.write (va + j * PGSIZE) u bytes := by
      rw [Pages.write, hzero]
    rw [hwrite] at hworked
    rw [hdata]
    have hlength := Pages.length_write pages (va + j * PGSIZE) u bytes
    by_cases hread : bytes.length ≠ len
    · rw [if_pos hread, if_pos hread]
      exact Total.pure ⟨_, hworked, hlength, hopen.write hu bytes, fun hok => by cases hok⟩
    · rw [if_neg hread, if_neg hread, ← Nat.succ_mul]
      refine (ih (j + 1) _ _ hworked.pool hworked.space (hopen.write hu bytes) (by omega)
        (by rw [hlength]; exact hlen)).mono ?_
      rintro ok s' ⟨pages', hworked', hlen'', hopen', hok⟩
      exact ⟨pages', hworked.trans hworked', hlen''.trans hlength, hopen', hok⟩

theorem leAt_lt (bytes : List UInt8) (off w : Nat) : leAt bytes off w < 256 ^ w := by
  have hfold : ∀ (l : List UInt8), l.foldr (fun b n => b.toNat + 256 * n) 0 < 256 ^ l.length := by
    intro l
    induction l with
    | nil => simp
    | cons b l ih =>
      have hb : b.toNat < 256 := b.toNat_lt
      rw [foldr_cons, length_cons, pow_succ']
      omega
  refine lt_of_lt_of_le (hfold _) (Nat.pow_le_pow_right (by norm_num) ?_)
  rw [length_take]
  omega

/-- `uvmalloc`, whichever of the sizes is larger. -/
theorem uvmalloc_grow (hpool : Pool ld g s) (h : Space g s r top pages) {oldsz : Nat}
    (hsz : np oldsz = pages.length) (newsz : Nat) :
    Total (uvmalloc ld (r * PGSIZE) oldsz newsz) (fun res s' => ∃ g' pages',
      Worked ld r top pages' g g' s s' ∧
        (res = max oldsz newsz ∧ pages' = pages.grow (max oldsz newsz) ∨
          res = 0 ∧ pages' = pages)) s := by
  by_cases hle : oldsz ≤ newsz
  · rw [Nat.max_eq_right hle]
    exact uvmalloc_total hpool h hsz hle
  · have hsame : pages.grow oldsz = pages := by
      rw [Pages.grow, hsz, Nat.sub_self, replicate_zero, append_nil]
    rw [Nat.max_eq_left (by omega), uvmalloc, if_pos (by omega)]
    exact Total.pure ⟨g, pages, Worked.refl hpool h, Or.inl ⟨rfl, hsame.symm⟩⟩

/-- What `exec` has of a page table while it loads a program: the size is that of the
pages, and if all went well they are what `image` says. -/
structure Loaded (ld : Linker) (r : Nat) (top : Nat → Option Nat) (g g' : Nat → Role) (s s' : Phys)
    (image : Option (Pages × Nat)) (res : Bool × Nat) (pages : Pages) : Prop where
  worked : Worked ld r top pages g g' s s'
  size : np res.2 = pages.length
  isOpen : pages.Open
  image : res.1 = true → image = some (pages, res.2)

theorem Loaded.fail (hpool : Pool ld g s) (h : Space g s r top pages) (hopen : pages.Open)
    (hsz : np sz = pages.length) (image : Option (Pages × Nat)) :
    Loaded ld r top g g s s image (false, sz) pages :=
  ⟨Worked.refl hpool h, hsz, hopen, fun hfalse => by cases hfalse⟩

/-- One program header is loaded, or not. -/
theorem loadHeader_total {file ph : List UInt8} (hpool : Pool ld g s) (h : Space g s r top pages)
    (hopen : pages.Open) (hsz : np sz = pages.length) :
    Total (loadHeader ld (r * PGSIZE) file ph sz) (fun res s' => ∃ g' pages',
      Loaded ld r top g g' s s' (Pages.loadHeader file ph sz pages) res pages') s := by
  have hfail := Loaded.fail hpool h hopen hsz (Pages.loadHeader file ph sz pages)
  rw [loadHeader]
  by_cases htype : Proghdr.type ph ≠ ELF_PROG_LOAD
  · rw [if_pos htype]
    refine Total.pure ⟨g, pages, Worked.refl hpool h, hsz, hopen, fun _ => ?_⟩
    rw [Pages.loadHeader, if_pos htype]
  rw [if_neg htype]
  by_cases hmem : Proghdr.memsz ph < Proghdr.filesz ph
  · rw [if_pos hmem]
    exact Total.pure ⟨g, pages, hfail⟩
  rw [if_neg hmem]
  by_cases hover : (Proghdr.vaddr ph + Proghdr.memsz ph) % 2 ^ 64 < Proghdr.vaddr ph
  · rw [if_pos hover]
    exact Total.pure ⟨g, pages, hfail⟩
  rw [if_neg hover]
  -- the sum did not overflow
  have hvaddr : Proghdr.vaddr ph < 2 ^ 64 := leAt_lt ph 16 8
  have hmemsz : Proghdr.memsz ph < 2 ^ 64 := leAt_lt ph 40 8
  have hsum : (Proghdr.vaddr ph + Proghdr.memsz ph) % 2 ^ 64
      = Proghdr.vaddr ph + Proghdr.memsz ph := by omega
  obtain ⟨newsz, hnewsz⟩ : ∃ newsz, newsz = (Proghdr.vaddr ph + Proghdr.memsz ph) % 2 ^ 64 :=
    ⟨_, rfl⟩
  rw [← hnewsz] at hsum ⊢
  have hlengrow := Pages.length_grow pages (hsz ▸ np_mono (Nat.le_max_left sz newsz))
  refine Total.seq (uvmalloc_grow hpool h hsz newsz) ?_
  rintro sz1 s₁ ⟨g₁, pages₁, hworked, hres⟩
  by_cases hzero : sz1 = 0
  · -- no memory, or nothing to load at all
    rw [if_pos hzero]
    refine Total.pure ⟨g₁, pages₁, hworked, ?_, ?_, fun hfalse => by cases hfalse⟩
    · rcases hres with ⟨hmax, rfl⟩ | ⟨-, rfl⟩
      · rw [hlengrow]
        have : sz = max sz newsz := by omega
        exact congrArg np this
      · exact hsz
    · rcases hres with ⟨-, rfl⟩ | ⟨-, rfl⟩
      · exact hopen.grow _
      · exact hopen
  · rw [if_neg hzero]
    obtain ⟨rfl, rfl⟩ : sz1 = max sz newsz ∧ pages₁ = pages.grow (max sz newsz) := by
      rcases hres with hres | ⟨h0, -⟩
      · exact hres
      · exact absurd h0 hzero
    by_cases halign : Proghdr.vaddr ph % PGSIZE ≠ 0
    · rw [if_pos halign]
      exact Total.pure ⟨g₁, _, hworked, hlengrow.symm, hopen.grow _, fun hfalse => by cases hfalse⟩
    rw [if_neg halign, loadseg, if_neg halign]
    -- the segment lies in the pages that were allocated for it
    have hle := le_np (max sz newsz)
    have hsmall := hworked.space.size_lt hworked.pool hlengrow.symm
    have hfilesz : Proghdr.filesz ph % 2 ^ 32 = Proghdr.filesz ph := by
      refine Nat.mod_eq_of_lt ?_
      omega
    have hfits : Proghdr.vaddr ph + Proghdr.filesz ph % 2 ^ 32
        ≤ (pages.grow (max sz newsz)).length * PGSIZE := by
      rw [hlengrow, hfilesz]
      omega
    have hload := loadsegLoop_total file (Proghdr.off ph % 2 ^ 32)
      (not_not.mp halign) (np (Proghdr.filesz ph % 2 ^ 32)) 0 s₁ (pages.grow (max sz newsz))
      hworked.pool hworked.space (hopen.grow _) (Nat.zero_add _) hfits
    rw [Nat.zero_mul] at hload
    refine Total.seq hload ?_
    rintro ok s₂ ⟨pages₂, hworked₂, hlen₂, hopen₂, hok⟩
    refine Total.pure ⟨g₁, pages₂, hworked.trans hworked₂, ?_, hopen₂, fun htrue => ?_⟩
    · rw [hlen₂, hlengrow]
    · rw [Pages.loadHeader, if_neg htype, if_neg hmem, if_neg (hnewsz ▸ hover), ← hnewsz]
      simp only [if_neg (not_or.mpr ⟨hzero, halign⟩), hok htrue]
      rfl

/-- `exec` loads what the file says, or fails. -/
theorem loadProgram_total {file : List UInt8} (phnum : Nat) :
    ∀ (off sz : Nat) (g : Nat → Role) (s : Phys) (pages : Pages), Pool ld g s →
      Space g s r top pages → pages.Open → np sz = pages.length →
      Total (loadProgram ld (r * PGSIZE) file phnum off sz) (fun res s' => ∃ g' pages',
        Loaded ld r top g g' s s' (Pages.loadProgram file phnum off sz pages) res pages') s := by
  induction phnum with
  | zero =>
    intro off sz g s pages hpool h hopen hsz
    exact Total.pure ⟨g, pages, Worked.refl hpool h, hsz, hopen, fun _ => rfl⟩
  | succ phnum ih =>
    intro off sz g s pages hpool h hopen hsz
    rw [loadProgram]
    by_cases hread : (readi file off PROGHDRSIZE).length ≠ PROGHDRSIZE
    · rw [if_pos hread]
      exact Total.pure ⟨g, pages, Loaded.fail hpool h hopen hsz _⟩
    rw [if_neg hread]
    refine Total.seq (loadHeader_total hpool h hopen hsz) ?_
    rintro ⟨ok, sz₁⟩ s₁ ⟨g₁, pages₁, hloaded⟩
    cases ok with
    | false =>
      exact Total.pure ⟨g₁, pages₁, hloaded.worked, hloaded.size, hloaded.isOpen,
        fun hfalse => by cases hfalse⟩
    | true =>
      refine (ih _ sz₁ g₁ s₁ pages₁ hloaded.worked.pool hloaded.worked.space hloaded.isOpen
        hloaded.size).mono ?_
      rintro res s' ⟨g', pages', hrest⟩
      refine ⟨g', pages', hloaded.worked.trans hrest.worked, hrest.size, hrest.isOpen,
        fun hok => ?_⟩
      rw [Pages.loadProgram]
      simp only [if_neg hread, hloaded.image rfl, Option.bind_some]
      exact hrest.image hok

/-! ## The stack -/

theorem Pages.length_copyoutFrom (fuel : Nat) : ∀ (va : Nat) (bytes : List UInt8) (pages : Pages),
    (Pages.copyoutFrom fuel va bytes pages).1.length = pages.length := by
  induction fuel with
  | zero =>
    intro va bytes pages
    cases bytes with
    | nil => rfl
    | cons x xs => rfl
  | succ fuel ih =>
    intro va bytes pages
    cases bytes with
    | nil => rfl
    | cons x xs =>
      rw [Pages.copyoutFrom]
      cases pages.lookup va with
      | none => rfl
      | some u => exact (ih _ _ _).trans (Pages.length_write ..)

theorem Pages.length_copyout (pages : Pages) (va : Nat) (bytes : List UInt8) :
    (pages.copyout va bytes).1.length = pages.length :=
  Pages.length_copyoutFrom ..

/-- The strings in the pages `argv`. -/
def strings (s : Phys) (argv : List Nat) : List (List UInt8) :=
  argv.map fun a => strOf (s.mem (a / PGSIZE))

variable {argv : List Nat}

theorem strings_congr (h : ∀ a ∈ argv, s'.mem (a / PGSIZE) = s.mem (a / PGSIZE)) :
    strings s' argv = strings s argv :=
  map_congr_left fun a ha => by rw [h a ha]

/-- Work on a page table leaves the argument pages alone. -/
theorem Worked.args (h : Worked ld r top pages g g' s s')
    (hargs : ∀ a ∈ argv, g (a / PGSIZE) = .arg) :
    (∀ a ∈ argv, g' (a / PGSIZE) = .arg) ∧ strings s' argv = strings s argv := by
  have hkeep : ∀ a ∈ argv, g' (a / PGSIZE) = g (a / PGSIZE) ∧
      s'.mem (a / PGSIZE) = s.mem (a / PGSIZE) :=
    fun a ha => h.change.keep _ (by rw [hargs a ha]; exact not_inSpace_plain trivial)
  exact ⟨fun a ha => (hkeep a ha).1.trans (hargs a ha), strings_congr fun a ha => (hkeep a ha).2⟩

/-- The strings are copied to the stack as long as they fit. -/
theorem pushArgs_total {stackbase : Nat} (argv : List Nat) :
    ∀ (sp : Nat) (ustack : List Nat) (s : Phys) (pages : Pages), Pool ld g s →
      Space g s r top pages → (∀ a ∈ argv, g (a / PGSIZE) = .arg) →
      Total (pushArgs (r * PGSIZE) stackbase argv sp ustack) (fun res s' => ∃ pages' : Pages,
        Worked ld r top pages' g g s s' ∧ pages'.length = pages.length ∧
          Pages.pushArgs stackbase (strings s argv) sp ustack pages
            = res.map fun x => (x.1, x.2, pages')) s := by
  induction argv with
  | nil =>
    intro sp ustack s pages hpool h _
    exact Total.pure ⟨pages, Worked.refl hpool h, rfl, rfl⟩
  | cons a argv ih =>
    intro sp ustack s pages hpool h hargs
    rw [pushArgs, strings, map_cons, Pages.pushArgs]
    by_cases hmany : MAXARG ≤ ustack.length
    · rw [if_pos hmany, if_pos (Or.inl hmany)]
      exact Total.pure ⟨pages, Worked.refl hpool h, rfl, rfl⟩
    rw [if_neg hmany]
    refine Total.bind (Total.get ?_)
    by_cases hlow : push sp ((strOf (s.mem (a / PGSIZE))).length + 1) < stackbase
    · rw [if_pos hlow, if_pos (Or.inr hlow)]
      exact Total.pure ⟨pages, Worked.refl hpool h, rfl, rfl⟩
    rw [if_neg hlow, if_neg (not_or.mpr ⟨hmany, hlow⟩)]
    refine Total.seq (copyout_user hpool h _ _) ?_
    rintro ok s₁ ⟨hok, hworked⟩
    simp only [← hok]
    cases ok with
    | false =>
      exact Total.pure ⟨_, hworked, Pages.length_copyout .., rfl⟩
    | true =>
      rw [if_pos rfl, if_pos rfl]
      refine (ih _ _ s₁ _ hworked.pool hworked.space fun b hb =>
        hargs b (mem_cons_of_mem a hb)).mono ?_
      rintro res s' ⟨pages', hrest, hlen, hpages⟩
      refine ⟨pages', hworked.trans hrest, hlen.trans (Pages.length_copyout ..), ?_⟩
      rw [(hworked.args fun b hb => hargs b (mem_cons_of_mem a hb)).2] at hpages
      exact hpages

/-- The guard page and the stack page that `exec` adds. -/
theorem set_guard (pages : Pages) :
    (pages ++ List.replicate 2 zeroPage).set pages.length { zeroPage with user := false }
      = pages ++ [⟨fun _ => 0, false⟩, zeroPage] := by
  rw [set_append_right _ _ (le_refl _), Nat.sub_self]
  rfl

theorem pushStack_total (hpool : Pool ld g s)
    (h : Space g s r top (pages ++ replicate 2 zeroPage))
    (hargs : ∀ a ∈ argv, g (a / PGSIZE) = .arg) :
    Total (pushStack (r * PGSIZE) pages.stackTop argv) (fun res s' =>
      ∃ g' pages', np pages.stackTop = pages'.length ∧ Worked ld r top pages' g g' s s' ∧
        pages.guarded.arguments pages.stackTop (strings s argv) =
          res.map fun sp => (pages', sp)) s := by
  have hpg : PGSIZE = 4096 := rfl
  have hguard : (pages ++ replicate 2 zeroPage)[pages.length]? = some zeroPage := by
    rw [getElem?_append_right (le_refl _), Nat.sub_self]
    rfl
  have hsub : (pages.length + 2) * PGSIZE - 2 * PGSIZE = pages.length * PGSIZE := by
    rw [hpg]
    omega
  rw [pushStack, Pages.stackTop, hsub]
  refine Total.seq (uvmclear_user hpool h hguard) ?_
  rintro _ s₁ ⟨g₁, hcleared⟩
  rw [set_guard] at hcleared
  obtain ⟨hargs₁, hstr⟩ := hcleared.args hargs
  refine Total.seq (pushArgs_total argv _ [] s₁ _ hcleared.pool hcleared.space hargs₁) ?_
  rintro res s₂ ⟨pages₂, hpushed, hlen₂, hpages⟩
  rw [hstr] at hpages
  have hall := hcleared.trans hpushed
  have hsz₂ : np ((pages.length + 2) * PGSIZE) = pages₂.length := by
    rw [np_page, hlen₂, length_append]
    rfl
  have harguments : ∀ a, pages.guarded.arguments ((pages.length + 2) * PGSIZE)
      (strings s argv) = a ↔ _ :=
    fun a => by rw [Pages.arguments, Pages.guarded, hpages]
  cases res with
  | none => exact Total.pure ⟨g₁, pages₂, hsz₂, hall, (harguments _).mpr rfl⟩
  | some x =>
    obtain ⟨sp, ustack⟩ := x
    rw [Option.map_some, Option.bind_some] at harguments
    dsimp only at harguments ⊢
    by_cases hlow : push sp ((ustack.length + 1) * 8) < (pages.length + 2) * PGSIZE - PGSIZE
    · rw [if_pos hlow] at harguments ⊢
      exact Total.pure ⟨g₁, pages₂, hsz₂, hall, (harguments _).mpr rfl⟩
    rw [if_neg hlow] at harguments ⊢
    refine Total.seq (copyout_user hall.pool hall.space _ _) ?_
    rintro ok s₃ ⟨rfl, hcopied⟩
    have hlen₃ := Pages.length_copyout pages₂ (push sp ((ustack.length + 1) * 8))
      (bytes64 (ustack ++ [0]))
    have hsz₃ := hsz₂.trans hlen₃.symm
    cases hok : (pages₂.copyout (push sp ((ustack.length + 1) * 8)) (bytes64 (ustack ++ [0]))).2 <;>
      rw [hok] at harguments <;>
      exact Total.pure ⟨g₁, _, hsz₃, hall.trans hcopied, (harguments _).mpr rfl⟩

section Bad
variable {tf : Nat}

/-- `exec` fails, and frees the page table. -/
theorem execBad_total {α : Type} (h : Worked ld r (procTop ld tf) pages g g' s s')
    (hsz : np sz = pages.length) {Q : Option α → Phys → Prop}
    (hQ : ∀ g'' s'', Gone ld r g g'' s s'' → Q none s'') :
    Total (execBad ld (r * PGSIZE) sz) Q s' := by
  refine Total.seq (procFreepagetable_total h.pool h.space hsz) ?_
  rintro _ s₂ ⟨g₂, hgone⟩
  exact Total.pure (hQ g₂ s₂ (hgone.of_worked h))

theorem growStack_total (hpool : Pool ld g s) (h : Space g s r top pages)
    (hsz : np sz = pages.length) :
    Total (uvmalloc ld (r * PGSIZE) (PGROUNDUP sz) ((PGROUNDUP sz + 2 * PGSIZE) % 2 ^ 64))
      (fun sz1 s' => ∃ g',
        (sz1 = 0 ∧ np (PGROUNDUP sz) = pages.length ∧ Worked ld r top pages g g' s s') ∨
        (sz1 = (pages.length + 2) * PGSIZE ∧ sz1 ≠ 0 ∧
          Worked ld r top (pages ++ replicate 2 zeroPage) g g' s s')) s := by
  have hsmall := h.size_lt hpool hsz
  have hlen := h.length_le hpool
  have hNP : NPHYS = 32768 := rfl
  have hpg : PGSIZE = 4096 := rfl
  have hnew : (pages.length * PGSIZE + 2 * PGSIZE) % 2 ^ 64 = (pages.length + 2) * PGSIZE := by
    rw [hpg]
    omega
  have hnp : np (pages.length * PGSIZE) = pages.length := np_page _
  rw [PGROUNDUP_eq (show sz < 2 ^ 63 by omega), hsz, hnew]
  refine (uvmalloc_total hpool h hnp (by rw [hpg]; omega)).mono ?_
  rintro sz1 s₁ ⟨g₁, pages₁, hworked, ⟨rfl, rfl⟩ | ⟨rfl, rfl⟩⟩
  · rw [np_page, Nat.add_sub_cancel_left] at hworked
    exact ⟨g₁, Or.inr ⟨rfl, by rw [hpg]; omega, hworked⟩⟩
  · exact ⟨g₁, Or.inl ⟨rfl, hnp, hworked⟩⟩

/-- The new page table `n` has the program of the file, and pages for the stack. -/
structure LoadedAt (ld : Linker) (tf : Nat) (g g' : Nat → Role) (s s' : Phys) (file : List UInt8)
    (n : Nat) (pages : Pages) (sz : Nat) : Prop where
  fresh : g n = .free
  worked : Worked ld n (procTop ld tf) (pages ++ replicate 2 zeroPage) g g' s s'
  program : Pages.program file = some (pages, sz)
  size : np sz = pages.length

variable {file : List UInt8}

theorem loadImage_total (hpool : Pool ld g s) (htf : tf * PGSIZE < 2 ^ 64) :
    Total (loadImage ld (tf * PGSIZE) file) (fun res s' =>
      (res = none ∧ ∃ g', Pool ld g' s' ∧ Change (· = .free) g g' s s') ∨
      ∃ n g' pages sz, res = some (n * PGSIZE, pages.stackTop) ∧
        LoadedAt ld tf g g' s s' file n pages sz) s := by
  rw [loadImage]
  dsimp only
  by_cases hbad : (readi file 0 ELFHDRSIZE).length ≠ ELFHDRSIZE ∨
      Elfhdr.magic (readi file 0 ELFHDRSIZE) ≠ ELF_MAGIC
  · rw [if_pos hbad]
    exact Total.pure (Or.inl ⟨rfl, g, hpool, Change.refl _ g s⟩)
  rw [if_neg hbad]
  refine Total.seq (procPagetable_total hpool htf) ?_
  rintro _ s₁ (⟨rfl, g₁, hpool₁, hchange⟩ | ⟨n, g₁, rfl, hn, hmade⟩)
  · exact Total.pure (Or.inl ⟨rfl, g₁, hpool₁, hchange⟩)
  refine Total.seq (loadProgram_total _ _ 0 g₁ s₁ [] hmade.pool hmade.space ?_ ?_) ?_
  · intro u hu
    cases hu
  · decide
  rintro ⟨ok, sz⟩ s₂ ⟨g₂, pages, hloaded⟩
  have hall := hmade.trans hloaded.worked
  have hfail : ∀ g'' s'', Gone ld n g g'' s s'' →
      ∃ g', Pool ld g' s'' ∧ Change (· = .free) g g' s s'' :=
    fun g'' s'' hgone => ⟨g'', hgone.pool, hgone.change_free hpool hn⟩
  cases ok with
  | false =>
    exact execBad_total hall hloaded.size fun g'' s'' hgone =>
      Or.inl ⟨rfl, hfail _ _ hgone⟩
  | true =>
    refine Total.seq (growStack_total hall.pool hall.space hloaded.size) ?_
    rintro _ s₃ ⟨g₃, ⟨rfl, hnp, hworked⟩ | ⟨rfl, hpos, hworked⟩⟩
    · rw [if_pos rfl]
      exact execBad_total (hall.trans hworked) hnp fun g'' s'' hgone =>
        Or.inl ⟨rfl, hfail _ _ hgone⟩
    · rw [if_neg hpos]
      refine Total.pure (Or.inr ⟨n, g₃, pages, sz, rfl, hn, hall.trans hworked, ?_, hloaded.size⟩)
      rw [Pages.program]
      simp only [if_neg hbad, hloaded.image rfl]

/-- `exec` up to where it commits: the image of the file with the arguments, in a page table
of its own; or it fails, and all that it allocated is free again. -/
theorem execImage_total (hpool : Pool ld g s) (htf : tf * PGSIZE < 2 ^ 64)
    (hargs : ∀ a ∈ argv, g (a / PGSIZE) = .arg) :
    Total (execImage ld (tf * PGSIZE) file argv) (fun res s' =>
      (res = none ∧ ∃ g', Pool ld g' s' ∧ Change (· = .free) g g' s s') ∨
      ∃ n g' pages sz sp, res = some (n * PGSIZE, sz, sp) ∧ g n = .free ∧
        Worked ld n (procTop ld tf) pages g g' s s' ∧ np sz = pages.length ∧
        Pages.image file (strings s argv) = some (pages, sz)) s := by
  refine Total.seq (loadImage_total hpool htf) ?_
  rintro _ s₁ (⟨rfl, hfailed⟩ | ⟨n, g₁, pages, sz, rfl, hloaded⟩)
  · exact Total.pure (Or.inl ⟨rfl, hfailed⟩)
  have hworked := hloaded.worked
  obtain ⟨hargs₁, hstr⟩ := hworked.args hargs
  refine Total.seq (pushStack_total hworked.pool hworked.space hargs₁) ?_
  rintro res s₂ ⟨g₂, pages₂, hsz₂, hpushed, hpages⟩
  have hall := hworked.trans hpushed
  cases res with
  | none =>
    exact execBad_total hall hsz₂ fun g'' s'' hgone =>
      Or.inl ⟨rfl, g'', hgone.pool, hgone.change_free hpool hloaded.fresh⟩
  | some sp =>
    refine Total.pure (Or.inr ⟨n, g₂, pages₂, _, sp, rfl, hloaded.fresh, hall, hsz₂, ?_⟩)
    rw [Pages.image, hloaded.program, Option.bind_some, ← hstr]
    dsimp only
    rw [hpages]
    rfl

end Bad

/-! ## The arguments of `sys_exec` -/

theorem Pages.copyinstrFrom_str (fuel : Nat) : ∀ {va max : Nat} {str : List UInt8},
    pages.copyinstrFrom fuel va max = some str → str.length < max ∧ 0 ∉ str := by
  induction fuel with
  | zero =>
    intro va max str h
    cases max <;> cases h
  | succ fuel ih =>
    intro va max str h
    cases max with
    | zero => cases h
    | succ max =>
      rw [Pages.copyinstrFrom] at h
      cases hlook : pages.lookup va with
      | none =>
        rw [hlook] at h
        cases h
      | some u =>
        rw [hlook] at h
        obtain ⟨n, hn⟩ : ∃ n, n = Pages.chunk va (max + 1) := ⟨_, rfl⟩
        have hle : n ≤ max + 1 := by
          rw [hn]
          exact Nat.min_le_right _ _
        obtain ⟨bytes, hbytes⟩ : ∃ bytes, bytes = bytesAt u.data (va % PGSIZE) n := ⟨_, rfl⟩
        have hlen : bytes.length = n := by rw [hbytes, length_bytesAt]
        simp only [← hn, ← hbytes] at h
        by_cases hzero : 0 ∈ bytes
        · rw [if_pos hzero] at h
          obtain rfl := Option.some.inj h
          have hmem : 0 ∉ bytes.takeWhile (· ≠ 0) := fun hin => by
            simpa using mem_takeWhile_imp hin
          refine ⟨?_, hmem⟩
          -- the zero itself is not part of it
          have hsplit :=
            takeWhile_append_dropWhile (p := fun x : UInt8 => decide (x ≠ 0)) (l := bytes)
          have hne : bytes.dropWhile (· ≠ 0) ≠ [] := fun hnil => by
            rw [hnil, append_nil] at hsplit
            exact hmem (hsplit.symm ▸ hzero)
          have hpos := length_pos_iff.mpr hne
          have hsum := congrArg List.length hsplit
          rw [length_append] at hsum
          omega
        · rw [if_neg hzero] at h
          obtain ⟨rest, hrest, rfl⟩ := Option.map_eq_some_iff.mp h
          obtain ⟨hlt, hnot⟩ := ih hrest
          rw [length_append, mem_append]
          exact ⟨by omega, not_or.mpr ⟨hzero, hnot⟩⟩

/-- A string in a page is read again. -/
theorem strOf_storeBytes {page : Page} {str : List UInt8} (hlen : str.length < PGSIZE)
    (hzero : 0 ∉ str) : strOf (storeBytes page 0 (str ++ [0])) = str := by
  have hstore : bytesAt (storeBytes page 0 (str ++ [0])) 0 (str.length + 1) = str ++ [0] := by
    have hfits : 0 + (str ++ [0]).length ≤ PGSIZE := by
      rw [length_append, length_singleton]
      omega
    have hread := bytesAt_storeBytes (b := page) hfits
    rw [length_append, length_singleton] at hread
    exact hread
  obtain ⟨k, hk⟩ : ∃ k, PGSIZE = str.length + 1 + k := ⟨PGSIZE - (str.length + 1), by omega⟩
  have hall : bytesAt (storeBytes page 0 (str ++ [0])) 0 PGSIZE
      = str ++ ([0] ++ bytesAt (storeBytes page 0 (str ++ [0])) (0 + (str.length + 1)) k) := by
    have hadd := bytesAt_add (storeBytes page 0 (str ++ [0])) 0 (str.length + 1) k
    rw [hstore, append_assoc] at hadd
    exact (congrArg (bytesAt _ 0) hk).trans hadd
  rw [strOf, hall, takeWhile_append_of_pos fun x hx => ?_]
  · rw [singleton_append, takeWhile_cons_of_neg (by simp), append_nil]
  · refine decide_eq_true fun hx0 => hzero ?_
    rw [← hx0]
    exact hx

/-- The pages that hold argument strings are those of `argv`. -/
structure ArgPages (g : Nat → Role) (argv : List Nat) : Prop where
  nodup : argv.Nodup
  page : ∀ a ∈ argv, ∃ n, a = n * PGSIZE
  arg : ∀ n, g n = .arg ↔ n * PGSIZE ∈ argv

/-- The free pages and those of arguments. -/
def Scratch (ρ : Role) : Prop := ρ = .free ∨ ρ = .arg

theorem Scratch.frame (h : Space g s r top pages) (htables : Tables g s)
    (hchange : Change Scratch g g' s s') : Space g' s' r top pages := by
  refine h.frame htables hchange ?_ ?_
  · rintro p (hp | hp) <;> cases hp
  · rintro w (hw | hw) <;> cases hw

theorem ArgPages.role (h : ArgPages g argv) {a : Nat} (ha : a ∈ argv) : g (a / PGSIZE) = .arg := by
  obtain ⟨n, rfl⟩ := h.page a ha
  rw [page_div, h.arg n]
  exact ha

/-- One more page for an argument. -/
theorem ArgPages.push (h : ArgPages g argv) {n : Nat} (hn : g n = .free) :
    ArgPages (update g n .arg) (argv ++ [n * PGSIZE]) := by
  have hnew : n * PGSIZE ∉ argv := fun hin => by cases hn.symm.trans ((h.arg n).mpr hin)
  refine ⟨?_, fun a ha => ?_, fun m => ?_⟩
  · refine nodup_append.mpr ⟨h.nodup, nodup_singleton _, ?_⟩
    rintro a ha b hb rfl
    exact hnew (mem_singleton.mp hb ▸ ha)
  · rcases mem_append.mp ha with ha | ha
    · exact h.page a ha
    · exact ⟨n, mem_singleton.mp ha⟩
  · rw [mem_append, mem_singleton, ← h.arg m]
    by_cases hmn : m = n
    · rw [hmn, update_self]
      exact iff_of_true rfl (Or.inr rfl)
    · rw [update_of_ne hmn]
      refine ⟨Or.inl, ?_⟩
      rintro (hm | hm)
      · exact hm
      · exact absurd (Nat.eq_of_mul_eq_mul_right (by decide) hm) hmn

/-- The strings are those in user memory; or `sys_exec` fails, with pages to free. -/
theorem fetchArgs_total (psz uargv fuel : Nat) :
    ∀ (argv : List Nat) (g : Nat → Role) (s : Phys), Pool ld g s → Space g s r top pages →
      ArgPages g argv →
      Total (fetchArgs (r * PGSIZE) psz uargv fuel argv) (fun res s' => ∃ g', Pool ld g' s' ∧
        Change Scratch g g' s s' ∧ ArgPages g' res.2 ∧ (res.1 = true →
          pages.fetchArgs psz uargv fuel (strings s argv) = some (strings s' res.2))) s := by
  induction fuel with
  | zero =>
    intro argv g s hpool h hargs
    exact Total.pure ⟨g, hpool, Change.refl _ g s, hargs, fun hfalse => by cases hfalse⟩
  | succ fuel ih =>
    intro argv g s hpool h hargs
    have hfail : ∀ P : Prop, ∃ g', Pool ld g' s ∧ Change Scratch g g' s s ∧ ArgPages g' argv ∧
        (false = true → P) := fun P =>
      ⟨g, hpool, Change.refl _ g s, hargs, fun hfalse => by cases hfalse⟩
    have hlen : (strings s argv).length = argv.length := length_map ..
    rw [fetchArgs, Pages.fetchArgs, hlen]
    by_cases haddr : psz ≤ (uargv + 8 * argv.length) % 2 ^ 64 ∨
        psz < ((uargv + 8 * argv.length) % 2 ^ 64 + 8) % 2 ^ 64
    · rw [if_pos haddr]
      exact Total.pure (hfail _)
    rw [if_neg haddr]
    simp only [if_neg haddr]
    refine Total.seq (copyin_user hpool h _ 8) ?_
    rintro _ s₁ ⟨rfl, rfl⟩
    cases pages.copyin ((uargv + 8 * argv.length) % 2 ^ 64) 8 with
    | none => exact Total.pure (hfail _)
    | some bytes =>
      rw [Option.bind_some]
      dsimp only
      by_cases huarg : leAt bytes 0 8 = 0
      · rw [if_pos huarg, if_pos huarg]
        exact Total.pure ⟨g, hpool, Change.refl _ g s₁, hargs, fun _ => rfl⟩
      rw [if_neg huarg, if_neg huarg]
      refine Total.bind (kalloc_total (Total.pure (hfail _)) fun n l b hfree => ?_)
      have hn := hpool.tables.free_head hfree
      have hpool₂ := hpool.take (b := b) hfree (ρ := .arg) trivial fun _ => 5
      have hchange₂ : Change Scratch g (update g n .arg) s₁ ⟨update s₁.mem n fun _ => 5, l, b⟩ :=
        Change.update (Or.inl hn) (Or.inr rfl) fun m hm _ => update_of_ne hm _ _
      have hspace₂ := Scratch.frame h hpool.tables hchange₂
      have hargs₂ := hargs.push hn
      refine Total.seq (copyinstr_user hpool₂ hspace₂ _ PGSIZE) ?_
      rintro _ s₂ ⟨rfl, rfl⟩
      cases hstr : pages.copyinstr (leAt bytes 0 8) PGSIZE with
      | none =>
        exact Total.pure ⟨_, hpool₂, hchange₂, hargs₂, fun hfalse => by cases hfalse⟩
      | some str =>
        obtain ⟨hlt, hzero⟩ := Pages.copyinstrFrom_str _ hstr
        rw [Option.bind_some]
        dsimp only
        have hstep : Total (memmove (n * PGSIZE + 0) (str ++ [0])) (fun _ s₃ =>
            Pool ld (update g n .arg) s₃ ∧ Change Scratch g (update g n .arg) s₁ s₃ ∧
            strings s₃ (argv ++ [n * PGSIZE]) = strings s₁ argv ++ [str])
            ⟨update s₁.mem n fun _ => 5, l, b⟩ := by
          refine memmove_total (by decide) ⟨hpool₂.setPage (update_self ..) trivial _, ?_, ?_⟩
          · refine Change.update (Or.inl hn) (Or.inr rfl) fun m hm _ => ?_
            rw [Phys.setPage_of_ne hm]
            exact update_of_ne hm _ _
          · rw [strings, map_append, map_singleton, page_div, Phys.setPage_self,
              strOf_storeBytes hlt hzero, strings]
            refine congrArg (· ++ [str]) (map_congr_left fun a ha => ?_)
            have hne : a / PGSIZE ≠ n := by
              rintro rfl
              cases hn.symm.trans (hargs.role ha)
            rw [Phys.setPage_of_ne hne]
            exact congrArg strOf (update_of_ne hne _ _)
        rw [Nat.add_zero] at hstep
        refine Total.seq hstep ?_
        rintro _ s₃ ⟨hpool₃, hchange₃, hstrings⟩
        refine (ih _ _ s₃ hpool₃ (Scratch.frame h hpool.tables hchange₃) hargs₂).mono ?_
        rintro res s' ⟨g', hpool', hchange', hargs', hres⟩
        rw [hstrings] at hres
        exact ⟨g', hpool', hchange₃.trans hchange', hargs', hres⟩

/-- The pages of the arguments are freed. -/
theorem freeArgs_total (argv : List Nat) : ∀ (g : Nat → Role) (s : Phys), Pool ld g s →
    ArgPages g argv → Total (freeArgs ld argv) (fun _ s' => ∃ g', Pool ld g' s' ∧
      Change Scratch g g' s s' ∧ ∀ n, g' n ≠ .arg) s := by
  induction argv with
  | nil =>
    intro g s hpool hargs
    refine Total.pure ⟨g, hpool, Change.refl _ g s, fun n hn => ?_⟩
    cases (hargs.arg n).mp hn
  | cons a argv ih =>
    intro g s hpool hargs
    obtain ⟨n, rfl⟩ := hargs.page a mem_cons_self
    have hn : g n = .arg := (hargs.arg n).mpr mem_cons_self
    obtain ⟨hnot, hnodup⟩ := nodup_cons.mp hargs.nodup
    have hchange : Change Scratch g (update g n .free) s
        { s with mem := update s.mem n fun _ => 1, free := n :: s.free } :=
      Change.update (Or.inr hn) (Or.inl rfl) fun m hm _ => update_of_ne hm _ _
    have hrest : ArgPages (update g n .free) argv := by
      refine ⟨hnodup, fun b hb => hargs.page b (mem_cons_of_mem _ hb), fun m => ?_⟩
      by_cases hmn : m = n
      · rw [hmn, update_self]
        exact iff_of_false (by simp) hnot
      · rw [update_of_ne hmn, hargs.arg m, mem_cons]
        exact or_iff_right fun hm => hmn (Nat.eq_of_mul_eq_mul_right (by decide) hm)
    rw [freeArgs]
    refine Total.bind (kfree_total (hpool.managed hn (by simp)) ?_)
    refine (ih _ _ (hpool.give hn trivial _) hrest).mono ?_
    rintro _ s' ⟨g', hpool', hchange', hnone⟩
    exact ⟨g', hpool', hchange.trans hchange', hnone⟩

end Xv6.Vm
