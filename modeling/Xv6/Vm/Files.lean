/-
  Vm/Files.lean --- open files, and the pipes they keep alive.

  The count of a file is the number of descriptors that refer to it, and of references
  that a system call has in hand.  An end of a pipe is open as long as there is a file for
  it; the page of a pipe is freed with the last one, and not before.
-/
import Mathlib.Data.Fintype.Prod
import Mathlib.Tactic.Abel
import Xv6.Foundation.Refcount
import Xv6.Vm.Account

set_option autoImplicit false

namespace Xv6.Vm

open Function Foundation

variable {ld : Linker} {K : Nat → Prop} {g g' : Nat → Role} {m : Pid → Pages} {s s' : Sys} {p : Pid}
  {hand : FileId → Int}

/-! ## The invariant -/

/-- The descriptors of all processes. -/
def fdTable (proc : Pid → Proc) (i : Pid × Fd) : Option FileId := (proc i.1).ofile i.2

def Pipe.isOpen (pi : Pipe) (writable : Bool) : Bool :=
  if writable then pi.writeopen else pi.readopen

/-- A pipe with one end closed. -/
def Pipe.shut (pi : Pipe) (writable : Bool) : Pipe :=
  if writable then { pi with writeopen := false } else { pi with readopen := false }

theorem Pipe.isOpen_shut (pi : Pipe) (w w' : Bool) :
    (pi.shut w).isOpen w' = if w' = w then false else pi.isOpen w' := by
  cases w <;> cases w' <;> rfl

/-- The file is an end of the pipe in a page. -/
structure IsEnd (x : File) (page : Nat) (writable : Bool) : Prop where
  ref : 0 < x.ref
  type : x.type = .pipe
  pipe : x.pipe = page
  writable : x.writable = writable

structure FilesOk (hand : FileId → Int) (s : Sys) : Prop where
  counted : Counted (fun f => (s.file f).ref) (fdTable s.proc) hand
  idle : ∀ f, (s.file f).ref ≤ 0 → (s.file f).type = .none
  ends : ∀ page w, (s.pipe page).isOpen w = true ↔ ∃ f, IsEnd (s.file f) page w
  unique : ∀ f f' page w, IsEnd (s.file f) page w → IsEnd (s.file f') page w → f = f'

/-- A live pipe. -/
theorem Pipe.live_iff (pi : Pipe) :
    (pi.readopen = true ∨ pi.writeopen = true) ↔ ∃ w, pi.isOpen w = true := by
  constructor
  · rintro (h | h)
    · exact ⟨false, h⟩
    · exact ⟨true, h⟩
  · rintro ⟨w, h⟩
    cases w with
    | false => exact Or.inl h
    | true => exact Or.inr h

variable {f : FileId}

namespace FilesOk

section

variable (h : FilesOk hand s)

include h

/-- Nothing that has to do with files has changed. -/
theorem congr (hfile : s'.file = s.file) (hpipe : s'.pipe = s.pipe)
    (hproc : ∀ p, (s'.proc p).ofile = (s.proc p).ofile) : FilesOk hand s' := by
  have htable : fdTable s'.proc = fdTable s.proc := funext fun i => congrFun (hproc i.1) i.2
  refine ⟨?_, ?_, ?_, ?_⟩
  · rw [hfile, htable]
    exact h.counted
  · rw [hfile]
    exact h.idle
  · rw [hfile, hpipe]
    exact h.ends
  · rw [hfile]
    exact h.unique

theorem congrOne (hs : Only p s s') (hself : (s'.proc p).ofile = (s.proc p).ofile) :
    FilesOk hand s' :=
  h.congr hs.file hs.pipe
    (only_proc (R := fun x y => y.ofile = x.ofile) hs.other hself fun _ => rfl)

/-- The counts after that of one file has changed. -/
theorem count {d : Int} (hself : (s'.file f).ref = (s.file f).ref + d)
    (hother : ∀ i, i ≠ f → s'.file i = s.file i) (hproc : s'.proc = s.proc) :
    Counted (fun i => (s'.file i).ref) (fdTable s'.proc) (hand + Pi.single f d) := by
  have hrefs : (fun i => (s'.file i).ref)
      = update (fun i => (s.file i).ref) f ((s.file f).ref + d) := by
    funext i
    by_cases hi : i = f
    · rw [hi, update_self, hself]
    · rw [update_of_ne hi, hother i hi]
  rw [hrefs, hproc]
  exact h.counted.add f d

/-- A file is changed in a way that leaves it the end of pipes it was. -/
theorem setFile {d : Int} (hself : (s'.file f).ref = (s.file f).ref + d)
    (hother : ∀ i, i ≠ f → s'.file i = s.file i) (hproc : s'.proc = s.proc)
    (hpipe : s'.pipe = s.pipe) (hidle : (s'.file f).ref ≤ 0 → (s'.file f).type = .none)
    (hend : ∀ page w, IsEnd (s'.file f) page w ↔ IsEnd (s.file f) page w) :
    FilesOk (hand + Pi.single f d) s' := by
  have hends : ∀ i page w, IsEnd (s'.file i) page w ↔ IsEnd (s.file i) page w := by
    intro i page w
    by_cases hi : i = f
    · rw [hi]
      exact hend page w
    · rw [hother i hi]
  refine ⟨h.count hself hother hproc, fun i hi0 => ?_, fun page w => ?_, fun i j page w hi hj => ?_⟩
  · by_cases hi : i = f
    · rw [hi] at hi0 ⊢
      exact hidle hi0
    · rw [hother i hi] at hi0 ⊢
      exact h.idle i hi0
  · rw [hpipe, h.ends page w]
    exact exists_congr fun i => (hends i page w).symm
  · exact h.unique i j page w ((hends i page w).mp hi) ((hends j page w).mp hj)

/-- A file with a positive count keeps what it is the end of. -/
theorem setRef {d : Int} (hpos : 0 < (s.file f).ref) (hpos' : 0 < (s.file f).ref + d)
    (hs : FileSet s s' f fun x => { x with ref := x.ref + d }) :
    FilesOk (hand + Pi.single f d) s' := by
  refine h.setFile ?_ hs.other hs.proc hs.pipe ?_ fun page w => ?_ <;> rw [hs.self]
  · exact fun hle => absurd hle (not_le.mpr hpos')
  · exact ⟨fun he => ⟨hpos, he.type, he.pipe, he.writable⟩,
      fun he => ⟨hpos', he.type, he.pipe, he.writable⟩⟩

/-- The only file for an end of a pipe is closed. -/
theorem shut {page : Nat} {w : Bool} (hend : IsEnd (s.file f) page w)
    (hself : (s'.file f).ref = (s.file f).ref - 1) (htype : (s'.file f).type = .none)
    (hother : ∀ i, i ≠ f → s'.file i = s.file i) (hproc : s'.proc = s.proc)
    (hpipe : s'.pipe = update s.pipe page ((s.pipe page).shut w)) :
    FilesOk (hand + Pi.single f (-1)) s' := by
  have hnoend : ∀ page w, ¬ IsEnd (s'.file f) page w := fun page w he => by
    cases htype.symm.trans he.type
  have hne : ∀ {i page w}, IsEnd (s'.file i) page w → i ≠ f := by
    rintro i page w he rfl
    exact hnoend page w he
  refine ⟨h.count hself hother hproc, fun i hi0 => ?_, fun page' w' => ?_,
    fun i j page w hi hj => ?_⟩
  · by_cases hi : i = f
    · rw [hi]
      exact htype
    · rw [hother i hi] at hi0 ⊢
      exact h.idle i hi0
  · -- ends are those there were, other than `f`
    have hex : (∃ i, IsEnd (s'.file i) page' w') ↔ ∃ i, i ≠ f ∧ IsEnd (s.file i) page' w' := by
      refine exists_congr fun i => ⟨fun he => ?_, fun ⟨hi, he⟩ => ?_⟩
      · have hi := hne he
        rw [hother i hi] at he
        exact ⟨hi, he⟩
      · rw [hother i hi]
        exact he
    rw [hex, hpipe]
    by_cases hp : page' = page
    · rw [hp, update_self, Pipe.isOpen_shut]
      by_cases hw : w' = w
      · rw [if_pos hw, hw]
        exact iff_of_false (by simp) fun ⟨i, hi, he⟩ => hi (h.unique i f _ _ he hend)
      · rw [if_neg hw]
        refine (h.ends page w').trans (exists_congr fun i => ⟨fun he => ⟨?_, he⟩, And.right⟩)
        rintro rfl
        exact hw (he.writable.symm.trans hend.writable)
    · rw [update_of_ne hp]
      refine (h.ends page' w').trans (exists_congr fun i => ⟨fun he => ⟨?_, he⟩, And.right⟩)
      rintro rfl
      exact hp (he.pipe.symm.trans hend.pipe)
  · rw [hother i (hne hi)] at hi
    rw [hother j (hne hj)] at hj
    exact h.unique i j page w hi hj

/-- Two files become the ends of a new pipe. -/
theorem newPipe {f0 f1 : FileId} {n : Nat} (hne : f0 ≠ f1)
    (hnone : ∀ w, (s.pipe n).isOpen w = false) (htype0 : (s.file f0).type = .none)
    (htype1 : (s.file f1).type = .none) (hend0 : IsEnd (s'.file f0) n false)
    (hend1 : IsEnd (s'.file f1) n true) (href0 : (s'.file f0).ref = (s.file f0).ref)
    (href1 : (s'.file f1).ref = (s.file f1).ref)
    (hother : ∀ i, i ≠ f0 → i ≠ f1 → s'.file i = s.file i) (hproc : s'.proc = s.proc)
    (hpipe : s'.pipe = update s.pipe n ⟨true, true⟩) : FilesOk hand s' := by
  -- what is an end of a pipe now
  have hcases : ∀ i page w, IsEnd (s'.file i) page w →
      (i = f0 ∧ page = n ∧ w = false) ∨ (i = f1 ∧ page = n ∧ w = true) ∨
        (i ≠ f0 ∧ i ≠ f1 ∧ page ≠ n ∧ IsEnd (s.file i) page w) := by
    intro i page w he
    by_cases hi0 : i = f0
    · subst hi0
      exact Or.inl ⟨rfl, he.pipe.symm.trans hend0.pipe, he.writable.symm.trans hend0.writable⟩
    by_cases hi1 : i = f1
    · subst hi1
      exact Or.inr (Or.inl ⟨rfl, he.pipe.symm.trans hend1.pipe,
        he.writable.symm.trans hend1.writable⟩)
    rw [hother i hi0 hi1] at he
    refine Or.inr (Or.inr ⟨hi0, hi1, ?_, he⟩)
    rintro rfl
    cases (hnone w).symm.trans ((h.ends page w).mpr ⟨i, he⟩)
  refine ⟨fun i => ?_, fun i hi0 => ?_, fun page w => ?_, fun i j page w hi hj => ?_⟩
  · have hold := h.counted i
    rw [hproc]
    dsimp only at hold ⊢
    rw [← hold]
    by_cases hi0 : i = f0
    · rw [hi0, href0]
    by_cases hi1 : i = f1
    · rw [hi1, href1]
    rw [hother i hi0 hi1]
  · by_cases hf0 : i = f0
    · rw [hf0] at hi0
      exact absurd hi0 (not_le.mpr hend0.ref)
    by_cases hf1 : i = f1
    · rw [hf1] at hi0
      exact absurd hi0 (not_le.mpr hend1.ref)
    rw [hother i hf0 hf1] at hi0 ⊢
    exact h.idle i hi0
  · rw [hpipe]
    by_cases hpage : page = n
    · rw [hpage, update_self]
      cases w with
      | false => exact iff_of_true rfl ⟨f0, hend0⟩
      | true => exact iff_of_true rfl ⟨f1, hend1⟩
    · rw [update_of_ne hpage, h.ends page w]
      constructor
      · rintro ⟨i, he⟩
        refine ⟨i, ?_⟩
        rw [hother i ?_ ?_]
        · exact he
        · rintro rfl
          cases htype0.symm.trans he.type
        · rintro rfl
          cases htype1.symm.trans he.type
      · rintro ⟨i, he⟩
        rcases hcases i page w he with ⟨-, hp, -⟩ | ⟨-, hp, -⟩ | ⟨-, -, -, hold⟩
        · exact absurd hp hpage
        · exact absurd hp hpage
        · exact ⟨i, hold⟩
  · rcases hcases i page w hi with ⟨rfl, hp, rfl⟩ | ⟨rfl, hp, rfl⟩ | ⟨-, -, hp, hold⟩
    · rcases hcases j page _ hj with ⟨rfl, -, -⟩ | ⟨-, -, hw⟩ | ⟨-, -, hp', -⟩
      · rfl
      · cases hw
      · exact absurd hp hp'
    · rcases hcases j page _ hj with ⟨-, -, hw⟩ | ⟨rfl, -, -⟩ | ⟨-, -, hp', -⟩
      · cases hw
      · rfl
      · exact absurd hp hp'
    · rcases hcases j page w hj with ⟨-, hp', -⟩ | ⟨-, hp', -⟩ | ⟨-, -, -, hold'⟩
      · exact absurd hp' hp
      · exact absurd hp' hp
      · exact h.unique i j page w hold hold'

end

/-- A descriptor is set or cleared. -/
theorem setFd {v : Option FileId} {hand' : FileId → Int} (h : FilesOk hand s) {fd : Fd}
    (hs : ProcSet s s' p fun x => { x with ofile := update x.ofile fd v })
    (hcount : Counted (fun f => (s.file f).ref) (update (fdTable s.proc) (p, fd) v) hand') :
    FilesOk hand' s' := by
  have htable : fdTable s'.proc = update (fdTable s.proc) (p, fd) v := by
    funext ⟨q, fd'⟩
    rw [fdTable]
    dsimp only
    by_cases hq : q = p
    · subst hq
      rw [hs.self]
      dsimp only
      by_cases hfd : fd' = fd
      · rw [hfd, update_self, update_self]
      · rw [update_of_ne hfd, update_of_ne (fun he => hfd (congrArg Prod.snd he))]
        rfl
    · rw [hs.other q hq, update_of_ne (fun he => hq (congrArg Prod.fst he))]
      rfl
  refine ⟨?_, ?_, ?_, ?_⟩
  · rw [htable, hs.file]
    exact hcount
  · rw [hs.file]
    exact h.idle
  · rw [hs.file, hs.pipe]
    exact h.ends
  · rw [hs.file]
    exact h.unique

end FilesOk

/-! ## Allocating files and descriptors -/

theorem find_finRange {n : Nat} {P : Fin n → Prop} [DecidablePred P] {i : Fin n}
    (h : (List.finRange n).find? (fun i => P i) = some i) : P i := by
  have hi := List.find?_some h
  exact of_decide_eq_true hi

theorem filealloc_total (h : FilesOk hand s) :
    Total filealloc (fun res s' => (res = none ∧ s' = s) ∨
      ∃ f, res = some f ∧ (s.file f).ref = 0 ∧ (s.file f).type = .none ∧
        FileSet s s' f (fun x => { x with ref := 1 }) ∧ FilesOk (hand + Pi.single f 1) s') s := by
  rw [filealloc]
  refine Total.bind (Total.get ?_)
  cases hfind : (List.finRange NFILE).find? fun f => (s.file f).ref = 0 with
  | none => exact Total.pure (Or.inl ⟨rfl, rfl⟩)
  | some f =>
    have hf : (s.file f).ref = 0 := find_finRange hfind
    have htype := h.idle f (le_of_eq hf)
    refine Total.bind
      (modifyFile_total fun s' hs => Total.pure (Or.inr ⟨f, rfl, hf, htype, hs, ?_⟩))
    refine h.setFile ?_ hs.other hs.proc hs.pipe (fun _ => ?_) fun page w => ?_ <;> rw [hs.self]
    · rw [hf]
      rfl
    · exact htype
    · exact iff_of_false (fun he => by cases htype.symm.trans he.type)
        fun he => by cases htype.symm.trans he.type

theorem filedup_total (h : FilesOk hand s) (hpos : 0 < (s.file f).ref) :
    Total (filedup f) (fun _ s' => FileSet s s' f (fun x => { x with ref := x.ref + 1 }) ∧
      FilesOk (hand + Pi.single f 1) s') s := by
  rw [filedup]
  refine Total.bind (Total.get ?_)
  rw [if_neg (by omega)]
  exact modifyFile_total fun s' hs => ⟨hs, h.setRef hpos (by omega) hs⟩

/-- A descriptor is set, and nothing else. -/
abbrev FdSet (s s' : Sys) (p : Pid) (fd : Fd) (v : Option FileId) : Prop :=
  ProcSet s s' p fun x => { x with ofile := Function.update x.ofile fd v }

theorem Accounts.setFd (h : Accounts ld K g m s) {fd : Fd} {v : Option FileId}
    (hs : FdSet s s' p fd v) : Accounts ld K g m s' :=
  h.congrOne hs.phys hs.pipe hs.other (by rw [hs.self]; exact ⟨rfl, rfl, rfl⟩)

theorem fdalloc_total (h : FilesOk hand s) (p : Pid) (f : FileId) :
    Total (fdalloc p f) (fun res s' => (res = none ∧ s' = s) ∨
      ∃ fd, res = some fd ∧ (s.proc p).ofile fd = none ∧ FdSet s s' p fd (some f) ∧
        FilesOk (hand - Pi.single f 1) s') s := by
  rw [fdalloc]
  refine Total.bind (Total.get ?_)
  dsimp only
  cases hfind : (List.finRange NOFILE).find? fun fd => (s.proc p).ofile fd = none with
  | none => exact Total.pure (Or.inl ⟨rfl, rfl⟩)
  | some fd =>
    have hfd : (s.proc p).ofile fd = none := find_finRange hfind
    have hput := Counted.put (i := (p, fd)) h.counted hfd f
    exact Total.bind (modifyProc_total fun s' hs => Total.pure
      (Or.inr ⟨fd, rfl, hfd, hs, h.setFd hs hput⟩))

theorem clearFd_total (h : FilesOk hand s) {fd : Fd} (hfd : (s.proc p).ofile fd = some f) :
    Total (clearFd p fd)
      (fun _ s' => FdSet s s' p fd none ∧ FilesOk (hand + Pi.single f 1) s') s := by
  have htake := Counted.take (i := (p, fd)) h.counted hfd
  exact modifyProc_total fun _ hs => ⟨hs, h.setFd hs htake⟩

/-! ## Closing files -/

/-- Only files, pipes and their pages have changed, and the accounts are right. -/
structure Kept (ld : Linker) (K : Nat → Prop) (m : Pid → Pages) (s s' : Sys) : Prop where
  accounts : ∃ g', Accounts ld K g' m s'
  proc : s'.proc = s.proc

theorem Kept.trans {s'' : Sys} (h : Kept ld K m s s') (h' : Kept ld K m s' s'') :
    Kept ld K m s s'' :=
  ⟨h'.accounts, h'.proc.trans h.proc⟩

section

variable (h : Accounts ld K g m s)

include h

theorem Accounts.setFile {x : File → File} (hs : FileSet s s' f x) : Accounts ld K g m s' :=
  h.congr hs.phys hs.pipe fun q => by
    rw [hs.proc]
    exact .refl _

/-- The pipe of an end has a page. -/
theorem Accounts.pipePage {page : Nat} {w : Bool}
    (hopen : (s.pipe page).isOpen w = true) : g page = .pipe :=
  (h.pipe page).mpr ((Pipe.live_iff _).mpr ⟨w, hopen⟩)

theorem pipeclose_total {page : Nat} {w : Bool} (hopen : (s.pipe page).isOpen w = true) :
    Total (pipeclose ld page w) (fun _ s' => Kept ld K m s s' ∧ s'.file = s.file ∧
      s'.pipe = update s.pipe page ((s.pipe page).shut w)) s := by
  have hpage := h.pipePage hopen
  rw [pipeclose]
  refine Total.bind (Total.get ?_)
  obtain ⟨pi, hpi⟩ : ∃ pi, pi = (s.pipe page).shut w := ⟨_, rfl⟩
  rw [← hpi]
  rw [Pipe.shut] at hpi
  simp only [← hpi]
  refine Total.bind (setPipe_total fun s₁ hs₁ => ?_)
  by_cases hlast : pi.readopen = false ∧ pi.writeopen = false
  · rw [if_pos hlast]
    refine onPhys_total (kfree_total (h.pool.managed hpage (by simp)) ?_)
    intro s' hs
    refine ⟨⟨⟨update g page .free, h.pipeStep ?_ ?_ (hs.proc.trans hs₁.proc) fun n => ?_⟩,
      hs.proc.trans hs₁.proc⟩, hs.file.trans hs₁.file, hs.pipe.trans hs₁.pipe⟩
    · rw [hs.phys, hs₁.phys]
      exact h.pool.give hpage trivial _
    · rw [hs.phys, hs₁.phys]
      exact Change.update (Or.inr hpage) (Or.inl rfl) fun x hx _ => update_of_ne hx _ _
    · rw [hs.pipe, hs₁.pipe]
      by_cases hn : n = page
      · rw [hn, update_self, update_self, hlast.1, hlast.2]
        simp
      · rw [update_of_ne hn, update_of_ne hn]
        exact h.pipe n
  · rw [if_neg hlast]
    refine Total.pure ⟨⟨⟨g, h.pipeStep ?_ ?_ hs₁.proc fun n => ?_⟩, hs₁.proc⟩, hs₁.file, hs₁.pipe⟩
    · rw [hs₁.phys]
      exact h.pool
    · rw [hs₁.phys]
      exact Change.refl _ _ _
    · rw [hs₁.pipe]
      by_cases hn : n = page
      · rw [hn, update_self]
        refine iff_of_true hpage ?_
        rw [← Bool.not_eq_true, ← Bool.not_eq_true, ← not_or, not_not] at hlast
        exact hlast
      · rw [update_of_ne hn]
        exact h.pipe n

/-- A reference in hand is given up; with the last one an end of a pipe is closed. -/
theorem fileclose_total (hf : FilesOk hand s) (hpos : 0 < (s.file f).ref) :
    Total (fileclose ld f) (fun _ s' => Kept ld K m s s' ∧
      FilesOk (hand - Pi.single f 1) s') s := by
  have hhand : hand - Pi.single f 1 = hand + Pi.single f (-1) := by
    rw [sub_eq_add_neg, ← Pi.single_neg]
  rw [fileclose, hhand]
  refine Total.bind (Total.get ?_)
  rw [if_neg (by omega)]
  by_cases hmore : 0 < (s.file f).ref - 1
  · rw [if_pos hmore]
    exact modifyFile_total fun s' hs => ⟨⟨⟨g, h.setFile hs⟩, hs.proc⟩, hf.setRef hpos hmore hs⟩
  rw [if_neg hmore]
  refine Total.bind (modifyFile_total fun s₁ hs₁ => ?_)
  have hacc := h.setFile hs₁
  have hself : (s₁.file f).ref = (s.file f).ref - 1 := by
    rw [hs₁.self]
    dsimp only
    omega
  have htype : (s₁.file f).type = .none := by rw [hs₁.self]
  by_cases hpipe : (s.file f).type = .pipe
  · rw [if_pos hpipe]
    have hend : IsEnd (s.file f) (s.file f).pipe (s.file f).writable := ⟨hpos, hpipe, rfl, rfl⟩
    have hopen := (hf.ends _ _).mpr ⟨f, hend⟩
    rw [← hs₁.pipe] at hopen
    refine (pipeclose_total hacc hopen).mono ?_
    rintro _ s' ⟨hkept, hfile, hpipes⟩
    have hproc := hkept.proc.trans hs₁.proc
    refine ⟨⟨hkept.accounts, hproc⟩, hf.shut hend ?_ ?_ (fun i hi => ?_) hproc ?_⟩
    · rw [hfile, hself]
    · rw [hfile, htype]
    · rw [hfile, hs₁.other i hi]
    · rw [hpipes, hs₁.pipe]
  · rw [if_neg hpipe]
    refine Total.pure ⟨⟨⟨g, hacc⟩, hs₁.proc⟩, hf.setFile hself hs₁.other hs₁.proc hs₁.pipe
      (fun _ => htype) fun page w => ?_⟩
    exact iff_of_false (fun he => by cases htype.symm.trans he.type) fun he => hpipe he.type

end

/-! ## Making pipes -/

/-- The count of a file that has not been touched. -/
theorem FilesOk.ref_eq {hand' : FileId → Int} (h : FilesOk hand s) (h' : FilesOk hand' s')
    (hproc : s'.proc = s.proc) (hhand : hand' f = hand f) :
    (s'.file f).ref = (s.file f).ref := by
  have hcount := h.counted f
  have hcount' := h'.counted f
  dsimp only at hcount hcount'
  rw [hcount, hcount', hproc, hhand]

/-- Two files in hand for a new pipe, or nothing. -/
theorem pipealloc_total (h : Accounts ld K g m s) (hf : FilesOk hand s) :
    Total (pipealloc ld) (fun res s' => Kept ld K m s s' ∧
      ((res = none ∧ FilesOk hand s') ∨ ∃ f0 f1, res = some (f0, f1) ∧ f0 ≠ f1 ∧
        FilesOk (hand + Pi.single f0 1 + Pi.single f1 1) s')) s := by
  rw [pipealloc]
  refine Total.seq (filealloc_total hf) ?_
  rintro _ s₁ (⟨rfl, rfl⟩ | ⟨f0, rfl, href0, htype0, hs₁, hf₁⟩)
  · exact Total.pure ⟨⟨⟨g, h⟩, rfl⟩, Or.inl ⟨rfl, hf⟩⟩
  have hacc₁ := h.setFile hs₁
  have hpos₁ : 0 < (s₁.file f0).ref := by
    rw [hs₁.self]
    exact Int.one_pos
  refine Total.seq (filealloc_total hf₁) ?_
  rintro _ s₂ (⟨rfl, rfl⟩ | ⟨f1, rfl, href1, htype1, hs₂, hf₂⟩)
  · refine Total.seq (fileclose_total hacc₁ hf₁ hpos₁) ?_
    rintro _ s₃ ⟨hkept₃, hf₃⟩
    rw [add_sub_cancel_right] at hf₃
    exact Total.pure ⟨⟨hkept₃.accounts, hkept₃.proc.trans hs₁.proc⟩, Or.inl ⟨rfl, hf₃⟩⟩
  have hne : f0 ≠ f1 := by
    rintro rfl
    omega
  have hacc₂ := hacc₁.setFile hs₂
  have hpos₂ : 0 < (s₂.file f0).ref := by
    rw [hs₂.other f0 hne]
    exact hpos₁
  have hpos₂' : 0 < (s₂.file f1).ref := by
    rw [hs₂.self]
    exact Int.one_pos
  have hproc₂ : s₂.proc = s.proc := hs₂.proc.trans hs₁.proc
  refine Total.bind (onPhys_total (kalloc_total ?_ fun n l b hfree => ?_))
  · -- no page: both files are closed again
    intro s₂' hs₂'
    rw [hs₂'.eq]
    refine Total.seq (fileclose_total hacc₂ hf₂ hpos₂) ?_
    rintro _ s₃ ⟨hkept₃, hf₃⟩
    obtain ⟨g₃, hacc₃⟩ := hkept₃.accounts
    have hpos₃ : 0 < (s₃.file f1).ref := by
      rw [hf₂.ref_eq hf₃ hkept₃.proc]
      · exact hpos₂'
      · rw [Pi.sub_apply, Pi.single_eq_of_ne (Ne.symm hne), sub_zero]
    refine Total.seq (fileclose_total hacc₃ hf₃ hpos₃) ?_
    rintro _ s₄ ⟨hkept₄, hf₄⟩
    have hsum : hand + Pi.single f0 1 + Pi.single f1 1 - Pi.single f0 1
        - Pi.single f1 1 = hand := by
      abel
    rw [hsum] at hf₄
    exact Total.pure ⟨⟨hkept₄.accounts, (hkept₄.proc.trans hkept₃.proc).trans hproc₂⟩,
      Or.inl ⟨rfl, hf₄⟩⟩
  · intro s₃ hs₃
    have hn := hacc₂.pool.tables.free_head hfree
    have hnone : ∀ w, (s₂.pipe n).isOpen w = false := fun w => by
      cases hopen : (s₂.pipe n).isOpen w with
      | false => rfl
      | true => cases hn.symm.trans (hacc₂.pipePage hopen)
    dsimp only
    rw [page_div]
    refine Total.bind (setPipe_total fun s₄ hs₄ => Total.bind (modifyFile_total fun s₅ hs₅ =>
      Total.bind (modifyFile_total fun s₆ hs₆ => Total.pure ?_)))
    have hproc₆ : s₆.proc = s₂.proc := ((hs₆.proc.trans hs₅.proc).trans hs₄.proc).trans hs₃.proc
    have hphys₆ : s₆.phys = ⟨update s₂.phys.mem n fun _ => 5, l, b⟩ :=
      ((hs₆.phys.trans hs₅.phys).trans hs₄.phys).trans hs₃.phys
    have hpipe₆ : s₆.pipe = update s₂.pipe n ⟨true, true⟩ := by
      rw [hs₆.pipe, hs₅.pipe, hs₄.pipe, hs₃.pipe]
    have hfile₄ : s₄.file = s₂.file := hs₄.file.trans hs₃.file
    refine ⟨⟨⟨update g n .pipe, hacc₂.pipeStep ?_ ?_ hproc₆ fun x => ?_⟩,
      hproc₆.trans hproc₂⟩, Or.inr ⟨f0, f1, rfl, hne, hf₂.newPipe hne hnone ?_ ?_ ?_ ?_ ?_ ?_
        (fun i hi0 hi1 => ?_) hproc₆ hpipe₆⟩⟩
    · rw [hphys₆]
      exact hacc₂.pool.take (ρ := .pipe) hfree trivial _
    · rw [hphys₆]
      exact Change.update (Or.inl hn) (Or.inr rfl) fun x hx _ => update_of_ne hx _ _
    · rw [hpipe₆]
      by_cases hx : x = n
      · rw [hx, update_self, update_self]
        exact iff_of_true rfl (Or.inl rfl)
      · rw [update_of_ne hx, update_of_ne hx]
        exact hacc₂.pipe x
    · rw [hs₂.other f0 hne, hs₁.self]
      exact htype0
    · rw [hs₂.self]
      exact htype1
    · rw [hs₆.other f0 hne, hs₅.self, hfile₄]
      exact ⟨hpos₂, rfl, rfl, rfl⟩
    · rw [hs₆.self, hs₅.other f1 (Ne.symm hne), hfile₄]
      exact ⟨hpos₂', rfl, rfl, rfl⟩
    · rw [hs₆.other f0 hne, hs₅.self, hfile₄]
    · rw [hs₆.self, hs₅.other f1 (Ne.symm hne), hfile₄]
    · rw [hs₆.other i hi1, hs₅.other i hi0, hfile₄]

end Xv6.Vm
