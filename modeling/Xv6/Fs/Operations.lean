/-
  Fs/Operations.lean --- the file-system calls keep to the rules of `begin_op` and `end_op`.

  An operation is not begun inside another one, and the disk changes only inside one.  What the
  disk, the inode cache and the descriptors reply is left open.  The file table is not: `fileclose`
  begins an operation for a file with an inode, and `sys_open` calls it inside its own when there is
  no descriptor left.  That is right only because the file has no type yet.
-/
import Xv6.Fs.Sysfile

set_option autoImplicit false

namespace Xv6

open Foundation

variable {A α : Type}

/-! ## The rules -/

/-- Where a request may be made. -/
@[simp] def InodeOp.InOrder (inOp : Bool) : InodeOp A → Prop
  | .beginOp => inOp = false
  | .endOp | .iupdate _ | .tryAlloc _ _ | .itrunc _ | .writeDirent _ _ _
  | .writei _ _ _ _ _ => inOp = true
  | _ => True

/-- A process in a call. -/
structure Calling where
  inOp : Bool
  mem : FsMem Addrs

def Calling.May (s : Calling) (o : InodeOp Addrs) : Prop := o.InOrder s.inOp

/-- A request and a reply to it.  Those that are not about the table leave the files that are in use
in use, and their types. -/
def Calling.Step (p : Pid) (s : Calling) :
    (o : InodeOp Addrs) → (InodeSig Addrs).Resp o → Calling → Prop
  | .mem .filealloc, r, t => t.inOp = s.inOp ∧ mexec p .filealloc s.mem = .ret r t.mem
  | .mem (.fileclose f), r, t => t.inOp = s.inOp ∧ mexec p (.fileclose f) s.mem = .ret r t.mem
  | .mem (.setFile f x), r, t => t.inOp = s.inOp ∧ mexec p (.setFile f x) s.mem = .ret r t.mem
  | .beginOp, _, t => t = ⟨true, s.mem⟩
  | .endOp, _, t => t = ⟨false, s.mem⟩
  | _, _, t => t.inOp = s.inOp ∧ ∀ f, ((t.mem.file f).ref = 0 ↔ (s.mem.file f).ref = 0) ∧
      (t.mem.file f).type = (s.mem.file f).type

/-! ## An abstraction -/

/-- Is the process in an operation, and the file it has allocated and not set yet. -/
structure Phase where
  inOp : Bool
  fresh : Option FileId

@[simp] def Phase.May (g : Phase) (o : InodeOp A) : Prop :=
  o.InOrder g.inOp ∧ ∀ f x, o = .mem (.setFile f x) → g.fresh = some f

@[simp] def Phase.Step (g : Phase) : (o : InodeOp A) → (InodeSig A).Resp o → Phase → Prop
  | .mem .filealloc, r, g' => g' = ⟨g.inOp, r⟩
  | .mem (.fileclose f), r, g' => g' = ⟨g.inOp, none⟩ ∧
      (g.fresh = some f → ∀ x ∈ (r : Option File), x.type = .none)
  | .mem (.setFile _ _), _, g' => g' = ⟨g.inOp, none⟩
  | .beginOp, _, g' => g' = ⟨true, g.fresh⟩
  | .endOp, _, g' => g' = ⟨false, g.fresh⟩
  | _, _, g' => g' = g

structure Describes (g : Phase) (s : Calling) : Prop where
  inOp : s.inOp = g.inOp
  /-- a file that is not in use has no type -/
  unused : ∀ f, (s.mem.file f).ref = 0 → (s.mem.file f).type = .none
  fresh : ∀ f, g.fresh = some f → (s.mem.file f).ref ≠ 0 ∧ (s.mem.file f).type = .none

variable {p : Pid} {g : Phase} {s t : Calling}

theorem Describes.setFile {f : FileId} {x : File} {F : Option FileId} (hs : Describes g s)
    (hop : t.inOp = s.inOp) (ht : s.mem.setFile f x = t.mem) (hx : x.ref = 0 → x.type = .none)
    (hF : ∀ f', F = some f' → f' = f ∧ x.ref ≠ 0 ∧ x.type = .none) : Describes ⟨g.inOp, F⟩ t := by
  refine ⟨hop.trans hs.inOp, fun f' => ?_, fun f' hf => ?_⟩
  · rw [← ht]
    by_cases hf : f' = f
    · subst hf
      simpa [FsMem.setFile] using hx
    · simpa [FsMem.setFile, hf] using hs.unused f'
  · obtain ⟨rfl, hx⟩ := hF f' hf
    simpa [← ht, FsMem.setFile] using hx

/-- What a request does to the table, the phase tells. -/
theorem Describes.step {o : InodeOp Addrs} {r : (InodeSig Addrs).Resp o} (hs : Describes g s)
    (hmay : g.May o) (hstep : s.Step p o r t) : ∃ g', g.Step o r g' ∧ Describes g' t := by
  have hkept (hop : t.inOp = s.inOp)
    (hfile : ∀ f, ((t.mem.file f).ref = 0 ↔ (s.mem.file f).ref = 0) ∧
      (t.mem.file f).type = (s.mem.file f).type) : Describes g t := by
    refine ⟨hop.trans hs.inOp, fun f => ?_, fun f => ?_⟩
    · rw [(hfile f).1, (hfile f).2]
      exact hs.unused f
    · rw [ne_eq, (hfile f).1, (hfile f).2]
      exact hs.fresh f
  cases o with
  | beginOp | endOp =>
    cases hstep
    exact ⟨_, rfl, rfl, hs.unused, hs.fresh⟩
  | mem o =>
    cases o with
    | filealloc =>
      obtain ⟨hop, hx⟩ := hstep
      simp only [mexec] at hx
      split at hx <;> injection hx with hr hx <;> subst hr
      · rename_i f hfind
        have hf : (s.mem.file f).ref = 0 := by simpa using List.find?_some hfind
        refine ⟨_, rfl, hs.setFile hop hx (by simp) ?_⟩
        rintro f' ⟨rfl⟩
        exact ⟨rfl, one_ne_zero, hs.unused f hf⟩
      · exact ⟨_, rfl, hop.trans hs.inOp, hx ▸ hs.unused, nofun⟩
    | fileclose f =>
      obtain ⟨hop, hx⟩ := hstep
      simp only [mexec] at hx
      split_ifs at hx with _ hlast <;> injection hx with hr hx <;> subst hr
      · exact ⟨_, ⟨rfl, nofun⟩, hs.setFile hop hx (fun h0 => absurd h0 hlast.ne') nofun⟩
      · refine ⟨_, ⟨rfl, ?_⟩, hs.setFile hop hx (fun _ => rfl) nofun⟩
        rintro hf _ ⟨rfl⟩
        exact (hs.fresh f hf).2
    | setFile f x =>
      obtain ⟨hop, hx⟩ := hstep
      injection hx with hr hx
      exact ⟨_, rfl, hs.setFile hop hx (fun h0 => absurd h0 (hs.fresh f (hmay.2 f x rfl)).1) nofun⟩
    | _ => exact ⟨g, rfl, hkept hstep.1 hstep.2⟩
  | _ => exact ⟨g, rfl, hkept hstep.1 hstep.2⟩

/-! ## The routines -/

section Routines

variable {sb : Superblock} {F : Option FileId} {dp ip : Slot} {f : FileId} {name path : List UInt8}
  {parent : Bool} {type major minor : Int} {um : UserMem} {addr dev fuel i inum n off omode : Nat}
  {Q : Unit → Phase → Prop}

attribute [local simp] Option.forall

abbrev Ok (m : IProg Addrs α) (Q : α → Phase → Prop) (g : Phase) : Prop :=
  m.along Phase.May Phase.Step Q g

/-- Whatever it returns, the routine leaves the phase as it is. -/
abbrev Leaves (m : IProg Addrs α) (g : Phase) : Prop :=
  ∀ Q : α → Phase → Prop, (∀ a, Q a g) → Ok m Q g

@[simp] theorem ok_panic {msg : String} {Q : α → Phase → Prop} : Ok (panic msg) Q g := by
  simp [panic]

instance : Inhabited (Inode Addrs) := ⟨⟨0, 0, 0, none, true, Dinode.zero⟩⟩

@[simp] theorem ok_ilock : Ok (ilock ip) Q g ↔ Q () g := by
  constructor
  · intro h
    exact (h.2 () g rfl).2 default g rfl
  · simp +contextual [ilock]

@[simp] theorem ok_iunlock : Ok (iunlock ip) Q g ↔ Q () g := by
  simp [iunlock, Unique.forall_iff]

@[simp] theorem ok_iput : Ok (iput ip) Q ⟨true, F⟩ ↔ Q () ⟨true, F⟩ := by
  simp [iput, Unique.forall_iff]

@[simp] theorem ok_iunlockput : Ok (iunlockput ip) Q ⟨true, F⟩ ↔ Q () ⟨true, F⟩ := by
  simp [iunlockput]

@[simp] theorem ok_addNlink {n : Int} : Ok (addNlink ip n) Q ⟨true, F⟩ ↔ Q () ⟨true, F⟩ := by
  simp [addNlink, Unique.forall_iff]

@[simp] theorem leaves_iallocFrom : Leaves (iallocFrom dev type n inum) ⟨true, F⟩ := by
  intro Q hQ
  induction n generalizing inum with
  | zero => exact ok_panic
  | succ n ih => simp [iallocFrom, ih, hQ]

@[simp] theorem leaves_dirlookup : Leaves (dirlookup dp name) g := by
  intro Q hQ
  have hloop (dev n off) : Ok (dirlookupFrom dp dev name n off) Q g := by
    induction n generalizing off with
    | zero => exact hQ none
    | succ n ih => simp [dirlookupFrom, ih, hQ]
  simp [dirlookup, hloop]

@[simp] theorem leaves_emptyDirent : Leaves (emptyDirent dp n off) g := by
  intro Q hQ
  induction n generalizing off with
  | zero => exact hQ off
  | succ n ih => simp [emptyDirent, ih, hQ]

@[simp] theorem leaves_dirlink : Leaves (dirlink dp name n) ⟨true, F⟩ := by
  intro Q hQ
  simp [dirlink, hQ]

@[simp] theorem leaves_isdirempty : Leaves (isdirempty dp) g := by
  intro Q hQ
  have hloop (n off) : Ok (isdiremptyFrom dp n off) Q g := by
    induction n generalizing off with
    | zero => exact hQ true
    | succ n ih => simp [isdiremptyFrom, ih, hQ]
  simp [isdirempty, hloop]

@[simp] theorem leaves_namex : Leaves (namex path parent) ⟨true, F⟩ := by
  intro Q hQ
  have hloop (fuel ip path name) : Ok (namexLoop parent fuel ip path name) Q ⟨true, F⟩ := by
    induction fuel generalizing ip path name with
    | zero => exact hQ none
    | succ n ih =>
      rw [namexLoop]
      split <;> simp [ih, hQ]
  simp [namex, hloop]

@[simp] theorem leaves_createDots : Leaves (createDots dp ip) ⟨true, F⟩ := by
  intro Q hQ
  simp [createDots, hQ]

@[simp] theorem leaves_createNew : Leaves (createNew sb dp name type major minor) ⟨true, F⟩ := by
  intro Q hQ
  simpa [createNew, ialloc] using fun di => leaves_iallocFrom _ fun ip => by simp [hQ]

@[simp] theorem leaves_create : Leaves (create sb path type major minor) ⟨true, F⟩ := by
  intro Q hQ
  refine Prog.along_bind.mpr (leaves_namex _ fun r => ?_)
  cases r <;> simp [createFound, hQ]

@[simp] theorem leaves_openInode : Leaves (openInode sb path omode) ⟨true, F⟩ := by
  intro Q hQ
  simp [openInode, namei, hQ]

/-! ## The calls -/

/-- The routine ends outside an operation. -/
abbrev Ends (m : IProg Addrs α) (inOp : Bool) : Prop :=
  ∀ (F : Option FileId) (Q : α → Phase → Prop), (∀ a F', Q a ⟨false, F'⟩) → Ok m Q ⟨inOp, F⟩

@[simp] theorem ends_filewriteLoop : Ends (filewriteLoop f um addr n fuel i) false := by
  intro F Q hQ
  induction fuel generalizing i with
  | zero => simp [filewriteLoop, hQ]
  | succ n ih => simp [filewriteLoop, ih, hQ]

/-- If there is no descriptor, `fileclose` finds a file without a type. -/
@[simp] theorem ends_openFile : Ends (openFile ip omode) true := by
  intro F Q hQ
  simp +contextual [openFile, fileclose, endFail, hQ]

theorem ends_run (c : Call) : Ends (c.run sb) false := by
  intro F Q hQ
  cases c with
  | dup fd => simp [Call.run, sysDup, hQ]
  | read fd um addr n => simp [Call.run, sysRead, withFile, fileread, hQ]
  | write fd um addr n => simp [Call.run, sysWrite, withFile, filewrite, hQ]
  | close fd => simp [Call.run, sysClose, fileclose, hQ]
  | fstat fd um addr => simp [Call.run, sysFstat, withFile, filestat, hQ]
  | link old new =>
    cases old <;> cases new <;> simp only [Call.run, sysLink, Prog.along, hQ]
    simpa [namei] using leaves_namex _ fun r => by
      cases r <;> simp [linkBad, endFail, nameiparent, hQ]
  | unlink path =>
    cases path <;> simp only [Call.run, sysUnlink, Prog.along, hQ]
    simpa [nameiparent] using leaves_namex _ fun r => by
      cases r <;> simp [unlinkBad, unlinkEntry, endFail, hQ]
  | «open» path omode => cases path <;> simp [Call.run, sysOpen, endFail, hQ]
  | mkdir path => cases path <;> simp [Call.run, sysMkdir, createCall, endFail, hQ]
  | mknod path major minor => cases path <;> simp [Call.run, sysMknod, createCall, endFail, hQ]
  | chdir path => cases path <;> simp [Call.run, sysChdir, namei, endFail, hQ]

theorem ends_calls (cs : List Call) : Ends (calls sb cs) false := by
  intro F Q hQ
  induction cs generalizing F with
  | nil => exact hQ () F
  | cons c cs ih => exact Prog.along_bind.mpr (ends_run c F _ fun _ F' => ih F')

end Routines

/-- What is shown of the phases holds of the calls they describe. -/
theorem Ok.inOrder {m : IProg Addrs α} {Q : α → Phase → Prop} {Q' : α → Calling → Prop}
    (h : Ok m Q g) (hs : Describes g s) (hQ : ∀ a g t, Describes g t → Q a g → Q' a t) :
    m.along Calling.May (Calling.Step p) Q' s := by
  induction m generalizing g s with
  | pure a => exact hQ a g s hs h
  | op o k ih =>
    refine ⟨?_, fun r t hstep => ?_⟩
    · rw [Calling.May, hs.inOp]
      exact h.1.1
    · obtain ⟨g', hg, ht⟩ := hs.step h.1 hstep
      exact ih r (h.2 r g' hg) ht

/-- **The calls keep to the rules.**  A process makes any calls, one after the other: no operation
begins inside another one or ends outside, every change is inside one, and after the last call it is
outside. -/
theorem calls_inOrder (sb : Superblock) (p : Pid) (cs : List Call) {s : Calling}
    (hout : s.inOp = false) (hunused : ∀ f, (s.mem.file f).ref = 0 → (s.mem.file f).type = .none) :
    (calls sb cs).along Calling.May (Calling.Step p) (fun _ t => t.inOp = false ∧
      ∀ f, (t.mem.file f).ref = 0 → (t.mem.file f).type = .none) s := by
  have hcalls : Ok (calls sb cs) (fun _ g => g.inOp = false) ⟨false, none⟩ :=
    ends_calls cs none _ fun _ _ => rfl
  exact hcalls.inOrder ⟨hout, hunused, nofun⟩ fun _ g t ht hg => ⟨ht.inOp.trans hg, ht.unused⟩

/-- The kernel has started, and no file is open. -/
theorem calls_inOrder_start :
    (calls ⟨FSMAGIC, FSSIZE, 954, 200, 30, 2, 32, 45⟩ [.open (some [97]) O_CREATE, .close 0]).along
    Calling.May (Calling.Step ⟨0, by decide⟩) (fun _ t => t.inOp = false ∧
        ∀ f, (t.mem.file f).ref = 0 → (t.mem.file f).type = .none)
      ⟨false, fun _ => default, fun _ => ⟨.none, 0, false, false, ⟨0, NINODE_pos⟩, 0, 0⟩,
        fun _ => ⟨0, NINODE_pos⟩, fun _ _ => none⟩ :=
  calls_inOrder _ _ _ rfl fun _ _ => rfl

end Xv6
