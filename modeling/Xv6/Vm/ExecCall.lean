/-
  Vm/ExecCall.lean --- `exec` with all it uses, and when it is atomic.

  `Vm/System.lean` has `exec` as far as the accounts of memory go.  Here it is one process
  that calls it, with the transaction, the inode it opens, the name of the process and the
  number of arguments it returns; on memory and the process table the two do the same
  (`exec_eq_execCall`).  Of the file system there is what `exec` asks of it: `namei` finds a
  file or not, with a reference for the caller, `ilock` and `iunlockput` panic where `fs.c`
  does, and the bytes of a locked file do not change.  The entry of the inode cache is as
  `namei` leaves it: it may not have been read from disk yet.  If the inode is free there,
  `ilock` panics, and that is the only panic of `exec`.
-/
import Xv6.Fs.Memory
import Xv6.Vm.Copy

set_option autoImplicit false

namespace Xv6.Vm

open Function List Foundation
open Procs (initproc)

variable (ld : Linker)

/-! ## State -/

/-- The kernel, as far as a call of `exec` uses it. -/
structure ExecState where
  phys : Phys
  /-- `p->pagetable` -/
  pagetable : Nat
  /-- `p->sz` -/
  sz : Nat
  /-- the address of the page `p->trapframe` -/
  trapframe : Nat
  /-- `p->name` -/
  name : List UInt8
  /-- `log.outstanding` -/
  outstanding : Int
  /-- `ip->ref` -/
  ref : Slot → Int
  /-- `ip->valid` -/
  valid : Slot → Bool
  /-- `dip->type`: the type that the inode has on disk, 0 if it is free -/
  type : Slot → Int
  /-- the inodes of which the process has the lock -/
  held : Slot → Bool

def ExecState.withPhys (k : ExecState) (phys : Phys) : ExecState := { k with phys }

abbrev Exec : Type → Type := StateT ExecState (Except String)

/-- Code that works on physical memory only. -/
def onMemory {α : Type} (c : Code α) : Exec α := fun k => do
  let (a, phys) ← c.run k.phys
  return (a, k.withPhys phys)

/-! ## What `exec` asks of the file system -/

def beginOp : Exec Unit := modify fun k => { k with outstanding := k.outstanding + 1 }

def endOp : Exec Unit := modify fun k => { k with outstanding := k.outstanding - 1 }

/-- The reference to the inode that `namei` returns. -/
def refer (ip : Slot) : Exec Unit :=
  modify fun k => { k with ref := update k.ref ip (k.ref ip + 1) }

def ilock (ip : Slot) : Exec Unit := do
  let k ← get
  if k.ref ip < 1 then throw "ilock"
  else do
    modify fun k => { k with held := update k.held ip true }
    if k.valid ip = true then return ()
    else do
      modify fun k => { k with valid := update k.valid ip true }
      if k.type ip = 0 then throw "ilock: no type" else return ()

def iunlockput (ip : Slot) : Exec Unit := do
  let k ← get
  if k.held ip = false ∨ k.ref ip < 1 then throw "iunlock"
  else modify fun k => { k with
    held := update k.held ip false, ref := update k.ref ip (k.ref ip - 1) }

/-! ## `exec` -/

/-- `if(ip)` after `bad:` -/
def closeFile (ip : Slot) : Exec Unit := do
  iunlockput ip
  endOp

/-- `exec` from where it has locked the inode to where its stack is allocated: the page
table, its size, and where the program starts. -/
def execRead (ip : Slot) (file : List UInt8) : Exec (Option (Nat × Nat × Nat)) := do
  let elf := readi file 0 ELFHDRSIZE
  if elf.length ≠ ELFHDRSIZE ∨ Elfhdr.magic elf ≠ ELF_MAGIC then do
    closeFile ip
    return none
  else
    match ← onMemory (procPagetable ld (← get).trapframe) with
    | none => do
        closeFile ip
        return none
    | some pagetable => do
        let (ok, sz) ← onMemory
          (loadProgram ld pagetable file (Elfhdr.phnum elf) (Elfhdr.phoff elf % 2 ^ 32) 0)
        if ok then do
          closeFile ip
          let sz := PGROUNDUP sz
          let sz1 ← onMemory (uvmalloc ld pagetable sz ((sz + 2 * PGSIZE) % 2 ^ 64))
          if sz1 = 0 then do
            onMemory (procFreepagetable ld pagetable sz)
            return none
          else return some (pagetable, sz1, Elfhdr.entry elf)
        else do
          onMemory (procFreepagetable ld pagetable sz)
          closeFile ip
          return none

/-- `exec` up to there.  `namei` finds this inode with these bytes, or nothing. -/
def execLoad (found : Option (Slot × List UInt8)) : Exec (Option (Nat × Nat × Nat)) := do
  beginOp
  match found with
  | none => do
      endOp
      return none
  | some (ip, file) => do
      refer ip
      ilock ip
      execRead ld ip file

/-- The name of a program: what follows the last slash, as much as `p->name` takes. -/
def progName (path : List UInt8) : List UInt8 :=
  ((path.reverse.takeWhile (· ≠ 47)).reverse).take 15

/-- `exec` from where it commits to the user image. -/
def execCommit (path : List UInt8) (pagetable sz entry sp : Nat) : Exec Unit := do
  let k ← get
  onMemory (store (k.trapframe + Trapframe.a1) sp)
  modify fun k => { k with name := progName path, pagetable, sz }
  onMemory (store (k.trapframe + Trapframe.epc) entry)
  onMemory (store (k.trapframe + Trapframe.sp) sp)
  onMemory (procFreepagetable ld k.pagetable k.sz)

/-- `exec`: it returns `argc`, or -1. -/
def execCall (path : List UInt8) (found : Option (Slot × List UInt8)) (argv : List Nat) :
    Exec (Option Nat) := do
  match ← execLoad ld found with
  | none => return none
  | some (pagetable, sz, entry) => do
      match ← onMemory (pushStack pagetable sz argv) with
      | none => do
          onMemory (procFreepagetable ld pagetable sz)
          return none
      | some sp => do
          execCommit ld path pagetable sz entry sp
          return some argv.length

variable {ld} {g g' : Nat → Role} {s s' : Phys} {r n tf : Nat} {p : Pid} {pages : Pages}
  {k k' : ExecState} {ip : Slot} {path file : List UInt8} {argv : List Nat}

/-! ## Rules -/

theorem onMemory_run {α : Type} (c : Code α) (k : ExecState) :
    (onMemory c).run k = c.run k.phys >>= fun x => pure (x.1, k.withPhys x.2) := rfl

theorem onMemory_total {α : Type} {c : Code α} {Q : α → ExecState → Prop}
    (h : Total c (fun a phys => Q a (k.withPhys phys)) s) :
    Total (onMemory c) Q (k.withPhys s) := by
  obtain ⟨a, phys, hrun, hQ⟩ := h
  refine ⟨a, k.withPhys phys, ?_, hQ⟩
  rw [StateT.run, onMemory, show (k.withPhys s).phys = s from rfl, hrun]
  rfl

/-- The inode has been read from disk. -/
def ExecState.read (k : ExecState) (ip : Slot) : ExecState :=
  { k with valid := update k.valid ip true }

/-- The state in which `exec` has opened the inode. -/
def ExecState.opened (k : ExecState) (ip : Slot) : ExecState :=
  { k.read ip with
    outstanding := k.outstanding + 1
    ref := update k.ref ip (k.ref ip + 1)
    held := update k.held ip true }

/-- A process that has no use of the inode yet. -/
structure Closed (k : ExecState) (ip : Slot) : Prop where
  ref : 0 ≤ k.ref ip
  held : k.held ip = false

/-- The inode has not been read from disk yet, and is free there. -/
def NoType (k : ExecState) (ip : Slot) : Prop := k.valid ip = false ∧ k.type ip = 0

theorem open_total (h : Closed k ip) (htype : ¬ NoType k ip) :
    Total (do beginOp; refer ip; ilock ip) (fun _ k' => k' = k.opened ip) k := by
  have hcount : update k.ref ip (k.ref ip + 1) ip = k.ref ip + 1 := update_self ..
  have href := h.ref
  refine Total.bind (Total.modify (Total.bind (Total.modify (Total.bind (Total.get ?_)))))
  rw [if_neg (by dsimp only; rw [hcount]; omega)]
  refine Total.bind (Total.modify ?_)
  cases hvalid : k.valid ip with
  | true =>
    have hsame : update k.valid ip true = k.valid := by rw [← hvalid, update_eq_self]
    refine Total.pure ?_
    rw [ExecState.opened, ExecState.read, hsame]
  | false =>
    refine Total.bind (Total.modify ?_)
    rw [if_neg fun hzero => htype ⟨hvalid, hzero⟩]
    exact Total.pure rfl

/-- What is left when it is closed: the memory has changed, and the inode is in the cache. -/
theorem closeFile_total {Q : Unit → ExecState → Prop} (h : Closed k ip)
    (hQ : Q () ((k.read ip).withPhys s)) : Total (closeFile ip) Q ((k.opened ip).withPhys s) := by
  have href := h.ref
  have hheld : (k.opened ip).held ip = true := update_self ..
  have hcount : (k.opened ip).ref ip = k.ref ip + 1 := update_self ..
  refine Total.bind (Total.bind (Total.get ?_))
  have hok : ¬ (((k.opened ip).withPhys s).held ip = false ∨
      ((k.opened ip).withPhys s).ref ip < 1) := by
    rintro (hfalse | hlow)
    · cases hheld.symm.trans hfalse
    · have hlow' : (k.opened ip).ref ip < 1 := hlow
      omega
  rw [if_neg hok]
  refine Total.modify (Total.modify ?_)
  have hback : (⟨s, k.pagetable, k.sz, k.trapframe, k.name, k.outstanding + 1 - 1,
      update (k.opened ip).ref ip ((k.opened ip).ref ip - 1), (k.read ip).valid, k.type,
      update (k.opened ip).held ip false⟩ : ExecState) = (k.read ip).withPhys s := by
    rw [hcount, ExecState.withPhys, ExecState.opened, update_idem, update_idem, Int.add_sub_cancel,
      Int.add_sub_cancel, update_eq_self, ← h.held, update_eq_self]
    rfl
  rw [← hback] at hQ
  exact hQ

/-! ## Loading -/

/-- `e` does to memory what `c` does, and takes what else there is from `k` to `k'`. -/
def Lifts {α β : Type} (e : Exec β) (c : Code α) (f : α → β) (k k' : ExecState) : Prop :=
  ∀ s, e.run (k.withPhys s) = c.run s >>= fun x => pure (f x.1, k'.withPhys x.2)

namespace Lifts

variable {α β γ : Type} {f : α → β} {c : Code α} {e : Exec β}

theorem pure {a : α} {b : β} (h : f a = b) : Lifts (Pure.pure b) (Pure.pure a) f k k :=
  fun _ => h ▸ rfl

theorem memory {d : Code γ} {e : γ → Exec β} {c : γ → Code α} (h : ∀ a, Lifts (e a) (c a) f k k') :
    Lifts (onMemory d >>= e) (d >>= c) f k k' := by
  intro s
  rw [StateT.run_bind, onMemory_run, StateT.run_bind, bind_assoc, bind_assoc]
  exact bind_congr fun x => h x.1 x.2

theorem trapframe {e : Nat → Exec β} (h : Lifts (e k.trapframe) c f k k') :
    Lifts (get >>= fun k₀ => e k₀.trapframe) c f k k' := h

theorem close {e : Unit → Exec β} (hip : Closed k ip)
    (h : Lifts (e ()) c f (k.read ip) k') : Lifts (closeFile ip >>= e) c f (k.opened ip) k' := by
  intro s
  obtain ⟨⟨⟩, _, hrun, rfl⟩ :=
    closeFile_total (s := s) (Q := fun _ k' => k' = (k.read ip).withPhys s) hip rfl
  rw [StateT.run_bind, hrun]
  exact h s

theorem total {Q : β → ExecState → Prop} (h : Lifts e c f k k')
    (hc : Total c (fun a s' => Q (f a) (k'.withPhys s')) s) : Total e Q (k.withPhys s) := by
  obtain ⟨a, s', hrun, hQ⟩ := hc
  refine ⟨f a, k'.withPhys s', ?_, hQ⟩
  rw [h s, hrun]
  rfl

end Lifts

/-- `exec` of an inode that is open does to memory what `loadImage` does. -/
theorem execRead_lifts (h : Closed k ip) :
    Lifts (execRead ld ip file) (loadImage ld k.trapframe file)
      (Option.map fun x => (x.1, x.2, Elfhdr.entry (readi file 0 ELFHDRSIZE)))
      (k.opened ip) (k.read ip) := by
  rw [execRead, loadImage]
  dsimp only
  split
  · exact .close h (.pure rfl)
  refine .trapframe (e := fun a => onMemory (procPagetable ld a) >>= _) (.memory fun res => ?_)
  cases res with
  | none => exact .close h (.pure rfl)
  | some pagetable =>
    refine .memory fun x => ?_
    obtain ⟨ok, sz⟩ := x
    cases ok with
    | false => exact .memory fun _ => .close h (.pure rfl)
    | true =>
      refine .close h (.memory fun sz1 => ?_)
      split
      · exact .memory fun _ => .pure rfl
      · exact .pure rfl

theorem execLoad_lifts (h : Closed k ip) (htype : ¬ NoType k ip) :
    Lifts (execLoad ld (some (ip, file))) (loadImage ld k.trapframe file)
      (Option.map fun x => (x.1, x.2, Elfhdr.entry (readi file 0 ELFHDRSIZE))) k (k.read ip) := by
  intro s
  obtain ⟨⟨⟩, _, hrun, rfl⟩ := open_total (k := k.withPhys s) ⟨h.ref, h.held⟩ htype
  have hopen : execLoad ld (some (ip, file)) =
      (do beginOp; refer ip; ilock ip) >>= fun _ => execRead ld ip file := by
    simp only [execLoad, bind_assoc]
  rw [hopen, StateT.run_bind, hrun]
  exact execRead_lifts h s

/-- The memory is as it was, but for what is in free pages. -/
def Restored (ld : Linker) (g : Nat → Role) (k k' : ExecState) : Prop :=
  ∃ g' phys valid, k' = { k with phys, valid } ∧ Pool ld g' phys ∧
    Change (· = .free) g g' k.phys phys

variable {found : Option (Slot × List UInt8)}

theorem execLoad_total (hpool : Pool ld g k.phys) (hframe : k.trapframe = tf * PGSIZE)
    (htf : tf * PGSIZE < 2 ^ 64) (hclosed : ∀ x ∈ found, Closed k x.1)
    (htype : ∀ x ∈ found, ¬ NoType k x.1) :
    Total (execLoad ld found) (fun res k' => (res = none ∧ Restored ld g k k') ∨
      ∃ ip file n g' pages sz, found = some (ip, file) ∧
        LoadedAt ld tf g g' k.phys k'.phys file n pages sz ∧ k' = (k.read ip).withPhys k'.phys ∧
        res = some (n * PGSIZE, pages.stackTop, Elfhdr.entry (readi file 0 ELFHDRSIZE))) k := by
  cases found with
  | none =>
    refine Total.bind (Total.modify (Total.bind (Total.modify (Total.pure (Or.inl
      ⟨rfl, g, k.phys, k.valid, ?_, hpool, Change.refl _ g _⟩)))))
    rw [Int.add_sub_cancel]
  | some x =>
    obtain ⟨ip, file⟩ := x
    refine (execLoad_lifts (hclosed (ip, file) rfl) (htype (ip, file) rfl)).total (s := k.phys) ?_
    rw [hframe]
    refine (loadImage_total hpool htf).mono ?_
    rintro _ s' (⟨rfl, g', hpool', hchange⟩ | ⟨n, g', pages, sz, rfl, hloaded⟩)
    · exact Or.inl ⟨rfl, g', s', _, rfl, hpool', hchange⟩
    · exact Or.inr ⟨ip, file, n, g', pages, sz, rfl, hloaded, rfl, rfl⟩

/-! ## The commit -/

theorem storeField_run {off v : Nat} (hoff : off < PGSIZE) {Q : Unit → Phys → Prop}
    (h : Q () (s.setPage tf (putLE (s.mem tf) 8 off v))) :
    Total (store (tf * PGSIZE + off) v) Q s := by
  refine Total.modify ?_
  rw [page_add_div hoff, page_add_mod hoff]
  exact h

/-- The trapframe after the three stores of `exec`. -/
def execFrame (page : Page) (entry sp : Nat) : Page :=
  putLE (putLE (putLE page 8 Trapframe.a1 sp) 8 Trapframe.epc entry) 8 Trapframe.sp sp

theorem execFrame_words (page : Page) {entry sp : Nat} (hsp : sp < 2 ^ 64) :
    getLE (execFrame page entry sp) 8 Trapframe.a1 = sp ∧
      getLE (execFrame page entry sp) 8 Trapframe.sp = sp := by
  have h8 : (256 : Nat) ^ 8 = 2 ^ 64 := by norm_num
  refine ⟨?_, ?_⟩
  · rw [execFrame, getLE_putLE_ne (by decide), getLE_putLE_ne (by decide),
      getLE_putLE (by decide), h8, Nat.mod_eq_of_lt hsp]
  · rw [execFrame, getLE_putLE (by decide), h8, Nat.mod_eq_of_lt hsp]

/-- The process runs the new image. -/
structure Committed (ld : Linker) (tf : Nat) (path : List UInt8) (n sz entry sp : Nat)
    (pages : Pages) (k k' : ExecState) : Prop where
  same : k' = { k with
    phys := k'.phys, valid := k'.valid, name := progName path, pagetable := n * PGSIZE, sz }
  space : ∃ g', Pool ld g' k'.phys ∧ Space g' k'.phys n (procTop ld tf) pages
  frame : k'.phys.mem tf = execFrame (k.phys.mem tf) entry sp

theorem execCommit_total {sz entry sp : Nat} {pages' : Pages}
    (hpool : Pool ld g s)
    (hold : Space g s r (procTop ld tf) pages) (hnew : Space g s n (procTop ld tf) pages')
    (hne : r ≠ n) (hrole : g tf = .trapframe p) (hframe : k.trapframe = tf * PGSIZE)
    (hpagetable : k.pagetable = r * PGSIZE) (hsz : np k.sz = pages.length)
    (hmem : s.mem tf = k.phys.mem tf) :
    Total (execCommit ld path (n * PGSIZE) sz entry sp)
      (fun _ k' => Committed ld tf path n sz entry sp pages' k k') (k.withPhys s) := by
  have hkframe : (k.withPhys s).trapframe = tf * PGSIZE := hframe
  have hktable : (k.withPhys s).pagetable = r * PGSIZE := hpagetable
  rw [execCommit]
  refine Total.bind (Total.get ?_)
  rw [hkframe, hktable]
  refine Total.bind (onMemory_total (storeField_run (by decide) ?_))
  refine Total.bind (Total.modify ?_)
  -- the process now has the new page table
  set k₁ : ExecState := { k with name := progName path, pagetable := n * PGSIZE, sz := sz }
  refine Total.bind ?_
  refine @onMemory_total (s.setPage tf (putLE (s.mem tf) 8 Trapframe.a1 sp)) k₁ Unit _ _
    (storeField_run (by decide) ?_)
  refine Total.bind (onMemory_total (storeField_run (by decide) ?_))
  obtain ⟨s₁, hs₁⟩ : ∃ s₁, s₁ = s.setPage tf (execFrame (s.mem tf) entry sp) := ⟨_, rfl⟩
  rw [Phys.setPage_self, Phys.setPage_setPage, Phys.setPage_self, Phys.setPage_setPage,
    ← execFrame, ← hs₁]
  have hstores : Change (· = .trapframe p) g g s s₁ := hs₁ ▸ Change.setPage hrole _
  have hpool₁ : Pool ld g s₁ := hs₁ ▸ hpool.setPage hrole trivial _
  have hold₁ := hold.frame hpool.tables hstores (by simp) (by simp)
  have hnew₁ := hnew.frame hpool.tables hstores (by simp) (by simp)
  refine onMemory_total ((procFreepagetable_total hpool₁ hold₁ hsz).mono ?_)
  rintro _ s₂ ⟨g₂, hgone⟩
  refine ⟨rfl, ⟨g₂, hgone.pool, hnew₁.frame_of_ne hpool₁.tables hne.symm hgone.change⟩, ?_⟩
  have hkeep := (hgone.change.keep tf (by rw [hrole]; exact not_inSpace_plain trivial)).2
  calc s₂.mem tf = s₁.mem tf := hkeep
    _ = execFrame (s.mem tf) entry sp := by rw [hs₁, Phys.setPage_self]
    _ = execFrame (k.phys.mem tf) entry sp := by rw [hmem]

/-! ## The whole call -/

/-- A process that calls `exec`: it has an address space and a trapframe. -/
structure Caller (ld : Linker) (g : Nat → Role) (k : ExecState) (p : Pid) (r tf : Nat)
    (pages : Pages) :
    Prop where
  pool : Pool ld g k.phys
  pagetable : k.pagetable = r * PGSIZE
  trapframe : k.trapframe = tf * PGSIZE
  role : g tf = .trapframe p
  space : Space g k.phys r (procTop ld tf) pages
  size : np k.sz = pages.length

/-- The call fails before there is a stack. -/
def LoadFails (ld : Linker) (found : Option (Slot × List UInt8)) (k : ExecState) : Prop :=
  ∃ k₁, (execLoad ld found).run k = .ok (none, k₁)

/-- What `exec` does: the caller is as it was; or it runs the program of the file, with the
arguments on its stack. -/
inductive Executed (ld : Linker) (g : Nat → Role) (path : List UInt8)
    (found : Option (Slot × List UInt8)) (strs : List (List UInt8)) (tf : Nat) (k : ExecState) :
    Option Nat → ExecState → Prop
  | failed (k' : ExecState) (restored : Restored ld g k k') (cause : LoadFails ld found k ∨
      ∃ x ∈ found, ∃ pages sz, Pages.program x.2 = some (pages, sz) ∧ pages.stackTop < 2 ^ 28 ∧
        pages.guarded.arguments pages.stackTop strs = none) :
      Executed ld g path found strs tf k none k'
  | done (k' : ExecState) (ip : Slot) (file : List UInt8) (n : Nat) (pages : Pages) (sz : Nat)
      (pages' : Pages) (sp : Nat) (found_eq : found = some (ip, file))
      (program : Pages.program file = some (pages, sz)) (size : np sz = pages.length)
      (small : pages.stackTop < 2 ^ 28)
      (arguments : pages.guarded.arguments pages.stackTop strs = some (pages', sp))
      (committed : Committed ld tf path n pages.stackTop (Elfhdr.entry (readi file 0 ELFHDRSIZE)) sp
        pages' k k') : Executed ld g path found strs tf k (some strs.length) k'

theorem execCall_total (h : Caller ld g k p r tf pages)
    (hargs : ∀ a ∈ argv, g (a / PGSIZE) = .arg) (hclosed : ∀ x ∈ found, Closed k x.1)
    (htype : ∀ x ∈ found, ¬ NoType k x.1) :
    Total (execCall ld path found argv)
      (fun res k' => Executed ld g path found (strings k.phys argv) tf k res k') k := by
  have hmanaged := h.pool.managed h.role (by simp)
  have htf : tf * PGSIZE < 2 ^ 64 := lt_trans hmanaged.2 (by decide)
  obtain ⟨res, k₁, hrun, hload⟩ := execLoad_total h.pool h.trapframe htf hclosed htype
  refine Total.bind ⟨res, k₁, hrun, ?_⟩
  rcases hload with ⟨rfl, hrestored⟩ | ⟨ip, file, n, g₁, pages₁, sz, rfl, hloaded, hsame, rfl⟩
  · exact Total.pure (.failed _ hrestored (Or.inl ⟨k₁, hrun⟩))
  have hworked := hloaded.worked
  have hsmall : pages₁.stackTop < 2 ^ 28 := by
    have hlen := hworked.space.length_le hworked.pool
    have hNP : NPHYS = 32768 := rfl
    rw [length_append, length_replicate] at hlen
    rw [Pages.stackTop, show PGSIZE = 4096 from rfl]
    omega
  have hrn : r ≠ n := by
    rintro rfl
    cases hloaded.fresh.symm.trans h.space.root
  obtain ⟨hargs₁, hstr⟩ := hworked.args hargs
  rw [hsame]
  refine Total.bind (onMemory_total ((pushStack_total hworked.pool hworked.space hargs₁).mono ?_))
  rintro res s₂ ⟨g₂, pages₂, hsz₂, hworked₂, hpushed⟩
  rw [hstr] at hpushed
  have hall := hworked.trans hworked₂
  cases res with
  | none =>
    refine Total.bind (onMemory_total ((procFreepagetable_total hall.pool hall.space hsz₂).mono ?_))
    rintro _ s₃ ⟨g₃, hgone⟩
    have hgone' := hgone.of_worked hall
    exact Total.pure
      (.failed _ ⟨g₃, s₃, _, rfl, hgone'.pool, hgone'.change_free h.pool hloaded.fresh⟩
      (Or.inr ⟨_, rfl, pages₁, sz, hloaded.program, hsmall, hpushed⟩))
  | some sp =>
    have hmem : s₂.mem tf = k.phys.mem tf :=
      (hall.change.keep tf (by rw [h.role]; exact not_inSpace_plain trivial)).2
    refine Total.bind ((execCommit_total (k := k.read ip) hall.pool
      (h.space.frame_of_ne h.pool.tables hrn hall.change) hall.space hrn (hall.trapframe h.role)
      h.trapframe h.pagetable h.size hmem).mono fun _ k' hcommitted => ?_)
    have hlen : (strings k.phys argv).length = argv.length := length_map ..
    have hcommitted' : Committed ld tf path n pages₁.stackTop
        (Elfhdr.entry (readi file 0 ELFHDRSIZE)) sp pages₂ k k' :=
      ⟨hcommitted.same, hcommitted.space, hcommitted.frame⟩
    rw [← hlen]
    exact Total.pure (.done _ ip file n pages₁ sz pages₂ sp rfl hloaded.program hloaded.size hsmall
      hpushed hcommitted')

/-- The panic in `ilock`. -/
theorem execCall_noType (h : Closed k ip) (hno : NoType k ip) :
    (execCall ld path (some (ip, file)) argv).run k = .error "ilock: no type" := by
  have href : ¬ k.ref ip + 1 < 1 := by
    have := h.ref
    omega
  have hlock : (ilock ip).run { k with
      outstanding := k.outstanding + 1, ref := update k.ref ip (k.ref ip + 1) }
      = .error "ilock: no type" := by
    simp only [ilock, StateT.run_bind, StateT.run_get, pure_bind, update_self, href,
      if_false, hno.1, Bool.false_eq_true, hno.2, StateT.run_modify, StateT.run_throw, if_true]
    rfl
  have hload : (execLoad ld (some (ip, file))).run k = .error "ilock: no type" := by
    change ((ilock ip).run { k with
      outstanding := k.outstanding + 1, ref := update k.ref ip (k.ref ip + 1) } >>= _) = _
    rw [hlock]
    rfl
  rw [execCall, StateT.run_bind, hload]
  rfl

/-! ## `exec` of `Vm/System.lean` -/

/-- The process of the call is entry `p` of the table. -/
structure SameProc (k : ExecState) (s : Sys) (p : Pid) : Prop where
  phys : k.phys = s.phys
  pagetable : k.pagetable = (s.proc p).pagetable
  sz : k.sz = (s.proc p).sz
  trapframe : k.trapframe = (s.proc p).trapframe

/-- The kernel with what the call has made of its process. -/
def Sys.after (s : Sys) (p : Pid) (k : ExecState) : Sys :=
  { s with
    phys := k.phys
    proc := update s.proc p { s.proc p with pagetable := k.pagetable, sz := k.sz } }

theorem SameProc.after {s : Sys} {k' : ExecState} (h : SameProc k s p)
    (hpt : k'.pagetable = k.pagetable)
    (hsz : k'.sz = k.sz) : s.after p k' = { s with phys := k'.phys } := by
  have hsame : { s.proc p with pagetable := k'.pagetable, sz := k'.sz } = s.proc p := by
    rw [hpt, hsz, h.pagetable, h.sz]
  rw [Sys.after, hsame, update_eq_self]

theorem onPhys_run {α : Type} (c : Code α) (s : Sys) :
    (onPhys c).run s = c.run s.phys >>= fun x => pure (x.1, { s with phys := x.2 }) := rfl

/-- `exec` of `Vm/System.lean` is this call, as far as the memory and the process table go. -/
theorem exec_eq_execCall {s : Sys} (h : SameProc k s p)
    (hclosed : ∀ x ∈ found, Closed k x.1) (htype : ∀ x ∈ found, ¬ NoType k x.1) :
    (exec ld p (found.map Prod.snd) argv).run s =
      (execCall ld path found argv).run k >>= fun x => pure (x.1.isSome, s.after p x.2) := by
  cases found with
  | none =>
    have hsame : s.after p k = s := by rw [h.after rfl rfl, h.phys]
    exact congrArg (fun t => Except.ok (false, t)) hsame.symm
  | some x =>
    obtain ⟨ip, file⟩ := x
    have hback : ∀ phys, s.after p ((k.read ip).withPhys phys) = { s with phys } :=
      fun phys => h.after rfl rfl
    have hload : (execLoad ld (some (ip, file))).run k = _ :=
      execLoad_lifts (hclosed (ip, file) rfl) (htype (ip, file) rfl) k.phys
    rw [execCall, StateT.run_bind, hload, bind_assoc, bind_assoc, Option.map_some, exec,
      StateT.run_bind, StateT.run_get, pure_bind]
    dsimp only
    rw [StateT.run_bind, onPhys_run, execImage, StateT.run_bind, bind_assoc, bind_assoc, ← h.phys,
      ← h.trapframe]
    refine bind_congr fun x => ?_
    obtain ⟨res, s₁⟩ := x
    cases res with
    | none => exact congrArg (fun t => Except.ok (false, t)) (hback s₁).symm
    | some x =>
      obtain ⟨pagetable, sz⟩ := x
      dsimp only [Option.map_some]
      simp only [pure_bind, StateT.run_bind, onMemory_run, bind_assoc]
      refine bind_congr fun x => ?_
      obtain ⟨res, s₂⟩ := x
      cases res with
      | none =>
        simp only [execBad, pure_bind, StateT.run_bind, onMemory_run, bind_assoc]
        exact bind_congr fun x => congrArg (fun t => Except.ok (false, t)) (hback x.2).symm
      | some sp =>
        simp only [execCommit, modifyProc, pure_bind, StateT.run_bind, onMemory_run, onPhys_run,
          bind_assoc, StateT.run_pure, StateT.run_get, StateT.run_modify]
        rw [← h.pagetable, ← h.sz]
        rfl

/-! ## When it fails -/

/-- `initcode` calls `exec`: `sys_exec` has fetched the arguments, which are at 0x2b.  All inodes
have been read. -/
def initCaller : Except String (ExecState × List Nat) := do
  let (_, s) ← (userinit bootKernel).run (bootState 5)
  let x := s.proc initproc
  let ((_, argv), phys) ← (fetchArgs x.pagetable x.sz 0x2b MAXARG []).run s.phys
  return (⟨phys, x.pagetable, x.sz, x.trapframe, [], 0, fun _ => 0, fun _ => true, fun _ => 0,
    fun _ => false⟩, argv)

/-- The path `/init`. -/
def initPath : List UInt8 := [47, 105, 110, 105, 116]

theorem initCaller_caller : ∃ g k argv r tf, initCaller = .ok (k, argv) ∧
    Caller bootKernel g k initproc r tf initPages ∧ (∀ a ∈ argv, g (a / PGSIZE) = .arg) ∧
      strings k.phys argv = [initPath] ∧ ∀ ip, Closed k ip ∧ ¬ NoType k ip := by
  obtain ⟨s, m, g₀, r, tf, hinit, -, -, hacc, hfirst⟩ := userinit_space (bootState_booted 5)
  obtain ⟨⟨ok, argv⟩, phys, hrun, g, hpool, hchange, hargs, -⟩ :=
    fetchArgs_total (s.proc initproc).sz 0x2b MAXARG [] g₀ s.phys hacc.pool hfirst.space
      hacc.noArgs
  have hspace := hfirst.scratch hacc.pool.tables hchange
  rw [← hfirst.pagetable] at hrun
  have hcaller : initCaller = .ok (⟨phys, (s.proc initproc).pagetable, (s.proc initproc).sz,
      (s.proc initproc).trapframe, [], 0, fun _ => 0, fun _ => true, fun _ => 0, fun _ => false⟩,
      argv) := by
    rw [initCaller, hinit]
    change ((fetchArgs _ _ _ _ _).run s.phys >>= _) = _
    rw [hrun]
    rfl
  have hcheck : initCaller.toOption.any (fun x => strings x.1.phys x.2 = [initPath]) = true := by
    decide +kernel
  rw [hcaller] at hcheck
  exact ⟨g, _, argv, r, tf, hcaller, ⟨hpool, hspace.pagetable, hspace.trapframe, hspace.role,
    hspace.space, hspace.size⟩, fun a ha => hargs.role ha, of_decide_eq_true hcheck,
    fun ip => ⟨⟨le_refl _, rfl⟩, nofun⟩⟩

/-- An ELF file with one segment, at address 0. -/
def elfFile (off filesz memsz : Nat) : List UInt8 :=
  bytes64 [ELF_MAGIC, 0, 0, 0, 64, 0, 0, 1, ELF_PROG_LOAD, off, 0, 0, filesz, memsz, 0]

/-- `namei` finds the file in the first slot. -/
def inFirst (file : List UInt8) : Option (Slot × List UInt8) := some (⟨0, NINODE_pos⟩, file)

/-- Does the caller get as far as the stack? -/
def initLoads (file : List UInt8) : Except String Bool := do
  let (k, _) ← initCaller
  let (res, _) ← (execLoad bootKernel (inFirst file)).run k
  return res.isSome

theorem not_loadFails (hk : initCaller = .ok (k, argv))
    (hloads : (initLoads file).toOption = some true) :
    ¬ LoadFails bootKernel (inFirst file) k := by
  rintro ⟨k₁, hrun⟩
  rw [initLoads, hk] at hloads
  change ((execLoad bootKernel (inFirst file)).run k >>= _).toOption = _ at hloads
  rw [hrun] at hloads
  cases hloads

end Xv6.Vm
