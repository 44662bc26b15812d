/-
  User/Find.lean --- `find.c`, on a tree that can be opened.

  A path is its bytes before the NUL.  The system calls are told by what they return for
  a path; a directory is a list of entries, unused ones included.
-/
import Mathlib.Data.List.DropRight
import Xv6.Fs.Sysfile
import Xv6.Vm.System

set_option autoImplicit false

namespace Xv6.Find

open List
open Vm (MAXPATH)

abbrev Path : Type := List UInt8

/-! ## `find.c` -/

/-- `struct dirent`, with all bytes of its name. -/
structure Entry where
  inum : Nat
  name : Path
  length : name.length = DIRSIZ

/-- What `open`, `fstat` and `read` return, and what an array holds before it is written. -/
structure World where
  opens : Path → Option Nat
  fstat : Nat → Option Int
  entries : Nat → List Entry
  junk : Fin 512 → UInt8

/-- A path, printed to a descriptor with a format. -/
structure Line where
  fd : Nat
  format : String
  path : Path
  deriving DecidableEq

/-- What has been printed, and how many descriptors are open. -/
structure State where
  out : List Line
  fds : Nat
  deriving DecidableEq

def State.print (s : State) (l : Line) : State := { s with out := s.out ++ [l] }

def State.close (s : State) : State := { s with fds := s.fds - 1 }

inductive Fault where
  | overrun
  | fuel
  deriving DecidableEq

/-- Bytes are written to an array, from `off` on. -/
def put (buf : Path) (off : Nat) (bytes : Path) : Except Fault Path :=
  if off + bytes.length ≤ buf.length then
    .ok (buf.take off ++ bytes ++ buf.drop (off + bytes.length))
  else .error .overrun

/-- The string in an array. -/
def cstr (buf : Path) : Path := buf.takeWhile (· ≠ 0)

/-- What is behind the last `/`, from the end. -/
def findFileName (path : Path) : Path := path.rtakeWhile (· ≠ slash)

def stat (w : World) (path : Path) : Option Int := (w.opens path).bind w.fstat

/-- An entry that is unused, or named `.` or `..`. -/
def Entry.skipped (de : Entry) : Bool := de.inum = 0 ∨ cut de.name = dot ∨ cut de.name = dotdot

/-- The loop over a directory.  Names go to `p`, and `find` is the recursive call. -/
def readEntries (w : World) (find : Path → State → Except Fault State) (p : Nat) :
    List Entry → Path → State → Except Fault State
  | [], _, s => .ok s
  | de :: des, buf, s =>
    if de.skipped then readEntries w find p des buf s
    else do
      let buf ← put buf p de.name
      let buf ← put buf (p + DIRSIZ) [0]
      match stat w (cstr buf) with
      | none => readEntries w find p des buf (s.print ⟨1, "find: cannot stat %s\n", cstr buf⟩)
      | some _ => do
        let s ← find (cstr buf) s
        readEntries w find p des buf s

def find (w : World) (target : Path) : Nat → Path → State → Except Fault State
  | 0, _, _ => .error .fuel
  | fuel + 1, path, s =>
    match w.opens path with
    | none => .ok (s.print ⟨2, "find: cannot open %s\n", path⟩)
    | some ino =>
      let s := { s with fds := s.fds + 1 }
      match w.fstat ino with
      -- the descriptor stays open
      | none => .ok (s.print ⟨2, "find: connot open %s\n", path⟩)
      | some type =>
        if type = T_FILE then
          .ok (if findFileName path = target then s.print ⟨1, "%s\n", path⟩ else s).close
        else if type = T_DIR then do
          let buf ← put (ofFn w.junk) 0 (path ++ [0])
          let buf ← put buf path.length [slash]
          let s ← readEntries w (find w target fuel) (path.length + 1) (w.entries ino) buf s
          .ok s.close
        else .ok s.close

/-! ## Trees -/

/-- A path, or the entries of the directory there. -/
inductive Task where
  | at (path : Path)
  | entries (path : Path) (des : List Entry)

/-- A finite tree in which everything can be opened, and its files in the order of the
directories.  Paths are shorter than `MAXPATH`. -/
inductive Tree (w : World) : Task → List Path → Prop where
  | file {path : Path} {ino : Nat} (hopen : w.opens path = some ino)
      (htype : w.fstat ino = some T_FILE) (hlen : path.length < MAXPATH) : Tree w (.at path) [path]
  | dir {path : Path} {ino : Nat} {files : List Path}
      (hopen : w.opens path = some ino) (htype : w.fstat ino = some T_DIR)
      (hlen : path.length < MAXPATH) : Tree w (.entries path (w.entries ino)) files →
      Tree w (.at path) files
  | other {path : Path} {ino : Nat} {type : Int} (hopen : w.opens path = some ino)
      (htype : w.fstat ino = some type) (hlen : path.length < MAXPATH) (hfile : type ≠ T_FILE)
      (hdir : type ≠ T_DIR) : Tree w (.at path) []
  | nil {path : Path} : Tree w (.entries path []) []
  | skip {path : Path} {de : Entry} {des : List Entry} {files : List Path}
      (hskip : de.skipped = true) : Tree w (.entries path des) files →
      Tree w (.entries path (de :: des)) files
  | entry {path : Path} {de : Entry} {des : List Entry} {files files' : List Path}
      (hskip : de.skipped = false) : Tree w (.at (path ++ slash :: cut de.name)) files →
      Tree w (.entries path des) files' → Tree w (.entries path (de :: des)) (files ++ files')

/-- What `find` is to print. -/
def found (target : Path) (files : List Path) : List Line :=
  (files.filter fun path => path.rtakeWhile (· ≠ slash) = target).map (Line.mk 1 "%s\n")

/-! ## The buffer -/

theorem put_append {a b c : Path} (h : c.length ≤ b.length) :
    put (a ++ b) a.length c = .ok (a ++ c ++ b.drop c.length) := by
  rw [put, if_pos (by rw [length_append]; omega), take_left, ← drop_drop, drop_left]

theorem put_path {path junk : Path} (h : path.length + 1 ≤ junk.length) : (do
      let buf ← put junk 0 (path ++ [0])
      put buf path.length [slash]) = .ok (path ++ slash :: junk.drop (path.length + 1)) := by
  have hpath : put junk 0 (path ++ [0]) = .ok (path ++ 0 :: junk.drop (path.length + 1)) := by
    have hput := put_append (a := []) (b := junk) (c := path ++ [0])
      (by rw [length_append]; exact h)
    simpa using hput
  have hslash := put_append (a := path) (b := 0 :: junk.drop (path.length + 1)) (c := [slash])
    (Nat.le_add_left ..)
  rw [append_assoc] at hslash
  rw [hpath]
  exact hslash

theorem put_name {path rest : Path} (de : Entry) (h : DIRSIZ + 1 ≤ rest.length) : (do
      let buf ← put (path ++ slash :: rest) (path.length + 1) de.name
      put buf (path.length + 1 + DIRSIZ) [0]) =
      .ok (path ++ slash :: (de.name ++ 0 :: rest.drop (DIRSIZ + 1))) := by
  have hname := put_append (a := path ++ [slash]) (b := rest) (c := de.name)
    (by rw [de.length]; omega)
  have hstop := put_append (a := path ++ [slash] ++ de.name) (b := rest.drop de.name.length)
    (c := [0]) (by rw [length_drop, de.length, length_singleton]; omega)
  simp only [length_append, length_cons, length_nil, append_assoc,
    singleton_append, de.length, drop_drop, Nat.zero_add] at hname hstop
  rw [hname]
  exact hstop

/-- The string in the buffer once a name is in its place, whether the name ends in a NUL
or not. -/
theorem cstr_entry {path rest : Path} (hpath : 0 ∉ path) (de : Entry) :
    cstr (path ++ slash :: (de.name ++ 0 :: rest)) = path ++ slash :: cut de.name := by
  have hname : (de.name ++ 0 :: rest).takeWhile (· ≠ 0) = cut de.name := by
    have hle : (de.name.takeWhile (· ≠ 0)).length ≤ DIRSIZ :=
      ( takeWhile_prefix _).length_le.trans de.length.le
    rw [cut, take_of_length_le hle, takeWhile_append]
    split
    · rename_i hall
      rw [takeWhile_cons_of_neg (by simp), append_nil]
      exact (( takeWhile_prefix _).eq_of_length hall).symm
    · rfl
  rw [cstr, takeWhile_append_of_pos, takeWhile_cons_of_pos (by decide), hname]
  intro c hc
  exact decide_eq_true fun heq => hpath (heq ▸ hc)

/-! ## `find` prints the files of that name -/

def State.printed (s : State) (ls : List Line) : State := { s with out := s.out ++ ls }

/-- With enough fuel, the files are printed and all is closed that was opened. -/
def Prints (w : World) (target : Path) (files : List Path) : Task → Prop
  | .at path => 0 ∉ path → ∃ enough, ∀ fuel ≥ enough, ∀ s,
      find w target fuel path s = .ok (s.printed (found target files))
  | .entries path des => 0 ∉ path → path.length < MAXPATH → ∃ enough, ∀ fuel ≥ enough,
      ∀ rest s, path.length + 1 + rest.length = 512 →
      readEntries w (find w target fuel) (path.length + 1) des (path ++ slash :: rest) s =
        .ok (s.printed (found target files))

theorem State.printed_nil (s : State) : s.printed [] = s := by
  rw [printed, append_nil]

theorem State.printed_append (s : State) (ls ls' : List Line) :
    (s.printed ls).printed ls' = s.printed (ls ++ ls') := by
  rw [printed, printed, printed, append_assoc]

theorem found_append (target : Path) (files files' : List Path) :
    found target (files ++ files') = found target files ++ found target files' := by
  rw [found, filter_append, map_append, found, found]

theorem Tree.stat {w : World} {path files} (h : Tree w (.at path) files) :
    ∃ type, stat w path = some type := by
  cases h with
  | file hopen htype _ => exact ⟨_, by rw [Find.stat, hopen]; exact htype⟩
  | dir hopen htype _ _ => exact ⟨_, by rw [Find.stat, hopen]; exact htype⟩
  | other hopen htype _ _ _ => exact ⟨_, by rw [Find.stat, hopen]; exact htype⟩

/-- Every name is written behind the same `/`, over what is left of the one before. -/
theorem Tree.prints {w : World} {target : Path} {task : Task} {files : List Path}
    (h : Tree w task files) : Prints w target files task := by
  induction h with
  | @file path ino hopen htype hlen =>
    intro _
    refine ⟨1, fun fuel hfuel s => ?_⟩
    obtain ⟨fuel, rfl⟩ := Nat.exists_eq_add_of_le' hfuel
    simp only [find, hopen, htype, if_true, found]
    by_cases heq : findFileName path = target
    · rw [if_pos heq, filter_cons_of_pos (by exact decide_eq_true heq)]
      rfl
    · rw [if_neg heq, filter_cons_of_neg (by exact mt of_decide_eq_true heq)]
      exact congrArg Except.ok s.printed_nil.symm
  | @dir path ino files hopen htype hlen _ ih =>
    intro hpath
    obtain ⟨enough, hall⟩ := ih hpath hlen
    refine ⟨enough + 1, fun fuel hfuel s => ?_⟩
    obtain ⟨fuel, rfl⟩ := Nat.exists_eq_add_of_le' (Nat.le_of_add_left_le hfuel)
    have hfits : path.length + 1 ≤ (ofFn w.junk).length := by
      rw [length_ofFn]
      rw [MAXPATH] at hlen
      omega
    have hrun := hall fuel (Nat.le_of_succ_le_succ hfuel)
      ((ofFn w.junk).drop (path.length + 1)) { s with fds := s.fds + 1 }
      (by rw [length_drop, Nat.add_sub_of_le hfits, length_ofFn])
    rw [find, hopen]
    simp only [htype, if_neg (show T_DIR ≠ T_FILE by decide), if_true]
    rw [← bind_assoc, put_path hfits]
    change (readEntries w _ _ _ _ _ >>= _) = _
    rw [hrun]
    rfl
  | other hopen htype hlen hfile hdir =>
    intro _
    refine ⟨1, fun fuel hfuel s => ?_⟩
    obtain ⟨fuel, rfl⟩ := Nat.exists_eq_add_of_le' hfuel
    simp only [find, hopen, htype, if_neg hfile, if_neg hdir]
    exact congrArg Except.ok s.printed_nil.symm
  | nil =>
    intro _ _
    exact ⟨0, fun fuel _ rest s _ => congrArg Except.ok s.printed_nil.symm⟩
  | skip hskip _ ih =>
    intro hpath hlen
    obtain ⟨enough, hall⟩ := ih hpath hlen
    refine ⟨enough, fun fuel hfuel rest s hrest => ?_⟩
    rw [readEntries, if_pos hskip]
    exact hall fuel hfuel rest s hrest
  | @entry path de des files files' hskip hchild _ ih ih' =>
    intro hpath hlen
    have hcut : 0 ∉ path ++ slash :: cut de.name := by
      intro hmem
      rcases mem_append.mp hmem with hmem | hmem
      · exact hpath hmem
      · rcases mem_cons.mp hmem with hmem | hmem
        · cases hmem
        · simpa using mem_takeWhile_imp (mem_of_mem_take hmem)
    obtain ⟨enough, hall⟩ := ih hcut
    obtain ⟨enough', hall'⟩ := ih' hpath hlen
    refine ⟨max enough enough', fun fuel hfuel rest s hrest => ?_⟩
    have hroom : DIRSIZ + 1 ≤ rest.length := by
      rw [MAXPATH] at hlen
      rw [DIRSIZ]
      omega
    obtain ⟨type, hstat⟩ := hchild.stat
    have hfind := hall fuel (le_of_max_le_left hfuel) s
    have hrun := hall' fuel (le_of_max_le_right hfuel) (de.name ++ 0 :: rest.drop (DIRSIZ + 1))
      (s.printed (found target files)) (by
        rw [length_append, de.length, length_cons, length_drop]; omega)
    rw [readEntries, if_neg (by simp [hskip]), ← bind_assoc, put_name de hroom]
    change (match Find.stat w (cstr (path ++ slash :: (de.name ++ 0 :: _))) with
      | none => _
      | some _ => _) = _
    rw [cstr_entry hpath, hstat]
    change (find w target fuel _ s >>= _) = _
    rw [hfind]
    change readEntries w _ _ _ _ _ = _
    rw [hrun, State.printed_append, found_append]

/-- The files of that name are printed once each, in the order of the directories, and
nothing else; no write leaves the buffer, the search ends, and the descriptors are as
before. -/
theorem find_tree {w : World} {path : Path} {files : List Path} (h : Tree w (.at path) files)
    (hpath : 0 ∉ path) (target : Path) : ∃ enough, ∀ fuel ≥ enough, ∀ s,
      find w target fuel path s = .ok { s with out := s.out ++ found target files } :=
  h.prints hpath

/-- The directory `.` has an unused entry, itself and a file with a name of `DIRSIZ`
characters. -/
def dotWorld : World where
  opens path := if path = dot then some 1 else some 2
  fstat ino := some (if ino = 1 then T_DIR else T_FILE)
  entries _ := [⟨0, replicate DIRSIZ 98, rfl⟩, ⟨1, 46 :: replicate 13 0, rfl⟩,
    ⟨2, replicate DIRSIZ 97, rfl⟩]
  junk _ := 7

theorem find_tree_dot : ∃ enough, ∀ fuel ≥ enough, ∀ s,
    find dotWorld (replicate DIRSIZ 97) fuel dot s =
      .ok { s with out := s.out ++ [⟨1, "%s\n", 46 :: 47 :: replicate DIRSIZ 97⟩] } := by
  have hfile : Tree dotWorld (.at (dot ++ slash :: replicate DIRSIZ 97)) _ :=
    .file rfl rfl (by decide)
  have htree : Tree dotWorld (.at dot) ([_] ++ []) := .dir rfl rfl (by decide)
    (.skip (by decide) (.skip (by decide) (.entry (by decide) hfile .nil)))
  exact find_tree htree (by decide) (replicate DIRSIZ 97)

end Xv6.Find
