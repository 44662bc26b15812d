/-
  Shell/Parse.lean --- the parser of `sh.c`.

  A pointer into the line is what is left of the line from there on, up to `es`.  A
  line has no NUL before its end, so `*s` is 0 exactly at `es`.

  A word is two pointers, to its first character and past its last.  `nulterminate`
  writes a NUL past the end of each, and only then do they make strings.

  Storing past the end of `argv` is an outcome of its own, and so is a run that does
  not come to an end.  `malloc` succeeds.
-/
import Mathlib.Data.UInt
import Xv6.Foundation.Total

set_option autoImplicit false

namespace Xv6.Shell

open Foundation

def MAXARGS : Nat := 10

/-- A character of a string before its NUL. -/
abbrev CChar : Type := { c : UInt8 // c ≠ 0 }

/-- The code of a character. -/
def chr (c : Char) : UInt8 := c.toUInt8

/-- `" \t\r\n\v"` -/
def whitespace : List UInt8 := [32, 9, 13, 10, 11]

/-- `"<|>&;()"` -/
def symbols : List UInt8 := [chr '<', chr '|', chr '>', chr '&', chr ';', chr '(', chr ')']

/-! ## Commands -/

/-- The `struct cmd`s, with the words they point at. -/
inductive Cmd (W : Type) where
  | exec (argv : List W)
  | redir (cmd : Cmd W) (file : W) (mode fd : Nat)
  | pipe (left right : Cmd W)
  | list (left right : Cmd W)
  | back (cmd : Cmd W)
  deriving DecidableEq

/-- `q` and `eq`: a word from `q` to `eq`. -/
structure Slice where
  q : List CChar
  eq : List CChar
  deriving DecidableEq

/-- `cmd->argv[argc] = q` for the `cmd` at the bottom of `ret`. -/
def Cmd.push {W : Type} (w : W) : Cmd W → Cmd W
  | .exec argv => .exec (argv ++ [w])
  | .redir cmd file mode fd => .redir (cmd.push w) file mode fd
  | .pipe left right => .pipe left right
  | .list left right => .list left right
  | .back cmd => .back cmd

/-- Why parsing stops. -/
inductive Stop where
  | panic (msg : String)
  /-- a store at `argv[MAXARGS]` or beyond -/
  | overrun
  | outOfFuel
  deriving DecidableEq

/-- Code that moves `*ps`. -/
abbrev Parser (α : Type) : Type := StateT (List CChar) (Except Stop) α

/-! ## Tokens -/

/-- `*s` -/
def deref : List CChar → UInt8
  | [] => 0
  | c :: _ => c.val

/-- `strchr(whitespace, *s)` -/
def isSpace (c : CChar) : Bool := whitespace.contains c.val

/-- Neither whitespace nor a symbol. -/
def inWord (c : CChar) : Bool := !whitespace.contains c.val && !symbols.contains c.val

/-- `while(s < es && strchr(whitespace, *s)) s++` -/
def skip (s : List CChar) : List CChar := s.dropWhile isSpace

/-- The `switch` of `gettoken`: what it returns, and `eq`. -/
def scan : List CChar → UInt8 × List CChar
  | [] => (0, [])
  | c :: s =>
    if c.val = chr '|' ∨ c.val = chr '(' ∨ c.val = chr ')' ∨ c.val = chr ';' ∨ c.val = chr '&' ∨
        c.val = chr '<' then (c.val, s)
    else if c.val = chr '>' then
      if deref s = chr '>' then (chr '+', s.tail) else (c.val, s)
    else (chr 'a', (c :: s).dropWhile inWord)

def gettoken : Parser (UInt8 × Slice) := fun s =>
  let q := skip s
  let (ret, eq) := scan q
  .ok ((ret, ⟨q, eq⟩), skip eq)

def peek (toks : List UInt8) : Parser Bool := fun s =>
  .ok (deref (skip s) != 0 && toks.contains (deref (skip s)), skip s)

/-! ## Parsing -/

def O_RDONLY : Nat := 0x000
def O_WRONLY : Nat := 0x001
def O_CREATE : Nat := 0x200
def O_TRUNC : Nat := 0x400

def parseredirs : Nat → Cmd Slice → Parser (Cmd Slice)
  | 0, _ => throw .outOfFuel
  | fuel + 1, cmd => do
    if ← peek [chr '<', chr '>'] then
      let (tok, _) ← gettoken
      let (ret, file) ← gettoken
      if ret ≠ chr 'a' then throw (.panic "missing file for redirection")
      else if tok = chr '<' then parseredirs fuel (.redir cmd file O_RDONLY 0)
      else if tok = chr '>' then
        parseredirs fuel (.redir cmd file (O_WRONLY ||| O_CREATE ||| O_TRUNC) 1)
      else if tok = chr '+' then
        parseredirs fuel (.redir cmd file (O_WRONLY ||| O_CREATE) 1)
      else parseredirs fuel cmd
    else return cmd

/-- `cmd->argv[argc] = 0` at the end of `parseexec`. -/
def finish (argc : Nat) (ret : Cmd Slice) : Parser (Cmd Slice) :=
  if argc < MAXARGS then return ret else throw .overrun

/-- The loop of `parseexec`. -/
def parseargs : Nat → Nat → Cmd Slice → Parser (Cmd Slice)
  | 0, _, _ => throw .outOfFuel
  | fuel + 1, argc, ret => do
    if ← peek [chr '|', chr ')', chr '&', chr ';'] then finish argc ret
    else
      let (tok, word) ← gettoken
      if tok = 0 then finish argc ret
      else if tok ≠ chr 'a' then throw (.panic "syntax")
      else if MAXARGS ≤ argc then throw .overrun
      else if MAXARGS ≤ argc + 1 then throw (.panic "too many args")
      else
        let ret ← parseredirs fuel (ret.push word)
        parseargs fuel (argc + 1) ret

/-- The loop of `parseline`. -/
def parsebacks : Nat → Cmd Slice → Parser (Cmd Slice)
  | 0, _ => throw .outOfFuel
  | fuel + 1, cmd => do
    if ← peek [chr '&'] then
      let _ ← gettoken
      parsebacks fuel (.back cmd)
    else return cmd

mutual

def parseline : Nat → Parser (Cmd Slice)
  | 0 => throw .outOfFuel
  | fuel + 1 => do
    let cmd ← parsepipe fuel
    let cmd ← parsebacks fuel cmd
    if ← peek [chr ';'] then
      let _ ← gettoken
      let right ← parseline fuel
      return .list cmd right
    else return cmd

def parsepipe : Nat → Parser (Cmd Slice)
  | 0 => throw .outOfFuel
  | fuel + 1 => do
    let cmd ← parseexec fuel
    if ← peek [chr '|'] then
      let _ ← gettoken
      let right ← parsepipe fuel
      return .pipe cmd right
    else return cmd

def parseexec : Nat → Parser (Cmd Slice)
  | 0 => throw .outOfFuel
  | fuel + 1 => do
    if ← peek [chr '('] then parseblock fuel
    else
      let ret ← parseredirs fuel (.exec [])
      parseargs fuel 0 ret

def parseblock : Nat → Parser (Cmd Slice)
  | 0 => throw .outOfFuel
  | fuel + 1 => do
    if ← peek [chr '('] then
      let _ ← gettoken
      let cmd ← parseline fuel
      if ← peek [chr ')'] then
        let _ ← gettoken
        parseredirs fuel cmd
      else throw (.panic "syntax - missing )")
    else throw (.panic "parseblock")

end

/-! ## Strings -/

/-- `*w->eq = 0` in a line of `len` characters. -/
def terminate (len : Nat) (buf : List UInt8) (w : Slice) : List UInt8 :=
  buf.set (len - w.eq.length) 0

def nulterminate (len : Nat) : Cmd Slice → List UInt8 → List UInt8
  | .exec argv, buf => argv.foldl (terminate len) buf
  | .redir cmd file _ _, buf => terminate len (nulterminate len cmd buf) file
  | .pipe left right, buf => nulterminate len right (nulterminate len left buf)
  | .list left right, buf => nulterminate len right (nulterminate len left buf)
  | .back cmd, buf => nulterminate len cmd buf

/-- The line with its NUL. -/
def buffer (s : List CChar) : List UInt8 := s.map Subtype.val ++ [0]

/-- `parsecmd`: the command, and the line after `nulterminate`. -/
def parsecmd (fuel : Nat) (s : List CChar) : Except Stop (Cmd Slice × List UInt8) := do
  let (cmd, s') ← (parseline fuel).run s
  let (_, s') ← (peek []).run s'
  if s' ≠ [] then throw (.panic "syntax")
  else return (cmd, nulterminate s.length cmd (buffer s))

/-- The string `q` points at, in a line of `len` characters. -/
def stringAt (len : Nat) (buf : List UInt8) (w : Slice) : List UInt8 :=
  (buf.drop (len - w.q.length)).takeWhile (· ≠ 0)

def Cmd.map {V W : Type} (f : V → W) : Cmd V → Cmd W
  | .exec argv => .exec (argv.map f)
  | .redir cmd file mode fd => .redir (cmd.map f) (f file) mode fd
  | .pipe left right => .pipe (left.map f) (right.map f)
  | .list left right => .list (left.map f) (right.map f)
  | .back cmd => .back (cmd.map f)

/-- The command with the strings its pointers point at. -/
def Cmd.strings (len : Nat) (buf : List UInt8) (cmd : Cmd Slice) : Cmd (List UInt8) :=
  cmd.map (stringAt len buf)

end Xv6.Shell
