/-
  Kernel/Client.lean --- the clients of `bio.c` and `log.c`: what the file system
  does with blocks, and what it must and must not do.

  A client names the buffers it holds by their block numbers; `compile` turns its
  program into requests of the kernel and keeps, as the C code does in its `bp`
  variables, which buffer that is.
-/
import Xv6.Kernel.Machine

set_option autoImplicit false

namespace Xv6

open Foundation

/-- The requests of a client. -/
inductive FsOp (E : Signature) where
  | bread (b : Nat)
  /-- change the data of a buffer in place -/
  | modify (b : Nat) (d : Block)
  | logWrite (b : Nat)
  | brelse (b : Nat)
  | beginOp
  | endOp
  | panic (msg : String)
  | ext (o : E.Op)

abbrev FsSig (E : Signature) : Signature where
  Op := FsOp E
  Resp
    | .bread _ => Block
    | .panic _ => Empty
    | .ext o => E.Resp o
    | .modify _ _ | .logWrite _ | .brelse _ | .beginOp | .endOp => Unit

/-- A client's program. -/
abbrev FsProg (E : Signature) (α : Type) : Type := Prog (FsSig E) α

variable {E : Signature} {α β : Type}

/-- Which buffer carries which of the blocks a client holds. -/
abbrev Env : Type := List (Nat × BufId)

/-- What a client does with a block it does not hold. -/
def noBuffer {β : Type} : KProg E β := .op (.panic "no such buffer") Empty.elim

/-- One request of a client, as a program of the kernel. -/
def handle (env : Env) : (o : FsOp E) → KProg E ((FsSig E).Resp o × Env)
  | .bread b =>
      Xv6.bread ROOTDEV b >>= fun i =>
      .op (.getData i) fun (d : Block) => .pure (d, (b, i) :: env)
  | .modify b d =>
      match env.lookup b with
      | some i => .op (.setData i d) fun _ => .pure ((), env)
      | none => noBuffer
  | .logWrite b =>
      match env.lookup b with
      | some i => .op (.logWrite i) fun _ => .pure ((), env)
      | none => noBuffer
  | .brelse b =>
      match env.lookup b with
      | some i => Xv6.brelse i >>= fun _ => .pure ((), env.filter fun e => decide (e.1 ≠ b))
      | none => noBuffer
  | .beginOp => .op .beginOp fun _ => .pure ((), env)
  | .endOp => Xv6.endOp >>= fun _ => .pure ((), env)
  | .panic msg => .op (.panic msg) fun (e : Empty) => e.elim
  | .ext o => .op (.ext o) fun r => .pure (r, env)

/-- A client's program, as a program of the kernel. -/
def compile : FsProg E α → Env → KProg E α
  | .pure a, _ => .pure a
  | .op o k, env => handle env o >>= fun r => compile (k r.1) r.2

/-! ## Discipline -/

/-- A block a client holds, its data, and whether that was changed and not
log_written since. -/
structure Held where
  b : Nat
  data : Block
  dirty : Bool

/-- What a client has. -/
structure Client where
  inOp : Bool
  held : List Held

/-- The rules: a client changes and log_writes blocks it holds, in an operation and
not in the log itself; it does not let go of a block, nor end the operation, with a
change it did not log_write; operations do not nest. -/
def Allowed (InLog : Nat → Prop) (c : Client) : FsOp E → Prop
  | .bread b => b < 2 ^ 32
  | .modify b _ => c.inOp = true ∧ ¬ InLog b ∧ ∃ h ∈ c.held, h.b = b
  | .logWrite b => c.inOp = true ∧ ¬ InLog b ∧ ∃ h ∈ c.held, h.b = b
  | .brelse b => (∃ h ∈ c.held, h.b = b) ∧ ∀ h ∈ c.held, h.b = b → h.dirty = false
  | .beginOp => c.inOp = false
  | .endOp => c.inOp = true ∧ ∀ h ∈ c.held, h.dirty = false
  | .panic _ => True
  | .ext _ => True

/-- What a client has after a request. -/
def Client.after (c : Client) : (o : FsOp E) → (FsSig E).Resp o → Client
  | .bread b, d => { c with held := ⟨b, d, false⟩ :: c.held }
  | .modify b d, _ =>
      { c with held := c.held.map fun h => if h.b = b then ⟨h.b, d, true⟩ else h }
  | .logWrite b, _ =>
      { c with held := c.held.map fun h => if h.b = b then ⟨h.b, h.data, false⟩ else h }
  | .brelse b, _ => { c with held := c.held.filter fun h => decide (h.b ≠ b) }
  | .beginOp, _ => { c with inOp := true }
  | .endOp, _ => { c with inOp := false }
  | .panic _, _ => c
  | .ext _, _ => c

/-- The replies a client has to reckon with: `R` is what is known of those of the
layer above. -/
def Possible (R : (o : E.Op) → E.Resp o → Prop) : (o : FsOp E) → (FsSig E).Resp o → Prop
  | .ext o, r => R o r
  | .bread _, _ | .modify _ _, _ | .logWrite _, _ | .brelse _, _ | .beginOp, _ | .endOp, _
  | .panic _, _ => True

/-- The program keeps the rules, and if it returns, `Q` holds of what it then has. -/
def Disciplined (InLog : Nat → Prop) (R : (o : E.Op) → E.Resp o → Prop) :
    FsProg E α → (α → Client → Prop) → Client → Prop
  | .pure a, Q, c => Q a c
  | .op o k, Q, c => Allowed InLog c o ∧
      ∀ r, Possible R o r → Disciplined InLog R (k r) Q (c.after o r)

end Xv6
