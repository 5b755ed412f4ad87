import RegisterTransfer.Catalog
import RegisterTransfer.Instruction
import RegisterTransfer.Lifting.Error
import RegisterTransfer.Temporary

/-!
# Expansions

The expansion of one native instruction while it is being written. Instructions are drafts without
addresses; jumps inside the expansion go to labels, which may be bound before or after they are used.
`Expansion.finish` lays the drafts out at consecutive offsets and turns labels into addresses. It
fails exactly if a label that is jumped to was never bound, and then nothing comes out.
-/

namespace RegisterTransfer

/-- What the liftings that feed one program share. -/
structure Environment where
  /-- The processor whose catalog knows the widths of bare registers. -/
  cpu : Option Cpu
  /-- The number of temporaries allocated so far. -/
  temporaries : Nat := 0
  deriving DecidableEq

namespace Environment

/-- The declared width of a register or alias. -/
def widthOf (e : Environment) (name : String) : Option Width :=
  e.cpu.bind (·.catalog.widthOf name)

end Environment

/-- A jump target inside an expansion, by its number. -/
structure Label where
  index : Nat
  deriving DecidableEq, Repr, Inhabited

/-- An instruction whose address, and whose target if it jumps to a label, is still open. -/
inductive Draft where
  | plain (opcode : Opcode) (op1 op2 op3 : Operand)
  | jump (condition : Operand) (label : Label)
  deriving DecidableEq, Repr, Inhabited

/-- The expansion of one native instruction, as far as it is written. -/
structure Expansion where
  environment : Environment
  native : Nat
  /-- The comment of the first instruction. -/
  comment : Option String
  drafts : List Draft := []
  /-- The offset each label was last bound to. -/
  labels : List (Option Nat) := []
  deriving DecidableEq

namespace Expansion

/-- The number of instructions written so far, which is also the next offset. -/
def size (x : Expansion) : Nat := x.drafts.length

/-- Allocates a temporary. -/
def temporary (x : Expansion) (width : Width) : Operand × Expansion :=
  (.register (temporaryName x.environment.temporaries) width,
    { x with environment.temporaries := x.environment.temporaries + 1 })

/-- Writes an instruction. -/
def emit (x : Expansion) (opcode : Opcode) (op1 op2 op3 : Operand) : Expansion :=
  { x with drafts := x.drafts ++ [.plain opcode op1 op2 op3] }

/-- Writes a move. -/
def copy (x : Expansion) (source destination : Operand) : Expansion :=
  x.emit .str source .absent destination

/-- Creates a label that is not bound yet. -/
def newLabel (x : Expansion) : Label × Expansion :=
  (⟨x.labels.length⟩, { x with labels := x.labels ++ [none] })

/-- Binds a label to the next instruction. A label of another expansion is left alone. -/
def bind (x : Expansion) (label : Label) : Expansion :=
  { x with labels := x.labels.set label.index (some x.size) }

/-- Writes a jump to a label, taken if the condition is not zero. -/
def jumpIf (x : Expansion) (condition : Operand) (label : Label) : Expansion :=
  { x with drafts := x.drafts ++ [.jump condition label] }

/-- Writes a jump to a label that is always taken. -/
def jump (x : Expansion) (label : Label) : Expansion := x.jumpIf (.integer 1 .byte) label

/-! ## Layout -/

/-- What an expansion is called in messages: its comment or else its native address. -/
def title (x : Expansion) : String := x.comment.getD (Text.hexadecimal x.native)

/-- The drafts to lay out: if a label is bound to the end, a `nop` for it to point at follows. -/
def completed (x : Expansion) : List Draft :=
  if some x.size ∈ x.labels then x.drafts ++ [.plain .nop .absent .absent .absent] else x.drafts

/-- The instruction of a draft at an offset. -/
def place (x : Expansion) (offset : Nat) : Draft → Except LiftingError Instruction
  | .plain opcode op1 op2 op3 => .ok ⟨⟨x.native, offset⟩, opcode, op1, op2, op3, none⟩
  | .jump condition label =>
    match x.labels[label.index]? with
    | some (some target) =>
      .ok ⟨⟨x.native, offset⟩, .jcc, condition, .absent, .address ⟨x.native, target⟩, none⟩
    | _ => .error (.unboundLabel x.title)

/-- The instructions of a run of drafts from an offset on. -/
def layout (x : Expansion) (offset : Nat) : List Draft → Except LiftingError (List Instruction)
  | [] => .ok []
  | draft :: rest => do
    let i ← x.place offset draft
    return i :: (← x.layout (offset + 1) rest)

/-- Puts the comment, if there is one, on the first instruction. -/
def annotate (x : Expansion) : List Instruction → List Instruction
  | [] => []
  | i :: rest => { i with comment := x.comment } :: rest

/-- The finished expansion. -/
def finish (x : Expansion) : Except LiftingError (List Instruction) := do
  return x.annotate (← x.layout 0 x.completed)

end Expansion

end RegisterTransfer
