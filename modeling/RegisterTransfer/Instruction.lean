import RegisterTransfer.Address
import RegisterTransfer.Width

/-!
# Instructions of the intermediate representation

A small three-address instruction set. The first two operands are sources, the third is the
destination, the jump target or the store address. Each operand carries its own width, so nothing
is ever inferred from context.
-/

namespace RegisterTransfer

/-! ## Operands -/

/-- What an operand names. -/
inductive OperandKind where
  | absent
  | register (name : String)
  | integer (value : Nat)
  | address (target : Address)
  deriving DecidableEq, Repr, Inhabited

/-- An operand with its width. -/
structure Operand where
  kind : OperandKind
  width : Width
  deriving DecidableEq, Repr, Inhabited

namespace Operand

/-- The operand of an unused slot. -/
def absent : Operand := ⟨.absent, .byte⟩

/-- A register, read or written at the given width. -/
def register (name : String) (width : Width) : Operand := ⟨.register name, width⟩

/-- An integer literal, reduced to its width. -/
def integer (value : Nat) (width : Width) : Operand := ⟨.integer (width.truncate value), width⟩

/-- An integer literal in two's complement. -/
def signed (value : Int) (width : Width) : Operand := ⟨.integer (width.ofInt value), width⟩

/-- The address of another instruction, as a jump target. -/
def address (target : Address) : Operand := ⟨.address target, .qword⟩

/-- Whether the slot is unused. -/
def isAbsent (o : Operand) : Bool := o.kind == .absent

/-- The register an operand names. -/
def register? (o : Operand) : Option String :=
  match o.kind with
  | .register name => some name
  | _ => none

/-- The literal an operand holds. -/
def integer? (o : Operand) : Option Nat :=
  match o.kind with
  | .integer value => some value
  | _ => none

/-- The width and what the operand names; nothing for an unused slot. -/
def text (o : Operand) : String :=
  match o.kind with
  | .absent => ""
  | .register name => o.width.name ++ " " ++ name
  | .integer value => o.width.name ++ " " ++ Nat.repr value
  | .address target => o.width.name ++ " " ++ target.text

instance : ToString Operand := ⟨text⟩

end Operand

/-! ## Opcodes -/

/-- The operation of an instruction. -/
inductive Opcode where
  | add
  | sub
  | mul
  | div
  | mod
  /-- Shifts the first operand by the signed second one: left if positive, right if negative. -/
  | bsh
  | and
  | or
  | xor
  /-- One if the first operand is zero, else zero. -/
  | bisz
  /-- Jumps to the third operand if the first is not zero. -/
  | jcc
  /-- Loads from the address in the first operand. -/
  | ldm
  /-- Stores the first operand at the address in the third. -/
  | stm
  | str
  | nop
  /-- Makes the register in the third operand undefined. -/
  | undef
  /-- Stands for a native instruction without known meaning. -/
  | unkn
  | halt
  deriving DecidableEq, Repr, Inhabited

namespace Opcode

/-- The name used in listings. -/
def mnemonic : Opcode → String
  | add => "add"
  | sub => "sub"
  | mul => "mul"
  | div => "div"
  | mod => "mod"
  | bsh => "bsh"
  | and => "and"
  | or => "or"
  | xor => "xor"
  | bisz => "bisz"
  | jcc => "jcc"
  | ldm => "ldm"
  | stm => "stm"
  | str => "str"
  | nop => "nop"
  | undef => "undef"
  | unkn => "unkn"
  | halt => "halt"

instance : ToString Opcode := ⟨mnemonic⟩

/-- Every opcode. -/
def all : List Opcode :=
  [add, sub, mul, div, mod, bsh, and, or, xor, bisz, jcc, ldm, stm, str, nop, undef, unkn, halt]

/-- Whether the third operand is a register that the instruction gives a value. -/
def writesRegister : Opcode → Bool
  | add | sub | mul | div | mod | bsh | and | or | xor | bisz | ldm | str => true
  | jcc | stm | nop | undef | unkn | halt => false

/-- Whether the instruction may transfer control. -/
def isJump : Opcode → Bool
  | jcc => true
  | _ => false

end Opcode

/-! ## Instructions -/

/-- One instruction at its address. -/
structure Instruction where
  address : Address
  opcode : Opcode
  op1 : Operand
  op2 : Operand
  op3 : Operand
  comment : Option String := none
  deriving DecidableEq, Repr, Inhabited

namespace Instruction

/-- The same instruction with a comment in its listing. -/
def withComment (i : Instruction) (text : String) : Instruction := { i with comment := some text }

/-- The width of the third operand. -/
def width (i : Instruction) : Width := i.op3.width

/-- Address, opcode and all three operand slots, then the comment. -/
def text (i : Instruction) : String :=
  let body := i.address.text ++ ": " ++ i.opcode.mnemonic ++
    " [" ++ i.op1.text ++ ", " ++ i.op2.text ++ ", " ++ i.op3.text ++ "]"
  match i.comment with
  | some comment => body ++ " ; " ++ comment
  | none => body

instance : ToString Instruction := ⟨text⟩

end Instruction

end RegisterTransfer
