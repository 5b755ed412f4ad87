import RegisterTransfer.Text.Number
import RegisterTransfer.Width

/-!
# Native instructions

A decoder hands over each operand of a native instruction as a small tree. `8(%r1)` with a 32-bit
access, for example, arrives as a width of 32 bits around a memory access at the sum of the register
`%r1` and the number 8. Immediates and displacements are 64-bit integers.
-/

namespace RegisterTransfer

/-- The operand of a native instruction, before registers and widths are looked up. -/
inductive OperandTree where
  | register (name : String)
  | immediate (value : Int)
  /-- The memory at an address. -/
  | memory (address : OperandTree)
  /-- A sum inside an address. -/
  | sum (left right : OperandTree)
  /-- Fixes the width of the operand inside. -/
  | sized (width : Width) (operand : OperandTree)
  deriving DecidableEq, Repr, Inhabited

namespace OperandTree

/-- The memory at a displacement from a base register. -/
def displaced (displacement : Int) (base : String) : OperandTree :=
  .memory (.sum (.register base) (.immediate displacement))

/-- The operand as written in assembly. Widths are not shown. -/
def text : OperandTree → String
  | register name => name
  | immediate value => Text.signedHexadecimal value
  | memory (sum base (immediate d)) => Int.repr d ++ "(" ++ base.text ++ ")"
  | memory address => "[" ++ address.text ++ "]"
  | sum left right => left.text ++ " + " ++ right.text
  | sized _ operand => operand.text

/-- The operand inside the outer widths. -/
def unsized : OperandTree → OperandTree
  | sized _ operand => operand.unsized
  | operand => operand

end OperandTree

/-- A native instruction at its address. -/
structure NativeInstruction where
  address : Nat
  mnemonic : String
  operands : List OperandTree
  deriving DecidableEq, Repr, Inhabited

/-- The instruction as written in assembly, without its address. -/
def NativeInstruction.text (n : NativeInstruction) : String :=
  match n.operands with
  | [] => n.mnemonic
  | operands => n.mnemonic ++ " " ++ ", ".intercalate (operands.map OperandTree.text)

end RegisterTransfer
