import RegisterTransfer.Instruction
import RegisterTransfer.PowerPC.Register

/-!
# Operations of the 32-bit PowerPC

A decoded instruction: what it does, with its operands checked and typed. Spellings that differ only
in how they name an operation share one: `sub` is `subf` with its sources swapped, and the shifts
by an immediate are rotations with a mask.
-/

namespace RegisterTransfer.PowerPC

/-- A register in a position where `%r0` stands for the number zero. -/
inductive Base where
  | zero
  | register (r : Gpr)
  deriving DecidableEq, Repr, Inhabited

/-- The base that a register number stands for. -/
def Base.ofGpr (r : Gpr) : Base := if r = 0 then .zero else .register r

/-- A source that is a register or a number. -/
inductive Source where
  | register (r : Gpr)
  | constant (value : Int)
  deriving DecidableEq, Repr, Inhabited

/-- The carry that enters an addition. -/
inductive CarryIn where
  | clear
  | set
  /-- The carry flag. -/
  | flag
  deriving DecidableEq, Repr, Inhabited

/-- How additions and subtractions differ, operands aside. -/
structure SumKind where
  /-- Subtractions add the complement of the first source. -/
  complement : Bool := false
  carryIn : CarryIn := .clear
  writesCarry : Bool := false
  overflow : Bool := false
  record : Bool := false
  deriving DecidableEq, Repr, Inhabited

/-- Bitwise operations of two sources. -/
inductive LogicKind where
  | and
  | or
  | xor
  /-- And with the complement of the second source. -/
  | andc
  /-- Or with the complement of the second source. -/
  | orc
  | nand
  | nor
  /-- The complement of the exclusive or. -/
  | eqv
  deriving DecidableEq, Repr, Inhabited

/-- Where a memory access goes. -/
inductive Location where
  /-- A displacement from a base; if `update` is set, the base is then moved there. -/
  | displaced (base : Base) (displacement : Int) (update : Bool)
  /-- The sum of a base and an index register. -/
  | indexed (base : Base) (index : Gpr)
  deriving DecidableEq, Repr, Inhabited

/-- Tests of a condition field. -/
inductive Condition where
  | equal
  | notEqual
  | less
  | greaterOrEqual
  | greater
  | lessOrEqual
  deriving DecidableEq, Repr, Inhabited

/-- A decoded instruction. Record forms set condition field 0 from the result. -/
inductive Operation where
  | sum (kind : SumKind) (rd : Gpr) (first : Base) (second : Source)
  | loadConstant (rd : Gpr) (value : Int)
  | multiplyLow (rd ra rb : Gpr) (overflow record : Bool)
  | multiplyConstant (rd ra : Gpr) (value : Int)
  | multiplyHigh (signed : Bool) (rd ra rb : Gpr) (record : Bool)
  | divide (signed : Bool) (rd ra rb : Gpr) (overflow record : Bool)
  | logic (kind : LogicKind) (ra rs rb : Gpr) (record : Bool)
  | logicConstant (opcode : Opcode) (ra rs : Gpr) (value : Nat) (record : Bool)
  | move (complement : Bool) (ra rs : Gpr) (record : Bool)
  | extend (width : Width) (ra rs : Gpr) (record : Bool)
  | shift (left : Bool) (ra rs rb : Gpr) (record : Bool)
  /-- Right shift that keeps the sign, by the low six bits of a register or by a number. -/
  | shiftAlgebraic (ra rs : Gpr) (amount : Source) (record : Bool)
  /-- Rotation to the left, then selection of the bits `first` to `last`. -/
  | rotate (ra rs : Gpr) (amount first last : Nat) (record : Bool)
  | compare (signed : Bool) (field : ConditionField) (ra : Gpr) (second : Source)
  | load (width : Width) (signed : Bool) (rd : Gpr) (location : Location)
  | store (width : Width) (rs : Gpr) (location : Location)
  | branch (link : Bool) (target : Nat)
  | branchThrough (register : BranchRegister) (link : Bool)
  | branchIf (condition : Condition) (field : ConditionField) (target : Nat)
  /-- Decrements the count register and branches while it is not zero. -/
  | branchCounted (target : Nat)
  | moveTo (register : BranchRegister) (source : Gpr)
  | moveFrom (register : BranchRegister) (destination : Gpr)
  | nop
  deriving DecidableEq, Repr, Inhabited

end RegisterTransfer.PowerPC
