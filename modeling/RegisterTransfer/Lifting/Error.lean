import RegisterTransfer.Native.Resolution

/-!
# Lifting errors

Why a native instruction cannot be lifted. Each error is a cause; `LiftingError.message` gives the
wording.
-/

namespace RegisterTransfer

/-- How an operand fails to fit its position in a native instruction. -/
inductive OperandDefect where
  | missing
  | notGeneralPurpose (name : String)
  | wrongWidth (name : String) (expected found : Width)
  | notRegister (found : ResolvedOperand)
  | immediateOutside (value low high : Int)
  | notImmediate (found : ResolvedOperand)
  | displacementOutside (value : Int)
  | notDisplacement (found : ResolvedOperand)
  | updateWithoutBase
  | updateOfTarget
  /-- A defect put into words by a translator. -/
  | described (text : String)
  deriving DecidableEq, Repr

/-- The wording of an operand defect. -/
def OperandDefect.text : OperandDefect → String
  | missing => "missing"
  | notGeneralPurpose name => name ++ " is not a general purpose register"
  | wrongWidth name expected found =>
    "expected a " ++ expected.name ++ " register, " ++ name ++ " is " ++ found.name
  | notRegister found => "expected a register, found " ++ found.describe
  | immediateOutside value low high =>
    "immediate " ++ Int.repr value ++ " outside " ++ Int.repr low ++ "..=" ++ Int.repr high
  | notImmediate found => "expected an immediate, found " ++ found.describe
  | displacementOutside value => "displacement " ++ Int.repr value ++ " outside 16 bits"
  | notDisplacement found => "expected d(rA), found " ++ found.describe
  | updateWithoutBase => "update form needs a base register other than %r0"
  | updateOfTarget => "update load with rA equal to rD"
  | described text => text

/-- Why a native instruction cannot be lifted. -/
inductive LiftingError where
  | unsupportedMnemonic (mnemonic : String)
  | operandCount (mnemonic expected : String) (found : Nat)
  | invalidOperand (mnemonic : String) (index : Nat) (defect : OperandDefect)
  | unknownRegister (name : String)
  | malformedOperand (reason : Malformation)
  /-- A jump to a label that was never bound, in the expansion so named. -/
  | unboundLabel (expansion : String)
  deriving DecidableEq, Repr

/-- The wording of a lifting error. -/
def LiftingError.message : LiftingError → String
  | unsupportedMnemonic mnemonic => "Unsupported mnemonic: " ++ mnemonic
  | operandCount mnemonic expected found =>
    mnemonic ++ ": expected " ++ expected ++ " operands, found " ++ Nat.repr found
  | invalidOperand mnemonic index defect =>
    mnemonic ++ ": operand " ++ Nat.repr index ++ " is invalid: " ++ defect.text
  | unknownRegister name =>
    "Register " ++ name ++ " has no size prefix and is unknown to the register catalog"
  | malformedOperand reason => "Malformed operand tree: " ++ reason.text
  | unboundLabel expansion => expansion ++ ": jump to a label that was never bound"

/-- An operand that cannot be resolved cannot be lifted. -/
def ResolutionError.toLiftingError : ResolutionError → LiftingError
  | unknownRegister name => .unknownRegister name
  | malformed reason => .malformedOperand reason

end RegisterTransfer
