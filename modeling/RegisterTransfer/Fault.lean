import RegisterTransfer.Instruction

/-!
# Faults

The ways in which running a program can fail. A fault names the instruction at which it arose and
its cause; `Fault.message` gives the wording.
-/

namespace RegisterTransfer

/-- How the operand widths of an instruction fail to fit together. -/
inductive WidthClash where
  | narrowDestination (opcode : Opcode) (destination source : Width)
  | unequalSources (opcode : Opcode) (first second : Width)
  /-- A clash put into words by an observer of the run. -/
  | described (text : String)
  deriving DecidableEq, Repr

/-- The wording of a width clash. -/
def WidthClash.text : WidthClash → String
  | narrowDestination opcode destination source =>
    opcode.mnemonic ++ " destination " ++ destination.name ++ " is narrower than source " ++
      source.name
  | unequalSources opcode first second =>
    opcode.mnemonic ++ " sources have different sizes (" ++ first.name ++ " and " ++
      second.name ++ ")"
  | described text => text

/-- How an operand is of the wrong kind for its slot. -/
inductive OperandMisuse where
  | noSource
  | addressAsValue (target : Address)
  | noTarget
  | noDestination (opcode : Opcode)
  /-- A misuse put into words by an observer of the run. -/
  | described (text : String)
  deriving DecidableEq, Repr

/-- The wording of an operand misuse. -/
def OperandMisuse.text : OperandMisuse → String
  | noSource => "missing source operand"
  | addressAsValue target => "sub-address " ++ target.text ++ " used as a value"
  | noTarget => "jump without target"
  | noDestination opcode => opcode.mnemonic ++ " needs a register destination"
  | described text => text

/--
Why a run fails. `Place` is how instructions are named: by an `Address` during a run, or in words
in a report.
-/
inductive Fault (Place : Type) where
  | unmappedTarget (place target : Place)
  | undefinedRead (register : String) (place : Place)
  | widthClash (place : Place) (clash : WidthClash)
  | unsupportedOpcode (opcode : String) (place : Place)
  | invalidOperand (place : Place) (misuse : OperandMisuse)
  | divisionByZero (place : Place)
  | stepLimitExceeded (limit : Nat)
  deriving DecidableEq, Repr

/-- The wording of a fault. -/
def Fault.message {Place : Type} [ToString Place] : Fault Place → String
  | unmappedTarget place target =>
    "Jump at " ++ toString place ++ " targets unmapped address " ++ toString target
  | undefinedRead register place =>
    "Read of undefined register " ++ register ++ " at " ++ toString place
  | widthClash place clash => "Width mismatch at " ++ toString place ++ ": " ++ clash.text
  | unsupportedOpcode opcode place =>
    "Unsupported opcode " ++ opcode ++ " at " ++ toString place
  | invalidOperand place misuse => "Invalid operand at " ++ toString place ++ ": " ++ misuse.text
  | divisionByZero place => "Division by zero at " ++ toString place
  | stepLimitExceeded limit => "Step limit of " ++ Nat.repr limit ++ " instructions exceeded"

end RegisterTransfer
