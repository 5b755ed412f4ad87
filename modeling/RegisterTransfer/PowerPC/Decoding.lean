import RegisterTransfer.Lifting.Error
import RegisterTransfer.PowerPC.Form

/-!
# Decoding

From the form of a mnemonic and the operands of an instruction to an operation. The number of
operands is checked first, then each operand in the order in which the operation names it: its
tree has to resolve, to be of the right kind, and to name a register or lie in the range of its
position.
-/

namespace RegisterTransfer.PowerPC

/-! ## Ranges of immediates -/

/-- The integers from `low` to `high`. -/
structure ImmediateRange where
  low : Int
  high : Int
  deriving DecidableEq, Repr

/-- Whether a range holds an integer. -/
def ImmediateRange.contains (r : ImmediateRange) (v : Int) : Bool := r.low ≤ v && v ≤ r.high

/-- Signed 16-bit immediates. -/
def signed16 : ImmediateRange := ⟨-0x8000, 0x7FFF⟩

/-- Unsigned 16-bit immediates. -/
def unsigned16 : ImmediateRange := ⟨0, 0xFFFF⟩

/-- Immediates for the high half, which may be spelled with or without sign. -/
def high16 : ImmediateRange := ⟨-0x8000, 0xFFFF⟩

/-- Immediates whose negation is a signed 16-bit immediate. -/
def negated16 : ImmediateRange := ⟨-0x7FFF, 0x8000⟩

/-- Shift amounts and bit numbers. -/
def bitNumber : ImmediateRange := ⟨0, 31⟩

/-- Branch targets. -/
def targetRange : ImmediateRange := ⟨0, 0xFFFFFFFF⟩

/-! ## One operand -/

section Operands

variable (widthOf : String → Option Width) (n : NativeInstruction) (index : Nat)

/-- The operand at a position is not what the form asks for. -/
def refuse {α : Type} (defect : OperandDefect) : Except LiftingError α :=
  .error (.invalidOperand n.mnemonic index defect)

/-- The resolved operand at a position. -/
def operandAt : Except LiftingError ResolvedOperand :=
  match n.operands[index]? with
  | none => refuse n index .missing
  | some operand =>
    match operand.resolve widthOf with
    | .ok resolved => .ok resolved
    | .error e => .error e.toLiftingError

/-- A general purpose register. -/
def gprAt : Except LiftingError Gpr := do
  match ← operandAt widthOf n index with
  | .register name width =>
    match gpr? name with
    | none => refuse n index (.notGeneralPurpose name)
    | some r =>
      if width = registerWidth then
        return r
      else
        refuse n index (.wrongWidth name registerWidth width)
  | other => refuse n index (.notRegister other)

/-- A general purpose register in a position where `%r0` stands for zero. -/
def baseAt : Except LiftingError Base := do return .ofGpr (← gprAt widthOf n index)

/-- An immediate inside a range. -/
def immediateAt (range : ImmediateRange) : Except LiftingError Int := do
  match ← operandAt widthOf n index with
  | .literal value _ =>
    if range.contains value then
      return value
    else
      refuse n index (.immediateOutside value range.low range.high)
  | other => refuse n index (.notImmediate other)

/-- A branch target: an absolute native address. -/
def targetAt : Except LiftingError Nat := do
  return (← immediateAt widthOf n index targetRange).toNat

/-- A bit number or shift amount. -/
def bitNumberAt : Except LiftingError Nat := do
  return (← immediateAt widthOf n index bitNumber).toNat

/-- A memory operand with a base register and a 16-bit displacement. -/
def displacedAt (update : Bool) : Except LiftingError Location := do
  match ← operandAt widthOf n index with
  | .memory (some base) none displacement _ =>
    if signed16.contains displacement then
      match gpr? base with
      | none => refuse n index (.notGeneralPurpose base)
      | some r => return .displaced (.ofGpr r) displacement update
    else
      refuse n index (.displacementOutside displacement)
  | other => refuse n index (.notDisplacement other)

/-- A register or an immediate, as the form says. -/
def sourceAt (byConstant : Bool) (range : ImmediateRange) : Except LiftingError Source :=
  if byConstant then
    Source.constant <$> immediateAt widthOf n index range
  else
    Source.register <$> gprAt widthOf n index

end Operands

/-! ## Operand counts -/

/-- The number of operands of a form, the optional condition field not counted. -/
def Form.operandCount : Form → Nat
  | .sum _ addend _ _ =>
    match addend with
    | .register | .immediate | .high => 3
    | .minusOne | .zero => 2
  | .loadConstant _ | .move _ _ | .extend _ _ | .compare _ _ => 2
  | .subtractConstant | .multiplyLow _ _ | .multiplyConstant | .multiplyHigh _ _ | .divide _ _ _
  | .logic _ _ | .logicConstant _ _ _ | .shift _ _ | .shiftAlgebraic _ _ => 3
  | .rotate form _ => if form = .full then 5 else 3
  | .load _ _ addressing | .store _ addressing => if addressing = .indexed then 3 else 2
  | .branch _ | .branchIf _ | .branchCounted | .moveTo _ | .moveFrom _ => 1
  | .branchThrough _ _ | .nop => 0

/-- Whether the operands may begin with a condition field. -/
def Form.takesConditionField : Form → Bool
  | .compare _ _ | .branchIf _ => true
  | _ => false

/-- The condition field that the operands begin with. -/
def leadingField? (n : NativeInstruction) : Option ConditionField :=
  match n.operands.head?.map OperandTree.unsized with
  | some (.register name) => conditionField? name
  | _ => none

/-- Checks the number of operands after the first `skipped` ones. -/
def checkCount (n : NativeInstruction) (form : Form) (skipped : Nat) : Except LiftingError Unit :=
  let count := form.operandCount
  if n.operands.length = skipped + count then
    .ok ()
  else
    let expected :=
      if form.takesConditionField then
        Nat.repr count ++ " or " ++ Nat.repr (count + 1)
      else
        Nat.repr count
    .error (.operandCount n.mnemonic expected n.operands.length)

/-! ## Whole instructions -/

section Decode

variable (widthOf : String → Option Width) (n : NativeInstruction)

/-- The second source of a sum. -/
def addendAt (index : Nat) : Addend → Except LiftingError Source
  | .register => Source.register <$> gprAt widthOf n index
  | .immediate => Source.constant <$> immediateAt widthOf n index signed16
  | .high => do return .constant ((← immediateAt widthOf n index high16) * 0x10000)
  | .minusOne => .ok (.constant (-1))
  | .zero => .ok (.constant 0)

/-- The location of a memory access, from the second operand on. -/
def locationAt : Addressing → Except LiftingError Location
  | .displaced => displacedAt widthOf n 1 false
  | .updating => displacedAt widthOf n 1 true
  | .indexed => do return .indexed (← baseAt widthOf n 1) (← gprAt widthOf n 2)

/-- The amount and the selected bits of a rotation. -/
def rotationAt : RotationForm → Except LiftingError (Nat × Nat × Nat)
  | .full => do
    return (← bitNumberAt widthOf n 2, ← bitNumberAt widthOf n 3, ← bitNumberAt widthOf n 4)
  | .shiftLeft => do
    let amount ← bitNumberAt widthOf n 2
    return (amount, 0, 31 - amount)
  | .shiftRight => do
    let amount ← bitNumberAt widthOf n 2
    return ((32 - amount) % 32, amount, 31)
  | .rotateLeft => do return (← bitNumberAt widthOf n 2, 0, 31)

/-- The operation of a form, its operands read at positions from `first` on. -/
def Form.read (field : ConditionField) (first : Nat) : Form → Except LiftingError Operation
  | .sum kind addend swapped zeroBase => do
    let rd ← gprAt widthOf n 0
    let (i, j) := if swapped then (2, 1) else (1, 2)
    let a ← if zeroBase then baseAt widthOf n i else Base.register <$> gprAt widthOf n i
    return .sum kind rd a (← addendAt widthOf n j addend)
  | .loadConstant high => do
    let rd ← gprAt widthOf n 0
    if high then
      return .loadConstant rd ((← immediateAt widthOf n 1 high16) * 0x10000)
    else
      return .loadConstant rd (← immediateAt widthOf n 1 signed16)
  | .subtractConstant => do
    let rd ← gprAt widthOf n 0
    let a ← baseAt widthOf n 1
    return .sum {} rd a (.constant (-(← immediateAt widthOf n 2 negated16)))
  | .multiplyLow overflow record => do
    return .multiplyLow (← gprAt widthOf n 0) (← gprAt widthOf n 1) (← gprAt widthOf n 2)
      overflow record
  | .multiplyConstant => do
    return .multiplyConstant (← gprAt widthOf n 0) (← gprAt widthOf n 1)
      (← immediateAt widthOf n 2 signed16)
  | .multiplyHigh signed record => do
    return .multiplyHigh signed (← gprAt widthOf n 0) (← gprAt widthOf n 1)
      (← gprAt widthOf n 2) record
  | .divide signed overflow record => do
    return .divide signed (← gprAt widthOf n 0) (← gprAt widthOf n 1) (← gprAt widthOf n 2)
      overflow record
  | .logic kind record => do
    return .logic kind (← gprAt widthOf n 0) (← gprAt widthOf n 1) (← gprAt widthOf n 2) record
  | .logicConstant opcode high record => do
    let ra ← gprAt widthOf n 0
    let rs ← gprAt widthOf n 1
    let value := (← immediateAt widthOf n 2 unsigned16).toNat
    return .logicConstant opcode ra rs (if high then value <<< 16 else value) record
  | .move complement record => do
    return .move complement (← gprAt widthOf n 0) (← gprAt widthOf n 1) record
  | .extend width record => do
    return .extend width (← gprAt widthOf n 0) (← gprAt widthOf n 1) record
  | .shift left record => do
    return .shift left (← gprAt widthOf n 0) (← gprAt widthOf n 1) (← gprAt widthOf n 2) record
  | .shiftAlgebraic byConstant record => do
    return .shiftAlgebraic (← gprAt widthOf n 0) (← gprAt widthOf n 1)
      (← sourceAt widthOf n 2 byConstant bitNumber) record
  | .rotate form record => do
    let ra ← gprAt widthOf n 0
    let rs ← gprAt widthOf n 1
    let (amount, low, high) ← rotationAt widthOf n form
    return .rotate ra rs amount low high record
  | .compare signed byConstant => do
    return .compare signed field (← gprAt widthOf n first)
      (← sourceAt widthOf n (first + 1) byConstant (if signed then signed16 else unsigned16))
  | .load width signed addressing => do
    return .load width signed (← gprAt widthOf n 0) (← locationAt widthOf n addressing)
  | .store width addressing => do
    return .store width (← gprAt widthOf n 0) (← locationAt widthOf n addressing)
  | .branch link => do return .branch link (← targetAt widthOf n 0)
  | .branchThrough register link => .ok (.branchThrough register link)
  | .branchIf condition => do return .branchIf condition field (← targetAt widthOf n first)
  | .branchCounted => do return .branchCounted (← targetAt widthOf n 0)
  | .moveTo register => do return .moveTo register (← gprAt widthOf n 0)
  | .moveFrom register => do return .moveFrom register (← gprAt widthOf n 0)
  | .nop => .ok .nop

/-- The operation of an instruction whose mnemonic has the given form. -/
def Form.decode (form : Form) : Except LiftingError Operation := do
  let field := if form.takesConditionField then leadingField? n else none
  let first := if field.isSome then 1 else 0
  checkCount n form first
  form.read widthOf n (field.getD defaultField) first

end Decode

end RegisterTransfer.PowerPC
