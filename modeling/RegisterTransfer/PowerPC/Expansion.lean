import RegisterTransfer.Lifting.Computation
import RegisterTransfer.PowerPC.Operation

/-!
# Expansions of operations

The script of each operation. Results are computed in temporaries and moved to their registers at
the end, so a register that is both source and destination is read before it is written. Flags are
set after the result, first overflow and then the condition field.
-/

namespace RegisterTransfer.PowerPC

open Script

/-! ## Operands -/

/-- A general purpose register as an operand. -/
def gprOperand (r : Gpr) : Operand := .register (gprName r) registerWidth

/-- A flag as an operand. -/
def flagOperand (name : String) : Operand := .register name flagWidth

/-- A bit of a condition field as an operand. -/
def conditionOperand (field : ConditionField) (bit : ConditionBit) : Operand :=
  flagOperand (conditionBitName field bit)

/-- A branch register as an operand. -/
def BranchRegister.operand (r : BranchRegister) : Operand := .register r.name registerWidth

/-- A base as an operand. -/
def Base.operand : Base → Operand
  | .zero => .integer 0 registerWidth
  | .register r => gprOperand r

/-- A source as an operand. -/
def Source.operand : Source → Operand
  | .register r => gprOperand r
  | .constant value => .signed value registerWidth

/-- The carry that enters an addition as an operand. -/
def CarryIn.operand? : CarryIn → Option Operand
  | .clear => none
  | .set => some (.integer 1 .byte)
  | .flag => some (flagOperand carryFlag)

/-! ## Flags -/

/-- Sets the overflow flag, which may also set the summary flag. -/
def writeOverflow (overflow : Operand) : Script Unit := do
  copy overflow (flagOperand overflowFlag)
  emit .or (flagOperand summaryFlag) (flagOperand overflowFlag) (flagOperand summaryFlag)

/--
Sets a condition field from the flags "less" and "equal". "Greater" is neither of them, and the
fourth bit is the summary flag.
-/
def setConditionField (field : ConditionField) (less equal : Operand) : Script Unit := do
  let either ← binary .or less equal
  let greater ← flagNot either
  copy less (conditionOperand field .lt)
  copy greater (conditionOperand field .gt)
  copy equal (conditionOperand field .eq)
  copy (flagOperand summaryFlag) (conditionOperand field .so)

/-- Sets condition field 0 from the order of a result and zero. -/
def recordResult (result : Operand) : Script Unit := do
  let less ← signBit result
  let equal ← isZero result
  setConditionField defaultField less equal

/-- Sets condition field 0 when there is no result: only the summary flag is known. -/
def recordUndefined : Script Unit := do
  emit .undef .absent .absent (conditionOperand defaultField .lt)
  emit .undef .absent .absent (conditionOperand defaultField .gt)
  emit .undef .absent .absent (conditionOperand defaultField .eq)
  copy (flagOperand summaryFlag) (conditionOperand defaultField .so)

/-- Runs a script if it is wanted. -/
def onlyIf (wanted : Bool) (s : Script Unit) : Script Unit := if wanted then s else pure ()

/-- Runs a script on an operand if there is one. -/
def withOperand (script : Operand → Script Unit) : Option Operand → Script Unit
  | some o => script o
  | none => pure ()

/-- The complement of an operand if it is wanted, else the operand. -/
def complementIf (wanted : Bool) (o : Operand) : Script Operand :=
  if wanted then complement o else pure o

/-- The other value of a flag if it is wanted, else the flag. -/
def flagNotIf (wanted : Bool) (flag : Operand) : Script Operand :=
  if wanted then flagNot flag else pure flag

/-! ## Sums, products and quotients -/

/-- Adds the sources of a sum and sets the flags it writes. -/
def expandSum (kind : SumKind) (rd : Gpr) (first : Base) (second : Source) : Script Unit := do
  let a ← complementIf kind.complement first.operand
  let sum ← addWithCarry a second.operand kind.carryIn.operand?
    ⟨kind.writesCarry, kind.overflow⟩
  copy sum.result (gprOperand rd)
  withOperand (copy · (flagOperand carryFlag)) sum.carry
  withOperand writeOverflow sum.overflow
  onlyIf kind.record (recordResult (gprOperand rd))

/-- The exact product of two signed numbers. -/
def signedProduct (a b : Operand) : Script Operand := do
  let a ← signExtend a .qword
  let b ← signExtend b .qword
  binary .mul a b

/-- The exact product of two unsigned numbers. -/
def unsignedProduct (a b : Operand) : Script Operand := do
  let product ← temporary .qword
  emit .mul a b product
  return product

/-- The exact product of two numbers. -/
def exactProduct (signed : Bool) (a b : Operand) : Script Operand :=
  if signed then signedProduct a b else unsignedProduct a b

/-- Multiplies into a register and sets the overflow flag: whether the signed product is lost. -/
def multiplyChecked (rd ra rb : Gpr) : Script Unit := do
  let product ← signedProduct (gprOperand ra) (gprOperand rb)
  let low ← temporary registerWidth
  copy product low
  let back ← signExtend low .qword
  let fits ← equal back product
  let lost ← flagNot fits
  copy low (gprOperand rd)
  writeOverflow lost

/-- Multiplies into a register. -/
def multiplyUnchecked (rd ra rb : Gpr) : Script Unit := do
  let low ← binary .mul (gprOperand ra) (gprOperand rb)
  copy low (gprOperand rd)

/-- Multiplies into a register, with or without the overflow flag. -/
def multiplyInto (overflow : Bool) (rd ra rb : Gpr) : Script Unit :=
  if overflow then multiplyChecked rd ra rb else multiplyUnchecked rd ra rb

/-- The low half of a product; it overflows if the exact signed product does not fit. -/
def expandMultiplyLow (rd ra rb : Gpr) (overflow record : Bool) : Script Unit := do
  multiplyInto overflow rd ra rb
  onlyIf record (recordResult (gprOperand rd))

/-- The high half of a product. -/
def expandMultiplyHigh (signed : Bool) (rd ra rb : Gpr) (record : Bool) : Script Unit := do
  let product ← exactProduct signed (gprOperand ra) (gprOperand rb)
  emit .bsh product (.signed (-32) .qword) (gprOperand rd)
  onlyIf record (recordResult (gprOperand rd))

/-- Whether a division has no quotient: by zero, or of the least signed number by minus one. -/
def divisionInvalid (signed : Bool) (a b : Operand) : Script Operand := do
  let byZero ← isZero b
  if signed then
    let least ← equal a (.integer registerWidth.signBit registerWidth)
    let minusOne ← equal b (.integer registerWidth.mask registerWidth)
    let both ← binary .and least minusOne
    binary .or byZero both
  else
    return byZero

/-- A quotient, rounded toward zero. -/
def quotient (signed : Bool) (a b : Operand) : Script Operand := do
  if signed then
    let (a, aNegative) ← magnitude a
    let (b, bNegative) ← magnitude b
    let q ← binary .div a b
    let negative ← binary .xor aNegative bNegative
    negateIf q negative
  else
    binary .div a b

/-- A division. Without a quotient the destination becomes undefined and the overflow flag set. -/
def expandDivide (signed : Bool) (rd ra rb : Gpr) (overflow record : Bool) : Script Unit := do
  let invalid ← divisionInvalid signed (gprOperand ra) (gprOperand rb)
  let undefined ← newLabel
  let done ← newLabel
  jumpIf invalid undefined
  let q ← quotient signed (gprOperand ra) (gprOperand rb)
  copy q (gprOperand rd)
  onlyIf overflow (writeOverflow (.integer 0 .byte))
  onlyIf record (recordResult (gprOperand rd))
  jump done
  bindLabel undefined
  emit .undef .absent .absent (gprOperand rd)
  onlyIf overflow (writeOverflow (.integer 1 .byte))
  onlyIf record recordUndefined
  bindLabel done

/-! ## Bitwise operations -/

/-- The opcode at the heart of a bitwise operation. -/
def LogicKind.opcode : LogicKind → Opcode
  | .and | .andc | .nand => .and
  | .or | .orc | .nor => .or
  | .xor | .eqv => .xor

/-- Whether the second source is complemented. -/
def LogicKind.complementsSource : LogicKind → Bool
  | .andc | .orc => true
  | _ => false

/-- Whether the result is complemented. -/
def LogicKind.complementsResult : LogicKind → Bool
  | .nand | .nor | .eqv => true
  | _ => false

/-- Moves a result to a register and perhaps records it. -/
def deliver (result : Operand) (r : Gpr) (record : Bool) : Script Unit := do
  copy result (gprOperand r)
  onlyIf record (recordResult (gprOperand r))

/-- A bitwise operation of two registers. -/
def expandLogic (kind : LogicKind) (ra rs rb : Gpr) (record : Bool) : Script Unit := do
  let b ← complementIf kind.complementsSource (gprOperand rb)
  let combined ← binary kind.opcode (gprOperand rs) b
  let result ← complementIf kind.complementsResult combined
  deliver result ra record

/-- A bitwise operation of a register and a number. -/
def expandLogicConstant (opcode : Opcode) (ra rs : Gpr) (value : Nat) (record : Bool) :
    Script Unit := do
  let result ← binary opcode (gprOperand rs) (.integer value registerWidth)
  deliver result ra record

/-- The low bits of a register, extended by their sign. -/
def expandExtend (width : Width) (ra rs : Gpr) (record : Bool) : Script Unit := do
  let low ← temporary width
  copy (gprOperand rs) low
  let extended ← signExtend low registerWidth
  deliver extended ra record

/-! ## Shifts -/

/-- The negation of a shift amount, which shifts the other way. -/
def opposite (amount : Operand) : Script Operand := binary .sub (.integer 0 amount.width) amount

/-- The shift amount in a register: its low six bits, so that 32 to 63 shift everything out. -/
def registerAmount (r : Gpr) : Script Operand :=
  binary .and (gprOperand r) (.integer 0x3F registerWidth)

/-- A shift amount in the given direction. -/
def directed (left : Bool) (amount : Operand) : Script Operand :=
  if left then pure amount else opposite amount

/-- The shift amount in a register or of a number. -/
def Source.amount : Source → Script Operand
  | .register rb => registerAmount rb
  | .constant value => pure (Source.constant value).operand

/-- A logical shift. -/
def expandShift (left : Bool) (ra rs rb : Gpr) (record : Bool) : Script Unit := do
  let magnitude ← registerAmount rb
  let amount ← directed left magnitude
  let result ← temporary registerWidth
  emit .bsh (gprOperand rs) amount result
  deliver result ra record

/--
A right shift that keeps the sign. The source is extended to 128 bits, so that a logical shift
brings in sign bits; the carry is set if a negative number loses one bits.
-/
def expandShiftAlgebraic (ra rs : Gpr) (amount : Source) (record : Bool) : Script Unit := do
  let amount ← amount.amount
  let wide ← signExtend (gprOperand rs) .oword
  let right ← opposite amount
  let shifted ← temporary .oword
  emit .bsh wide right shifted
  let back ← temporary .oword
  emit .bsh shifted amount back
  let lost ← binary .xor back wide
  let anyLost ← isNonzero lost
  let negative ← signBit (gprOperand rs)
  let carry ← binary .and negative anyLost
  let result ← temporary registerWidth
  copy shifted result
  copy result (gprOperand ra)
  copy carry (flagOperand carryFlag)
  onlyIf record (recordResult (gprOperand ra))

/--
The mask with the bits `first` to `last` set, bit 0 being the most significant one. If `first` is
greater than `last`, the run of bits wraps around.
-/
def rotationMask (first last : Nat) : Nat :=
  let onward := registerWidth.mask >>> first
  let upTo := registerWidth.modulus - 1 <<< (31 - last)
  if first ≤ last then onward &&& upTo else onward ||| upTo

/-- A rotation to the left; one by zero is the source itself. -/
def rotated (rs : Operand) (amount : Nat) : Script Operand :=
  if amount = 0 then
    pure rs
  else do
    let high ← temporary registerWidth
    emit .bsh rs (.integer amount registerWidth) high
    let low ← temporary registerWidth
    emit .bsh rs (.signed (-(32 - amount : Nat)) registerWidth) low
    binary .or high low

/-- A rotation and a mask. -/
def expandRotate (ra rs : Gpr) (amount first last : Nat) (record : Bool) : Script Unit := do
  let all ← rotated (gprOperand rs) amount
  let result ← binary .and all (.integer (rotationMask first last) registerWidth)
  deliver result ra record

/-! ## Comparison and memory -/

/-- Whether one operand is less than another. -/
def lessThan (signed : Bool) (a b : Operand) : Script Operand :=
  if signed then signedLess a b else unsignedLess a b

/-- A comparison into a condition field. -/
def expandCompare (signed : Bool) (field : ConditionField) (ra : Gpr) (second : Source) :
    Script Unit := do
  let less ← lessThan signed (gprOperand ra) second.operand
  let same ← equal (gprOperand ra) second.operand
  setConditionField field less same

/-- The effective address of a location. -/
def Location.effective : Location → Script Operand
  | .displaced base displacement _ =>
    binary .add base.operand (.signed displacement registerWidth)
  | .indexed base index => binary .add base.operand (gprOperand index)

/-- The register that is moved to the effective address; `%r0` cannot be. -/
def Location.updated (mnemonic : String) : Location → Script (Option Gpr)
  | .displaced base _ true =>
    match base with
    | .zero => fail (.invalidOperand mnemonic 1 .updateWithoutBase)
    | .register r => pure (some r)
  | .displaced _ _ false | .indexed _ _ => pure none

/-- Moves the base of an update form to the effective address. -/
def writeBack (address : Operand) : Option Gpr → Script Unit
  | some r => copy address (gprOperand r)
  | none => pure ()

/-- Gives up if an update form loads into its own base. -/
def refuseUpdateOf (mnemonic : String) (rd : Gpr) (base : Option Gpr) : Script Unit :=
  if base = some rd then fail (.invalidOperand mnemonic 1 .updateOfTarget) else pure ()

/-- A loaded value as wide as a register if it has a sign, else as it is. -/
def signExtendIf (signed : Bool) (loaded : Operand) : Script Operand :=
  if signed then signExtend loaded registerWidth else pure loaded

/-- The low bits of a register, or all of them. -/
def narrowed (width : Width) (o : Operand) : Script Operand :=
  if width < registerWidth then do
    let narrow ← temporary width
    copy o narrow
    return narrow
  else
    pure o

/-- A load. An update form may not load into its own base. -/
def expandLoad (mnemonic : String) (width : Width) (signed : Bool) (rd : Gpr)
    (location : Location) : Script Unit := do
  let address ← location.effective
  let base ← location.updated mnemonic
  refuseUpdateOf mnemonic rd base
  let loaded ← temporary width
  emit .ldm address .absent loaded
  let value ← signExtendIf signed loaded
  copy value (gprOperand rd)
  writeBack address base

/-- A store, of the low bits of the source if it is narrower than a register. -/
def expandStore (mnemonic : String) (width : Width) (rs : Gpr) (location : Location) :
    Script Unit := do
  let address ← location.effective
  let base ← location.updated mnemonic
  let value ← narrowed width (gprOperand rs)
  emit .stm value .absent address
  writeBack address base

/-! ## Branches -/

/-- The condition of a jump that is always taken. -/
def always : Operand := .integer 1 .byte

/-- A jump out of the expansion. -/
def leaveTo (condition destination : Operand) : Script Unit :=
  emit .jcc condition .absent destination

/-- A native address as a jump target. -/
def targetOperand (target : Nat) : Operand := .integer target registerWidth

/-- Saves the address of the next native instruction, four bytes on. -/
def saveLink (address : Nat) : Script Unit :=
  copy (.integer (address + 4) registerWidth) BranchRegister.link.operand

/-- A branch through a register, whose value is taken before the link is saved. -/
def expandBranchThrough (address : Nat) (register : BranchRegister) (link : Bool) :
    Script Unit := do
  if link then
    let saved ← temporary registerWidth
    copy register.operand saved
    saveLink address
    leaveTo always saved
  else
    leaveTo always register.operand

/-- The bit that a condition tests, and whether it has to be clear. -/
def Condition.test : Condition → ConditionBit × Bool
  | .equal => (.eq, false)
  | .notEqual => (.eq, true)
  | .less => (.lt, false)
  | .greaterOrEqual => (.lt, true)
  | .greater => (.gt, false)
  | .lessOrEqual => (.gt, true)

/-- A branch on a bit of a condition field. -/
def expandBranchIf (condition : Condition) (field : ConditionField) (target : Nat) :
    Script Unit := do
  let (bit, clear) := condition.test
  let taken ← flagNotIf clear (conditionOperand field bit)
  leaveTo taken (targetOperand target)

/-- Counts down, and branches while the count is not zero. -/
def expandBranchCounted (target : Nat) : Script Unit := do
  let count ← binary .sub BranchRegister.count.operand (.integer 1 registerWidth)
  copy count BranchRegister.count.operand
  let taken ← isNonzero count
  leaveTo taken (targetOperand target)

/-! ## All operations -/

/-- The script of an operation, for the instruction with the given mnemonic and address. -/
def Operation.expand (mnemonic : String) (address : Nat) : Operation → Script Unit
  | .sum kind rd first second => expandSum kind rd first second
  | .loadConstant rd value => copy (.signed value registerWidth) (gprOperand rd)
  | .multiplyLow rd ra rb overflow record => expandMultiplyLow rd ra rb overflow record
  | .multiplyConstant rd ra value => do
    let low ← binary .mul (gprOperand ra) (.signed value registerWidth)
    copy low (gprOperand rd)
  | .multiplyHigh signed rd ra rb record => expandMultiplyHigh signed rd ra rb record
  | .divide signed rd ra rb overflow record => expandDivide signed rd ra rb overflow record
  | .logic kind ra rs rb record => expandLogic kind ra rs rb record
  | .logicConstant opcode ra rs value record => expandLogicConstant opcode ra rs value record
  | .move true ra rs record => do deliver (← complement (gprOperand rs)) ra record
  | .move false ra rs record => deliver (gprOperand rs) ra record
  | .extend width ra rs record => expandExtend width ra rs record
  | .shift left ra rs rb record => expandShift left ra rs rb record
  | .shiftAlgebraic ra rs amount record => expandShiftAlgebraic ra rs amount record
  | .rotate ra rs amount first last record => expandRotate ra rs amount first last record
  | .compare signed field ra second => expandCompare signed field ra second
  | .load width signed rd location => expandLoad mnemonic width signed rd location
  | .store width rs location => expandStore mnemonic width rs location
  | .branch true target => do
    saveLink address
    leaveTo always (targetOperand target)
  | .branch false target => leaveTo always (targetOperand target)
  | .branchThrough register link => expandBranchThrough address register link
  | .branchIf condition field target => expandBranchIf condition field target
  | .branchCounted target => expandBranchCounted target
  | .moveTo register source => copy (gprOperand source) register.operand
  | .moveFrom register destination => copy register.operand (gprOperand destination)
  | .nop => emit .nop .absent .absent .absent

end RegisterTransfer.PowerPC
