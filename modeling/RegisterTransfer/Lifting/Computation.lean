import RegisterTransfer.Lifting.Script

/-!
# Computations

Scripts that compute with operands. The machine knows unsigned arithmetic only, so carries, signs
and comparisons are spelled out here: a sum is evaluated in a temporary one width wider than its
operands, where the carry is the bit just above the result, and a comparison is the borrow of a
difference evaluated one width wider. Flags are bytes that hold 0 or 1.
-/

namespace RegisterTransfer.Script

/-- Combines two operands in a new temporary of the first one's width. -/
def binary (opcode : Opcode) (a b : Operand) : Script Operand := do
  let out ← temporary a.width
  emit opcode a b out
  return out

/-- The bitwise complement. -/
def complement (a : Operand) : Script Operand := binary .xor a (.integer a.width.mask a.width)

/-- The other value of a flag. -/
def flagNot (flag : Operand) : Script Operand := binary .xor flag (.integer 1 flag.width)

/-- The most significant bit, as a flag. -/
def signBit (a : Operand) : Script Operand := do
  let out ← temporary .byte
  emit .bsh a (.signed (-(a.width.bits - 1)) a.width) out
  return out

/-- Whether an operand is zero. -/
def isZero (a : Operand) : Script Operand := do
  let out ← temporary .byte
  emit .bisz a .absent out
  return out

/-- Whether an operand is not zero. -/
def isNonzero (a : Operand) : Script Operand := do flagNot (← isZero a)

/-- Whether two operands of one width are equal. -/
def equal (a b : Operand) : Script Operand := do isZero (← binary .xor a b)

/-! ## Addition -/

/-- What an addition computes beside the sum. -/
structure AdditionFlags where
  carry : Bool := false
  overflow : Bool := false
  deriving DecidableEq, Repr, Inhabited

/-- The temporaries that hold what an addition computed. -/
structure Addition where
  /-- The sum, reduced to the width of the operands. -/
  result : Operand
  /-- Whether the unsigned sum does not fit. -/
  carry : Option Operand
  /-- Whether the signed sum does not fit. -/
  overflow : Option Operand
  deriving DecidableEq, Repr

/-- The unreduced sum of two operands and perhaps a carry, at a wider width. -/
def wideSum (wide : Width) (a b : Operand) (carryIn : Option Operand) : Script Operand := do
  let sum ← temporary wide
  emit .add a b sum
  match carryIn with
  | none => return sum
  | some c =>
    let withCarry ← temporary wide
    emit .add sum c withCarry
    return withCarry

/-- The bit above the low `width` of a wide sum. -/
def carryOut (width wide : Width) (sum : Operand) : Script Operand := do
  let carry ← temporary .byte
  emit .bsh sum (.signed (-width.bits) wide) carry
  return carry

/-- The sign bit of what differs from the result in both operands. -/
def overflowOut (a b result : Operand) : Script Operand := do
  let left ← binary .xor a result
  let right ← binary .xor b result
  signBit (← binary .and left right)

/-- Runs a script if it is wanted. -/
def optionally {α : Type} (wanted : Bool) (s : Script α) : Script (Option α) :=
  if wanted then some <$> s else pure none

/--
Adds two operands of one width and perhaps a carry, which holds 0 or 1 at any width. There has to
be a wider width in which to see the carry.
-/
def addWithCarry (a b : Operand) (carryIn : Option Operand) (flags : AdditionFlags) :
    Script Addition :=
  if b.width = a.width then
    match a.width.wider? with
    | none => fail (.malformedOperand (.noWiderCarry a.width))
    | some wide => do
      let sum ← wideSum wide a b carryIn
      let result ← temporary a.width
      emit .and sum (.integer a.width.mask wide) result
      let carry ← optionally flags.carry (carryOut a.width wide sum)
      let overflow ← optionally flags.overflow (overflowOut a b result)
      return ⟨result, carry, overflow⟩
  else
    fail (.malformedOperand (.unequalAddends a.width b.width))

/-! ## Comparison -/

/-- Whether one operand is less than another as unsigned numbers. -/
def unsignedLess (a b : Operand) : Script Operand :=
  match (max a.width b.width).wider? with
  | none => fail (.malformedOperand (.noWiderBorrow a.width))
  | some wide => do
    let difference ← temporary wide
    emit .sub a b difference
    signBit difference

/-- Inverts the sign bit, which takes the signed order to the unsigned one. -/
def flipSign (a : Operand) : Script Operand := binary .xor a (.integer a.width.signBit a.width)

/-- Whether one operand is less than another as signed numbers. -/
def signedLess (a b : Operand) : Script Operand := do
  let a ← flipSign a
  let b ← flipSign b
  unsignedLess a b

/-! ## Signs -/

/-- The operand as a signed number at another width: `(a xor s) - s` for its sign bit `s`. -/
def signExtend (a : Operand) (width : Width) : Script Operand := do
  let flipped ← flipSign a
  let widened ← temporary width
  copy flipped widened
  let out ← temporary width
  emit .sub widened (.integer a.width.signBit width) out
  return out

/-- All ones if a flag is set, else zero. -/
def flagMask (flag : Operand) (width : Width) : Script Operand := do
  let out ← temporary width
  emit .sub (.integer 0 width) flag out
  return out

/-- The two's complement negation if a flag is set, else the operand itself. -/
def negateIf (a flag : Operand) : Script Operand := do
  let mask ← flagMask flag a.width
  let flipped ← binary .xor a mask
  binary .sub flipped mask

/-- The magnitude of a signed number, and whether it is negative. -/
def magnitude (a : Operand) : Script (Operand × Operand) := do
  let negative ← signBit a
  return (← negateIf a negative, negative)

end RegisterTransfer.Script
