import RegisterTransfer.Native.Instruction
import RegisterTransfer.Text.Quoted

/-!
# Resolved operands

Resolving an operand tree fixes its width and brings an address into the form base + index +
displacement. The outer widths must agree; widths inside an address have no effect. Whether a bare
register is known, and how wide it is, is answered by the function `widthOf`.
-/

namespace RegisterTransfer

/-- How an operand tree, or a group of operands, is put together wrongly. -/
inductive Malformation where
  | conflictingWidths (outer inner : Width) (operand : OperandTree)
  | sumOutsideMemory (operand : OperandTree)
  | thirdRegister (name : String)
  | nestedMemory
  | unequalAddends (first second : Width)
  | noWiderCarry (width : Width)
  | noWiderBorrow (width : Width)
  /-- A malformation put into words by a translator. -/
  | described (text : String)
  deriving DecidableEq, Repr

/-- The wording of a malformation. -/
def Malformation.text : Malformation → String
  | conflictingWidths outer inner operand =>
    "conflicting size prefixes " ++ outer.name ++ " and " ++ inner.name ++ " on " ++ operand.text
  | sumOutsideMemory operand =>
    "address expression " ++ operand.text ++ " outside a memory operand"
  | thirdRegister name => "more than two registers in address expression (" ++ name ++ ")"
  | nestedMemory => "nested memory dereference"
  | unequalAddends first second =>
    "addition of " ++ first.name ++ " and " ++ second.name ++ " operands"
  | noWiderCarry width => "no wider size than " ++ width.name ++ " for carry"
  | noWiderBorrow width => "no wider size than " ++ width.name ++ " for borrow"
  | described text => text

/-- Why an operand tree has no resolved form. -/
inductive ResolutionError where
  | unknownRegister (name : String)
  | malformed (reason : Malformation)
  deriving DecidableEq, Repr

/-- An operand after its width has been fixed. -/
inductive ResolvedOperand where
  | register (name : String) (width : Width)
  | literal (value : Int) (width : Width)
  /-- The memory at base + index + displacement; the width is that of the access, if given. -/
  | memory (base index : Option String) (displacement : Int) (width : Option Width)
  deriving DecidableEq, Repr, Inhabited

namespace ResolvedOperand

/-- A description of an optional part. -/
def describeOption {α : Type} (describe : α → String) : Option α → String
  | none => "None"
  | some a => "Some(" ++ describe a ++ ")"

/-- A description that shows every part, for messages. -/
def describe : ResolvedOperand → String
  | register name width =>
    "Register \x7b name: " ++ Text.quoted name ++ ", size: " ++ width.title ++ " \x7d"
  | literal value width =>
    "Literal \x7b value: " ++ Int.repr value ++ ", size: " ++ width.title ++ " \x7d"
  | memory base index displacement width =>
    "Memory \x7b base: " ++ describeOption Text.quoted base ++
      ", index: " ++ describeOption Text.quoted index ++
      ", displacement: " ++ Int.repr displacement ++
      ", size: " ++ describeOption Width.title width ++ " \x7d"

end ResolvedOperand

/-! ## Address terms -/

/-- The parts of an address met so far, from left to right. -/
structure AddressTerms where
  base : Option String := none
  index : Option String := none
  displacement : Int := 0
  deriving DecidableEq, Repr

namespace AddressTerms

/-- Takes the next register: first the base, then the index. -/
def addRegister (t : AddressTerms) (name : String) : Except Malformation AddressTerms :=
  match t.base, t.index with
  | none, _ => .ok { t with base := some name }
  | some _, none => .ok { t with index := some name }
  | some _, some _ => .error (.thirdRegister name)

/-- Adds to the displacement, which wraps around at 64 bits. -/
def displace (t : AddressTerms) (d : Int) : AddressTerms :=
  { t with displacement := (t.displacement + d).bmod Width.qword.modulus }

/-- Takes all terms of an address. -/
def collect (t : AddressTerms) : OperandTree → Except Malformation AddressTerms
  | .register name => t.addRegister name
  | .immediate d => .ok (t.displace d)
  | .sum left right => do (← t.collect left).collect right
  | .sized _ operand => t.collect operand
  | .memory _ => .error .nestedMemory

end AddressTerms

/-! ## Resolution -/

/-- The width of a literal without a given one. -/
def defaultLiteralWidth : Width := .qword

namespace OperandTree

/-- Resolves an operand inside an outer width, if there is one. -/
def resolveWithin (widthOf : String → Option Width) (outer : Option Width) :
    OperandTree → Except ResolutionError ResolvedOperand
  | .sized width operand =>
    match outer with
    | none => operand.resolveWithin widthOf (some width)
    | some w =>
      if w = width then
        operand.resolveWithin widthOf (some width)
      else
        .error (.malformed (.conflictingWidths w width operand))
  | .register name =>
    match outer.or (widthOf name) with
    | some width => .ok (.register name width)
    | none => .error (.unknownRegister name)
  | .immediate value => .ok (.literal value (outer.getD defaultLiteralWidth))
  | .memory address =>
    match AddressTerms.collect {} address with
    | .ok terms => .ok (.memory terms.base terms.index terms.displacement outer)
    | .error reason => .error (.malformed reason)
  | .sum left right => .error (.malformed (.sumOutsideMemory (.sum left right)))

/-- Resolves an operand. -/
def resolve (widthOf : String → Option Width) (operand : OperandTree) :
    Except ResolutionError ResolvedOperand :=
  operand.resolveWithin widthOf none

end OperandTree

end RegisterTransfer
