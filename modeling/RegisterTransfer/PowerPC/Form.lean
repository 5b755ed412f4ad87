import RegisterTransfer.PowerPC.Operation

/-!
# Spellings

Every mnemonic, with the form of its operands. The form says which operation the mnemonic names and
how its operands are written; decoding turns a form and operands into an operation. A trailing `.`
marks the record form and an `o` before it the form that sets the overflow flags.
-/

namespace RegisterTransfer.PowerPC

/-- How the second source of a sum is written. -/
inductive Addend where
  | register
  | immediate
  /-- An immediate for the high half. -/
  | high
  /-- Not written: all ones. -/
  | minusOne
  /-- Not written: zero. -/
  | zero
  deriving DecidableEq, Repr, Inhabited

/-- How a rotation is written. -/
inductive RotationForm where
  /-- The amount, then the first and last selected bit. -/
  | full
  | shiftLeft
  | shiftRight
  | rotateLeft
  deriving DecidableEq, Repr, Inhabited

/-- How the location of a memory access is written. -/
inductive Addressing where
  | displaced
  | updating
  | indexed
  deriving DecidableEq, Repr, Inhabited

/-- What a mnemonic names and how its operands are written. -/
inductive Form where
  /-- With `swapped` the sources change places; with `zeroBase` the first may be the number 0. -/
  | sum (kind : SumKind) (addend : Addend) (swapped zeroBase : Bool)
  | loadConstant (high : Bool)
  | subtractConstant
  | multiplyLow (overflow record : Bool)
  | multiplyConstant
  | multiplyHigh (signed record : Bool)
  | divide (signed overflow record : Bool)
  | logic (kind : LogicKind) (record : Bool)
  | logicConstant (opcode : Opcode) (high record : Bool)
  | move (complement record : Bool)
  | extend (width : Width) (record : Bool)
  | shift (left record : Bool)
  | shiftAlgebraic (byConstant record : Bool)
  | rotate (form : RotationForm) (record : Bool)
  | compare (signed byConstant : Bool)
  | load (width : Width) (signed : Bool) (addressing : Addressing)
  | store (width : Width) (addressing : Addressing)
  | branch (link : Bool)
  | branchThrough (register : BranchRegister) (link : Bool)
  | branchIf (condition : Condition)
  | branchCounted
  | moveTo (register : BranchRegister)
  | moveFrom (register : BranchRegister)
  | nop
  deriving DecidableEq, Repr, Inhabited

/-! ## Families of spellings -/

/-- A mnemonic and its record form. -/
def recording (mnemonic : String) (form : Bool → Form) : List (String × Form) :=
  [(mnemonic, form false), (mnemonic ++ ".", form true)]

/-- A mnemonic with its record and overflow forms; `form` takes the two marks in this order. -/
def overflowing (mnemonic : String) (form : Bool → Bool → Form) : List (String × Form) :=
  recording mnemonic (form · false) ++ recording (mnemonic ++ "o") (form · true)

/-- A sum with its record and overflow forms. -/
def sums (mnemonic : String) (kind : SumKind) (addend : Addend) (swapped : Bool) :
    List (String × Form) :=
  overflowing mnemonic fun record overflow =>
    .sum { kind with overflow, record } addend swapped false

/-- Addition that writes the carry. -/
def carrying (carryIn : CarryIn) : SumKind := { carryIn, writesCarry := true }

/-- Subtraction: the complement of the first source and a carry are added to the second. -/
def subtracting (carryIn : CarryIn) (writesCarry : Bool) : SumKind :=
  { complement := true, carryIn, writesCarry }

/-- Additions and subtractions. -/
def sumForms : List (String × Form) :=
  sums "add" {} .register false ++
  sums "addc" (carrying .clear) .register false ++
  sums "adde" (carrying .flag) .register false ++
  sums "addme" (carrying .flag) .minusOne false ++
  sums "addze" (carrying .flag) .zero false ++
  [ ("addi", .sum {} .immediate false true),
    ("addis", .sum {} .high false true),
    ("addic", .sum (carrying .clear) .immediate false false),
    ("addic.", .sum { carrying .clear with record := true } .immediate false false) ] ++
  sums "subf" (subtracting .set false) .register false ++
  sums "sub" (subtracting .set false) .register true ++
  sums "subfc" (subtracting .set true) .register false ++
  sums "subc" (subtracting .set true) .register true ++
  sums "subfe" (subtracting .flag true) .register false ++
  sums "subfme" (subtracting .flag true) .minusOne false ++
  sums "subfze" (subtracting .flag true) .zero false ++
  [("subfic", .sum (subtracting .set true) .immediate false false)] ++
  sums "neg" (subtracting .set false) .zero false ++
  [ ("li", .loadConstant false),
    ("lis", .loadConstant true),
    ("subi", .subtractConstant) ]

/-- Multiplications and divisions. -/
def productForms : List (String × Form) :=
  overflowing "mullw" (fun record overflow => .multiplyLow overflow record) ++
  [("mulli", .multiplyConstant)] ++
  recording "mulhw" (.multiplyHigh true) ++
  recording "mulhwu" (.multiplyHigh false) ++
  overflowing "divw" (fun record overflow => .divide true overflow record) ++
  overflowing "divwu" (fun record overflow => .divide false overflow record)

/-- Bitwise operations and moves. -/
def logicForms : List (String × Form) :=
  recording "and" (.logic .and) ++
  recording "or" (.logic .or) ++
  recording "xor" (.logic .xor) ++
  recording "andc" (.logic .andc) ++
  recording "orc" (.logic .orc) ++
  recording "nand" (.logic .nand) ++
  recording "nor" (.logic .nor) ++
  recording "eqv" (.logic .eqv) ++
  [ ("andi.", .logicConstant .and false true),
    ("andis.", .logicConstant .and true true),
    ("ori", .logicConstant .or false false),
    ("oris", .logicConstant .or true false),
    ("xori", .logicConstant .xor false false),
    ("xoris", .logicConstant .xor true false) ] ++
  recording "mr" (.move false) ++
  recording "not" (.move true) ++
  recording "extsb" (.extend .byte) ++
  recording "extsh" (.extend .word) ++
  [("nop", .nop)]

/-- Shifts and rotations. -/
def shiftForms : List (String × Form) :=
  recording "slw" (.shift true) ++
  recording "srw" (.shift false) ++
  recording "sraw" (.shiftAlgebraic false) ++
  recording "srawi" (.shiftAlgebraic true) ++
  recording "rlwinm" (.rotate .full) ++
  recording "slwi" (.rotate .shiftLeft) ++
  recording "srwi" (.rotate .shiftRight) ++
  recording "rotlwi" (.rotate .rotateLeft)

/-- Comparisons and branches. -/
def controlForms : List (String × Form) :=
  [ ("cmpw", .compare true false),
    ("cmpwi", .compare true true),
    ("cmplw", .compare false false),
    ("cmplwi", .compare false true),
    ("b", .branch false),
    ("bl", .branch true),
    ("blr", .branchThrough .link false),
    ("blrl", .branchThrough .link true),
    ("bctr", .branchThrough .count false),
    ("bctrl", .branchThrough .count true),
    ("beq", .branchIf .equal),
    ("bne", .branchIf .notEqual),
    ("blt", .branchIf .less),
    ("bge", .branchIf .greaterOrEqual),
    ("bgt", .branchIf .greater),
    ("ble", .branchIf .lessOrEqual),
    ("bdnz", .branchCounted),
    ("mtlr", .moveTo .link),
    ("mflr", .moveFrom .link),
    ("mtctr", .moveTo .count),
    ("mfctr", .moveFrom .count) ]

/-- Loads and stores. -/
def memoryForms : List (String × Form) :=
  [ ("lbz", .load .byte false .displaced),
    ("lhz", .load .word false .displaced),
    ("lha", .load .word true .displaced),
    ("lwz", .load .dword false .displaced),
    ("lwzu", .load .dword false .updating),
    ("lwzx", .load .dword false .indexed),
    ("stb", .store .byte .displaced),
    ("sth", .store .word .displaced),
    ("stw", .store .dword .displaced),
    ("stwu", .store .dword .updating),
    ("stwx", .store .dword .indexed) ]

/-- Every mnemonic with its form. -/
def forms : List (String × Form) :=
  sumForms ++ productForms ++ logicForms ++ shiftForms ++ controlForms ++ memoryForms

end RegisterTransfer.PowerPC
