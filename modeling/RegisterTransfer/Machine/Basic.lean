import RegisterTransfer.Catalog
import RegisterTransfer.Fault
import RegisterTransfer.Program
import RegisterTransfer.RegisterFile
import RegisterTransfer.Settings

/-!
# The machine

A machine is a register file, a sparse memory and four counters, for one processor under given
settings. `Machine.execute` performs one instruction. Values are 128-bit: an operation computes
modulo `2 ^ 128` on sources reduced to their own widths, and the destination reduces the result to
its width. A failing instruction keeps whatever it did before it failed.
-/

namespace RegisterTransfer

/-- What a run has done so far. -/
structure Counters where
  executed : Nat := 0
  jumps : Nat := 0
  reads : Nat := 0
  writes : Nat := 0
  deriving DecidableEq, Repr, Inhabited

/-- The state of an execution. -/
structure Machine where
  settings : MachineSettings
  cpu : Cpu
  registers : RegisterFile
  memory : Memory
  counters : Counters
  deriving DecidableEq

/-- Where control goes after an instruction. -/
inductive Flow where
  | next
  | jump (target : Address)
  | halt
  deriving DecidableEq, Repr, Inhabited

namespace Machine

/-- A machine with nothing in it. -/
def start (settings : MachineSettings) (cpu : Cpu) : Machine :=
  ⟨settings, cpu, ∅, .empty settings.order, {}⟩

/-- Drops all registers, memory and counters. -/
def reset (m : Machine) : Machine := start m.settings m.cpu

/-! ## Registers and memory from outside -/

/-- The contents of a register or alias. -/
def register? (m : Machine) (name : String) : Option RegisterValue :=
  m.registers.read m.cpu.catalog name

/-- The value of a defined register or alias. -/
def value? (m : Machine) (name : String) : Option Nat :=
  ((m.register? name).filter (·.isDefined)).map (·.value)

/-- Writes a register or alias. -/
def setRegister (m : Machine) (name : String) (value : Nat) (width : Width)
    (status : RegisterStatus) : Machine :=
  { m with registers := m.registers.write m.cpu.catalog name value width status }

/-- Reads a number from memory. -/
def load (m : Machine) (a : Nat) (w : Width) : Nat × Machine :=
  let (value, memory) := m.memory.read a w
  (value, { m with memory })

/-- Writes a number to memory. -/
def store (m : Machine) (a value : Nat) (w : Width) : Machine :=
  { m with memory := m.memory.write a value w }

/-- Brings the program counter register up to the native address of an instruction. -/
def syncProgramCounter (m : Machine) (native : Nat) : Machine :=
  m.setRegister m.cpu.programCounter native m.cpu.programCounterWidth .defined

/-! ## Operands -/

/-- The value of a source operand of the instruction at `place`, reduced to the operand's width. -/
def source (m : Machine) (place : Address) (o : Operand) : Except (Fault Address) Nat :=
  match o.kind with
  | .integer v => .ok (o.width.truncate v)
  | .register name =>
    match m.value? name with
    | some v => .ok (o.width.truncate v)
    | none =>
      match m.settings.undefinedReads with
      | .fail => .error (.undefinedRead name place)
      | .zero => .ok 0
  | .absent => .error (.invalidOperand place .noSource)
  | .address target => .error (.invalidOperand place (.addressAsValue target))

/-- The address that a jump operand denotes. A number stands for a native address. -/
def target (m : Machine) (place : Address) (o : Operand) : Except (Fault Address) Address :=
  match o.kind with
  | .address target => .ok target
  | .absent => .error (.invalidOperand place .noTarget)
  | .integer _ | .register _ => do
    return .ofNative (Width.qword.truncate (← m.source place o))

end Machine

/-- The register that an instruction writes. -/
def Instruction.destination (i : Instruction) : Except (Fault Address) String :=
  match i.op3.register? with
  | some name => .ok name
  | none => .error (.invalidOperand i.address (.noDestination i.opcode))

/-! ## Values of operations -/

/-- Shifts a value left by a positive amount and right by a negative one, within 128 bits. -/
def shiftValue (v : Nat) (amount : Int) : Nat :=
  if 128 ≤ amount.natAbs then
    0
  else if 0 ≤ amount then
    Width.oword.truncate (v <<< amount.natAbs)
  else
    v >>> amount.natAbs

/--
What an opcode makes of its two source values; no value if it divides by zero. Opcodes that do not
combine two sources pass the first one on.
-/
def Opcode.combine (opcode : Opcode) (amountWidth : Width) (a b : Nat) : Option Nat :=
  match opcode with
  | .add => some (Width.oword.truncate (a + b))
  | .sub => some (Width.oword.ofInt (a - b))
  | .mul => some (Width.oword.truncate (a * b))
  | .div => if b = 0 then none else some (a / b)
  | .mod => if b = 0 then none else some (a % b)
  | .bsh => some (shiftValue a (amountWidth.toSigned b))
  | .and => some (a &&& b)
  | .or => some (a ||| b)
  | .xor => some (a ^^^ b)
  | _ => some a

/-- The width rule of an instruction, which is checked before its sources are read. -/
def Instruction.checkWidths (i : Instruction) : Except (Fault Address) Unit :=
  match i.opcode with
  | .add | .sub | .mul =>
    let widest := max i.op1.width i.op2.width
    if i.op3.width < widest then
      .error (.widthClash i.address (.narrowDestination i.opcode i.op3.width widest))
    else
      .ok ()
  | .and | .or | .xor =>
    if i.op1.width = i.op2.width then
      .ok ()
    else
      .error (.widthClash i.address (.unequalSources i.opcode i.op1.width i.op2.width))
  | _ => .ok ()

namespace Machine

/-! ## One instruction -/

/-- The value that an instruction with two sources computes. -/
def combine (m : Machine) (i : Instruction) : Except (Fault Address) Nat := do
  i.checkWidths
  let a ← m.source i.address i.op1
  let b ← m.source i.address i.op2
  match i.opcode.combine i.op2.width a b with
  | some v => return v
  | none => throw (.divisionByZero i.address)

/-- Gives the destination a computed value and goes on. -/
def assign (m : Machine) (i : Instruction) (value : Nat) : Except (Fault Address) Flow × Machine :=
  match i.destination with
  | .error f => (.error f, m)
  | .ok name => (.ok .next, m.setRegister name value i.op3.width .defined)

/-- Gives the destination a computed value, if there is one, and goes on. -/
def assignResult (m : Machine) (i : Instruction) :
    Except (Fault Address) Nat → Except (Fault Address) Flow × Machine
  | .error f => (.error f, m)
  | .ok value => m.assign i value

/-- Where a conditional jump goes. -/
def branch (m : Machine) (p : Program) (i : Instruction) : Except (Fault Address) Flow := do
  let condition ← m.source i.address i.op1
  if condition = 0 then
    return .next
  let target ← m.target i.address i.op3
  if p.contains target then
    return .jump target
  throw (.unmappedTarget i.address target)

/-- Loads the destination from the address in the first operand. -/
def loadFrom (m : Machine) (i : Instruction) : Except (Fault Address) Flow × Machine :=
  match m.source i.address i.op1 with
  | .error f => (.error f, m)
  | .ok a =>
    let (value, m) := m.load (Width.qword.truncate a) i.op3.width
    { m with counters.reads := m.counters.reads + 1 }.assign i value

/-- Stores the first operand at the address in the third. -/
def storeTo (m : Machine) (i : Instruction) : Except (Fault Address) Machine := do
  let value ← m.source i.address i.op1
  let a ← m.source i.address i.op3
  let m := m.store (Width.qword.truncate a) value i.op1.width
  return { m with counters.writes := m.counters.writes + 1 }

/-- Makes the register in the third operand undefined. -/
def makeUndefined (m : Machine) (i : Instruction) : Except (Fault Address) Machine := do
  let name ← i.destination
  return { m with registers := m.registers.undefine m.cpu.catalog name i.op3.width }

/-- The machine that an action leads to, with control going on; a failing action does nothing. -/
def proceed (m : Machine) :
    Except (Fault Address) Machine → Except (Fault Address) Flow × Machine
  | .error f => (.error f, m)
  | .ok m' => (.ok .next, m')

/-- Performs one instruction of a program. -/
def execute (m : Machine) (p : Program) (i : Instruction) :
    Except (Fault Address) Flow × Machine :=
  match i.opcode with
  | .add | .sub | .mul | .div | .mod | .bsh | .and | .or | .xor => m.assignResult i (m.combine i)
  | .bisz =>
    m.assignResult i ((m.source i.address i.op1).map fun v => if v = 0 then 1 else 0)
  | .str => m.assignResult i (m.source i.address i.op1)
  | .jcc => (m.branch p i, m)
  | .ldm => m.loadFrom i
  | .stm => m.proceed (m.storeTo i)
  | .undef => m.proceed (m.makeUndefined i)
  | .nop => (.ok .next, m)
  | .unkn =>
    match m.settings.unknownOpcodes with
    | .fail => (.error (.unsupportedOpcode i.opcode.mnemonic i.address), m)
    | .skip => (.ok .next, m)
  | .halt => (.ok .halt, m)

end Machine

end RegisterTransfer
