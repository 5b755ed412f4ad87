import RegisterTransfer.Catalog
import RegisterTransfer.Text.Number

/-!
# Registers of the 32-bit PowerPC

General purpose registers are `%r0` to `%r31`. The fixed-point exception register and the condition
register are split into one register per bit, each a byte wide, so that setting a flag is an
ordinary register write.
-/

namespace RegisterTransfer.PowerPC

/-- A general purpose register by its number. -/
abbrev Gpr := Fin 32

/-- A field of the condition register by its number. -/
abbrev ConditionField := Fin 8

/-- Condition field 0, which record forms set and which is meant where no field is given. -/
def defaultField : ConditionField := 0

/-- The bits of a field of the condition register. -/
inductive ConditionBit where
  | lt
  | gt
  | eq
  | so
  deriving DecidableEq, Repr, Inhabited

namespace ConditionBit

/-- The bits in the order in which they stand in a field. -/
def all : List ConditionBit := [lt, gt, eq, so]

/-- The end of the name of a bit. -/
def suffix : ConditionBit → String
  | lt => "LT"
  | gt => "GT"
  | eq => "EQ"
  | so => "SO"

end ConditionBit

/-! ## Names -/

/-- The width of general purpose and special registers. -/
def registerWidth : Width := .dword

/-- The width of flags and condition bits. -/
def flagWidth : Width := .byte

/-- The carry flag. -/
def carryFlag : String := "XERCA"

/-- The overflow flag. -/
def overflowFlag : String := "XEROV"

/-- The summary overflow flag, which stays set. -/
def summaryFlag : String := "XERSO"

/-- The program counter. -/
def programCounter : String := "PC"

/-- The registers that branches go through. -/
inductive BranchRegister where
  | link
  | count
  deriving DecidableEq, Repr, Inhabited

/-- The name of a branch register. -/
def BranchRegister.name : BranchRegister → String
  | link => "LR"
  | count => "CTR"

/-- The name of a general purpose register. -/
def gprName (index : Nat) : String := "%r" ++ Nat.repr index

/-- The name of one bit of a condition field. -/
def conditionBitName (field : Nat) (bit : ConditionBit) : String :=
  "CR" ++ Nat.repr field ++ bit.suffix

/-- Drops one leading percent sign. -/
def dropPercent : List Char → List Char
  | '%' :: rest => rest
  | cs => cs

/-- A number below `n`. -/
def below? (n : Nat) (i : Nat) : Option (Fin n) := if h : i < n then some ⟨i, h⟩ else none

/-- Reads the name of a general purpose register, with or without its percent sign. -/
def gpr? (name : String) : Option Gpr :=
  match dropPercent name.toList with
  | 'r' :: digits => (Text.byte? digits).bind (below? 32)
  | _ => none

/-- Reads the name of a condition field, with or without a percent sign. -/
def conditionField? (name : String) : Option ConditionField :=
  match dropPercent name.toList with
  | 'c' :: 'r' :: digits => (Text.byte? digits).bind (below? 8)
  | _ => none

/-! ## The processor -/

/-- Every register. -/
def registers : List Register :=
  (List.range 32).map (fun i => ⟨gprName i, registerWidth, .general⟩) ++
  [carryFlag, overflowFlag, summaryFlag].map (fun name => ⟨name, flagWidth, .flag⟩) ++
  (List.range 8).flatMap (fun field =>
    ConditionBit.all.map fun bit => ⟨conditionBitName field bit, flagWidth, .condition⟩) ++
  [BranchRegister.link.name, BranchRegister.count.name, programCounter].map
    (fun name => ⟨name, registerWidth, .special⟩)

/-- The register catalog. -/
def catalog : Catalog := .ofRegisters registers

/-- The processor. -/
def cpu : Cpu where
  name := "PowerPC"
  catalog := catalog
  programCounter := programCounter

end RegisterTransfer.PowerPC
