import RegisterTransfer.PowerPC.Register
import RegisterTransfer.Temporary

/-!
# Register names

Temporaries and the registers of the processor share one register file, so everything said about an
expansion rests on their names being apart:

> `temporaryName_injective`: different temporaries have different names.
> `isTemporary_temporaryName`: the names handed out are recognised as temporaries.
> `PowerPC.isTemporary_gprName`, `PowerPC.isTemporary_conditionBitName`: no register of the PowerPC
> is taken for a temporary.
-/

namespace RegisterTransfer

theorem Text.isDigit_eq (c : Char) : isDigit c = c.isDigit := rfl

theorem Text.digitsValue_eq (cs : List Char) : digitsValue cs = Nat.ofDigitChars 10 cs 0 := by
  simp only [digitsValue, Nat.ofDigitChars, Nat.mul_comm]

/-- Temporaries with different numbers have different names. -/
theorem temporaryName_injective {j k : Nat} (h : temporaryName j = temporaryName k) : j = k := by
  have digits : Nat.toDigits 10 j = Nat.toDigits 10 k := by
    have texts := congrArg String.toList h
    simpa [temporaryName] using texts
  have values := congrArg (Nat.ofDigitChars 10 · 0) digits
  simpa using values

/-- Every name that is handed out for a temporary is recognised as one. -/
theorem isTemporary_temporaryName (n : Nat) : isTemporary (temporaryName n) = true := by
  have digits : ∀ c ∈ Nat.toDigits 10 n, Text.isDigit c = true := by
    intro c hc
    rw [Text.isDigit_eq]
    exact Nat.isDigit_of_mem_toDigits (by decide) (by decide) hc
  have letters : (temporaryName n).toList = 't' :: Nat.toDigits 10 n := by
    simp [temporaryName]
  have nonempty : Nat.toDigits 10 n ≠ [] := Nat.toDigits_ne_nil
  simp [isTemporary, letters, Text.digits?, List.all_eq_true.2 digits, nonempty]

/-- A name that is no temporary's is not among those handed out. -/
theorem ne_temporaryName {name : String} (h : isTemporary name = false) (n : Nat) :
    name ≠ temporaryName n := by
  intro same
  subst same
  rw [isTemporary_temporaryName] at h
  cases h

/-- A name that begins with another letter is not that of a temporary. -/
theorem isTemporary_of_head {name : String} {c : Char} {rest : List Char}
    (h : name.toList = c :: rest) (ne : c ≠ 't') : isTemporary name = false := by
  simp [isTemporary, h, ne]

namespace PowerPC

/-! ## Registers of the processor -/

/-- There is a register 0, so every number names a register. -/
@[instance] theorem neZero_gpr : @NeZero Nat Zero.ofOfNat0 32 := inferInstance

/-- The name of a general purpose register starts with a percent sign, so it is no temporary's. -/
@[simp] theorem isTemporary_gprName (n : Nat) : isTemporary (gprName n) = false := by
  have letters : (gprName n).toList = '%' :: 'r' :: Nat.toDigits 10 n := by simp [gprName]
  exact isTemporary_of_head letters (by decide)

@[simp] theorem isTemporary_conditionBitName (n : Nat) (bit : ConditionBit) :
    isTemporary (conditionBitName n bit) = false := by
  have letters : (conditionBitName n bit).toList =
      'C' :: 'R' :: (Nat.toDigits 10 n ++ bit.suffix.toList) := by
    simp [conditionBitName]
  exact isTemporary_of_head letters (by decide)

@[simp] theorem isTemporary_carryFlag : isTemporary carryFlag = false := by decide

@[simp] theorem isTemporary_overflowFlag : isTemporary overflowFlag = false := by decide

@[simp] theorem isTemporary_summaryFlag : isTemporary summaryFlag = false := by decide

@[simp] theorem isTemporary_programCounter : isTemporary programCounter = false := by decide

@[simp] theorem isTemporary_branchRegister (r : BranchRegister) : isTemporary r.name = false := by
  cases r <;> decide

/-- The catalog has no aliases. -/
@[simp] theorem alias?_cpu (name : String) : cpu.catalog.alias? name = none := rfl

end PowerPC

end RegisterTransfer
