import RegisterTransfer.PowerPC.Decoding
import RegisterTransfer.Proofs.Blocks
import RegisterTransfer.Proofs.PowerPC.Flags

/-!
# Terms

The numbers that a spelling computes with: registers, a register that stands for zero if it is
`%r0`, or an immediate. A term is decoded to an operand, and the operand holds the number that the
term stands for.

> `Term.Becomes.denotes`: where its registers are defined, a term denotes what its operand holds.
-/

namespace RegisterTransfer.PowerPC

/-- A number that a spelling computes with, as it is written. -/
inductive Term where
  | register (position : Nat)
  /-- A register, where `%r0` stands for zero. -/
  | base (position : Nat)
  /-- The immediate at the end, times a factor. -/
  | immediate (factor : Int)
  | allOnes
  | zero
  deriving DecidableEq, Repr

section Operands

variable {n : NativeInstruction} {m : Machine}

/-- The registers that a term reads. -/
def Term.Reads (n : NativeInstruction) (r : Gpr) : Term → Prop
  | .register k => gprAt cpu.catalog.widthOf n k = .ok r
  | .base k => gprAt cpu.catalog.widthOf n k = .ok r ∧ r ≠ 0
  | .immediate _ | .allOnes | .zero => False

/-- The number that a term stands for. -/
inductive Term.Denotes (n : NativeInstruction) (m : Machine) : Term → Nat → Prop
  | register {k r v} (written : gprAt cpu.catalog.widthOf n k = .ok r)
    (value : m.value? (gprName r) = some v) : Denotes n m (.register k) (v % 2 ^ 32)
  | base {k r v} (written : gprAt cpu.catalog.widthOf n k = .ok r) (ne : r ≠ 0)
    (value : m.value? (gprName r) = some v) : Denotes n m (.base k) (v % 2 ^ 32)
  | zeroBase {k} (written : gprAt cpu.catalog.widthOf n k = .ok 0) : Denotes n m (.base k) 0
  | immediate {factor v w} (written : operandAt cpu.catalog.widthOf n 2 = .ok (.literal v w)) :
    Denotes n m (.immediate factor) (registerWidth.ofInt (v * factor))
  | allOnes : Denotes n m .allOnes (2 ^ 32 - 1)
  | zero : Denotes n m .zero 0

/-- The operand that a term is decoded to. -/
inductive Term.Becomes (n : NativeInstruction) : Term → Operand → Prop
  | register {k r} (written : gprAt cpu.catalog.widthOf n k = .ok r) :
    Becomes n (.register k) (gprOperand r)
  | base {k r} (written : gprAt cpu.catalog.widthOf n k = .ok r) (ne : r ≠ 0) :
    Becomes n (.base k) (gprOperand r)
  | zeroBase {k} (written : gprAt cpu.catalog.widthOf n k = .ok 0) :
    Becomes n (.base k) (.integer 0 registerWidth)
  | immediate {factor v w} (written : operandAt cpu.catalog.widthOf n 2 = .ok (.literal v w)) :
    Becomes n (.immediate factor) (.signed (v * factor) registerWidth)
  | allOnes : Becomes n .allOnes (.signed (-1) registerWidth)
  | zero : Becomes n .zero (.signed 0 registerWidth)

/-- Where its registers are defined, a term denotes what its operand holds. -/
theorem Term.Becomes.denotes {t : Term} {o : Operand} (h : t.Becomes n o) (processor : m.cpu = cpu)
    (defined : ∀ r, t.Reads n r → ∃ v, m.value? (gprName r) = some v) :
    ∃ v, t.Denotes n m v ∧ ∀ k, m.Holds k o v := by
  have known : ∀ {r : Gpr} {v : Nat}, m.value? (gprName r) = some v →
      ∀ k, m.Holds k (gprOperand r) (v % 2 ^ 32) := fun value _ => holds_gpr processor _ value
  cases h with
  | register written =>
    obtain ⟨v, value⟩ := defined _ written
    exact ⟨_, .register written value, known value⟩
  | base written ne =>
    obtain ⟨v, value⟩ := defined _ ⟨written, ne⟩
    exact ⟨_, .base written ne value, known value⟩
  | zeroBase written => exact ⟨0, .zeroBase written, fun k => Machine.holds_integer m k 0 _⟩
  | immediate written =>
    exact ⟨_, .immediate written, fun k => Machine.holds_signed m k _ registerWidth⟩
  | allOnes => exact ⟨_, .allOnes, fun k => Machine.holds_signed m k (-1) registerWidth⟩
  | zero => exact ⟨0, .zero, fun k => Machine.holds_signed m k 0 registerWidth⟩

/-- A base that is read stands for the register that it names, or for zero. -/
theorem becomes_of_baseAt {k : Nat} {b : Base} (h : baseAt cpu.catalog.widthOf n k = .ok b) :
    Term.Becomes n (.base k) b.operand := by
  simp only [baseAt, Except.bind_eq_ok] at h
  obtain ⟨r, written, e⟩ := h
  cases e
  by_cases zero : r = 0
  · subst zero
    exact .zeroBase written
  · rw [Base.ofGpr, if_neg zero]
    exact .base written zero

theorem literal_of_immediateAt {k : Nat} {range : ImmediateRange} {v : Int}
    (h : immediateAt cpu.catalog.widthOf n k range = .ok v) :
    ∃ w, operandAt cpu.catalog.widthOf n k = .ok (.literal v w) := by
  simp only [immediateAt, Except.bind_eq_ok] at h
  obtain ⟨resolved, written, h⟩ := h
  split at h
  · next value w =>
    split at h
    · cases h
      exact ⟨w, written⟩
    · cases h
  · cases h

/-- A number that is read is in the range that was asked for. -/
theorem inside_of_immediateAt {k : Nat} {range : ImmediateRange} {v : Int}
    (h : immediateAt cpu.catalog.widthOf n k range = .ok v) : range.low ≤ v ∧ v ≤ range.high := by
  simp only [immediateAt, Except.bind_eq_ok] at h
  obtain ⟨resolved, -, h⟩ := h
  split at h
  · split at h
    · next inside =>
      cases h
      simpa [ImmediateRange.contains] using inside
    · cases h
  · cases h

/-- A source, as it is written at a position. -/
inductive Source.Written (n : NativeInstruction) (k : Nat) (byConstant : Bool)
    (range : ImmediateRange) : Source → Prop
  | register {r} (kind : byConstant = false) (written : gprAt cpu.catalog.widthOf n k = .ok r) :
    Written n k byConstant range (.register r)
  | immediate {i} (kind : byConstant = true)
    (written : immediateAt cpu.catalog.widthOf n k range = .ok i) :
    Written n k byConstant range (.constant i)

/-- A source that is read is written as a register or as a number in the range. -/
theorem written_of_sourceAt {k : Nat} {byConstant : Bool} {range : ImmediateRange}
    {source : Source} (h : sourceAt cpu.catalog.widthOf n k byConstant range = .ok source) :
    source.Written n k byConstant range := by
  unfold sourceAt at h
  split at h
  · next immediate =>
    obtain ⟨i, written, rfl⟩ := Except.map_eq_ok.1 h
    exact .immediate immediate written
  · next register =>
    obtain ⟨r, written, rfl⟩ := Except.map_eq_ok.1 h
    exact .register (Bool.eq_false_iff.2 register) written

/-- A bit number is the literal that is written. -/
theorem bitNumberAt_of_immediateAt {k : Nat} {v : Int}
    (h : immediateAt cpu.catalog.widthOf n k bitNumber = .ok v) :
    ∃ i < 32, v = (i : Nat) ∧ bitNumberAt cpu.catalog.widthOf n k = .ok i := by
  obtain ⟨low, high⟩ := inside_of_immediateAt h
  simp only [bitNumber] at low high
  refine ⟨v.toNat, by omega, by omega, ?_⟩
  rw [bitNumberAt, h]
  rfl

theorem bitNumberAt_lt {k i : Nat} (h : bitNumberAt cpu.catalog.widthOf n k = .ok i) : i < 32 := by
  simp only [bitNumberAt, Except.bind_eq_ok] at h
  obtain ⟨v, written, e⟩ := h
  obtain ⟨low, high⟩ := inside_of_immediateAt written
  simp only [bitNumber] at low high
  cases e
  omega

/-- A branch target fits into a register. -/
theorem targetAt_lt {k target : Nat} (h : targetAt cpu.catalog.widthOf n k = .ok target) :
    target < registerWidth.modulus := by
  simp only [targetAt, Except.bind_eq_ok] at h
  obtain ⟨i, written, e⟩ := h
  obtain ⟨low, high⟩ := inside_of_immediateAt written
  simp only [targetRange] at low high
  have whole : registerWidth.modulus = 2 ^ 32 := rfl
  cases e
  omega

theorem becomes_of_immediateAt {range : ImmediateRange} {v : Int}
    (h : immediateAt cpu.catalog.widthOf n 2 range = .ok v) :
    Term.Becomes n (.immediate 1) (.signed v registerWidth) := by
  obtain ⟨w, written⟩ := literal_of_immediateAt h
  have becomes : Term.Becomes n (.immediate 1) (.signed (v * 1) registerWidth) := .immediate written
  rwa [Int.mul_one] at becomes

end Operands

end RegisterTransfer.PowerPC
