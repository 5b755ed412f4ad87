import RegisterTransfer.Proofs.Endings
import RegisterTransfer.Proofs.PowerPC.Lockstep

/-!
# How expansions end

The script of an operation ends with all its labels bound, except that a load or store refuses to
move its base register where it cannot.

> `Operation.ends`: an operation is refused exactly if it updates `%r0`, or loads into the base
> that it updates.
-/

namespace RegisterTransfer.PowerPC

open Script

variable {E : LiftingError → Prop} {bound : List Bool} {a b : Operand} {w : Width} {record : Bool}

/-! ## Moves and flags -/

section Moves

variable {Q : Unit → List Bool → Prop}

@[simp] theorem ends_onlyIf {wanted : Bool} {s : Script Unit} :
    (onlyIf wanted s).Ends Q E bound ↔ if wanted then s.Ends Q E bound else Q () bound := by
  cases wanted <;> rfl

@[simp] theorem ends_withOperand {script : Operand → Script Unit}
    (h : ∀ o, (script o).Ends Q E bound ↔ Q () bound) (o : Option Operand) :
    (withOperand script o).Ends Q E bound ↔ Q () bound := by
  cases o with
  | none => rfl
  | some o => exact h o

@[simp] theorem ends_writeOverflow : (writeOverflow a).Ends Q E bound ↔ Q () bound := by
  simp [writeOverflow]

@[simp] theorem ends_setConditionField {field : ConditionField} :
    (setConditionField field a b).Ends Q E bound ↔ Q () bound := by
  simp [setConditionField]

@[simp] theorem ends_recordResult : (recordResult a).Ends Q E bound ↔ Q () bound := by
  simp [recordResult]

@[simp] theorem ends_recordUndefined : recordUndefined.Ends Q E bound ↔ Q () bound := by
  simp [recordUndefined]

@[simp] theorem ends_deliver {r : Gpr} : (deliver a r record).Ends Q E bound ↔ Q () bound := by
  simp [deliver]

@[simp] theorem ends_writeBack {base : Option Gpr} :
    (writeBack a base).Ends Q E bound ↔ Q () bound := by
  cases base <;> rfl

@[simp] theorem ends_leaveTo : (leaveTo a b).Ends Q E bound ↔ Q () bound := .rfl

@[simp] theorem ends_saveLink {address : Nat} :
    (saveLink address).Ends Q E bound ↔ Q () bound := .rfl

end Moves

/-! ## Choices -/

section Choices

variable {Q : Operand → List Bool → Prop}

/-- A complement is as wide as what it complements. -/
theorem ends_complementIf {wanted : Bool} (h : ∀ o, o.width = a.width → Q o bound) :
    (complementIf wanted a).Ends Q E bound := by
  cases wanted with
  | false => exact h a rfl
  | true => exact ends_complement.2 fun name => h _ rfl

theorem ends_flagNotIf {wanted : Bool} (h : ∀ o, Q o bound) :
    (flagNotIf wanted a).Ends Q E bound := by
  cases wanted with
  | false => exact h a
  | true => exact ends_flagNot.2 fun name => h _

theorem ends_exactProduct {signed : Bool} (h : ∀ o, Q o bound) :
    (exactProduct signed a b).Ends Q E bound := by
  cases signed <;> simp [exactProduct, signedProduct, unsignedProduct, h]

theorem ends_divisionInvalid {signed : Bool} (h : ∀ o, Q o bound) :
    (divisionInvalid signed a b).Ends Q E bound := by
  cases signed <;> simp [divisionInvalid, h]

theorem ends_quotient {signed : Bool} (h : ∀ o, Q o bound) :
    (quotient signed a b).Ends Q E bound := by
  cases signed <;> simp [quotient, h]

theorem ends_directed {left : Bool} (h : ∀ o, Q o bound) : (directed left a).Ends Q E bound := by
  cases left <;> simp [directed, opposite, h]

theorem ends_amount {source : Source} (h : ∀ o, Q o bound) : source.amount.Ends Q E bound := by
  cases source <;> simp [Source.amount, registerAmount, h]

theorem ends_rotated {amount : Nat} (h : ∀ o, Q o bound) : (rotated a amount).Ends Q E bound := by
  unfold rotated
  split <;> simp [h]

/-- An order needs a wider width than the operands have, and gives up without one. -/
theorem ends_lessThan {signed : Bool} (wider : (max a.width b.width).wider?.isSome)
    (h : ∀ o, Q o bound) : (lessThan signed a b).Ends Q E bound := by
  cases signed with
  | false => exact ends_unsignedLess wider fun _ => h _
  | true => exact ends_signedLess wider fun _ => h _

theorem ends_signExtendIf {signed : Bool} (h : ∀ o, Q o bound) :
    (signExtendIf signed a).Ends Q E bound := by
  cases signed <;> simp [signExtendIf, h]

theorem ends_narrowed (h : ∀ o, Q o bound) : (narrowed w a).Ends Q E bound := by
  unfold narrowed
  split <;> simp [h]

theorem ends_effective {location : Location} (h : ∀ o, Q o bound) :
    location.effective.Ends Q E bound := by
  cases location <;> simp [Location.effective, h]

end Choices

/-! ## Expansions -/

section Expansions

variable {Q : Unit → List Bool → Prop}

/-- A sum never gives up, since there is a width above that of a register. -/
theorem ends_sum {kind : SumKind} {rd : Gpr} {first : Base} {second : Source} (h : Q () bound) :
    (expandSum kind rd first second).Ends Q E bound := by
  simp only [expandSum, ends_bind]
  refine ends_complementIf fun o width => ?_
  refine ends_addWithCarry (by rw [width, width_source, width_base])
    (by rw [width, width_base]; rfl) fun sum => ?_
  simp [h]

/-- A multiplication never gives up, and leaves no label behind. -/
theorem ends_multiplyLow {rd ra rb : Gpr} {overflow : Bool} (h : Q () bound) :
    (expandMultiplyLow rd ra rb overflow record).Ends Q E bound := by
  cases overflow <;>
    simp [expandMultiplyLow, multiplyInto, multiplyChecked, multiplyUnchecked, signedProduct, h]

theorem ends_multiplyHigh {signed : Bool} {rd ra rb : Gpr} (h : Q () bound) :
    (expandMultiplyHigh signed rd ra rb record).Ends Q E bound := by
  simp only [expandMultiplyHigh, ends_bind]
  refine ends_exactProduct fun o => ?_
  simp [h]

/-- A division binds both of its labels. -/
theorem ends_divide {signed : Bool} {rd ra rb : Gpr} {overflow : Bool} (h : Q () [true, true]) :
    (expandDivide signed rd ra rb overflow record).Ends Q E [] := by
  simp only [expandDivide, ends_bind]
  refine ends_divisionInvalid fun invalid => ?_
  simp only [ends_newLabel, ends_jumpIf]
  refine ⟨by decide, ends_quotient fun q => ?_⟩
  simp [h]

theorem ends_logic {kind : LogicKind} {ra rs rb : Gpr} (h : Q () bound) :
    (expandLogic kind ra rs rb record).Ends Q E bound := by
  simp only [expandLogic, ends_bind]
  refine ends_complementIf fun o _ => ends_binary.2 fun name => ends_complementIf fun o _ => ?_
  simp [h]

theorem ends_shift {left : Bool} {ra rs rb : Gpr} (h : Q () bound) :
    (expandShift left ra rs rb record).Ends Q E bound := by
  simp only [expandShift, registerAmount, ends_bind, ends_binary]
  refine fun name => ends_directed fun o => ?_
  simp [h]

theorem ends_shiftAlgebraic {ra rs : Gpr} {amount : Source} (h : Q () bound) :
    (expandShiftAlgebraic ra rs amount record).Ends Q E bound := by
  simp only [expandShiftAlgebraic, ends_bind]
  refine ends_amount fun o => ?_
  simp [opposite, h]

theorem ends_rotate {ra rs : Gpr} {amount first last : Nat} (h : Q () bound) :
    (expandRotate ra rs amount first last record).Ends Q E bound := by
  simp only [expandRotate, ends_bind]
  refine ends_rotated fun o => ?_
  simp [h]

/-- A comparison needs a wider width as well, and has one. -/
theorem ends_compare {signed : Bool} {field : ConditionField} {ra : Gpr} {second : Source}
    (h : Q () bound) : (expandCompare signed field ra second).Ends Q E bound := by
  simp only [expandCompare, ends_bind]
  refine ends_lessThan (by rw [width_source]; rfl) fun o => ?_
  simp [h]

/-- A branch through a register never gives up, even if it reads the link that it writes. -/
theorem ends_branchThrough {address : Nat} {register : BranchRegister} {link : Bool}
    (h : Q () bound) : (expandBranchThrough address register link).Ends Q E bound := by
  cases link <;> simp [expandBranchThrough, h]

theorem ends_branchIf {condition : Condition} {field : ConditionField} {target : Nat}
    (h : Q () bound) : (expandBranchIf condition field target).Ends Q E bound := by
  simp only [expandBranchIf, ends_bind]
  exact ends_flagNotIf fun o => h

end Expansions

/-! ## Loads and stores -/

/-- The base that a location moves to the effective address. -/
def Location.moved? : Location → Option Base
  | .displaced base _ true => some base
  | .displaced _ _ false | .indexed _ _ => none

/-- `%r0` cannot be moved to the effective address. -/
theorem ends_updated {mnemonic : String} {location : Location} {Q : Option Gpr → List Bool → Prop}
    (moves : ∀ base, location.moved? = base.map .register → Q base bound)
    (refuses : location.moved? = some .zero → E (.invalidOperand mnemonic 1 .updateWithoutBase)) :
    (location.updated mnemonic).Ends Q E bound := by
  cases location with
  | indexed base index => exact moves none rfl
  | displaced base displacement update =>
    cases update with
    | false => exact moves none rfl
    | true =>
      cases base with
      | zero => exact refuses rfl
      | register r => exact moves (some r) rfl

/-- Whether an operation moves no base register, or one that it can move. -/
def Operation.Admissible : Operation → Prop
  | .load _ _ rd location => location.moved? ≠ some .zero ∧ location.moved? ≠ some (.register rd)
  | .store _ _ location => location.moved? ≠ some .zero
  | _ => True

/-- An operand of an instruction is invalid. -/
def Invalid (mnemonic : String) (e : LiftingError) : Prop :=
  ∃ index defect, e = .invalidOperand mnemonic index defect

/--
A load gives up if the base that it moves is no register or the one that it loads into; the operand
of its location is then to blame.
-/
theorem ends_load {mnemonic : String} {signed : Bool} {rd : Gpr} {location : Location}
    {Q : Unit → List Bool → Prop}
    (moves : location.moved? ≠ some .zero → location.moved? ≠ some (.register rd) → Q () bound)
    (refuses : location.moved? = some .zero ∨ location.moved? = some (.register rd) →
      ∀ defect, E (.invalidOperand mnemonic 1 defect)) :
    (expandLoad mnemonic w signed rd location).Ends Q E bound := by
  simp only [expandLoad, ends_bind]
  refine ends_effective fun address => ?_
  refine ends_updated (fun base moved => ?_) fun zero => refuses (.inl zero) _
  by_cases same : base = some rd
  · subst same
    rw [refuseUpdateOf, if_pos rfl]
    exact refuses (.inr moved) _
  · rw [refuseUpdateOf, if_neg same]
    simp only [ends_pure, ends_temporary, ends_emit]
    refine fun name => ends_signExtendIf fun o => ?_
    simp only [ends_copy, ends_writeBack]
    refine moves ?_ ?_
    · rw [moved]
      cases base <;> simp
    · rw [moved]
      cases base with
      | none => simp
      | some r => simpa using same

/-- A store gives up if the base that it moves is no register. -/
theorem ends_store {mnemonic : String} {rs : Gpr} {location : Location}
    {Q : Unit → List Bool → Prop} (moves : location.moved? ≠ some .zero → Q () bound)
    (refuses : location.moved? = some .zero → ∀ defect, E (.invalidOperand mnemonic 1 defect)) :
    (expandStore mnemonic w rs location).Ends Q E bound := by
  simp only [expandStore, ends_bind]
  refine ends_effective fun address => ?_
  refine ends_updated (fun base moved => ?_) fun zero => refuses zero _
  refine ends_narrowed fun o => ?_
  simp only [ends_emit, ends_writeBack]
  refine moves ?_
  rw [moved]
  cases base <;> simp

/-! ## All operations -/

/--
An operation ends with all its labels bound if it is admissible. If not, it refuses an operand.
-/
theorem Operation.ends (mnemonic : String) (address : Nat) (operation : Operation) :
    (operation.expand mnemonic address).Ends
      (fun _ bound => (∀ b ∈ bound, b = true) ∧ operation.Admissible)
      (fun e => Invalid mnemonic e ∧ ¬ operation.Admissible) [] := by
  have none_open : ∀ b ∈ ([] : List Bool), b = true := nofun
  cases operation with
  | sum => exact ends_sum ⟨none_open, trivial⟩
  | loadConstant => exact ⟨none_open, trivial⟩
  | multiplyLow => exact ends_multiplyLow ⟨none_open, trivial⟩
  | multiplyConstant => simp [expand, Admissible]
  | multiplyHigh => exact ends_multiplyHigh ⟨none_open, trivial⟩
  | divide => exact ends_divide ⟨by simp, trivial⟩
  | logic => exact ends_logic ⟨none_open, trivial⟩
  | logicConstant => simp [expand, expandLogicConstant, Admissible]
  | move complement => cases complement <;> simp [expand, Admissible]
  | extend => simp [expand, expandExtend, Admissible]
  | shift => exact ends_shift ⟨none_open, trivial⟩
  | shiftAlgebraic => exact ends_shiftAlgebraic ⟨none_open, trivial⟩
  | rotate => exact ends_rotate ⟨none_open, trivial⟩
  | compare => exact ends_compare ⟨none_open, trivial⟩
  | load =>
    refine ends_load (fun fits apart => ⟨none_open, fits, apart⟩) fun refused defect =>
      ⟨⟨1, defect, rfl⟩, fun admissible => ?_⟩
    exact refused.elim admissible.1 admissible.2
  | store =>
    exact ends_store (fun fits => ⟨none_open, fits⟩) fun refused defect =>
      ⟨⟨1, defect, rfl⟩, fun admissible => admissible refused⟩
  | branch link => cases link <;> simp [expand, Admissible]
  | branchThrough => exact ends_branchThrough ⟨none_open, trivial⟩
  | branchIf => exact ends_branchIf ⟨none_open, trivial⟩
  | branchCounted => simp [expand, expandBranchCounted, Admissible]
  | moveTo | moveFrom | nop => exact ⟨none_open, trivial⟩

end RegisterTransfer.PowerPC
