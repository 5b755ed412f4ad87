import RegisterTransfer.Proofs.Footprints
import RegisterTransfer.Proofs.PowerPC.Bits

/-!
# Footprints of operations

Most operations mention temporaries, general purpose registers and bits only, and do not take control
out of their expansions. What is left are branches, and moves to and from the branch registers; these
say in their names which branch register they read or write. No operation writes the program counter.

> `Operation.ordinary`: an operation that is none of these mentions ordinary registers only.
> `Operation.footprint`: what any operation can touch.
-/

namespace RegisterTransfer.PowerPC

open Script

/-! ## Ordinary operands -/

/-- An operand that is no program counter and no branch register. -/
def Ordinary (o : Operand) : Prop :=
  ∀ name, o.kind = .register name →
    isTemporary name = true ∨ (∃ r : Gpr, name = gprName r) ∨ BitRegister name

/-- The program counter is neither a temporary nor a register that an ordinary operand may name. -/
theorem Ordinary.ne_programCounter {o : Operand} (h : Ordinary o) :
    o.kind ≠ .register programCounter := by
  intro kind
  rcases h _ kind with temporary | ⟨r, same⟩ | bit
  · rw [isTemporary_programCounter] at temporary
    cases temporary
  · exact gprName_ne_programCounter r same.symm
  · exact not_bitRegister_programCounter bit

/-- A branch register is no general purpose register, whose names begin with a percent sign. -/
theorem name_ne_gprName (r : BranchRegister) (n : Nat) : r.name ≠ gprName n := by
  cases r with
  | link => exact ne_of_head (show "LR".toList = ['L', 'R'] from rfl) (toList_gprName n) (by decide)
  | count =>
    exact ne_of_head (show "CTR".toList = ['C', 'T', 'R'] from rfl) (toList_gprName n) (by decide)

/-- No ordinary operand is a branch register. -/
theorem Ordinary.ne_branch {o : Operand} (h : Ordinary o) (r : BranchRegister) :
    o.kind ≠ .register r.name := by
  intro kind
  rcases h _ kind with temporary | ⟨i, same⟩ | bit
  · rw [isTemporary_branchRegister] at temporary
    cases temporary
  · exact name_ne_gprName r i same
  · exact not_bitRegister_branch r bit

theorem ordinary_of_number {o : Operand} {v : Nat} (h : o.kind = .integer v) : Ordinary o := by
  intro name kind
  rw [h] at kind
  cases kind

/-- Numbers, temporaries and operands that are left out are ordinary. -/
theorem common_ordinary : Operand.Common Ordinary where
  absent := fun _ => nofun
  number := ordinary_of_number
  temporary k w name kind := by
    cases kind
    exact .inl (isTemporary_temporaryName k)

theorem ordinary_gpr (r : Gpr) : Ordinary (gprOperand r) := by
  intro name kind
  cases kind
  exact .inr (.inl ⟨r, rfl⟩)

theorem ordinary_flag {name : String} (h : BitRegister name) : Ordinary (flagOperand name) := by
  intro name' kind
  cases kind
  exact .inr (.inr h)

/-- Every bit of a condition field is a register for a bit. -/
theorem bitRegister_conditionBitName (field : ConditionField) (bit : ConditionBit) :
    BitRegister (conditionBitName field bit) := by
  refine ⟨⟨conditionBitName field bit, flagWidth, .condition⟩, ?_, rfl, .inr rfl⟩
  refine List.mem_append_left _ (List.mem_append_right _ (List.mem_flatMap.2 ?_))
  exact ⟨field, List.mem_range.2 field.isLt, List.mem_map.2 ⟨bit, by cases bit <;> decide, rfl⟩⟩

theorem ordinary_condition (field : ConditionField) (bit : ConditionBit) :
    Ordinary (conditionOperand field bit) :=
  ordinary_flag (bitRegister_conditionBitName field bit)

theorem ordinary_base (b : Base) : Ordinary b.operand := by
  cases b with
  | zero => exact ordinary_of_number rfl
  | register r => exact ordinary_gpr r

theorem ordinary_source (s : Source) : Ordinary s.operand := by
  cases s with
  | register r => exact ordinary_gpr r
  | constant v => exact ordinary_of_number rfl

/-! ## Ordinary scripts -/

section Scripts

variable {a b : Operand} {record : Bool} {w : Width}

/-- A script that mentions ordinary operands only, and does not take control out of the expansion. -/
abbrev Tame {α : Type} (Q : α → Prop) (s : Script α) : Prop := s.Each (·.Confined Ordinary) Q

theorem tame_copy (first : Ordinary a) (second : Ordinary b) :
    Tame (fun _ => True) (copy a b) :=
  confined_copy common_ordinary first second

theorem tame_onlyIf {wanted : Bool} {s : Script Unit} (h : Tame (fun _ => True) s) :
    Tame (fun _ => True) (onlyIf wanted s) := by
  unfold onlyIf
  split
  · exact h
  · trivial

theorem tame_withOperand {script : Operand → Script Unit} {o : Option Operand}
    (h : ∀ a, o = some a → Tame (fun _ => True) (script a)) :
    Tame (fun _ => True) (withOperand script o) := by
  cases o with
  | none => trivial
  | some a => exact h a rfl

theorem ordinary_overflow : Ordinary (flagOperand overflowFlag) :=
  ordinary_flag (bitRegister_flag (by simp))

theorem ordinary_summary : Ordinary (flagOperand summaryFlag) :=
  ordinary_flag (bitRegister_flag (by simp))

theorem tame_writeOverflow (h : Ordinary a) : Tame (fun _ => True) (writeOverflow a) :=
  (tame_copy h ordinary_overflow).bind fun _ =>
    confined_emit (by decide) ordinary_summary ordinary_overflow ordinary_summary

/-- Only the four bits of the field are written. -/
theorem tame_setConditionField {field : ConditionField} (first : Ordinary a) (second : Ordinary b) :
    Tame (fun _ => True) (setConditionField field a b) := by
  refine (confined_binary common_ordinary (by decide) first second).bind fun either => ?_
  refine (confined_flagNot common_ordinary either).bind fun greater => ?_
  refine (tame_copy first (ordinary_condition field .lt)).bind fun _ => ?_
  refine (tame_copy greater (ordinary_condition field .gt)).bind fun _ => ?_
  exact (tame_copy second (ordinary_condition field .eq)).bind fun _ =>
    tame_copy ordinary_summary (ordinary_condition field .so)

theorem tame_recordResult (h : Ordinary a) : Tame (fun _ => True) (recordResult a) :=
  (confined_signBit common_ordinary h).bind fun less =>
    (confined_isZero common_ordinary h).bind fun equal => tame_setConditionField less equal

theorem tame_recordUndefined : Tame (fun _ => True) recordUndefined := by
  have undefined : ∀ bit, Tame (fun _ => True)
      (emit .undef .absent .absent (conditionOperand defaultField bit)) := fun bit =>
    confined_emit (by decide) common_ordinary.absent common_ordinary.absent
      (ordinary_condition defaultField bit)
  exact (undefined .lt).bind fun _ => (undefined .gt).bind fun _ => (undefined .eq).bind fun _ =>
    tame_copy ordinary_summary (ordinary_condition defaultField .so)

theorem tame_complementIf {wanted : Bool} (h : Ordinary a) :
    Tame Ordinary (complementIf wanted a) := by
  unfold complementIf
  split
  · exact confined_complement common_ordinary h
  · exact h

theorem tame_flagNotIf {wanted : Bool} (h : Ordinary a) : Tame Ordinary (flagNotIf wanted a) := by
  unfold flagNotIf
  split
  · exact confined_flagNot common_ordinary h
  · exact h

theorem tame_deliver {r : Gpr} (h : Ordinary a) : Tame (fun _ => True) (deliver a r record) :=
  (tame_copy h (ordinary_gpr r)).bind fun _ => tame_onlyIf (tame_recordResult (ordinary_gpr r))

/-! ### Arithmetic -/

/-- A sum mentions its registers, the flags of the exception register and condition field 0. -/
theorem tame_sum {kind : SumKind} {rd : Gpr} {first : Base} {second : Source} :
    Tame (fun _ => True) (expandSum kind rd first second) := by
  have carryIn : ∀ o, kind.carryIn.operand? = some o → Ordinary o := by
    intro o same
    cases carry : kind.carryIn with
    | clear =>
      rw [carry] at same
      cases same
    | set =>
      rw [carry] at same
      cases same
      exact ordinary_of_number rfl
    | flag =>
      rw [carry] at same
      cases same
      exact ordinary_flag (bitRegister_flag (by simp))
  refine (tame_complementIf (ordinary_base first)).bind fun source => ?_
  refine (confined_addWithCarry common_ordinary source (ordinary_source second) carryIn).bind
    fun {sum} added => ?_
  refine (tame_copy added.result (ordinary_gpr rd)).bind fun _ => ?_
  refine (tame_withOperand fun o same => tame_copy (added.carry o same)
    (ordinary_flag (bitRegister_flag (by simp)))).bind fun _ => ?_
  refine (tame_withOperand fun o same => tame_writeOverflow (added.overflow o same)).bind
    fun _ => ?_
  exact tame_onlyIf (tame_recordResult (ordinary_gpr rd))

theorem tame_signedProduct (first : Ordinary a) (second : Ordinary b) :
    Tame Ordinary (signedProduct a b) :=
  (confined_signExtend common_ordinary first).bind fun left =>
    (confined_signExtend common_ordinary second).bind fun right =>
      confined_binary common_ordinary (by decide) left right

theorem tame_exactProduct {signed : Bool} (first : Ordinary a) (second : Ordinary b) :
    Tame Ordinary (exactProduct signed a b) := by
  cases signed with
  | true => exact tame_signedProduct first second
  | false => exact confined_computed common_ordinary (by decide) first second

theorem tame_multiplyInto {overflow : Bool} {rd ra rb : Gpr} :
    Tame (fun _ => True) (multiplyInto overflow rd ra rb) := by
  have first := ordinary_gpr ra
  have second := ordinary_gpr rb
  cases overflow with
  | false =>
    exact (confined_binary common_ordinary (by decide) first second).bind fun low =>
      tame_copy low (ordinary_gpr rd)
  | true =>
    refine (tame_signedProduct first second).bind fun product k => ?_
    have low := common_ordinary.temporary k registerWidth
    refine ⟨⟨by decide, product, common_ordinary.absent, low⟩, ?_⟩
    refine (confined_signExtend common_ordinary low).bind fun back => ?_
    refine (confined_equal common_ordinary back product).bind fun fits => ?_
    refine (confined_flagNot common_ordinary fits).bind fun lost => ?_
    exact (tame_copy low (ordinary_gpr rd)).bind fun _ => tame_writeOverflow lost

theorem tame_divisionInvalid {signed : Bool} (first : Ordinary a) (second : Ordinary b) :
    Tame Ordinary (divisionInvalid signed a b) := by
  refine (confined_isZero common_ordinary second).bind fun zero => ?_
  split
  · refine (confined_equal common_ordinary first (ordinary_of_number rfl)).bind fun least => ?_
    refine (confined_equal common_ordinary second (ordinary_of_number rfl)).bind fun one => ?_
    exact (confined_binary common_ordinary (by decide) least one).bind fun both =>
      confined_binary common_ordinary (by decide) zero both
  · exact zero

theorem tame_quotient {signed : Bool} (first : Ordinary a) (second : Ordinary b) :
    Tame Ordinary (quotient signed a b) := by
  unfold quotient
  split
  · refine (confined_magnitude common_ordinary first).bind fun left => ?_
    refine (confined_magnitude common_ordinary second).bind fun right => ?_
    refine (confined_binary common_ordinary (by decide) left.1 right.1).bind fun q => ?_
    exact (confined_binary common_ordinary (by decide) left.2 right.2).bind fun sign =>
      confined_negateIf common_ordinary q sign
  · exact confined_binary common_ordinary (by decide) first second

/-- The jumps inside a division name its own labels, so control stays in the expansion. -/
theorem tame_divide {signed : Bool} {rd ra rb : Gpr} {overflow : Bool} :
    Tame (fun _ => True) (expandDivide signed rd ra rb overflow record) := by
  have first := ordinary_gpr ra
  have second := ordinary_gpr rb
  have one := ordinary_of_number (o := .integer 1 .byte) rfl
  refine (tame_divisionInvalid first second).bind fun invalid undefined done => ?_
  refine ⟨invalid, (tame_quotient first second).bind fun q => ?_⟩
  refine (tame_copy q (ordinary_gpr rd)).bind fun _ => ?_
  refine (tame_onlyIf (tame_writeOverflow (ordinary_of_number rfl))).bind fun _ => ?_
  refine (tame_onlyIf (tame_recordResult (ordinary_gpr rd))).bind fun _ => ⟨one, ?_⟩
  refine ⟨⟨by decide, common_ordinary.absent, common_ordinary.absent, ordinary_gpr rd⟩, ?_⟩
  refine (tame_onlyIf (tame_writeOverflow one)).bind fun _ => ?_
  exact (tame_onlyIf tame_recordUndefined).bind fun _ => trivial

/-! ### Bits -/

theorem tame_logic {kind : LogicKind} {ra rs rb : Gpr} :
    Tame (fun _ => True) (expandLogic kind ra rs rb record) :=
  (tame_complementIf (ordinary_gpr rb)).bind fun source =>
    (confined_binary common_ordinary (by cases kind <;> decide) (ordinary_gpr rs) source).bind
      fun combined => (tame_complementIf combined).bind fun result => tame_deliver result

theorem tame_registerAmount {r : Gpr} : Tame Ordinary (registerAmount r) :=
  confined_binary common_ordinary (by decide) (ordinary_gpr r) (ordinary_of_number rfl)

theorem tame_opposite (h : Ordinary a) : Tame Ordinary (opposite a) :=
  confined_binary common_ordinary (by decide) (ordinary_of_number rfl) h

theorem tame_shift {left : Bool} {ra rs rb : Gpr} :
    Tame (fun _ => True) (expandShift left ra rs rb record) := by
  refine tame_registerAmount.bind fun {size} magnitude => ?_
  have turned : Tame Ordinary (directed left size) := by
    unfold directed
    split
    · exact magnitude
    · exact tame_opposite magnitude
  refine turned.bind fun amount k => ?_
  have result := common_ordinary.temporary k registerWidth
  exact ⟨⟨by decide, ordinary_gpr rs, amount, result⟩, tame_deliver result⟩

theorem tame_amount {source : Source} : Tame Ordinary source.amount := by
  cases source with
  | register r => exact tame_registerAmount
  | constant v => exact ordinary_of_number rfl

/-- An algebraic shift mentions the carry besides its registers and condition field 0. -/
theorem tame_shiftAlgebraic {ra rs : Gpr} {amount : Source} :
    Tame (fun _ => True) (expandShiftAlgebraic ra rs amount record) := by
  refine tame_amount.bind fun amount => ?_
  refine (confined_signExtend common_ordinary (ordinary_gpr rs)).bind fun wide => ?_
  refine (tame_opposite amount).bind fun right j => ?_
  have shifted := common_ordinary.temporary j .oword
  refine ⟨⟨by decide, wide, right, shifted⟩, fun k => ?_⟩
  have back := common_ordinary.temporary k .oword
  refine ⟨⟨by decide, shifted, amount, back⟩, ?_⟩
  refine (confined_binary common_ordinary (by decide) back wide).bind fun lost => ?_
  refine (confined_isNonzero common_ordinary lost).bind fun anyLost => ?_
  refine (confined_signBit common_ordinary (ordinary_gpr rs)).bind fun negative => ?_
  refine (confined_binary common_ordinary (by decide) negative anyLost).bind fun carry l => ?_
  have result := common_ordinary.temporary l registerWidth
  refine ⟨⟨by decide, shifted, common_ordinary.absent, result⟩, ?_⟩
  refine (tame_copy result (ordinary_gpr ra)).bind fun _ => ?_
  refine (tame_copy carry (ordinary_flag (bitRegister_flag (by simp)))).bind fun _ => ?_
  exact tame_onlyIf (tame_recordResult (ordinary_gpr ra))

theorem tame_rotated {amount : Nat} (h : Ordinary a) : Tame Ordinary (rotated a amount) := by
  unfold rotated
  split
  · exact h
  · intro j
    have high := common_ordinary.temporary j registerWidth
    refine ⟨⟨by decide, h, ordinary_of_number rfl, high⟩, fun k => ?_⟩
    have low := common_ordinary.temporary k registerWidth
    exact ⟨⟨by decide, h, ordinary_of_number rfl, low⟩,
      confined_binary common_ordinary (by decide) high low⟩

theorem tame_rotate {ra rs : Gpr} {amount first last : Nat} :
    Tame (fun _ => True) (expandRotate ra rs amount first last record) :=
  (tame_rotated (ordinary_gpr rs)).bind fun all =>
    (confined_binary common_ordinary (by decide) all (ordinary_of_number rfl)).bind fun result =>
      tame_deliver result

/-! ### Comparison and memory -/

/-- A comparison mentions its sources and the bits of its field. -/
theorem tame_compare {signed : Bool} {field : ConditionField} {ra : Gpr} {second : Source} :
    Tame (fun _ => True) (expandCompare signed field ra second) := by
  have left := ordinary_gpr ra
  have right := ordinary_source second
  have order : Tame Ordinary (lessThan signed (gprOperand ra) second.operand) := by
    unfold lessThan
    split
    · exact confined_signedLess common_ordinary left right
    · exact confined_unsignedLess common_ordinary left right
  exact order.bind fun less => (confined_equal common_ordinary left right).bind fun same =>
    tame_setConditionField less same

theorem tame_effective {location : Location} : Tame Ordinary location.effective := by
  cases location with
  | displaced base displacement update =>
    exact confined_binary common_ordinary (by decide) (ordinary_base base) (ordinary_of_number rfl)
  | indexed base index =>
    exact confined_binary common_ordinary (by decide) (ordinary_base base) (ordinary_gpr index)

theorem tame_updated {mnemonic : String} {location : Location} :
    Tame (fun _ => True) (location.updated mnemonic) := by
  cases location with
  | displaced base displacement update =>
    cases update with
    | false => trivial
    | true => cases base <;> trivial
  | indexed => trivial

theorem tame_writeBack {base : Option Gpr} (h : Ordinary a) :
    Tame (fun _ => True) (writeBack a base) := by
  cases base with
  | none => trivial
  | some r => exact tame_copy h (ordinary_gpr r)

theorem tame_load {mnemonic : String} {signed : Bool} {rd : Gpr} {location : Location} :
    Tame (fun _ => True) (expandLoad mnemonic w signed rd location) := by
  refine tame_effective.bind fun address => tame_updated.bind fun {base} _ => ?_
  have refused : Tame (fun _ => True) (refuseUpdateOf mnemonic rd base) := by
    unfold refuseUpdateOf
    split <;> trivial
  refine refused.bind fun _ k => ?_
  have loaded := common_ordinary.temporary k w
  have extended : Tame Ordinary (signExtendIf signed (.register (temporaryName k) w)) := by
    unfold signExtendIf
    split
    · exact confined_signExtend common_ordinary loaded
    · exact loaded
  refine ⟨⟨by decide, address, common_ordinary.absent, loaded⟩, extended.bind fun value => ?_⟩
  exact (tame_copy value (ordinary_gpr rd)).bind fun _ => tame_writeBack address

theorem tame_store {mnemonic : String} {rs : Gpr} {location : Location} :
    Tame (fun _ => True) (expandStore mnemonic w rs location) := by
  refine tame_effective.bind fun address => tame_updated.bind fun _ => ?_
  have narrow : Tame Ordinary (narrowed w (gprOperand rs)) := by
    unfold narrowed
    split
    · intro k
      have low := common_ordinary.temporary k w
      exact ⟨⟨by decide, ordinary_gpr rs, common_ordinary.absent, low⟩, low⟩
    · exact ordinary_gpr rs
  refine narrow.bind fun value => ?_
  exact ⟨⟨by decide, value, common_ordinary.absent, address⟩, tame_writeBack address⟩

end Scripts

/-! ## Operations -/

namespace Operation

/-- Whether control may go elsewhere. -/
def branches : Operation → Bool
  | branch _ _ | branchThrough _ _ | branchIf _ _ _ | branchCounted _ => true
  | _ => false

/-- Whether a branch register is written. -/
def writes (r : BranchRegister) : Operation → Bool
  | branch link _ | branchThrough _ link => link && r == .link
  | branchCounted _ => r == .count
  | moveTo written _ => r == written
  | _ => false

/-- Whether a branch register is read. -/
def reads (r : BranchRegister) : Operation → Bool
  | branchThrough read _ | moveFrom read _ => r == read
  | branchCounted _ => r == .count
  | _ => false

/-- Whether an operation has to do with control or with a branch register. -/
def special : Operation → Bool
  | branch _ _ | branchThrough _ _ | branchIf _ _ _ | branchCounted _ | moveTo _ _ | moveFrom _ _ =>
    true
  | _ => false

/-- An operation that has nothing to do with control mentions ordinary operands only. -/
theorem ordinary {operation : Operation} (bitwise : operation.Bitwise)
    (plain : operation.special = false) (mnemonic : String) (address : Nat) :
    Tame (fun _ => True) (operation.expand mnemonic address) := by
  cases operation with
  | sum => exact tame_sum
  | loadConstant => exact tame_copy (ordinary_of_number rfl) (ordinary_gpr _)
  | multiplyLow =>
    exact tame_multiplyInto.bind fun _ => tame_onlyIf (tame_recordResult (ordinary_gpr _))
  | multiplyConstant =>
    exact (confined_binary common_ordinary (by decide) (ordinary_gpr _)
      (ordinary_of_number rfl)).bind fun low => tame_copy low (ordinary_gpr _)
  | multiplyHigh =>
    refine (tame_exactProduct (ordinary_gpr _) (ordinary_gpr _)).bind fun product => ?_
    exact ⟨⟨by decide, product, ordinary_of_number rfl, ordinary_gpr _⟩,
      tame_onlyIf (tame_recordResult (ordinary_gpr _))⟩
  | divide => exact tame_divide
  | logic => exact tame_logic
  | logicConstant opcode =>
    have stays : opcode ≠ .jcc := by
      rintro rfl
      rcases bitwise with same | same | same <;> cases same
    exact (confined_binary common_ordinary stays (ordinary_gpr _)
      (ordinary_of_number rfl)).bind fun result => tame_deliver result
  | move complement =>
    cases complement with
    | false => exact tame_deliver (ordinary_gpr _)
    | true =>
      exact (confined_complement common_ordinary (ordinary_gpr _)).bind fun result =>
        tame_deliver result
  | extend =>
    intro k
    have low := common_ordinary.temporary k
    exact ⟨⟨by decide, ordinary_gpr _, common_ordinary.absent, low _⟩,
      (confined_signExtend common_ordinary (low _)).bind fun extended => tame_deliver extended⟩
  | shift => exact tame_shift
  | shiftAlgebraic => exact tame_shiftAlgebraic
  | rotate => exact tame_rotate
  | compare => exact tame_compare
  | load => exact tame_load
  | store => exact tame_store
  | nop =>
    exact confined_emit (by decide) common_ordinary.absent common_ordinary.absent
      common_ordinary.absent
  | branch | branchThrough | branchIf | branchCounted | moveTo | moveFrom => cases plain

/-! ## Branches and branch registers -/

/-- A branch register is read or written. -/
def uses (operation : Operation) (r : BranchRegister) : Bool :=
  operation.reads r || operation.writes r

/-- An operand of an operation: an ordinary one, or a branch register that it uses. -/
def Takes (operation : Operation) (o : Operand) : Prop :=
  Ordinary o ∨ ∃ r, operation.uses r = true ∧ o = r.operand

/-- What an instruction in the expansion of an operation can touch. -/
structure Footprint (operation : Operation) (d : Draft) : Prop where
  counter : ¬ d.Mentions programCounter
  stays : operation.branches = false → ¬ d.Departs
  written : ∀ r, operation.writes r = false → ¬ d.Changes r.name
  mentioned : ∀ r, operation.uses r = false → ¬ d.Mentions r.name

variable {operation : Operation}

/-- No operand of an operation is the program counter. -/
theorem Takes.ne_programCounter {o : Operand} (h : operation.Takes o) :
    o.kind ≠ .register programCounter := by
  rcases h with plain | ⟨r, -, rfl⟩
  · exact plain.ne_programCounter
  · cases r <;> exact fun same => absurd (OperandKind.register.inj same) (by decide)

/-- An operand that is a branch register is one that is used. -/
theorem Takes.uses {o : Operand} (h : operation.Takes o) {r : BranchRegister}
    (kind : o.kind = .register r.name) : operation.uses r = true := by
  rcases h with plain | ⟨r', used, rfl⟩
  · exact absurd kind (plain.ne_branch r)
  · have same : r' = r := by
      cases r <;> cases r' <;>
        first | rfl | exact absurd (OperandKind.register.inj kind) (by decide)
    exact same ▸ used

/-- An instruction with ordinary operands is within the footprint of any operation. -/
theorem footprint_of_confined {d : Draft} (h : d.Confined Ordinary) : operation.Footprint d where
  counter := h.apart Ordinary.ne_programCounter
  stays _ := h.stays
  written r _ changes := h.apart (fun plain => plain.ne_branch r) changes.mentions
  mentioned r _ := h.apart fun plain => plain.ne_branch r

/-- An instruction that departs only if the operation branches, and writes what it writes. -/
theorem footprint_plain {opcode : Opcode} {a b c : Operand}
    (departs : opcode = .jcc → operation.branches = true) (first : operation.Takes a)
    (second : operation.Takes b) (third : operation.Takes c)
    (writes : opcode = .jcc ∨ ∀ r : BranchRegister, c.kind = .register r.name →
      operation.writes r = true) :
    operation.Footprint (.plain opcode a b c) where
  counter mentions := by
    rcases mentions with kind | kind | kind
    · exact first.ne_programCounter kind
    · exact second.ne_programCounter kind
    · exact third.ne_programCounter kind
  stays stays jump := by
    rw [departs jump] at stays
    cases stays
  written r unwritten changes := by
    obtain ⟨changes, kind⟩ := changes
    rcases writes with rfl | writes
    · rcases changes with changes | changes <;> cases changes
    · rw [writes r kind] at unwritten
      cases unwritten
  mentioned r unused mentions := by
    have used : operation.uses r = true := by
      rcases mentions with kind | kind | kind
      · exact first.uses kind
      · exact second.uses kind
      · exact third.uses kind
    rw [used] at unused
    cases unused

theorem takes_number {o : Operand} {v : Nat} (h : o.kind = .integer v) : operation.Takes o :=
  .inl (ordinary_of_number h)

theorem takes_absent : operation.Takes .absent := .inl common_ordinary.absent

theorem takes_branch {r : BranchRegister} (h : operation.uses r = true) :
    operation.Takes r.operand :=
  .inr ⟨r, h, rfl⟩

/-- A jump out of the expansion of a branch. -/
theorem footprint_leaveTo (branches : operation.branches = true) {a b : Operand}
    (first : operation.Takes a) (third : operation.Takes b) :
    (leaveTo a b).Each operation.Footprint fun _ => True :=
  ⟨footprint_plain (fun _ => branches) first takes_absent third (.inl rfl), trivial⟩

/-- A move to a register that is written, if it is a branch register. -/
theorem footprint_copy {a b : Operand} (first : operation.Takes a) (third : operation.Takes b)
    (writes : ∀ r : BranchRegister, b.kind = .register r.name → operation.writes r = true) :
    (copy a b).Each operation.Footprint fun _ => True :=
  ⟨footprint_plain nofun first takes_absent third (.inr writes), trivial⟩

/-- A saved link writes the link register and nothing else. -/
theorem footprint_saveLink {address : Nat} (writes : operation.writes .link = true) :
    (saveLink address).Each operation.Footprint fun _ => True := by
  have used : operation.uses .link = true := by rw [uses, writes, Bool.or_true]
  refine footprint_copy (takes_number rfl) (takes_branch used) fun r kind => ?_
  cases r with
  | link => exact writes
  | count => exact absurd (OperandKind.register.inj kind) (by decide)

/-- A branch through a register reads it, and writes the link register if it links. -/
theorem footprint_branchThrough {register : BranchRegister} {link : Bool} (address : Nat) :
    (expandBranchThrough address register link).Each (branchThrough register link).Footprint
      fun _ => True := by
  have used : (branchThrough register link).uses register = true := by
    simp [uses, reads]
  cases link with
  | false => exact footprint_leaveTo rfl (takes_number rfl) (takes_branch used)
  | true =>
    intro k
    have saved := common_ordinary.temporary k registerWidth
    refine ⟨footprint_plain nofun (takes_branch used) takes_absent (.inl saved)
      (.inr fun r kind => absurd kind (saved.ne_branch r)), ?_⟩
    exact (footprint_saveLink rfl).bind fun _ =>
      footprint_leaveTo rfl (takes_number rfl) (.inl saved)

/-- A conditional branch reads a bit, which is an ordinary operand. -/
theorem footprint_branchIf {condition : Condition} {field : ConditionField} {target : Nat} :
    (expandBranchIf condition field target).Each (branchIf condition field target).Footprint
      fun _ => True := by
  have tested : (flagNotIf condition.test.2 (conditionOperand field condition.test.1)).Each
      (branchIf condition field target).Footprint Ordinary :=
    (tame_flagNotIf (ordinary_condition field condition.test.1)).mono footprint_of_confined id
  exact tested.bind fun taken => footprint_leaveTo rfl (.inl taken) (takes_number rfl)

/-- A counted branch reads and writes the count register. -/
theorem footprint_branchCounted {target : Nat} :
    (expandBranchCounted target).Each (branchCounted target).Footprint fun _ => True := by
  intro k
  have count := common_ordinary.temporary k registerWidth
  have writes : (branchCounted target).writes .count = true := rfl
  have used : (branchCounted target).Takes BranchRegister.count.operand := takes_branch rfl
  refine ⟨footprint_plain nofun used (takes_number rfl) (.inl count)
    (.inr fun r kind => absurd kind (count.ne_branch r)), ?_⟩
  refine (footprint_copy (.inl count) used fun r kind => ?_).bind fun _ => ?_
  · cases r with
    | link => exact absurd (OperandKind.register.inj kind) (by decide)
    | count => exact writes
  · have tested := (confined_isNonzero common_ordinary count).mono
      (D := (branchCounted target).Footprint) footprint_of_confined id
    exact tested.bind fun taken => footprint_leaveTo rfl (.inl taken) (takes_number rfl)

/-- What the instructions in the expansion of an operation can touch. -/
theorem footprint (bitwise : operation.Bitwise) (mnemonic : String) (address : Nat) :
    (operation.expand mnemonic address).Each operation.Footprint fun _ => True := by
  by_cases plain : operation.special = false
  · exact (ordinary bitwise plain mnemonic address).mono footprint_of_confined id
  · cases operation with
    | branch link target =>
      cases link with
      | false => exact footprint_leaveTo rfl (takes_number rfl) (takes_number rfl)
      | true =>
        exact (footprint_saveLink rfl).bind fun _ =>
          footprint_leaveTo rfl (takes_number rfl) (takes_number rfl)
    | branchThrough => exact footprint_branchThrough address
    | branchIf => exact footprint_branchIf
    | branchCounted => exact footprint_branchCounted
    | moveTo register source =>
      refine footprint_copy (.inl (ordinary_gpr source)) (takes_branch ?_) fun r kind => ?_
      · simp [uses, writes]
      · have same : register = r := by
          cases r <;> cases register <;>
            first | rfl | exact absurd (OperandKind.register.inj kind) (by decide)
        simp [writes, same]
    | moveFrom register destination =>
      refine footprint_copy (takes_branch ?_) (.inl (ordinary_gpr destination)) fun r kind =>
        absurd kind ((ordinary_gpr destination).ne_branch r)
      simp [uses, reads]
    | _ => exact absurd rfl plain

end Operation

end RegisterTransfer.PowerPC
