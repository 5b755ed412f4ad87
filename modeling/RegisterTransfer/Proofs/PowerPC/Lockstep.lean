import RegisterTransfer.PowerPC.Expansion
import RegisterTransfer.Proofs.Computations

/-!
# Expansions in lockstep

The script of every operation is in lockstep with itself, however far the temporaries of the two are
apart: widths fit, temporaries are written before they are read, labels are bound once, and only
divisions divide. One lemma an expansion, then

> `Operation.lockstep`: the script of an operation keeps the discipline, and writes at least one
> instruction.
-/

namespace RegisterTransfer.PowerPC

open Script

variable {division : Prop} {d : Nat} {Γ : Scope} {a a' b b' : Operand} {w : Width}

/-! ## Operands -/

/-- A general purpose register is no temporary, so both sides may read it at any time. -/
theorem reads_gpr (Γ : Scope) (d : Nat) (r : Gpr) : Γ.Reads d (gprOperand r) (gprOperand r) :=
  .native (isTemporary_gprName r) _

theorem reads_flag (Γ : Scope) (d : Nat) {name : String} (native : isTemporary name = false) :
    Γ.Reads d (flagOperand name) (flagOperand name) :=
  .native native _

theorem reads_branch (Γ : Scope) (d : Nat) (r : BranchRegister) :
    Γ.Reads d r.operand r.operand :=
  .native (isTemporary_branchRegister r) _

theorem reads_base (Γ : Scope) (d : Nat) (b : Base) : Γ.Reads d b.operand b.operand := by
  cases b with
  | zero => exact .integer _ _
  | register r => exact reads_gpr Γ d r

theorem reads_source (Γ : Scope) (d : Nat) (s : Source) : Γ.Reads d s.operand s.operand := by
  cases s with
  | register r => exact reads_gpr Γ d r
  | constant v => exact .integer _ _

theorem width_base (b : Base) : b.operand.width = registerWidth := by cases b <;> rfl

theorem width_source (s : Source) : s.operand.width = registerWidth := by cases s <;> rfl

/-- The carry that goes in is the same on both sides, or there is none on both. -/
theorem reads_carryIn (Γ : Scope) (d : Nat) (c : CarryIn) :
    Option.Rel (Γ.Reads d) c.operand? c.operand? := by
  cases c with
  | clear => exact .none
  | set => exact .some (.integer _ _)
  | flag => exact .some (reads_flag Γ d isTemporary_carryFlag)

theorem width_carryIn (c : CarryIn) {o : Operand} (h : c.operand? = some o) : o.width = .byte := by
  cases c <;> cases h <;> rfl

/-! ## Moves and flags -/

/-- Behind a script that only writes instructions, and at least one. -/
def Moves (Γ : Scope) (_ _ : Unit) (Γ' : Scope) : Prop := Γ.Advances Γ'

/-- Behind a script that only writes instructions, if any. -/
def Leads (Γ : Scope) (_ _ : Unit) (Γ' : Scope) : Prop := Γ.Extends Γ'

theorem lockstep_copy {name : String} (native : isTemporary name = false) (h : Γ.Reads d a a') :
    Lockstep division d (Moves Γ) Γ (copy a (.register name w)) (copy a' (.register name w)) :=
  .assign (.pass (.inr (.inl rfl)) h) native (.done Γ.advances_next)

theorem lockstep_undefine {name : String} (native : isTemporary name = false) :
    Lockstep division d (Moves Γ) Γ (emit .undef .absent .absent (.register name w))
      (emit .undef .absent .absent (.register name w)) :=
  .undefine native (.done Γ.advances_next)

/-- A script that may be left out advances, or it stays where it is. -/
theorem lockstep_onlyIf (wanted : Bool) {s t : Script Unit}
    (h : Lockstep division d (Moves Γ) Γ s t) :
    Lockstep division d (Leads Γ) Γ (onlyIf wanted s) (onlyIf wanted t) := by
  unfold onlyIf
  split
  · exact h.mono Scope.Advances.toExtends
  · exact .done (.refl Γ)

/-- A script on an operand that is there on both sides or on none. -/
theorem lockstep_withOperand {script : Operand → Script Unit} {o o' : Option Operand}
    (h : Option.Rel (Γ.Reads d) o o')
    (each : ∀ {a a'}, Γ.Reads d a a' → Lockstep division d (Moves Γ) Γ (script a) (script a')) :
    Lockstep division d (Leads Γ) Γ (withOperand script o) (withOperand script o') := by
  cases h with
  | none => exact .done (.refl Γ)
  | some h => exact (each h).mono Scope.Advances.toExtends

theorem lockstep_complementIf (wanted : Bool) (h : Γ.Reads d a a') :
    Lockstep division d (Γ.Yields d a.width) Γ (complementIf wanted a) (complementIf wanted a')
    := by
  unfold complementIf
  split
  · exact .complement h
  · exact .done (.of_reads h)

theorem lockstep_flagNotIf (wanted : Bool) (h : Γ.Reads d a a') :
    Lockstep division d (Γ.Yields d a.width) Γ (flagNotIf wanted a) (flagNotIf wanted a') := by
  unfold flagNotIf
  split
  · exact .flagNot h
  · exact .done (.of_reads h)

/-- The overflow flag and the summary flag are written without a temporary. -/
theorem lockstep_writeOverflow (h : Γ.Reads d a a') :
    Lockstep division d (Moves Γ) Γ (writeOverflow a) (writeOverflow a') := by
  refine (lockstep_copy isTemporary_overflowFlag h).bind fun _ _ Γ₁ moved => ?_
  refine .assign (.combine rfl nofun rfl (reads_flag _ _ isTemporary_summaryFlag)
    (reads_flag _ _ isTemporary_overflowFlag)) isTemporary_summaryFlag (.done ?_)
  exact moved.extends Γ₁.extends_next

/-- The four moves of a condition field come behind two temporaries, which are written by then. -/
theorem lockstep_setConditionField (field : ConditionField) (less : Γ.Reads d a a')
    (equal : Γ.Reads d b b') (width : a.width = .byte) (width' : b.width = .byte) :
    Lockstep division d (Moves Γ) Γ (setConditionField field a b) (setConditionField field a' b')
    := by
  refine (Lockstep.bitwise (.inr (.inl rfl)) (width.trans width'.symm) less equal).bind
    fun o o' Γ₁ either => ?_
  refine (Lockstep.flagNot either.reads).bind fun g g' Γ₂ greater => ?_
  have grows := either.grows.trans greater.grows
  refine (lockstep_copy (isTemporary_conditionBitName ..) (less.extend grows)).bind
    fun _ _ Γ₃ first => ?_
  refine (lockstep_copy (isTemporary_conditionBitName ..)
    (greater.reads.extend first.toExtends)).bind fun _ _ Γ₄ second => ?_
  have behind := (grows.advances first).extends second.toExtends
  refine (lockstep_copy (isTemporary_conditionBitName ..)
    (equal.extend behind.toExtends)).bind fun _ _ Γ₅ third => ?_
  refine (lockstep_copy (isTemporary_conditionBitName ..)
    (reads_flag _ _ isTemporary_summaryFlag)).mono fun last => ?_
  exact (behind.extends third.toExtends).extends last.toExtends

/-- The sign and the test for zero both read the result before the first bit is written. -/
theorem lockstep_recordResult (h : Γ.Reads d a a') :
    Lockstep division d (Moves Γ) Γ (recordResult a) (recordResult a') := by
  refine (Lockstep.signBit h).bind fun less less' Γ₁ sign => ?_
  refine (Lockstep.isZero (h.extend sign.grows)).bind fun equal equal' Γ₂ zero => ?_
  refine (lockstep_setConditionField _ (sign.reads.extend zero.grows) zero.reads sign.width
    zero.width).mono fun set => ?_
  exact (sign.grows.trans zero.grows).advances set

theorem lockstep_recordUndefined :
    Lockstep division d (Moves Γ) Γ recordUndefined recordUndefined := by
  refine (lockstep_undefine (isTemporary_conditionBitName ..)).bind fun _ _ Γ₁ first => ?_
  refine (lockstep_undefine (isTemporary_conditionBitName ..)).bind fun _ _ Γ₂ second => ?_
  refine (lockstep_undefine (isTemporary_conditionBitName ..)).bind fun _ _ Γ₃ third => ?_
  refine (lockstep_copy (isTemporary_conditionBitName ..)
    (reads_flag _ _ isTemporary_summaryFlag)).mono fun last => ?_
  exact ((first.extends second.toExtends).extends third.toExtends).extends last.toExtends

/-! ## Sums, products and quotients -/

/-- A sum reads its sources before it writes a register, so they may coincide with it. -/
theorem lockstep_expandSum (kind : SumKind) (rd : Gpr) (first : Base) (second : Source) :
    Lockstep division d (Moves Γ) Γ (expandSum kind rd first second)
      (expandSum kind rd first second) := by
  refine (lockstep_complementIf _ (reads_base Γ d first)).bind fun a a' Γ₁ left => ?_
  have same : second.operand.width = a.width := by
    rw [width_source, left.width, width_base]
  refine (Lockstep.addWithCarry _ same left.reads (reads_source _ _ second)
    (reads_carryIn _ _ _) fun o => width_carryIn _).bind fun sum sum' Γ₂ sums => ?_
  refine (lockstep_copy (isTemporary_gprName rd) sums.result.reads).bind fun _ _ Γ₃ moved => ?_
  have behind := (left.grows.trans sums.result.grows).advances moved
  refine (lockstep_withOperand (Lockstep.extend_option sums.carry moved.toExtends)
    (lockstep_copy isTemporary_carryFlag)).bind fun _ _ Γ₄ carries => ?_
  refine (lockstep_withOperand
    (Lockstep.extend_option sums.overflow (moved.toExtends.trans carries))
    lockstep_writeOverflow).bind fun _ _ Γ₅ overflows => ?_
  refine (lockstep_onlyIf _ (lockstep_recordResult (reads_gpr ..))).mono fun records => ?_
  exact ((behind.extends carries).extends overflows).extends records

/-- Both factors are extended to 64 bits, which is the width of the product. -/
theorem lockstep_signedProduct (first : Γ.Reads d a a') (second : Γ.Reads d b b') :
    Lockstep division d (Γ.Yields d .qword) Γ (signedProduct a b) (signedProduct a' b') := by
  refine (Lockstep.signExtend first).bind fun o o' Γ₁ left => ?_
  refine (Lockstep.signExtend (second.extend left.grows)).bind fun p p' Γ₂ right => ?_
  refine (Lockstep.arithmetic (.inr (.inr rfl)) (left.width.trans right.width.symm)
    (left.reads.extend right.grows) right.reads).mono fun h => ?_
  exact left.width ▸ (h.after right.grows).after left.grows

/-- Factors as wide as a register fit a product of 64 bits without an extension. -/
theorem lockstep_unsignedProduct (first : Γ.Reads d a a') (second : Γ.Reads d b b')
    (width : a.width = registerWidth) (width' : b.width = registerWidth) :
    Lockstep division d (Γ.Yields d .qword) Γ (unsignedProduct a b) (unsignedProduct a' b') := by
  refine .computed (.combine rfl nofun ?_ first second)
  rw [width, width']
  show ¬ Width.qword < max .dword .dword
  decide

theorem lockstep_exactProduct (signed : Bool) (ra rb : Gpr) :
    Lockstep division d (Γ.Yields d .qword) Γ
      (exactProduct signed (gprOperand ra) (gprOperand rb))
      (exactProduct signed (gprOperand ra) (gprOperand rb)) := by
  unfold exactProduct
  split
  · exact lockstep_signedProduct (reads_gpr ..) (reads_gpr ..)
  · exact lockstep_unsignedProduct (reads_gpr ..) (reads_gpr ..) rfl rfl

/-- The low half is compared with the product before either is moved. -/
theorem lockstep_multiplyChecked (rd ra rb : Gpr) :
    Lockstep division d (Moves Γ) Γ (multiplyChecked rd ra rb) (multiplyChecked rd ra rb) := by
  refine (lockstep_signedProduct (reads_gpr Γ d ra) (reads_gpr Γ d rb)).bind
    fun p p' Γ₁ product => ?_
  refine .computing (.pass (.inr (.inl rfl)) product.reads) fun {l l' Γ₂} low => ?_
  refine (Lockstep.signExtend low.reads).bind fun b b' Γ₃ back => ?_
  refine (Lockstep.equal (back.width.trans product.width.symm) back.reads
    (product.reads.extend (low.grows.trans back.grows))).bind fun f f' Γ₄ fits => ?_
  refine (Lockstep.flagNot fits.reads).bind fun o o' Γ₅ lost => ?_
  have behind := (back.grows.trans fits.grows).trans lost.grows
  refine (lockstep_copy (isTemporary_gprName rd) (low.reads.extend behind)).bind
    fun _ _ Γ₆ moved => ?_
  refine (lockstep_writeOverflow (lost.reads.extend moved.toExtends)).mono fun overflow => ?_
  exact (((product.grows.trans low.grows).trans behind).advances moved).extends overflow.toExtends

theorem lockstep_multiplyUnchecked (rd ra rb : Gpr) :
    Lockstep division d (Moves Γ) Γ (multiplyUnchecked rd ra rb) (multiplyUnchecked rd ra rb) := by
  have same : (gprOperand ra).width = (gprOperand rb).width := rfl
  refine (Lockstep.arithmetic (.inr (.inr rfl)) same (reads_gpr Γ d ra) (reads_gpr Γ d rb)).bind
    fun l l' Γ₁ low => ?_
  exact (lockstep_copy (isTemporary_gprName rd) low.reads).mono fun moved =>
    low.grows.advances moved

/-- What a script moves to a register may be recorded. -/
theorem lockstep_recorded {s t : Script Unit} (r : Gpr) (record : Bool)
    (h : Lockstep division d (Moves Γ) Γ s t) :
    Lockstep division d (Moves Γ) Γ (s >>= fun _ => onlyIf record (recordResult (gprOperand r)))
      (t >>= fun _ => onlyIf record (recordResult (gprOperand r))) := by
  refine h.bind fun _ _ Γ₁ moved => ?_
  exact (lockstep_onlyIf _ (lockstep_recordResult (reads_gpr ..))).mono fun records =>
    moved.extends records

theorem lockstep_expandMultiplyLow (rd ra rb : Gpr) (overflow record : Bool) :
    Lockstep division d (Moves Γ) Γ (expandMultiplyLow rd ra rb overflow record)
      (expandMultiplyLow rd ra rb overflow record) := by
  refine lockstep_recorded rd record ?_
  unfold multiplyInto
  split
  · exact lockstep_multiplyChecked rd ra rb
  · exact lockstep_multiplyUnchecked rd ra rb

theorem lockstep_expandMultiplyHigh (signed : Bool) (rd ra rb : Gpr) (record : Bool) :
    Lockstep division d (Moves Γ) Γ (expandMultiplyHigh signed rd ra rb record)
      (expandMultiplyHigh signed rd ra rb record) := by
  refine (lockstep_exactProduct signed ra rb).bind fun p p' Γ₁ product => ?_
  refine .mono (lockstep_recorded rd record ?_) fun moves => product.grows.advances moves
  exact .assign (.combine rfl nofun trivial product.reads (.integer _ _))
    (isTemporary_gprName rd) (.done Γ₁.advances_next)

/-- The tests for a missing quotient read the sources only, and do not divide. -/
theorem lockstep_divisionInvalid (signed : Bool) (ra rb : Gpr) :
    Lockstep division d (Γ.Yields d .byte) Γ
      (divisionInvalid signed (gprOperand ra) (gprOperand rb))
      (divisionInvalid signed (gprOperand ra) (gprOperand rb)) := by
  refine (Lockstep.isZero (reads_gpr Γ d rb)).bind fun z z' Γ₁ zero => ?_
  split
  · refine (Lockstep.equal ?_ (reads_gpr ..) (.integer _ _)).bind fun l l' Γ₂ least => ?_
    · rfl
    refine (Lockstep.equal ?_ (reads_gpr ..) (.integer _ _)).bind fun m m' Γ₃ minus => ?_
    · rfl
    refine (Lockstep.bitwise (.inl rfl) (least.width.trans minus.width.symm)
      (least.reads.extend minus.grows) minus.reads).bind fun b b' Γ₄ both => ?_
    have behind := (least.grows.trans minus.grows).trans both.grows
    refine (Lockstep.bitwise (.inr (.inl rfl)) ?_ (zero.reads.extend behind) both.reads).mono
      fun h => ?_
    · rw [zero.width, both.width, least.width]
    · exact zero.width ▸ (h.after behind).after zero.grows
  · exact .done zero

/-- A quotient divides, which the two sides may do only if `division` allows it. -/
theorem lockstep_quotient (divides : division) (signed : Bool) (ra rb : Gpr) :
    Lockstep division d (Γ.Yields d registerWidth) Γ
      (quotient signed (gprOperand ra) (gprOperand rb))
      (quotient signed (gprOperand ra) (gprOperand rb)) := by
  unfold quotient
  split
  · refine (Lockstep.magnitude (reads_gpr Γ d ra)).bind fun m m' Γ₁ ⟨left, leftSign⟩ => ?_
    refine (Lockstep.magnitude (reads_gpr Γ₁ d rb)).bind fun n n' Γ₂ ⟨right, rightSign⟩ => ?_
    refine (Lockstep.divide divides (left.reads.extend right.grows) right.reads).bind fun q q' Γ₃ quotient => ?_
    refine (Lockstep.bitwise (.inr (.inr rfl)) (leftSign.width.trans rightSign.width.symm)
      ((leftSign.reads.extend right.grows).extend quotient.grows)
      (rightSign.reads.extend quotient.grows)).bind fun g g' Γ₄ negative => ?_
    refine (Lockstep.negateIf (negative.width.trans leftSign.width)
      (quotient.reads.extend negative.grows) negative.reads).mono fun h => ?_
    have width : q.width = registerWidth := quotient.width.trans left.width
    exact width ▸ (((h.after negative.grows).after quotient.grows).after right.grows).after
      left.grows
  · exact .divide divides (reads_gpr ..) (reads_gpr ..)

/-- Behind a division: both labels are bound, and something is written. -/
theorem lockstep_expandDivide (divides : division) (closed : Γ.labels = []) (signed : Bool)
    (rd ra rb : Gpr) (overflow record : Bool) :
    Lockstep division d (fun _ _ Γ' => Γ.size < Γ'.size) Γ
      (expandDivide signed rd ra rb overflow record)
      (expandDivide signed rd ra rb overflow record) := by
  refine (lockstep_divisionInvalid signed ra rb).bind fun i i' Γ₁ invalid => ?_
  have none_yet : Γ₁.labels = [] := invalid.grows.labels.trans closed
  have first : (⟨Γ₁.labels.length⟩ : Label) = ⟨0⟩ := by rw [none_yet]; rfl
  have second : (⟨Γ₁.create.labels.length⟩ : Label) = ⟨1⟩ := by simp [Scope.create, none_yet]
  refine .create (.create ?_)
  rw [first, second]
  refine .leave (invalid.reads.of_held fun _ h => h) (by simp [Scope.create, none_yet]) ?_
  -- the arm with a quotient
  refine (lockstep_quotient divides signed ra rb).bind fun q q' Γ₂ quotient => ?_
  refine (lockstep_copy (isTemporary_gprName rd) quotient.reads).bind fun _ _ Γ₃ moved => ?_
  refine (lockstep_onlyIf overflow (lockstep_writeOverflow (.integer _ _))).bind
    fun _ _ Γ₄ clears => ?_
  refine (lockstep_onlyIf record (lockstep_recordResult (reads_gpr _ _ rd))).bind
    fun _ _ Γ₅ records => ?_
  have arm := ((quotient.grows.advances moved).extends clears).extends records
  have labels : Γ₅.labels = [.sought Γ₁.held, .fresh] := by
    rw [arm.labels]
    simp [Scope.create, Scope.leave, Scope.next, none_yet]
  refine .leave (.integer _ _) (by rw [labels]; rfl) ?_
  -- the arm without one, where the label is bound at which the first jump arrives
  have sought : (Γ₅.leave ⟨1⟩).labels[0]? = some (.sought Γ₁.held) := by
    simp [Scope.leave, Scope.next, labels]
  refine .attach sought ?_
  refine (lockstep_undefine (isTemporary_gprName rd)).bind fun _ _ Γ₆ undefined => ?_
  refine (lockstep_onlyIf overflow (lockstep_writeOverflow (.integer _ _))).bind
    fun _ _ Γ₇ sets => ?_
  refine (lockstep_onlyIf record lockstep_recordUndefined).bind fun _ _ Γ₈ records' => ?_
  have other := (undefined.extends sets).extends records'
  have sought' : Γ₈.labels[1]? = some (.sought Γ₅.held) := by
    rw [other.labels]
    simp [Scope.attach, Scope.leave, Scope.next, labels]
  refine .attach sought' (.done ?_)
  calc Γ.size ≤ Γ₁.size := invalid.grows.size
    _ ≤ ((Γ₁.create.create).leave ⟨0⟩).size := Nat.le_succ _
    _ < Γ₅.size := arm.further
    _ ≤ ((Γ₅.leave ⟨1⟩).attach ⟨0⟩ Γ₁.held).size := Nat.le_succ _
    _ ≤ Γ₈.size := other.size

/-! ## Bitwise operations and shifts -/

theorem lockstep_deliver (r : Gpr) (record : Bool) (h : Γ.Reads d a a') :
    Lockstep division d (Moves Γ) Γ (deliver a r record) (deliver a' r record) :=
  lockstep_recorded r record (lockstep_copy (isTemporary_gprName r) h)

/-- Every bitwise operation is a conjunction, a disjunction or an exclusive disjunction at heart. -/
theorem opcode_bitwise (kind : LogicKind) :
    kind.opcode = .and ∨ kind.opcode = .or ∨ kind.opcode = .xor := by
  cases kind <;> simp [LogicKind.opcode]

/-- A complement before and one behind the operation keep its width. -/
theorem lockstep_expandLogic (kind : LogicKind) (ra rs rb : Gpr) (record : Bool) :
    Lockstep division d (Moves Γ) Γ (expandLogic kind ra rs rb record)
      (expandLogic kind ra rs rb record) := by
  refine (lockstep_complementIf _ (reads_gpr Γ d rb)).bind fun b b' Γ₁ second => ?_
  have same : (gprOperand rs).width = b.width := second.width.symm
  refine (Lockstep.bitwise (opcode_bitwise kind) same (reads_gpr _ _ rs) second.reads).bind
    fun c c' Γ₂ combined => ?_
  refine (lockstep_complementIf _ combined.reads).bind fun r r' Γ₃ result => ?_
  refine (lockstep_deliver ra record result.reads).mono fun moves => ?_
  exact ((second.grows.trans combined.grows).trans result.grows).advances moves

/-- A number as wide as a register needs no temporary. -/
theorem lockstep_expandLogicConstant {opcode : Opcode}
    (bitwise : opcode = .and ∨ opcode = .or ∨ opcode = .xor) (ra rs : Gpr) (value : Nat)
    (record : Bool) :
    Lockstep division d (Moves Γ) Γ (expandLogicConstant opcode ra rs value record)
      (expandLogicConstant opcode ra rs value record) := by
  have same : (gprOperand rs).width = (Operand.integer value registerWidth).width := rfl
  refine (Lockstep.bitwise bitwise same (reads_gpr Γ d rs) (.integer _ _)).bind
    fun r r' Γ₁ result => ?_
  exact (lockstep_deliver ra record result.reads).mono fun moves => result.grows.advances moves

theorem lockstep_expandExtend (width : Width) (ra rs : Gpr) (record : Bool) :
    Lockstep division d (Moves Γ) Γ (expandExtend width ra rs record)
      (expandExtend width ra rs record) := by
  refine .computing (.pass (.inr (.inl rfl)) (reads_gpr Γ d rs)) fun {l l' Γ₁} low => ?_
  refine (Lockstep.signExtend low.reads).bind fun e e' Γ₂ extended => ?_
  refine (lockstep_deliver ra record extended.reads).mono fun moves => ?_
  exact (low.grows.trans extended.grows).advances moves

theorem lockstep_opposite (h : Γ.Reads d a a') :
    Lockstep division d (Γ.Yields d a.width) Γ (opposite a) (opposite a') := by
  unfold opposite
  rw [h.width]
  have same : (Operand.integer 0 a.width).width = a.width := rfl
  exact .arithmetic (.inr (.inl rfl)) same (.integer _ _) h

/-- The low six bits of a register are taken at its own width. -/
theorem lockstep_registerAmount (r : Gpr) :
    Lockstep division d (Γ.Yields d registerWidth) Γ (registerAmount r) (registerAmount r) := by
  have same : (gprOperand r).width = (Operand.integer 0x3F registerWidth).width := rfl
  exact .bitwise (.inl rfl) same (reads_gpr ..) (.integer _ _)

/-- A shift amount is a temporary or a number, and as wide as a register. -/
theorem lockstep_amount (s : Source) :
    Lockstep division d (Γ.Yields d registerWidth) Γ s.amount s.amount := by
  cases s with
  | register r => exact lockstep_registerAmount r
  | constant v => exact .done (.of_reads (.integer _ _))

theorem lockstep_directed (left : Bool) (h : Γ.Reads d a a') :
    Lockstep division d (Γ.Yields d a.width) Γ (directed left a) (directed left a') := by
  unfold directed
  split
  · exact .done (.of_reads h)
  · exact lockstep_opposite h

/-- A shift takes an amount of any width, so only the value that is shifted has to fit. -/
theorem lockstep_expandShift (left : Bool) (ra rs rb : Gpr) (record : Bool) :
    Lockstep division d (Moves Γ) Γ (expandShift left ra rs rb record)
      (expandShift left ra rs rb record) := by
  refine (lockstep_registerAmount rb).bind fun m m' Γ₁ magnitude => ?_
  refine (lockstep_directed left magnitude.reads).bind fun n n' Γ₂ amount => ?_
  refine .computing (.combine rfl nofun trivial (reads_gpr ..) amount.reads)
    fun {r r' Γ₃} result => ?_
  refine (lockstep_deliver ra record result.reads).mono fun moves => ?_
  exact ((magnitude.grows.trans amount.grows).trans result.grows).advances moves

/--
Each temporary is read behind its own write only; the wide source and the amount are read twice,
with others written in between.
-/
theorem lockstep_expandShiftAlgebraic (ra rs : Gpr) (amount : Source) (record : Bool) :
    Lockstep division d (Moves Γ) Γ (expandShiftAlgebraic ra rs amount record)
      (expandShiftAlgebraic ra rs amount record) := by
  refine (lockstep_amount amount).bind fun n n' Γ₁ amount => ?_
  refine (Lockstep.signExtend (reads_gpr _ _ rs)).bind fun w w' Γ₂ wide => ?_
  refine (lockstep_opposite (amount.reads.extend wide.grows)).bind fun o o' Γ₃ right => ?_
  refine .computing (.combine rfl nofun trivial (wide.reads.extend right.grows) right.reads)
    fun {s s' Γ₄} shifted => ?_
  have since_wide := right.grows.trans shifted.grows
  refine .computing (.combine rfl nofun trivial shifted.reads
    (amount.reads.extend (wide.grows.trans since_wide))) fun {b b' Γ₅} back => ?_
  refine (Lockstep.bitwise (.inr (.inr rfl)) (back.width.trans wide.width.symm) back.reads
    (wide.reads.extend (since_wide.trans back.grows))).bind fun l l' Γ₆ lost => ?_
  refine (Lockstep.isNonzero lost.reads).bind fun y y' Γ₇ anyLost => ?_
  refine (Lockstep.signBit (reads_gpr _ _ rs)).bind fun g g' Γ₈ negative => ?_
  refine (Lockstep.bitwise (.inl rfl) (negative.width.trans anyLost.width.symm) negative.reads
    (anyLost.reads.extend negative.grows)).bind fun c c' Γ₉ carry => ?_
  have since_shifted := (((back.grows.trans lost.grows).trans anyLost.grows).trans
    negative.grows).trans carry.grows
  refine .computing (.pass (.inr (.inl rfl)) (shifted.reads.extend since_shifted))
    fun {r r' Γ₁₀} result => ?_
  refine (lockstep_copy (isTemporary_gprName ra) result.reads).bind fun _ _ Γ₁₁ moved => ?_
  refine .mono (lockstep_recorded ra record (lockstep_copy isTemporary_carryFlag
    (carry.reads.extend (result.grows.trans moved.toExtends)))) fun moves => ?_
  have before := (amount.grows.trans wide.grows).trans (since_wide.trans since_shifted)
  exact ((before.trans result.grows).advances moved).extends moves.toExtends

theorem lockstep_rotated (rs : Gpr) (amount : Nat) :
    Lockstep division d (Γ.Yields d registerWidth) Γ (rotated (gprOperand rs) amount)
      (rotated (gprOperand rs) amount) := by
  unfold rotated
  split
  · exact .done (.of_reads (reads_gpr ..))
  · refine .computing (.combine rfl nofun trivial (reads_gpr _ _ rs) (.integer _ _))
      fun {h h' Γ₁} high => ?_
    refine .computing (.combine rfl nofun trivial (reads_gpr _ _ rs) (.integer _ _))
      fun {l l' Γ₂} low => ?_
    refine (Lockstep.bitwise (.inr (.inl rfl)) (high.width.trans low.width.symm)
      (high.reads.extend low.grows) low.reads).mono fun h => ?_
    exact high.width ▸ (h.after low.grows).after high.grows

theorem lockstep_expandRotate (ra rs : Gpr) (amount first last : Nat) (record : Bool) :
    Lockstep division d (Moves Γ) Γ (expandRotate ra rs amount first last record)
      (expandRotate ra rs amount first last record) := by
  refine (lockstep_rotated rs amount).bind fun a a' Γ₁ all => ?_
  refine (Lockstep.bitwise (.inl rfl) ?_ all.reads (.integer _ _)).bind fun r r' Γ₂ result => ?_
  · exact all.width
  refine (lockstep_deliver ra record result.reads).mono fun moves => ?_
  exact (all.grows.trans result.grows).advances moves

/-! ## Comparison and memory -/

theorem lockstep_lessThan (signed : Bool) (same : b.width = a.width) (first : Γ.Reads d a a')
    (second : Γ.Reads d b b') :
    Lockstep division d (Γ.Yields d .byte) Γ (lessThan signed a b) (lessThan signed a' b') := by
  unfold lessThan
  split
  · exact .signedLess same first second
  · exact .unsignedLess same first second

/-- Both sources are read for the order and once more for equality. -/
theorem lockstep_expandCompare (signed : Bool) (field : ConditionField) (ra : Gpr)
    (second : Source) :
    Lockstep division d (Moves Γ) Γ (expandCompare signed field ra second)
      (expandCompare signed field ra second) := by
  have same : second.operand.width = (gprOperand ra).width := width_source second
  refine (lockstep_lessThan signed same (reads_gpr Γ d ra) (reads_source Γ d second)).bind
    fun l l' Γ₁ less => ?_
  refine (Lockstep.equal same.symm (reads_gpr _ _ ra) (reads_source _ _ second)).bind
    fun e e' Γ₂ equal => ?_
  refine (lockstep_setConditionField field (less.reads.extend equal.grows) equal.reads less.width
    equal.width).mono fun moves => ?_
  exact (less.grows.trans equal.grows).advances moves

theorem lockstep_effective (l : Location) :
    Lockstep division d (Γ.Yields d registerWidth) Γ l.effective l.effective := by
  cases l with
  | displaced base displacement update =>
    have same : base.operand.width = (Operand.signed displacement registerWidth).width :=
      width_base base
    exact width_base base ▸ .arithmetic (.inl rfl) same (reads_base ..) (.integer _ _)
  | indexed base index =>
    have same : base.operand.width = (gprOperand index).width := width_base base
    exact width_base base ▸ .arithmetic (.inl rfl) same (reads_base ..) (reads_gpr ..)

/-- The register that is moved is the same on both sides, or both give up. -/
theorem lockstep_updated (mnemonic : String) (l : Location) :
    Lockstep division d (fun r r' Γ' => r = r' ∧ Γ = Γ') Γ (l.updated mnemonic)
      (l.updated mnemonic) := by
  unfold Location.updated
  split
  · split
    · exact .fail
    · exact .done ⟨rfl, rfl⟩
  · exact .done ⟨rfl, rfl⟩
  · exact .done ⟨rfl, rfl⟩

/-- Both sides give up alike, since the choice depends on the registers only. -/
theorem lockstep_refuseUpdateOf (mnemonic : String) (rd : Gpr) (base : Option Gpr) :
    Lockstep division d (fun _ _ Γ' => Γ = Γ') Γ (refuseUpdateOf mnemonic rd base)
      (refuseUpdateOf mnemonic rd base) := by
  unfold refuseUpdateOf
  split
  · exact .fail
  · exact .done rfl

/-- A base that is moved receives the address, which was computed before. -/
theorem lockstep_writeBack (base : Option Gpr) (h : Γ.Reads d a a') :
    Lockstep division d (Leads Γ) Γ (writeBack a base) (writeBack a' base) := by
  cases base with
  | none => exact .done (.refl Γ)
  | some r =>
    exact (lockstep_copy (isTemporary_gprName r) h).mono Scope.Advances.toExtends

/-- Signed or not, what was loaded can be read. -/
theorem lockstep_signExtendIf (signed : Bool) (h : Γ.Reads d a a') :
    Lockstep division d (fun o o' Γ' => Γ.Extends Γ' ∧ Γ'.Reads d o o') Γ (signExtendIf signed a)
      (signExtendIf signed a') := by
  unfold signExtendIf
  split
  · exact (Lockstep.signExtend h).mono fun extended => ⟨extended.grows, extended.reads⟩
  · exact .done ⟨.refl Γ, h⟩

/-- What is stored has a temporary of its own only if it is narrower than a register. -/
theorem lockstep_narrowed (width : Width) (h : Γ.Reads d a a') :
    Lockstep division d (fun o o' Γ' => Γ.Extends Γ' ∧ Γ'.Reads d o o') Γ (narrowed width a)
      (narrowed width a') := by
  unfold narrowed
  split
  · refine (Lockstep.computed (.pass (.inr (.inl rfl)) h)).mono fun narrow => ?_
    exact ⟨narrow.grows, narrow.reads⟩
  · exact .done ⟨.refl Γ, h⟩

/-- A load writes its destination and then its base, from temporaries of its own. -/
theorem lockstep_expandLoad (mnemonic : String) (width : Width) (signed : Bool) (rd : Gpr)
    (location : Location) :
    Lockstep division d (Moves Γ) Γ (expandLoad mnemonic width signed rd location)
      (expandLoad mnemonic width signed rd location) := by
  refine (lockstep_effective location).bind fun a a' Γ₁ address => ?_
  refine (lockstep_updated mnemonic location).bind fun base _ _ ⟨same, scope⟩ => ?_
  subst same scope
  refine (lockstep_refuseUpdateOf mnemonic rd base).bind fun _ _ _ scope => ?_
  subst scope
  refine .computing (.pass (.inr (.inr rfl)) address.reads) fun {l l' Γ₂} loaded => ?_
  refine (lockstep_signExtendIf signed loaded.reads).bind fun v v' Γ₃ ⟨grows, value⟩ => ?_
  refine (lockstep_copy (isTemporary_gprName rd) value).bind fun _ _ Γ₄ moved => ?_
  have since := (loaded.grows.trans grows).trans moved.toExtends
  refine (lockstep_writeBack base (address.reads.extend since)).mono fun leads => ?_
  exact ((address.grows.trans (loaded.grows.trans grows)).advances moved).extends leads

/-- The value is narrowed behind the address, and both are read by the store. -/
theorem lockstep_expandStore (mnemonic : String) (width : Width) (rs : Gpr)
    (location : Location) :
    Lockstep division d (Moves Γ) Γ (expandStore mnemonic width rs location)
      (expandStore mnemonic width rs location) := by
  refine (lockstep_effective location).bind fun a a' Γ₁ address => ?_
  refine (lockstep_updated mnemonic location).bind fun base _ _ ⟨same, scope⟩ => ?_
  subst same scope
  refine (lockstep_narrowed width (reads_gpr _ _ rs)).bind fun v v' Γ₂ ⟨grows, value⟩ => ?_
  refine .store value (address.reads.extend grows) ?_
  have stored := Γ₂.advances_next
  refine (lockstep_writeBack base (address.reads.extend (grows.trans stored.toExtends))).mono
    fun leads => ?_
  exact ((address.grows.trans grows).advances stored).extends leads

/-! ## Branches -/

theorem lockstep_leaveTo (condition : Γ.Reads d a a') (target : Γ.Reads d b b') :
    Lockstep division d (Moves Γ) Γ (leaveTo a b) (leaveTo a' b') :=
  .exit condition target (.done Γ.advances_next)

theorem lockstep_saveLink (address : Nat) :
    Lockstep division d (Moves Γ) Γ (saveLink address) (saveLink address) :=
  lockstep_copy (isTemporary_branchRegister .link) (.integer _ _)

/-- With a link the target is saved first, in a temporary that the jump reads. -/
theorem lockstep_expandBranchThrough (address : Nat) (register : BranchRegister) (link : Bool) :
    Lockstep division d (Moves Γ) Γ (expandBranchThrough address register link)
      (expandBranchThrough address register link) := by
  unfold expandBranchThrough
  split
  · refine .computing (.pass (.inr (.inl rfl)) (reads_branch Γ d register))
      fun {s s' Γ₁} saved => ?_
    refine (lockstep_saveLink address).bind fun _ _ Γ₂ linked => ?_
    refine (lockstep_leaveTo (.integer _ _) (saved.reads.extend linked.toExtends)).mono
      fun left => ?_
    exact (saved.grows.advances linked).extends left.toExtends
  · exact lockstep_leaveTo (.integer _ _) (reads_branch ..)

/-- The flag of a condition is negated in a temporary, or jumped on as it is. -/
theorem lockstep_expandBranchIf (condition : Condition) (field : ConditionField) (target : Nat) :
    Lockstep division d (Moves Γ) Γ (expandBranchIf condition field target)
      (expandBranchIf condition field target) := by
  refine (lockstep_flagNotIf _ (reads_flag Γ d (isTemporary_conditionBitName ..))).bind
    fun t t' Γ₁ taken => ?_
  exact (lockstep_leaveTo taken.reads (.integer _ _)).mono fun left => taken.grows.advances left

/-- The counter goes down in a temporary, which is moved back and then tested. -/
theorem lockstep_expandBranchCounted (target : Nat) :
    Lockstep division d (Moves Γ) Γ (expandBranchCounted target) (expandBranchCounted target) := by
  have same : BranchRegister.count.operand.width = (Operand.integer 1 registerWidth).width := rfl
  refine (Lockstep.arithmetic (.inr (.inl rfl)) same (reads_branch Γ d .count)
    (.integer _ _)).bind fun c c' Γ₁ count => ?_
  refine (lockstep_copy (isTemporary_branchRegister .count) count.reads).bind
    fun _ _ Γ₂ moved => ?_
  refine (Lockstep.isNonzero (count.reads.extend moved.toExtends)).bind fun t t' Γ₃ taken => ?_
  refine (lockstep_leaveTo taken.reads (.integer _ _)).mono fun left => ?_
  exact ((count.grows.advances moved).extends taken.grows).extends left.toExtends

/-! ## All operations -/

/-- Whether an operation divides. -/
def Operation.Divides : Operation → Prop
  | .divide .. => True
  | _ => False

/-- The opcode of a bitwise operation with a number is bitwise. -/
def Operation.Bitwise : Operation → Prop
  | .logicConstant opcode .. => opcode = .and ∨ opcode = .or ∨ opcode = .xor
  | _ => True

/-- The script of an operation keeps the discipline and writes at least one instruction. -/
theorem Operation.lockstep {operation : Operation} (bitwise : operation.Bitwise)
    (closed : Γ.labels = []) (mnemonic : String) (address : Nat) :
    Lockstep operation.Divides d (fun _ _ Γ' => Γ.size < Γ'.size) Γ
      (operation.expand mnemonic address) (operation.expand mnemonic address) := by
  have further : ∀ {a b Γ'}, Moves Γ a b Γ' → Γ.size < Γ'.size := fun moves => moves.further
  cases operation with
  | sum => exact (lockstep_expandSum ..).mono further
  | loadConstant rd value =>
    exact (lockstep_copy (isTemporary_gprName rd) (.integer _ _)).mono further
  | multiplyLow => exact (lockstep_expandMultiplyLow ..).mono further
  | multiplyConstant rd ra value =>
    have same : (gprOperand ra).width = (Operand.signed value registerWidth).width := rfl
    refine (Lockstep.arithmetic (.inr (.inr rfl)) same (reads_gpr Γ d ra) (.integer _ _)).bind
      fun l l' Γ₁ low => ?_
    exact (lockstep_copy (isTemporary_gprName rd) low.reads).mono fun moved =>
      (low.grows.advances moved).further
  | multiplyHigh => exact (lockstep_expandMultiplyHigh ..).mono further
  | divide => exact lockstep_expandDivide trivial closed ..
  | logic => exact (lockstep_expandLogic ..).mono further
  | logicConstant => exact (lockstep_expandLogicConstant bitwise ..).mono further
  | move complemented ra rs record =>
    cases complemented with
    | true =>
      refine (Lockstep.complement (reads_gpr Γ d rs)).bind fun c c' Γ₁ result => ?_
      exact (lockstep_deliver ra record result.reads).mono fun moves =>
        (result.grows.advances moves).further
    | false => exact (lockstep_deliver ra record (reads_gpr ..)).mono further
  | extend => exact (lockstep_expandExtend ..).mono further
  | shift => exact (lockstep_expandShift ..).mono further
  | shiftAlgebraic => exact (lockstep_expandShiftAlgebraic ..).mono further
  | rotate => exact (lockstep_expandRotate ..).mono further
  | compare => exact (lockstep_expandCompare ..).mono further
  | load => exact (lockstep_expandLoad ..).mono further
  | store => exact (lockstep_expandStore ..).mono further
  | branch link target =>
    cases link with
    | true =>
      refine (lockstep_saveLink address).bind fun _ _ Γ₁ linked => ?_
      exact (lockstep_leaveTo (.integer _ _) (.integer _ _)).mono fun left =>
        (linked.extends left.toExtends).further
    | false => exact (lockstep_leaveTo (.integer _ _) (.integer _ _)).mono further
  | branchThrough => exact (lockstep_expandBranchThrough ..).mono further
  | branchIf => exact (lockstep_expandBranchIf ..).mono further
  | branchCounted => exact (lockstep_expandBranchCounted ..).mono further
  | moveTo register source =>
    exact (lockstep_copy (isTemporary_branchRegister register) (reads_gpr ..)).mono further
  | moveFrom register destination =>
    exact (lockstep_copy (isTemporary_gprName destination) (reads_branch ..)).mono further
  | nop => exact .nop (.done (Nat.lt_succ_self _))

end RegisterTransfer.PowerPC
