import RegisterTransfer.Proofs.PowerPC.Frames
import RegisterTransfer.Proofs.PowerPC.Grammar
import RegisterTransfer.Proofs.PowerPC.Logic
import RegisterTransfer.Proofs.PowerPC.Shifts

/-!
# Meanings

What the operands of an instruction have to be for it to mean an operation. A reader succeeds exactly
if the operand at its position is a register, or a number inside its range; so the meanings of two
spellings can be compared, and with them what is accepted.

> `means_iff`: an instruction means what its form reads.
> `Simplified.corresponds`: a simplified spelling means the operation of the instruction that it
> stands for, or one that is spelled so.
> `lift_alone_isOk_iff`: an instruction is accepted exactly if it has an admissible meaning.
-/

namespace RegisterTransfer.PowerPC

/-! ## Reading operands -/

/-- A native operand names a general purpose register. -/
def Names (t : OperandTree) (r : Gpr) : Prop :=
  ∃ name, t.resolve cpu.catalog.widthOf = .ok (.register name registerWidth) ∧ gpr? name = some r

/-- A native operand is a number. -/
def Spells (t : OperandTree) (v : Int) : Prop :=
  ∃ w, t.resolve cpu.catalog.widthOf = .ok (.literal v w)

/-- An operand names one register at most. -/
theorem Names.unique {t : OperandTree} {r r' : Gpr} (h : Names t r) (h' : Names t r') : r = r' := by
  obtain ⟨name, resolved, found⟩ := h
  obtain ⟨name', resolved', found'⟩ := h'
  rw [resolved] at resolved'
  cases resolved'
  exact Option.some.inj (found.symm.trans found')

/-- An operand spells one number at most. -/
theorem Spells.unique {t : OperandTree} {v v' : Int} (h : Spells t v) (h' : Spells t v') :
    v = v' := by
  obtain ⟨w, resolved⟩ := h
  obtain ⟨w', resolved'⟩ := h'
  rw [resolved] at resolved'
  cases resolved'
  rfl

/-- A native operand is a number inside a range. -/
def SpellsIn (range : ImmediateRange) (t : OperandTree) (v : Int) : Prop :=
  Spells t v ∧ range.low ≤ v ∧ v ≤ range.high

section Reading

variable {n : NativeInstruction} {index : Nat}

theorem operandAt_eq_ok {o : ResolvedOperand} :
    operandAt cpu.catalog.widthOf n index = .ok o ↔
      ∃ t, n.operands[index]? = some t ∧ t.resolve cpu.catalog.widthOf = .ok o := by
  rw [operandAt]
  cases n.operands[index]? with
  | none => constructor <;> nofun
  | some t =>
    simp only [Option.some.injEq, exists_eq_left']
    cases t.resolve cpu.catalog.widthOf with
    | ok => rw [Except.ok.injEq, Except.ok.injEq]
    | error => constructor <;> nofun

/-- A register is read exactly where an operand names it. -/
@[simp]
theorem gprAt_eq_ok {r : Gpr} :
    gprAt cpu.catalog.widthOf n index = .ok r ↔ ∃ t, n.operands[index]? = some t ∧ Names t r := by
  simp only [gprAt, Except.bind_eq_ok, operandAt_eq_ok]
  constructor
  · rintro ⟨o, ⟨t, here, resolved⟩, read⟩
    split at read
    · split at read
      · cases read
      · next found =>
        split at read
        · next width =>
          cases read
          exact ⟨t, here, _, width ▸ resolved, found⟩
        · cases read
    · cases read
  · rintro ⟨t, here, name, resolved, found⟩
    refine ⟨_, ⟨t, here, resolved⟩, ?_⟩
    simp only [found]
    rfl

/-- A number is read exactly where an operand spells it within the range. -/
@[simp]
theorem immediateAt_eq_ok {range : ImmediateRange} {v : Int} :
    immediateAt cpu.catalog.widthOf n index range = .ok v ↔
      ∃ t, n.operands[index]? = some t ∧ SpellsIn range t v := by
  constructor
  · intro read
    obtain ⟨w, literal⟩ := literal_of_immediateAt read
    obtain ⟨t, here, resolved⟩ := operandAt_eq_ok.1 literal
    exact ⟨t, here, ⟨w, resolved⟩, inside_of_immediateAt read⟩
  · rintro ⟨t, here, ⟨w, resolved⟩, inside⟩
    rw [immediateAt, Except.bind_eq_ok]
    refine ⟨_, operandAt_eq_ok.2 ⟨t, here, resolved⟩, ?_⟩
    dsimp only
    rw [if_pos (ImmediateRange.contains_iff.2 inside)]
    rfl

/-- A bit number is read exactly where an operand spells it. -/
@[simp]
theorem bitNumberAt_eq_ok {k : Nat} :
    bitNumberAt cpu.catalog.widthOf n index = .ok k ↔
      ∃ t, n.operands[index]? = some t ∧ SpellsIn bitNumber t k := by
  simp only [bitNumberAt, Except.bind_eq_ok, immediateAt_eq_ok]
  constructor
  · rintro ⟨v, ⟨t, here, spells, low, high⟩, read⟩
    obtain ⟨k, rfl⟩ := Int.eq_ofNat_of_zero_le low
    cases read
    exact ⟨t, here, spells, low, high⟩
  · rintro ⟨t, here, spells⟩
    exact ⟨k, ⟨t, here, spells⟩, rfl⟩

/-- An operand spells at most the one number, and it has to be in the range. -/
theorem spellsIn_iff {range : ImmediateRange} {t : OperandTree} {v u : Int} (h : Spells t v) :
    SpellsIn range t u ↔ v = u ∧ range.low ≤ v ∧ v ≤ range.high := by
  constructor
  · rintro ⟨spells, inside⟩
    obtain rfl := h.unique spells
    exact ⟨rfl, inside⟩
  · rintro ⟨rfl, inside⟩
    exact ⟨h, inside⟩

theorem spellsIn_bitNumber_iff {t : OperandTree} {v : Int} {k : Nat} (h : Spells t v) :
    SpellsIn bitNumber t k ↔ v = k ∧ k ≤ 31 := by
  rw [spellsIn_iff h]
  simp only [bitNumber]
  omega

/-- An instruction means what its form reads. -/
theorem means_iff {form : Form} {operation : Operation} (registered : (n.mnemonic, form) ∈ forms)
    (fieldless : form.takesConditionField = false) (count : n.operands.length = form.operandCount) :
    Means n operation ↔ form.read cpu.catalog.widthOf n defaultField 0 = .ok operation := by
  have decodes : form.decode cpu.catalog.widthOf n =
      form.read cpu.catalog.widthOf n defaultField 0 := by
    have counted : checkCount n form 0 = .ok () := by
      rw [checkCount, if_pos (count.trans (Nat.zero_add _).symm)]
    rw [Form.decode, fieldless]
    show (checkCount n form 0 >>= fun _ => form.read cpu.catalog.widthOf n defaultField 0) = _
    rw [counted]
    rfl
  constructor
  · rintro ⟨form', registered', decoded⟩
    obtain rfl := form_unique registered registered'
    rwa [decodes] at decoded
  · exact fun read => ⟨form, registered, decodes.trans read⟩

end Reading

/-! ## The spellings -/

/-- The spelling of a subtraction of registers, behind its stem. -/
def marks (carries overflow record : Bool) : String :=
  (if carries then "c" else "") ++ (if overflow then "o" else "") ++ if record then "." else ""

/-- The amount, the first and the last selected bit that a rotation by `v` stands for. -/
inductive Selects : RotationForm → (v amount first last : Int) → Prop
  | shiftLeft {v} : Selects .shiftLeft v v 0 (31 - v)
  | shiftRight {v} : Selects .shiftRight v ((32 - v) % 32) v 31
  | rotateLeft {v} : Selects .rotateLeft v v 0 31

/-- The operation of two registers that a move is of one. -/
def doubled (complement : Bool) : LogicKind := if complement then .nor else .or

/-- An instruction in a simplified spelling, and the instruction that it stands for. -/
inductive Simplified (address : Nat) : NativeInstruction → NativeInstruction → Prop
  | difference (carries overflow record : Bool) {d a b : OperandTree} :
    Simplified address ⟨address, "sub" ++ marks carries overflow record, [d, a, b]⟩
      ⟨address, "subf" ++ marks carries overflow record, [d, b, a]⟩
  | rotation (record : Bool) {form : RotationForm} {v amount first last : Int}
    {a s t t₁ t₂ t₃ : OperandTree} (selects : Selects form v amount first last)
    (spells : Spells t v) (spells₁ : Spells t₁ amount) (spells₂ : Spells t₂ first)
    (spells₃ : Spells t₃ last) :
    Simplified address ⟨address, (Shift.rotate form record).mnemonic, [a, s, t]⟩
      ⟨address, (Shift.rotate .full record).mnemonic, [a, s, t₁, t₂, t₃]⟩
  | load (high : Bool) {d z v : OperandTree} (zero : Names z 0) :
    Simplified address ⟨address, if high then "lis" else "li", [d, v]⟩
      ⟨address, if high then "addis" else "addi", [d, z, v]⟩
  | subtraction {v : Int} {d a t t' : OperandTree} (spells : Spells t v) (negated : Spells t' (-v)) :
    Simplified address ⟨address, "subi", [d, a, t]⟩ ⟨address, "addi", [d, a, t']⟩
  | move (complement record : Bool) {a s : OperandTree} :
    Simplified address ⟨address, (Logic.move complement record).mnemonic, [a, s]⟩
      ⟨address, (Logic.registers (doubled complement) record).mnemonic, [a, s, s]⟩

/-! ## Meanings -/

section Meanings

variable {address : Nat} {d a s t : OperandTree} {operation : Operation}

theorem registered_difference (swapped carries overflow record : Bool) :
    ((if swapped then "sub" else "subf") ++ marks carries overflow record,
      Form.sum { subtracting .set carries with overflow, record } .register swapped false) ∈
      forms := by
  have listed : ((if swapped then "sub" else "subf") ++ marks carries overflow record,
      Form.sum { subtracting .set carries with overflow, record } .register swapped false) ∈
      sumForms := by
    cases swapped <;> cases carries <;> cases overflow <;> cases record <;> decide
  simp only [forms, List.mem_append, listed, true_or]

/-- What a difference takes away is written last with `swapped`, else first. -/
theorem means_difference (swapped carries overflow record : Bool) :
    Means ⟨address, (if swapped then "sub" else "subf") ++ marks carries overflow record,
        if swapped then [d, s, t] else [d, t, s]⟩ operation ↔
      ∃ rd, Names d rd ∧ ∃ r, Names t r ∧ ∃ r', Names s r' ∧
        .sum { subtracting .set carries with overflow, record } rd (.register r) (.register r') =
          operation := by
  rw [means_iff (registered_difference swapped carries overflow record) rfl
    (by cases swapped <;> rfl)]
  cases swapped <;>
    simp [Form.read, addendAt, Except.bind_eq_ok, Except.map_eq_ok]

/-- The range of an immediate of a half. -/
def halfRange (high : Bool) : ImmediateRange := if high then high16 else signed16

/-- The number that an immediate of a half stands for. -/
def halfConstant (high : Bool) (v : Int) : Int := if high then v * 0x10000 else v

/-- The addition of an immediate is a sum without flags, whose first source may be zero. -/
theorem means_addition (high : Bool) :
    Means ⟨address, if high then "addis" else "addi", [d, s, t]⟩ operation ↔
      ∃ rd, Names d rd ∧ ∃ r, Names s r ∧ ∃ v, SpellsIn (halfRange high) t v ∧
        .sum {} rd (.ofGpr r) (.constant (halfConstant high v)) = operation := by
  have registered : (if high then "addis" else "addi",
      Form.sum {} (if high then .high else .immediate) false true) ∈ forms := by
    cases high <;> simp [forms, sumForms]
  rw [means_iff registered rfl (by cases high <;> rfl)]
  cases high <;>
    simp [Form.read, addendAt, baseAt, halfRange, halfConstant, Except.bind_eq_ok,
      Except.map_eq_ok]

theorem means_load (high : Bool) :
    Means ⟨address, if high then "lis" else "li", [d, t]⟩ operation ↔
      ∃ rd, Names d rd ∧ ∃ v, SpellsIn (halfRange high) t v ∧
        .loadConstant rd (halfConstant high v) = operation := by
  have registered : (if high then "lis" else "li", Form.loadConstant high) ∈ forms := by
    cases high <;> simp [forms, sumForms]
  rw [means_iff registered rfl rfl]
  cases high <;> simp [Form.read, halfRange, halfConstant, Except.bind_eq_ok, Except.map_eq_ok]

/-- The subtraction of an immediate is the addition of its negation. -/
theorem means_subtraction :
    Means ⟨address, "subi", [d, s, t]⟩ operation ↔
      ∃ rd, Names d rd ∧ ∃ r, Names s r ∧ ∃ v, SpellsIn negated16 t v ∧
        .sum {} rd (.ofGpr r) (.constant (-v)) = operation := by
  have registered : ("subi", Form.subtractConstant) ∈ forms := by simp [forms, sumForms]
  rw [means_iff registered rfl rfl]
  simp [Form.read, baseAt, Except.bind_eq_ok, Except.map_eq_ok]

theorem means_move (complement record : Bool) :
    Means ⟨address, (Logic.move complement record).mnemonic, [d, s]⟩ operation ↔
      ∃ ra, Names d ra ∧ ∃ rs, Names s rs ∧ .move complement ra rs record = operation := by
  rw [means_iff (Logic.move complement record).registered rfl rfl]
  simp [Logic.form, Form.read, Except.bind_eq_ok, Except.map_eq_ok]

/-- A bitwise operation is read off three registers. -/
theorem means_logic (kind : LogicKind) (record : Bool) :
    Means ⟨address, (Logic.registers kind record).mnemonic, [d, s, t]⟩ operation ↔
      ∃ ra, Names d ra ∧ ∃ rs, Names s rs ∧ ∃ rb, Names t rb ∧
        .logic kind ra rs rb record = operation := by
  rw [means_iff (Logic.registers kind record).registered rfl rfl]
  simp [Logic.form, Form.read, Except.bind_eq_ok, Except.map_eq_ok]

theorem means_rotation (record : Bool) {t' t'' : OperandTree} :
    Means ⟨address, (Shift.rotate .full record).mnemonic, [d, s, t, t', t'']⟩ operation ↔
      ∃ ra, Names d ra ∧ ∃ rs, Names s rs ∧ ∃ amount : Nat, SpellsIn bitNumber t amount ∧
        ∃ first : Nat, SpellsIn bitNumber t' first ∧ ∃ last : Nat, SpellsIn bitNumber t'' last ∧
          .rotate ra rs amount first last record = operation := by
  rw [means_iff (Shift.rotate .full record).registered rfl rfl]
  simp [Shift.form, Form.read, rotationAt, Except.bind_eq_ok, Except.map_eq_ok]

/-- A shift to the left is a rotation that clears the bits which came around. -/
theorem means_shiftLeft (record : Bool) :
    Means ⟨address, (Shift.rotate .shiftLeft record).mnemonic, [d, s, t]⟩ operation ↔
      ∃ ra, Names d ra ∧ ∃ rs, Names s rs ∧ ∃ k : Nat, SpellsIn bitNumber t k ∧
        .rotate ra rs k 0 (31 - k) record = operation := by
  rw [means_iff (Shift.rotate .shiftLeft record).registered rfl rfl]
  simp [Shift.form, Form.read, rotationAt, Except.bind_eq_ok, Except.map_eq_ok]

/-- A shift to the right by `k` is a rotation by 32 less `k` that clears the first `k` bits. -/
theorem means_shiftRight (record : Bool) :
    Means ⟨address, (Shift.rotate .shiftRight record).mnemonic, [d, s, t]⟩ operation ↔
      ∃ ra, Names d ra ∧ ∃ rs, Names s rs ∧ ∃ k : Nat, SpellsIn bitNumber t k ∧
        .rotate ra rs ((32 - k) % 32) k 31 record = operation := by
  rw [means_iff (Shift.rotate .shiftRight record).registered rfl rfl]
  simp [Shift.form, Form.read, rotationAt, Except.bind_eq_ok, Except.map_eq_ok]

theorem means_rotateLeft (record : Bool) :
    Means ⟨address, (Shift.rotate .rotateLeft record).mnemonic, [d, s, t]⟩ operation ↔
      ∃ ra, Names d ra ∧ ∃ rs, Names s rs ∧ ∃ k : Nat, SpellsIn bitNumber t k ∧
        .rotate ra rs k 0 31 record = operation := by
  rw [means_iff (Shift.rotate .rotateLeft record).registered rfl rfl]
  simp [Shift.form, Form.read, rotationAt, Except.bind_eq_ok, Except.map_eq_ok]

/-- A rotation by a number means the rotation that selects the bits that the number stands for. -/
theorem means_abbreviation (record : Bool) {form : RotationForm} {v amount first last : Int}
    {t₁ t₂ t₃ : OperandTree} (selects : Selects form v amount first last) (spells : Spells t v)
    (spells₁ : Spells t₁ amount) (spells₂ : Spells t₂ first) (spells₃ : Spells t₃ last) :
    Means ⟨address, (Shift.rotate form record).mnemonic, [d, s, t]⟩ operation ↔
      Means ⟨address, (Shift.rotate .full record).mnemonic, [d, s, t₁, t₂, t₃]⟩ operation := by
  rw [means_rotation]
  simp only [spellsIn_bitNumber_iff spells₁, spellsIn_bitNumber_iff spells₂,
    spellsIn_bitNumber_iff spells₃]
  -- both read the same registers, and what is left is arithmetic
  cases selects with
  | shiftLeft =>
    simp only [means_shiftLeft, spellsIn_bitNumber_iff spells]
    refine exists_congr fun ra => and_congr_right fun _ => exists_congr fun rs =>
      and_congr_right fun _ => ⟨?_, ?_⟩
    · rintro ⟨k, inside, rfl⟩
      exact ⟨k, inside, 0, by omega, 31 - k, by omega, rfl⟩
    · rintro ⟨amount, inside, first, low, last, high, rfl⟩
      obtain rfl : first = 0 := by omega
      obtain rfl : last = 31 - amount := by omega
      exact ⟨amount, inside, rfl⟩
  | shiftRight =>
    simp only [means_shiftRight, spellsIn_bitNumber_iff spells]
    refine exists_congr fun ra => and_congr_right fun _ => exists_congr fun rs =>
      and_congr_right fun _ => ⟨?_, ?_⟩
    · rintro ⟨k, inside, rfl⟩
      exact ⟨(32 - k) % 32, by omega, k, inside, 31, by omega, rfl⟩
    · rintro ⟨amount, turned, first, inside, last, high, rfl⟩
      obtain rfl : amount = (32 - first) % 32 := by omega
      obtain rfl : last = 31 := by omega
      exact ⟨first, inside, rfl⟩
  | rotateLeft =>
    simp only [means_rotateLeft, spellsIn_bitNumber_iff spells]
    refine exists_congr fun ra => and_congr_right fun _ => exists_congr fun rs =>
      and_congr_right fun _ => ⟨?_, ?_⟩
    · rintro ⟨k, inside, rfl⟩
      exact ⟨k, inside, 0, by omega, 31, by omega, rfl⟩
    · rintro ⟨amount, inside, first, low, last, high, rfl⟩
      obtain rfl : first = 0 := by omega
      obtain rfl : last = 31 := by omega
      exact ⟨amount, inside, rfl⟩

/-- The negation of an immediate is taken away where the immediate is added. -/
theorem means_subtraction_iff {v : Int} {t' : OperandTree} (spells : Spells t v)
    (negated : Spells t' (-v)) :
    Means ⟨address, "subi", [d, s, t]⟩ operation ↔
      Means ⟨address, "addi", [d, s, t']⟩ operation := by
  have addition : Means ⟨address, "addi", [d, s, t']⟩ operation ↔ _ := means_addition false
  rw [means_subtraction, addition]
  simp only [spellsIn_iff spells, spellsIn_iff negated, negated16, halfRange, signed16,
    halfConstant, Bool.false_eq_true, if_false, and_assoc, exists_eq_left']
  have inside : -0x7FFF ≤ v ∧ v ≤ 0x8000 ↔ -0x8000 ≤ -v ∧ -v ≤ 0x7FFF := by omega
  simp only [← and_assoc, inside]

end Meanings

/-! ## What is meant alike -/

/-- An operation can be spelled as another one, or as itself in another way. -/
inductive Operation.Simplifies : Operation → Operation → Prop
  | sum {kind rd first second} : Simplifies (.sum kind rd first second) (.sum kind rd first second)
  | rotate {ra rs amount first last record} :
    Simplifies (.rotate ra rs amount first last record) (.rotate ra rs amount first last record)
  | load {rd i} : Simplifies (.loadConstant rd i) (.sum {} rd .zero (.constant i))
  | move {complement ra rs record} : Simplifies (.move complement ra rs record)
    (.logic (doubled complement) ra rs rs record)

/-- What one instruction means, the other one means too, as it would be spelled. -/
structure Corresponds (n n' : NativeInstruction) : Prop where
  onward {operation} : Means n operation →
    ∃ operation', Means n' operation' ∧ operation.Simplifies operation'
  back {operation'} : Means n' operation' →
    ∃ operation, Means n operation ∧ operation.Simplifies operation'

/-- Spellings with the same meaning correspond, if every such meaning simplifies to itself. -/
theorem corresponds_of_iff {n n' : NativeInstruction}
    (same : ∀ operation, Means n operation ↔ Means n' operation)
    (each : ∀ operation, Means n' operation → operation.Simplifies operation) :
    Corresponds n n' :=
  ⟨fun {operation} means =>
      have means' := (same operation).1 means
      ⟨operation, means', each operation means'⟩,
    fun {operation} means' => ⟨operation, (same operation).2 means', each operation means'⟩⟩

/-- Each simplified spelling corresponds to the one that it stands for. -/
theorem Simplified.corresponds {address : Nat} {n n' : NativeInstruction}
    (h : Simplified address n n') : Corresponds n n' := by
  cases h with
  | difference carries overflow record =>
    refine corresponds_of_iff (fun operation => ?_) fun operation means' => ?_
    · exact (means_difference true carries overflow record).trans
        (means_difference false carries overflow record).symm
    · obtain ⟨rd, -, r, -, r', -, rfl⟩ := (means_difference false carries overflow record).1 means'
      exact .sum
  | rotation record selects spells spells₁ spells₂ spells₃ =>
    refine corresponds_of_iff
      (fun operation => means_abbreviation record selects spells spells₁ spells₂ spells₃)
      fun operation means' => ?_
    obtain ⟨ra, -, rs, -, amount, -, first, -, last, -, rfl⟩ := (means_rotation record).1 means'
    exact .rotate
  | load high zero =>
    refine ⟨fun {operation} means => ?_, fun {operation'} means' => ?_⟩
    · obtain ⟨rd, target, v, spells, rfl⟩ := (means_load high).1 means
      exact ⟨_, (means_addition high).2 ⟨rd, target, 0, zero, v, spells, rfl⟩, .load⟩
    · -- no other base than the number zero is left
      obtain ⟨rd, target, r, base, v, spells, rfl⟩ := (means_addition high).1 means'
      obtain rfl := zero.unique base
      exact ⟨_, (means_load high).2 ⟨rd, target, v, spells, rfl⟩, .load⟩
  | subtraction spells negated =>
    refine corresponds_of_iff (fun operation => means_subtraction_iff spells negated)
      fun operation means' => ?_
    obtain ⟨rd, -, r, -, v, -, rfl⟩ := (means_addition false).1 means'
    exact .sum
  | move complement record =>
    refine ⟨fun {operation} means => ?_, fun {operation'} means' => ?_⟩
    · obtain ⟨ra, target, rs, source, rfl⟩ := (means_move complement record).1 means
      exact ⟨_, (means_logic _ record).2 ⟨ra, target, rs, source, rs, source, rfl⟩, .move⟩
    · obtain ⟨ra, target, rs, source, rb, other, rfl⟩ := (means_logic _ record).1 means'
      obtain rfl := source.unique other
      exact ⟨_, (means_move complement record).2 ⟨ra, target, rs, source, rfl⟩, .move⟩

/-! ## What is accepted -/

/-- An instruction is accepted exactly if it has a meaning that is admissible. -/
theorem lift_alone_isOk_iff {n : NativeInstruction} :
    (∃ p, lift [n] = .ok p) ↔ ∃ operation, Means n operation ∧ operation.Admissible := by
  constructor
  · rintro ⟨p, lifted⟩
    obtain ⟨count, operation, X, code, expands, -⟩ :=
      (laid_of_lift lifted).placed n (List.mem_singleton_self n)
    exact ⟨operation, expands.decoded, expands.admissible⟩
  · rintro ⟨operation, means, admissible⟩
    rcases (operation.ends n.mnemonic n.address).run (binds_blank 0 n) with
      ⟨_, X, bound, ran, binds, all, -⟩ | ⟨_, _, _, _, refused⟩
    · obtain ⟨code, finished⟩ := binds.finish all
      have expands : Expands 0 n operation X code := ⟨means, ran, finished⟩
      obtain ⟨p, lifted, -⟩ := expands.lift_alone
      exact ⟨p, lifted⟩
    · exact absurd admissible refused

/-- No simplified spelling is an access that moves a base, so both operations are admissible. -/
theorem Operation.Simplifies.admissible {operation operation' : Operation}
    (h : operation.Simplifies operation') : operation.Admissible ∧ operation'.Admissible := by
  cases h <;> exact ⟨trivial, trivial⟩

/-- Of two corresponding instructions either both are accepted or none is. -/
theorem Corresponds.accepts {n n' : NativeInstruction} (h : Corresponds n n') :
    (∃ p, lift [n] = .ok p) ↔ ∃ p, lift [n'] = .ok p := by
  rw [lift_alone_isOk_iff, lift_alone_isOk_iff]
  constructor
  · rintro ⟨operation, means, -⟩
    obtain ⟨operation', means', simplifies⟩ := h.onward means
    exact ⟨operation', means', simplifies.admissible.2⟩
  · rintro ⟨operation', means', -⟩
    obtain ⟨operation, means, simplifies⟩ := h.back means'
    exact ⟨operation, means, simplifies.admissible.1⟩

end RegisterTransfer.PowerPC
