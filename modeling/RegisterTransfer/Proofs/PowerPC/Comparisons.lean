import RegisterTransfer.Proofs.PowerPC.Alone
import RegisterTransfer.Proofs.PowerPC.Results
import RegisterTransfer.Proofs.PowerPC.Terms

/-!
# Comparisons

What comparisons write to a condition field, and how a branch on the field goes on. A comparison and
a branch know of each other by the bits of the field only: "less", "greater" and "equal", of which a
branch tests one.

> `runs_expandCompare`: a comparison leaves the order of its operands in its field.
> `leads_expandBranchIf`: a branch leaves exactly if its condition holds of the order in the field.
> `lifted_comparison_orders`: the run of any lifted comparison, and of a branch behind it.
-/

namespace RegisterTransfer.PowerPC

open Script

/-! ## Comparisons and conditions -/

/-- A comparison. -/
structure Comparison where
  signed : Bool
  immediate : Bool
  deriving DecidableEq, Repr

namespace Comparison

/-- The spelling of a comparison. -/
def mnemonic (k : Comparison) : String :=
  (if k.signed then "cmpw" else "cmplw") ++ (if k.immediate then "i" else "")

/-- The form that decodes a comparison. -/
def form (k : Comparison) : Form := .compare k.signed k.immediate

/-- The number that a register is compared as. -/
def reading (k : Comparison) (v : Nat) : Int := if k.signed then registerWidth.toSigned v else v

/-- A comparison is registered with its form. -/
theorem registered (k : Comparison) : (k.mnemonic, k.form) ∈ forms := by
  have listed : (k.mnemonic, k.form) ∈ controlForms := by
    rcases k with ⟨_ | _, _ | _⟩ <;> decide
  simp only [forms, List.mem_append, listed, true_or, or_true]

/-- Different registers are compared as different numbers. -/
theorem reading_eq_iff (k : Comparison) {u v : Nat} (hu : u < registerWidth.modulus)
    (hv : v < registerWidth.modulus) : k.reading u = k.reading v ↔ u = v := by
  refine ⟨fun same => ?_, fun same => same ▸ rfl⟩
  unfold reading at same
  split at same
  · rw [← Width.truncate_of_lt hu, ← Width.truncate_of_lt hv, ← Width.ofInt_toSigned, same,
      Width.ofInt_toSigned]
  · exact Int.ofNat.inj same

/-- The immediates that a comparison accepts. -/
def range (k : Comparison) : ImmediateRange := if k.signed then signed16 else unsigned16

/-- An immediate is compared as it is written. -/
theorem reading_ofInt (k : Comparison) {i : Int} (low : k.range.low ≤ i) (high : i ≤ k.range.high) :
    k.reading (registerWidth.ofInt i) = i := by
  have half : (registerWidth.signBit : Int) = 2 ^ 31 := by decide
  have whole : (registerWidth.modulus : Int) = 2 ^ 32 := by decide
  obtain ⟨_ | _, _⟩ := k
  · simp only [range, Bool.false_eq_true, if_false, unsigned16] at low high
    simp only [reading, Bool.false_eq_true, if_false]
    rw [Width.natCast_ofInt, Int.emod_eq_of_lt (by omega) (by omega)]
  · simp only [range, if_true, signed16] at low high
    exact Width.toSigned_ofInt_of_mem (by omega) (by omega)

end Comparison

namespace Condition

/-- The spelling of a branch on a condition. -/
def mnemonic : Condition → String
  | equal => "beq"
  | notEqual => "bne"
  | less => "blt"
  | greaterOrEqual => "bge"
  | greater => "bgt"
  | lessOrEqual => "ble"

/-- A condition holds of two numbers. -/
def Holds (a b : Int) : Condition → Prop
  | equal => a = b
  | notEqual => a ≠ b
  | less => a < b
  | greaterOrEqual => a ≥ b
  | greater => a > b
  | lessOrEqual => a ≤ b

instance (a b : Int) : (c : Condition) → Decidable (c.Holds a b)
  | equal => inferInstanceAs (Decidable (a = b))
  | notEqual => inferInstanceAs (Decidable (a ≠ b))
  | less => inferInstanceAs (Decidable (a < b))
  | greaterOrEqual => inferInstanceAs (Decidable (a ≥ b))
  | greater => inferInstanceAs (Decidable (a > b))
  | lessOrEqual => inferInstanceAs (Decidable (a ≤ b))

/-- The order whose bit a condition tests. -/
def tested : Condition → Ordering
  | equal | notEqual => .eq
  | less | greaterOrEqual => .lt
  | greater | lessOrEqual => .gt

/-- A condition tests the order of the numbers, and some conditions want another one. -/
theorem holds_iff (c : Condition) (a b : Int) :
    c.Holds a b ↔ if c.test.2 then compare a b ≠ c.tested else compare a b = c.tested := by
  cases c with
  | equal => exact Int.compare_eq_eq.symm
  | notEqual => exact not_congr Int.compare_eq_eq.symm
  | less => exact Int.compare_eq_lt.symm
  | greaterOrEqual => exact Int.not_lt.symm.trans (not_congr Int.compare_eq_lt.symm)
  | greater => exact Int.compare_eq_gt.symm
  | lessOrEqual => exact Int.not_lt.symm.trans (not_congr Int.compare_eq_gt.symm)

/-- A branch on a condition is registered with its form. -/
theorem registered (c : Condition) : (c.mnemonic, Form.branchIf c) ∈ forms := by
  have listed : (c.mnemonic, Form.branchIf c) ∈ controlForms := by
    cases c <;> decide
  simp only [forms, List.mem_append, listed, true_or, or_true]

end Condition

/-! ## Scripts -/

section Scripts

variable {x : Expansion} {m : Machine} {b : Operand} {u v so : Nat} {ra : Gpr}

/-- The order of two registers as the comparison reads them, signed or unsigned. -/
theorem runs_lessThan (k : Comparison) (plain : m.cpu.Plain) (width : b.width = registerWidth)
    (first : m.Holds x.taken (gprOperand ra) u) (second : m.Holds x.taken b v) :
    (lessThan k.signed (gprOperand ra) b).Runs x m
      (Computed x m .byte (flag (k.reading u < k.reading v))) := by
  have wider : (max (gprOperand ra).width b.width).wider? = some .qword := by
    rw [width]
    rfl
  obtain ⟨_ | _, _⟩ := k
  · exact flag_congr (Int.ofNat_lt (n := u)).symm ▸ Runs.unsignedLess plain wider first second
  · have less := Runs.signedLess plain wider first second
    -- both widths are those of registers
    have order : registerWidth.toSigned u + registerWidth.signBit <
        registerWidth.toSigned v + registerWidth.signBit ↔
          registerWidth.toSigned u < registerWidth.toSigned v := by omega
    rw [width] at less
    exact flag_congr order ▸ less

/-- A comparison leaves the order of its operands in its field. -/
theorem runs_expandCompare (k : Comparison) (processor : m.cpu = cpu) (field : ConditionField)
    {second : Source} (width : second.operand.width = registerWidth)
    (left : m.Holds x.taken (gprOperand ra) u) (right : m.Holds x.taken second.operand v)
    (summary : m.Holds x.taken StatusBit.summary.operand so) :
    (expandCompare k.signed field ra second).Runs x m fun _ => Leaves x
      (m.conditioned field (Machine.comparisonBit (compare (k.reading u) (k.reading v)) so)) := by
  apply (runs_lessThan k (plain_of_cpu processor) width left right).bind
  intro less X₁ m₁ below
  apply (Runs.equal below.plain width.symm (below.toLeaves.holds left)
    (below.toLeaves.holds right)).bind
  intro same X₂ m₂ equal
  have behind := below.toLeaves.trans equal.toLeaves
  have processor₂ : m₂.cpu = cpu := behind.keeps.cpu.trans processor
  have below₂ := equal.toLeaves.holds below.holds
  rw [flag_congr Int.compare_eq_lt.symm] at below₂
  have equal₂ := equal.holds
  rw [flag_congr ((k.reading_eq_iff left.lt (width ▸ right.lt)).symm.trans Int.compare_eq_eq.symm)]
    at equal₂
  apply (runs_setConditionField processor₂ field below₂ equal₂ below.width equal.width equal.hidden
    (behind.holds summary)).mono
  intro _ X₃ m₃ set
  exact behind.through (·.conditioned field _) (·.conditioned field _) set

variable {field : ConditionField} {left right : Int}

/-- The bit that a condition tests. -/
theorem FieldHolds.holds {order : Ordering} (h : FieldHolds m field order) (processor : m.cpu = cpu)
    (c : Condition) (n : Nat) :
    m.Holds n (conditionOperand field c.test.1) (flag (order = c.tested)) := by
  have found : m.register? (conditionBitName field c.test.1) =
      some ⟨flag (order = c.tested), .byte, .defined⟩ := by
    cases c with
    | equal | notEqual => exact h.equal
    | less | greaterOrEqual => exact h.less
    | greater | lessOrEqual => exact h.greater
  have value : m.value? (conditionBitName field c.test.1) = some (flag (order = c.tested)) := by
    rw [Machine.value?, found]
    rfl
  have settled : ¬ m.cpu.Scratch n (conditionBitName field c.test.1) :=
    processor ▸ not_scratch_condition field c.test.1 n
  have held := Machine.holds_register value settled flagWidth
  rwa [Width.truncate_of_le_one _ (flag_le_one _)] at held

/-- What a branch tests is whether its condition holds of the order in the field. -/
theorem runs_tested (processor : m.cpu = cpu) (c : Condition)
    (h : FieldHolds m field (compare left right)) :
    (flagNotIf c.test.2 (conditionOperand field c.test.1)).Runs x m
      (Settled x m .byte (flag (c.Holds left right))) := by
  have plain := plain_of_cpu processor
  have bit := h.holds processor c x.taken
  have holds := c.holds_iff left right
  unfold flagNotIf
  split
  · next negated =>
    rw [if_pos negated] at holds
    rw [flag_congr holds]
    exact (Runs.flagNot plain bit).mono fun other => other.toSettled
  · next plainly =>
    rw [if_neg plainly] at holds
    rw [flag_congr holds]
    exact .pure ⟨⟨Nat.le_refl _, .refl plain _⟩, bit, rfl⟩

/-- A branch leaves exactly if its condition holds of the order in the field. -/
theorem leads_expandBranchIf (processor : m.cpu = cpu) (c : Condition) {target : Nat}
    (lt : target < registerWidth.modulus) (h : FieldHolds m field (compare left right)) :
    (expandBranchIf c field target).Leads x (.start m) fun _ X g =>
      Leaves x m X g.machine ∧ ∃ place,
        g.stance = if c.Holds left right then .left place (.ofNative target) else .going := by
  apply (runs_tested processor c h).leads
  intro taken X₁ m₁ tested
  apply (leads_leave tested.plain tested.holds target registerWidth).mono
  intro _ X₂ g ⟨left, stance⟩
  have narrow : Width.qword.truncate (registerWidth.truncate target) = target := by
    rw [Width.truncate_of_lt lt, Width.truncate_of_lt (Nat.lt_of_lt_of_le lt (by decide))]
  refine ⟨tested.toLeaves.trans left, X₁.here, ?_⟩
  rw [stance, narrow]
  simp only [flag_eq_zero_iff, ite_not]

end Scripts

/-! ## Decoding -/

section Decoding

variable {n : NativeInstruction} {operation : Operation}

/-- The condition field of a comparison or a branch. -/
def fieldOf (n : NativeInstruction) : ConditionField := (leadingField? n).getD defaultField

/-- The position of the first operand behind a condition field that may be there. -/
def positionBehindField (n : NativeInstruction) : Nat := if (leadingField? n).isSome then 1 else 0

/-- A comparison that is read has its field, its register and its second source in this order. -/
theorem Comparison.decoded {k : Comparison}
    (h : k.form.decode cpu.catalog.widthOf n = .ok operation) :
    ∃ ra source, gprAt cpu.catalog.widthOf n (positionBehindField n) = .ok ra ∧
      source.Written n (positionBehindField n + 1) k.immediate k.range ∧
      operation = .compare k.signed (fieldOf n) ra source := by
  simp only [Form.decode, form, Form.takesConditionField, if_true, Form.read,
    Except.bind_eq_ok] at h
  obtain ⟨_, -, ra, left, source, right, e⟩ := h
  cases e
  exact ⟨ra, source, left, written_of_sourceAt right, rfl⟩

/-- A conditional branch that is read has its field, perhaps by default, and its target. -/
theorem Condition.decoded {c : Condition}
    (h : (Form.branchIf c).decode cpu.catalog.widthOf n = .ok operation) :
    ∃ target, targetAt cpu.catalog.widthOf n (positionBehindField n) = .ok target ∧
      operation = .branchIf c (fieldOf n) target := by
  simp only [Form.decode, Form.takesConditionField, if_true, Form.read, Except.bind_eq_ok] at h
  obtain ⟨_, -, target, written, e⟩ := h
  cases e
  exact ⟨target, written, rfl⟩

end Decoding

/-! ## Runs -/

/-- The registers that a comparison reads. -/
def Comparison.Reads (k : Comparison) (n : NativeInstruction) (r : Gpr) : Prop :=
  gprAt cpu.catalog.widthOf n (positionBehindField n) = .ok r ∨
    k.immediate = false ∧ gprAt cpu.catalog.widthOf n (positionBehindField n + 1) = .ok r

/-- The numbers that are compared: registers as the comparison reads them, or an immediate. -/
inductive Comparison.Compares (k : Comparison) (n : NativeInstruction) (m : Machine) :
    Int → Int → Prop
  | registers {ra rb : Gpr} {u v : Nat} (kind : k.immediate = false)
    (first : gprAt cpu.catalog.widthOf n (positionBehindField n) = .ok ra)
    (second : gprAt cpu.catalog.widthOf n (positionBehindField n + 1) = .ok rb)
    (value : m.value? (gprName ra) = some u) (value' : m.value? (gprName rb) = some v) :
    k.Compares n m (k.reading (u % 2 ^ 32)) (k.reading (v % 2 ^ 32))
  | immediate {ra : Gpr} {u : Nat} {i : Int} {w : Width} (kind : k.immediate = true)
    (first : gprAt cpu.catalog.widthOf n (positionBehindField n) = .ok ra)
    (second : operandAt cpu.catalog.widthOf n (positionBehindField n + 1) = .ok (.literal i w))
    (value : m.value? (gprName ra) = some u) : k.Compares n m (k.reading (u % 2 ^ 32)) i

/-- Where its registers are defined, a comparison compares what its operands hold. -/
theorem Comparison.compares_of_written {k : Comparison} {n : NativeInstruction} {m : Machine}
    {ra : Gpr} {source : Source} (processor : m.cpu = cpu)
    (first : gprAt cpu.catalog.widthOf n (positionBehindField n) = .ok ra)
    (second : source.Written n (positionBehindField n + 1) k.immediate k.range)
    (defined : ∀ r, k.Reads n r → ∃ v, m.value? (gprName r) = some v) :
    ∃ u v, k.Compares n m (k.reading u) (k.reading v) ∧ source.operand.width = registerWidth ∧
      ∀ i, m.Holds i (gprOperand ra) u ∧ m.Holds i source.operand v := by
  obtain ⟨u, value⟩ := defined ra (.inl first)
  have left : ∀ i, m.Holds i (gprOperand ra) (u % 2 ^ 32) := fun i => holds_gpr processor ra value
  cases second with
  | @register rb kind written =>
    obtain ⟨v, value'⟩ := defined rb (.inr ⟨kind, written⟩)
    exact ⟨_, _, .registers kind first written value value', rfl,
      fun i => ⟨left i, holds_gpr processor rb value'⟩⟩
  | @immediate i kind written =>
    obtain ⟨w, literal⟩ := literal_of_immediateAt written
    obtain ⟨low, high⟩ := inside_of_immediateAt written
    refine ⟨_, registerWidth.ofInt i, ?_, rfl, fun j => ⟨left j, Machine.holds_signed m j i _⟩⟩
    rw [k.reading_ofInt low high]
    exact .immediate kind first literal value

/-- Two machines differ in temporaries and in the program counter only. -/
structure Unchanged (m m' : Machine) : Prop where
  registers : ∀ name, isTemporary name = false → name ≠ programCounter →
    m'.register? name = m.register? name
  memory : m'.memory = m.memory

/--
Machines that differ in scratch registers differ in temporaries and the program counter at most.
-/
theorem unchanged_of_keeps {m m' : Machine} {n : Nat} (keeps : m.Keeps n m')
    (processor : m.cpu = cpu) : Unchanged m m' :=
  ⟨fun _ native ne => register?_of_keeps keeps processor native ne, keeps.memory⟩

/-- Behind a comparison its field holds an order, and everything else is as it was. -/
structure Comparison.Outcome (field : ConditionField) (order : Ordering) (m m' : Machine) :
    Prop where
  holds : FieldHolds m' field order
  others : ∀ name, (∀ bit, name ≠ conditionBitName field bit) → isTemporary name = false →
    name ≠ programCounter → m'.register? name = m.register? name
  memory : m'.memory = m.memory

/--
Setting the field to an order, and changing scratch registers besides, is the outcome of a
comparison.
-/
theorem Comparison.outcome_conditioned {m m' : Machine} {n so : Nat} (processor : m.cpu = cpu)
    (value : m.value? summaryFlag = some so) (field : ConditionField) (order : Ordering)
    (keeps : (m.conditioned field (Machine.comparisonBit order (so % 2 ^ 8))).Keeps n m') :
    Outcome field order m m' := by
  have processor' : (m.conditioned field (Machine.comparisonBit order (so % 2 ^ 8))).cpu = cpu :=
    processor
  refine ⟨(fieldHolds_conditioned processor value field order).keep keeps processor', ?_,
    keeps.memory⟩
  intro name ne native ne'
  rw [register?_of_keeps keeps processor' native ne']
  exact Machine.register?_conditioned_of_ne processor ne _

section Steps

variable {block : List NativeInstruction} {p : Program} {n : NativeInstruction} {m : Machine}

/-- The native step of a comparison leaves the order of its operands in its field. -/
theorem Comparison.nativeStep (k : Comparison) (named : n.mnemonic = k.mnemonic)
    (lifted : lift block = .ok p) (mem : n ∈ block) (processor : m.cpu = cpu)
    (limit : m.settings.stepLimit = none)
    (sources : ∀ r, k.Reads n r → ∃ v, m.value? (gprName r) = some v)
    (summary : ∃ so, m.value? summaryFlag = some so) :
    ∃ a b r, k.Compares n m a b ∧ Run.NativeStep p ⟨m, (), .running (.ofNative n.address)⟩ r ∧
      r.progress = Progress.within p n.address .finished ∧
      Outcome (fieldOf n) (compare a b) m r.machine ∧ r.machine.cpu = cpu ∧
      r.machine.settings.stepLimit = none := by
  obtain ⟨count, operation, X, code, expands, leads⟩ := nativeStep_of_leads lifted mem
  obtain ⟨form, registered, decodes⟩ := expands.decoded
  obtain rfl := form_unique (named ▸ registered) k.registered
  obtain ⟨ra, source, first, second, rfl⟩ := Comparison.decoded decodes
  obtain ⟨u, v, compares, width, held⟩ :=
    Comparison.compares_of_written processor first second sources
  obtain ⟨so, value⟩ := summary
  have effect := runs_expandCompare k processor (fieldOf n) width (held _).1 (held _).2
    (x := blank count n) (holds_flag processor .summary value)
  obtain ⟨r, step, progress, keeps⟩ := leads limit (effect.onward p n.address)
  exact ⟨_, _, r, compares, step, progress, outcome_conditioned processor value _ _ keeps,
    keeps.cpu.trans processor, (congrArg (·.stepLimit) keeps.settings).trans limit⟩

/-- The native step of a branch goes to its target exactly if its condition holds. -/
theorem Condition.nativeStep (c : Condition) (named : n.mnemonic = c.mnemonic)
    (lifted : lift block = .ok p) (mem : n ∈ block) (processor : m.cpu = cpu)
    (limit : m.settings.stepLimit = none) {a b : Int}
    (h : FieldHolds m (fieldOf n) (compare a b)) :
    ∃ target, targetAt cpu.catalog.widthOf n (positionBehindField n) = .ok target ∧
      (p.contains (.ofNative target) →
        ∃ r, Run.NativeStep p ⟨m, (), .running (.ofNative n.address)⟩ r ∧
          r.progress = (if c.Holds a b then .running (.ofNative target)
            else Progress.within p n.address .finished) ∧
          Unchanged m r.machine) := by
  obtain ⟨count, operation, X, code, expands, leads⟩ := nativeStep_of_leads lifted mem
  obtain ⟨form, registered, decodes⟩ := expands.decoded
  obtain rfl := form_unique (named ▸ registered) c.registered
  obtain ⟨target, written, rfl⟩ := Condition.decoded decodes
  refine ⟨target, written, fun there => ?_⟩
  have effect := leads_expandBranchIf (x := blank count n) processor c (targetAt_lt written) h
  obtain ⟨r, step, progress, keeps⟩ := leads limit <| Script.Leads.mono effect
    (R := fun _ X g => g.stance.progress p n.address = (if c.Holds a b then
      .running (.ofNative target) else Progress.within p n.address .finished) ∧
        Leaves (blank count n) m X g.machine) fun ⟨leaves, place, stance⟩ => by
      refine ⟨?_, leaves⟩
      rw [stance]
      split
      · exact if_pos there
      · rfl
  exact ⟨r, step, progress, unchanged_of_keeps keeps processor⟩

end Steps

/-- The numbers that are compared are there before the run has begun. -/
theorem Comparison.Compares.of_begun {k : Comparison} {n : NativeInstruction} {m : Machine}
    {a b : Int} (h : k.Compares n m.begun a b) : k.Compares n m a b := by
  cases h with
  | registers kind first second value value' => exact .registers kind first second value value'
  | immediate kind first second value => exact .immediate kind first second value

/--
The run of a lifted comparison sets its field to the order of its operands and changes nothing else.
A branch on the same field that is next goes to its target exactly if its condition holds of the
operands, and it changes nothing at all.
-/
theorem lifted_comparison_orders (k : Comparison) {c : NativeInstruction}
    (named : c.mnemonic = k.mnemonic) {block : List NativeInstruction} {p : Program}
    (lifted : lift block = .ok p) (mem : c ∈ block) {m : Machine} (processor : m.cpu = cpu)
    (limit : m.settings.stepLimit = none)
    (sources : ∀ r, k.Reads c r → ∃ v, m.value? (gprName r) = some v)
    (summary : ∃ so, m.value? summaryFlag = some so) :
    ∃ a b turns, k.Compares c m a b ∧
      let run := m.interpret .silent p turns (.ofNative c.address) ()
      run.progress = Progress.within p c.address .finished ∧
      Comparison.Outcome (fieldOf c) (compare a b) m run.machine ∧
      ∀ j ∈ block, ∀ condition : Condition, j.mnemonic = condition.mnemonic →
        fieldOf j = fieldOf c → p.nativeAbove? c.address = some j.address →
        ∃ target, targetAt cpu.catalog.widthOf j (positionBehindField j) = .ok target ∧
          (p.contains (.ofNative target) → ∃ turns',
            let run' := m.interpret .silent p (turns + turns') (.ofNative c.address) ()
            run'.progress = (if condition.Holds a b then .running (.ofNative target)
              else Progress.within p j.address .finished) ∧
            Unchanged run.machine run'.machine) := by
  obtain ⟨a, b, r, compares, step, progress, outcome, processor', limit'⟩ :=
    k.nativeStep named lifted mem (m := m.begun) processor limit sources summary
  obtain ⟨turns, ran⟩ := interpret_of_nativeStep step
  refine ⟨a, b, turns, compares.of_begun, ?_⟩
  simp only [ran]
  refine ⟨progress, ⟨outcome.holds, outcome.others, outcome.memory⟩, ?_⟩
  intro j mem' condition named' field next
  obtain ⟨target, written, branches⟩ :=
    condition.nativeStep named' lifted mem' processor' limit' (field ▸ outcome.holds)
  refine ⟨target, written, fun there => ?_⟩
  obtain ⟨r', step', progress', unchanged⟩ := branches there
  -- the branch starts where the comparison has ended
  have reached : m.interpret .silent p turns (.ofNative c.address) () =
      ⟨r.machine, (), .running (.ofNative j.address)⟩ := by
    have onward : r.progress = .running (.ofNative j.address) := by
      rw [progress]
      simp only [Progress.within, next]
    rw [ran, ← onward]
  obtain ⟨turns', ran'⟩ := interpret_of_nativeStep_next reached step'
  refine ⟨turns', ?_⟩
  simp only [ran']
  exact ⟨progress', unchanged⟩

/-- A loop that is left when `%r3` is no longer less than minus one. -/
def comparingLoop : List NativeInstruction :=
  [⟨0x100, "cmpwi", [.register "cr1", .sized .dword (.register "%r3"), .immediate (-1)]⟩,
    ⟨0x104, "blt", [.register "cr1", .immediate 0x100]⟩]

theorem expands_comparingLoop :
    ∀ n ∈ comparingLoop, ∃ operation X code, Expands 0 n operation X code := by
  intro n mem
  simp only [comparingLoop, List.mem_cons, List.not_mem_nil, or_false] at mem
  rcases mem with rfl | rfl
  · exact ⟨.compare true 1 3 (.constant (-1)), _, _,
      ⟨_, (⟨true, true⟩ : Comparison).registered, rfl⟩, rfl, rfl⟩
  · exact ⟨.branchIf .less 1 0x100, _, _, ⟨_, Condition.less.registered, rfl⟩, rfl, rfl⟩

/-- A machine with the least signed number in `%r3`. -/
def beforeComparing : Machine := ((Machine.start {} cpu).setGpr 3 0x80000000).setStatus .summary 1

/-- The least signed number is less than minus one, so the branch is taken. -/
theorem comparingLoop_orders :
    ∃ p, lift comparingLoop = .ok p ∧ ∃ turns turns',
      let run := beforeComparing.interpret .silent p turns (.ofNative 0x100) ()
      let run' := beforeComparing.interpret .silent p (turns + turns') (.ofNative 0x100) ()
      run.progress = .running (.ofNative 0x104) ∧
        run.machine.register? (conditionBitName 1 .lt) = some ⟨1, .byte, .defined⟩ ∧
        run.machine.register? (conditionBitName 1 .gt) = some ⟨0, .byte, .defined⟩ ∧
        run'.progress = .running (.ofNative 0x100) ∧ Unchanged run.machine run'.machine := by
  let k : Comparison := ⟨true, true⟩
  let c : NativeInstruction :=
    ⟨0x100, "cmpwi", [.register "cr1", .sized .dword (.register "%r3"), .immediate (-1)]⟩
  let j : NativeInstruction := ⟨0x104, "blt", [.register "cr1", .immediate 0x100]⟩
  obtain ⟨p, lifted⟩ := lift_isOk expands_comparingLoop (by decide)
  have laid := laid_of_lift lifted
  have mem : c ∈ comparingLoop := List.mem_cons_self ..
  have mem' : j ∈ comparingLoop := List.mem_cons_of_mem _ (List.mem_cons_self ..)
  have above : p.nativeAbove? c.address = some j.address := by
    apply laid.nativeAbove?_eq_some mem' (by decide)
    decide
  have left : gprAt cpu.catalog.widthOf c (positionBehindField c) = .ok 3 := rfl
  have right : operandAt cpu.catalog.widthOf c (positionBehindField c + 1) =
    .ok (.literal (-1) defaultLiteralWidth) := rfl
  have least : beforeComparing.value? (gprName 3) = some 0x80000000 := rfl
  have sources : ∀ r, k.Reads c r → ∃ v, beforeComparing.value? (gprName r) = some v := by
    intro r found
    rcases found with written | ⟨⟨⟩, -⟩
    obtain rfl := Except.ok.inj (left.symm.trans written)
    exact ⟨_, least⟩
  obtain ⟨a, b, turns, compares, progress, outcome, next⟩ :=
    lifted_comparison_orders k rfl lifted mem (m := beforeComparing) rfl rfl sources ⟨1, rfl⟩
  rcases compares with ⟨⟨⟩, -⟩ | ⟨-, left', right', value⟩
  obtain rfl := Except.ok.inj (left.symm.trans left')
  obtain ⟨rfl, -⟩ := ResolvedOperand.literal.inj (Except.ok.inj (right.symm.trans right'))
  obtain rfl := Option.some.inj (least.symm.trans value)
  obtain ⟨target, written, branches⟩ := next j mem' .less rfl rfl above
  have start : targetAt cpu.catalog.widthOf j (positionBehindField j) = .ok 0x100 := rfl
  obtain rfl := Except.ok.inj (start.symm.trans written)
  obtain ⟨turns', progress', unchanged⟩ := branches (laid.contains mem)
  refine ⟨p, lifted, turns, turns', ?_, ?_, ?_, ?_, unchanged⟩
  · rw [progress]
    simp only [Progress.within, above]
    rfl
  · exact outcome.holds.less.trans (by decide +kernel)
  · exact outcome.holds.greater.trans (by decide +kernel)
  · rw [progress', if_pos (by decide +kernel)]

end RegisterTransfer.PowerPC
