import RegisterTransfer.Proofs.PowerPC.Flags

/-!
# Recorded results

Arithmetic ends alike: the result is moved to its register, and then the carry, the overflow flags
and condition field 0 are set as far as the spelling wants them. Condition field 0 repeats the summary
flag, so it is set last.

> `runs_settled`: the effect of such an end.
> `runs_flagged`: the effect of its last part, which may have no result to record.
> `register?_flagged_of_ne`, `register?_flagged_overflow`: what is read behind it.
> `recordsOrder_iff_fieldHolds`: an order that is recorded is one that condition field 0 holds.
> `fieldHolds_flagged`, `recordsOrder_flagged`, `recordsNothing_flagged`: condition field 0 behind it.
-/

namespace RegisterTransfer

namespace Machine

open PowerPC

/-- Sets a register to a result, and perhaps the carry flag. -/
def carried (m : Machine) (rd : Gpr) (result : Nat) (wanted : Bool) (carry : Nat) : Machine :=
  (m.setGpr rd result).when wanted (·.setStatus .carry carry)

/-- Sets condition field 0 from a result, if there is one, and the summary flag. -/
def ordered (m : Machine) (so : Nat) : Option Nat → Machine
  | some result => m.recorded result so
  | none => m.unrecorded so

/-- Sets what is wanted of the overflow flags and condition field 0. -/
def flagged (m : Machine) (overflow record : Bool) (lost so : Nat) (result : Option Nat) :
    Machine :=
  (m.when overflow (·.overflowed so lost)).when record
    (·.ordered (if overflow then so ||| lost else so) result)

section Carried

variable {m e : Machine} {rd : Gpr} {r c n : Nat} {wanted : Bool} {name : String}

theorem cpu_carried (m : Machine) (rd : Gpr) (r : Nat) (wanted : Bool) (c : Nat) :
    (m.carried rd r wanted c).cpu = m.cpu :=
  cpu_when (by rfl) _

theorem memory_carried (m : Machine) (rd : Gpr) (r : Nat) (wanted : Bool) (c : Nat) :
    (m.carried rd r wanted c).memory = m.memory := by
  unfold carried when
  split <;> rfl

theorem Keeps.carried (h : e.Keeps n m) (rd : Gpr) (r : Nat) (wanted : Bool) (c : Nat) :
    (e.carried rd r wanted c).Keeps n (m.carried rd r wanted c) :=
  (h.setRegister _ _ _ _).when wanted (·.setStatus .carry c)
    ((h.setRegister _ _ _ _).setRegister _ _ _ _)

/-- A result with a carry changes its register and the carry flag only. -/
theorem register?_carried_of_ne (processor : m.cpu = PowerPC.cpu) (ne : name ≠ gprName rd)
    (ne' : wanted = true → name ≠ carryFlag) :
    (m.carried rd r wanted c).register? name = m.register? name := by
  have processor' : (m.setGpr rd r).cpu = PowerPC.cpu := processor
  rw [carried, register?_when_of, register?_setGpr processor, if_neg ne]
  intro e
  exact (register?_setStatus processor' ..).trans (if_neg (ne' e))

/-- The register holds the result, whether or not a carry is written. -/
theorem register?_carried_gpr (processor : m.cpu = PowerPC.cpu) (rd : Gpr) (r : Nat)
    (wanted : Bool) (c : Nat) :
    (m.carried rd r wanted c).register? (gprName rd) =
      some (.ofNat r registerWidth .defined) := by
  have processor' : (m.setGpr rd r).cpu = PowerPC.cpu := processor
  rw [carried, register?_when_of, register?_setGpr processor, if_pos rfl]
  intro _
  exact (register?_setStatus processor' ..).trans (if_neg (StatusBit.ne_gprName .carry rd).symm)

/-- The carry flag holds the carry if one is written. -/
theorem register?_carried_flag (processor : m.cpu = PowerPC.cpu) (carries : wanted = true)
    (rd : Gpr) (r : Nat) (le : c ≤ 1) :
    (m.carried rd r wanted c).register? carryFlag = some ⟨c, .byte, .defined⟩ := by
  have processor' : (m.setGpr rd r).cpu = PowerPC.cpu := processor
  subst carries
  refine (register?_setStatus processor' .carry c carryFlag).trans ?_
  rw [if_pos (by rfl), RegisterValue.ofNat, Width.truncate_of_le_one _ le]
  rfl

theorem value?_carried_summary (processor : m.cpu = PowerPC.cpu) (rd : Gpr) (r : Nat)
    (wanted : Bool) (c : Nat) :
    (m.carried rd r wanted c).value? summaryFlag = m.value? summaryFlag :=
  value?_congr (register?_carried_of_ne processor (StatusBit.ne_gprName .summary rd)
    fun _ => by decide)

end Carried

section Flagged

variable {m e : Machine} {overflow record : Bool} {lost so n : Nat} {result : Option Nat}
  {name : String}

theorem cpu_ordered (m : Machine) (so : Nat) (result : Option Nat) :
    (m.ordered so result).cpu = m.cpu := by
  cases result <;> rfl

/-- The flags that a result sets before condition field 0 leave the processor as it is. -/
theorem cpu_overflowing (processor : m.cpu = PowerPC.cpu) (overflow : Bool) (so lost : Nat) :
    (m.when overflow (·.overflowed so lost)).cpu = PowerPC.cpu :=
  (cpu_when (by rfl) _).trans processor

theorem cpu_flagged (m : Machine) (overflow record : Bool) (lost so : Nat) (result : Option Nat) :
    (m.flagged overflow record lost so result).cpu = m.cpu :=
  (cpu_when (cpu_ordered ..) _).trans (cpu_when (by rfl) _)

theorem memory_flagged (m : Machine) (overflow record : Bool) (lost so : Nat)
    (result : Option Nat) : (m.flagged overflow record lost so result).memory = m.memory := by
  unfold flagged when
  split <;> split <;> cases result <;> rfl

theorem Keeps.ordered (h : e.Keeps n m) (processor : e.cpu = PowerPC.cpu) (so : Nat)
    (result : Option Nat) : (e.ordered so result).Keeps n (m.ordered so result) := by
  cases result with
  | some r => exact h.recorded r so
  | none => exact h.unrecorded processor so

/-- The same flags on both sides leave them different in scratch registers only. -/
theorem Keeps.flagged (h : e.Keeps n m) (processor : e.cpu = PowerPC.cpu)
    (overflow record : Bool) (lost so : Nat) (result : Option Nat) :
    (e.flagged overflow record lost so result).Keeps n (m.flagged overflow record lost so result) := by
  have flags := h.when overflow (·.overflowed so lost) (h.overflowed so lost)
  exact flags.when record _ (flags.ordered (cpu_overflowing processor ..) _ result)

/-- Recording a result, or that there is none, changes condition field 0 only. -/
theorem register?_ordered_of_ne (processor : m.cpu = PowerPC.cpu)
    (ne : ∀ bit, name ≠ conditionBitName defaultField bit) (so : Nat) (result : Option Nat) :
    (m.ordered so result).register? name = m.register? name := by
  have apart : ∀ bit, name ≠ StatusBit.name (.condition bit) := ne
  cases result with
  | some r => exact register?_recorded_of_ne processor ne r so
  | none =>
    simp only [ordered, unrecorded, register?_setStatus, register?_undefineStatus,
      cpu_undefineStatus, processor, apart, if_false]

/-- Flags that are not written are left alone. -/
theorem register?_flagged_of_ne (processor : m.cpu = PowerPC.cpu)
    (ne : overflow = true → name ≠ overflowFlag ∧ name ≠ summaryFlag)
    (ne' : record = true → ∀ bit, name ≠ conditionBitName defaultField bit) :
    (m.flagged overflow record lost so result).register? name = m.register? name := by
  unfold flagged
  rw [register?_when_of fun e =>
    register?_ordered_of_ne (cpu_overflowing processor ..) (ne' e) _ _]
  apply register?_when_of
  intro e
  rw [register?_overflowed processor, if_neg (ne e).2, if_neg (ne e).1]

/-- Flags that are bits are stored as they are, and the summary flag becomes their disjunction. -/
theorem register?_overflow_of_le (processor : m.cpu = PowerPC.cpu) (le : lost ≤ 1)
    (lt : so < 2 ^ 8) :
    (m.overflowed so lost).register? overflowFlag = some ⟨lost, .byte, .defined⟩ ∧
      (m.overflowed so lost).register? summaryFlag = some ⟨so ||| lost, .byte, .defined⟩ := by
  have lt' : so ||| lost < 2 ^ 8 := Nat.or_lt_two_pow lt (by omega)
  constructor
  · rw [register?_overflowed processor, if_neg (by decide), if_pos rfl, RegisterValue.ofNat,
      Width.truncate_of_le_one _ le]
    rfl
  · rw [register?_overflowed processor, if_pos rfl, RegisterValue.ofNat, Width.truncate_of_lt lt']
    rfl

end Flagged

end Machine

namespace PowerPC

open Script

/-! ## Condition fields -/

/-- A condition field holds an order and the summary flag. -/
structure FieldHolds (m : Machine) (field : ConditionField) (order : Ordering) : Prop where
  less : m.register? (conditionBitName field .lt) = some ⟨flag (order = .lt), .byte, .defined⟩
  greater : m.register? (conditionBitName field .gt) = some ⟨flag (order = .gt), .byte, .defined⟩
  equal : m.register? (conditionBitName field .eq) = some ⟨flag (order = .eq), .byte, .defined⟩
  summary : ∃ so, m.value? summaryFlag = some so ∧
    m.register? (conditionBitName field .so) = some ⟨so % 2 ^ 8, .byte, .defined⟩

/-- Condition field 0 holds the order of a signed result and zero, and the summary flag. -/
structure RecordsOrder (m : Machine) (result : Nat) : Prop where
  less : m.register? (conditionBitName defaultField .lt) =
    some ⟨flag (registerWidth.toSigned result < 0), .byte, .defined⟩
  greater : m.register? (conditionBitName defaultField .gt) =
    some ⟨flag (0 < registerWidth.toSigned result), .byte, .defined⟩
  equal : m.register? (conditionBitName defaultField .eq) =
    some ⟨flag (registerWidth.toSigned result = 0), .byte, .defined⟩
  summary : ∃ so, m.value? summaryFlag = some so ∧
    m.register? (conditionBitName defaultField .so) = some ⟨so, .byte, .defined⟩

/-- The bits of a condition field are those of an order and of a summary flag. -/
def HasBits (m : Machine) (field : ConditionField) (order : Ordering) (so : Nat) : Prop :=
  ∀ bit, m.register? (conditionBitName field bit) =
    some ⟨Machine.comparisonBit order so bit, .byte, .defined⟩

/-- What holds of every bit of a field holds of its four bits. -/
theorem ConditionBit.forall_iff {P : ConditionBit → Prop} :
    (∀ bit, P bit) ↔ P .lt ∧ P .gt ∧ P .eq ∧ P .so := by
  refine ⟨fun all => ⟨all .lt, all .gt, all .eq, all .so⟩, ?_⟩
  rintro ⟨less, greater, equal, summary⟩ bit
  cases bit with
  | lt => exact less
  | gt => exact greater
  | eq => exact equal
  | so => exact summary

section Condition

variable {e m : Machine} {n so result : Nat} {field : ConditionField} {order : Ordering}

/-- The last bit of a field that holds an order is the low byte of the summary flag. -/
theorem fieldHolds_iff : FieldHolds m field order ↔
    ∃ so, m.value? summaryFlag = some so ∧ HasBits m field order (so % 2 ^ 8) := by
  simp only [HasBits, ConditionBit.forall_iff]
  constructor
  · rintro ⟨less, greater, equal, so, value, summary⟩
    exact ⟨so, value, less, greater, equal, summary⟩
  · rintro ⟨so, value, less, greater, equal, summary⟩
    exact ⟨less, greater, equal, so, value, summary⟩

/-- The last bit of a field that records an order is the summary flag itself. -/
theorem recordsOrder_iff : RecordsOrder m result ↔ ∃ so, m.value? summaryFlag = some so ∧
    HasBits m defaultField (compare (registerWidth.toSigned result) 0) so := by
  simp only [HasBits, ← Machine.orderBit_eq, ConditionBit.forall_iff]
  constructor
  · rintro ⟨less, greater, equal, so, value, summary⟩
    exact ⟨so, value, less, greater, equal, summary⟩
  · rintro ⟨so, value, less, greater, equal, summary⟩
    exact ⟨less, greater, equal, so, value, summary⟩

/-- Where the summary flag is a byte, to record an order is to hold it in condition field 0. -/
theorem recordsOrder_iff_fieldHolds (value : m.value? summaryFlag = some so) (lt : so < 2 ^ 8) :
    RecordsOrder m result ↔
      FieldHolds m defaultField (compare (registerWidth.toSigned result) 0) := by
  simp only [recordsOrder_iff, fieldHolds_iff, value, Option.some.injEq, exists_eq_left',
    Nat.mod_eq_of_lt lt]

/-- What is read of a register of the processor behind a script. -/
theorem register?_of_keeps (keeps : e.Keeps n m) (processor : e.cpu = cpu) {name : String}
    (native : isTemporary name = false) (ne : name ≠ programCounter) :
    m.register? name = e.register? name :=
  keeps.register? (processor ▸ Cpu.not_scratch native ne n)

/-- A machine that keeps another has its status bits. -/
theorem register?_status_of_keeps (keeps : e.Keeps n m) (processor : e.cpu = cpu)
    (b : StatusBit) : m.register? b.name = e.register? b.name :=
  register?_of_keeps keeps processor b.native b.ne_programCounter

theorem value?_summary_of_keeps (keeps : e.Keeps n m) (processor : e.cpu = cpu) :
    m.value? summaryFlag = e.value? summaryFlag := by
  have same := register?_status_of_keeps keeps processor .summary
  exact Machine.value?_congr same

theorem HasBits.keep (h : HasBits e field order so) (keeps : e.Keeps n m)
    (processor : e.cpu = cpu) : HasBits m field order so :=
  fun bit => (keeps.register? (processor ▸ not_scratch_condition field bit n)).trans (h bit)

theorem FieldHolds.keep (h : FieldHolds e field order) (keeps : e.Keeps n m)
    (processor : e.cpu = cpu) : FieldHolds m field order := by
  obtain ⟨so, value, bits⟩ := fieldHolds_iff.1 h
  have value' := (value?_summary_of_keeps keeps processor).trans value
  exact fieldHolds_iff.2 ⟨so, value', bits.keep keeps processor⟩

theorem RecordsOrder.keep (h : RecordsOrder e result) (keeps : e.Keeps n m)
    (processor : e.cpu = cpu) : RecordsOrder m result := by
  obtain ⟨so, value, bits⟩ := recordsOrder_iff.1 h
  have value' := (value?_summary_of_keeps keeps processor).trans value
  exact recordsOrder_iff.2 ⟨so, value', bits.keep keeps processor⟩

theorem summary_ne_condition (field : Nat) (bit : ConditionBit) :
    summaryFlag ≠ conditionBitName field bit :=
  (conditionBitName_ne (c := 'X') rfl (by decide) field bit).symm

/-- The bits of a condition field that is set from an order and a byte. -/
theorem hasBits_conditioned (processor : m.cpu = cpu) (field : ConditionField) (order : Ordering)
    (lt : so < 2 ^ 8) :
    HasBits (m.conditioned field (Machine.comparisonBit order so)) field order so := by
  intro bit
  have small : Machine.comparisonBit order so bit < flagWidth.modulus := by
    cases bit with
    | so => exact lt
    | lt | gt | eq => exact Nat.lt_of_le_of_lt (flag_le_one _) (by decide)
  rw [Machine.register?_conditioned processor, RegisterValue.ofNat, Width.truncate_of_lt small]
  rfl

/-- Setting a condition field from an order and the summary flag. -/
theorem fieldHolds_conditioned (processor : m.cpu = cpu) (value : m.value? summaryFlag = some so)
    (field : ConditionField) (order : Ordering) :
    FieldHolds (m.conditioned field (Machine.comparisonBit order (so % 2 ^ 8))) field order := by
  have apart := Machine.register?_conditioned_of_ne processor (summary_ne_condition field)
    (Machine.comparisonBit order (so % 2 ^ 8))
  have bits := hasBits_conditioned processor field order (Nat.mod_lt so (by decide : 0 < 2 ^ 8))
  exact fieldHolds_iff.2 ⟨so, (Machine.value?_congr apart).trans value, bits⟩

/-- Condition field 0 holds no order, but the summary flag. -/
structure RecordsNothing (m m' : Machine) : Prop where
  order : ∀ bit, bit ≠ .so → m'.register? (conditionBitName defaultField bit) =
    some (.undefined (m.register? (conditionBitName defaultField bit)) .byte)
  summary : ∃ so, m'.value? summaryFlag = some so ∧
    m'.register? (conditionBitName defaultField .so) = some ⟨so, .byte, .defined⟩

theorem RecordsNothing.keep {m' : Machine} (h : RecordsNothing m e) (keeps : e.Keeps n m')
    (processor : e.cpu = cpu) : RecordsNothing m m' := by
  have same : ∀ bit, m'.register? (conditionBitName defaultField bit) =
      e.register? (conditionBitName defaultField bit) := fun bit =>
    register?_status_of_keeps keeps processor (.condition bit)
  constructor
  · intro bit ne
    rw [same, h.order bit ne]
  · rw [same, value?_summary_of_keeps keeps processor]
    exact h.summary

/-- Only the bits of condition field 0 matter to an order that is missing. -/
theorem RecordsNothing.congr {m' : Machine} (h : RecordsNothing e m')
    (same : ∀ bit, e.register? (conditionBitName defaultField bit) =
      m.register? (conditionBitName defaultField bit)) : RecordsNothing m m' := by
  refine ⟨?_, h.summary⟩
  intro bit ne
  rw [h.order bit ne, same]

theorem status_ne_condition {b : StatusBit} (ne : ∀ bit, b ≠ .condition bit) (bit : ConditionBit) :
    b.name ≠ conditionBitName defaultField bit :=
  fun same => ne bit (StatusBit.name_injective same)

/-- Without a result nothing is recorded but the summary flag. -/
theorem recordsNothing_unrecorded (processor : m.cpu = cpu) (value : m.value? summaryFlag = some so)
    (le : so ≤ 1) : RecordsNothing m (m.unrecorded so) := by
  have same : ∀ bit bit', conditionBitName defaultField bit = StatusBit.name (.condition bit') ↔
      bit = bit' := fun bit bit' => by
    rw [show conditionBitName defaultField bit = StatusBit.name (.condition bit) from rfl,
      StatusBit.name_inj]
    simp
  constructor
  · intro bit ne
    cases bit with
    | so => exact absurd rfl ne
    | lt | gt | eq =>
      simp only [Machine.unrecorded, Machine.register?_setStatus, Machine.register?_undefineStatus,
        Machine.cpu_undefineStatus, processor, same]
      rfl
  · have kept : (m.unrecorded so).register? summaryFlag = m.register? summaryFlag :=
      Machine.register?_ordered_of_ne processor (status_ne_condition (b := .summary) (by simp)) so
        none
    refine ⟨so, ?_, ?_⟩
    · rw [← value, Machine.value?, kept]
      rfl
    · simp only [Machine.unrecorded, Machine.register?_setStatus, Machine.cpu_undefineStatus,
        processor, same, if_true, RegisterValue.ofNat, Width.truncate_of_le_one _ le]
      rfl

end Condition

/-! ## Behind the flags -/

section Flagged

variable {x : Expansion} {m : Machine} {overflow record : Bool} {lost so : Nat}
  {result : Option Nat}

/-- The flags that a spelling writes. -/
def writtenFlags (overflow record : Bool) : List String :=
  (if overflow then [overflowFlag, summaryFlag] else []) ++
    (if record then ConditionBit.all.map (conditionBitName defaultField) else [])

/-- No general purpose register is among them. -/
theorem gprName_not_mem_writtenFlags (r : Gpr) : gprName r ∉ writtenFlags overflow record := by
  intro h
  have status : ∃ b : StatusBit, b.name = gprName r := by
    simp only [writtenFlags, List.mem_append] at h
    rcases h with h | h
    · split at h
      · rcases List.mem_cons.1 h with same | h
        · exact ⟨.overflow, same.symm⟩
        · exact ⟨.summary, (List.mem_singleton.1 h).symm⟩
      · cases h
    · split at h
      · obtain ⟨bit, -, same⟩ := List.mem_map.1 h
        exact ⟨.condition bit, same⟩
      · cases h
  obtain ⟨b, same⟩ := status
  exact b.ne_gprName r same

/-- The flags of a result change only those that are written. -/
theorem register?_flagged_of_not_mem (processor : m.cpu = cpu) {name : String}
    (h : name ∉ writtenFlags overflow record) :
    (m.flagged overflow record lost so result).register? name = m.register? name := by
  simp only [writtenFlags, List.mem_append, not_or] at h
  obtain ⟨unflagged, unrecorded⟩ := h
  apply Machine.register?_flagged_of_ne processor
  · intro written
    rw [written, if_pos rfl, List.mem_cons, List.mem_singleton, not_or] at unflagged
    exact unflagged
  · intro written bit same
    rw [written, if_pos rfl] at unrecorded
    exact unrecorded (List.mem_map.2 ⟨bit, by cases bit <;> decide, same.symm⟩)

/-- The flags of a result that records its overflow. -/
theorem register?_flagged_overflow (processor : m.cpu = cpu) (wanted : overflow = true)
    (le : lost ≤ 1) (lt : so < 2 ^ 8) (record : Bool) (result : Option Nat) :
    (m.flagged overflow record lost so result).register? overflowFlag =
        some ⟨lost, .byte, .defined⟩ ∧
      (m.flagged overflow record lost so result).register? summaryFlag =
        some ⟨so ||| lost, .byte, .defined⟩ := by
  subst wanted
  have kept : ∀ b : StatusBit, (∀ bit, b ≠ .condition bit) →
      (m.flagged true record lost so result).register? b.name =
        (m.overflowed so lost).register? b.name := by
    intro b ne
    unfold Machine.flagged
    rw [Machine.register?_when_of, Machine.when, if_pos rfl]
    intro _
    exact Machine.register?_ordered_of_ne (Machine.cpu_overflowing processor ..)
      (status_ne_condition ne) _ _
  obtain ⟨lost, sticky⟩ := Machine.register?_overflow_of_le processor le lt
  exact ⟨(kept .overflow (by simp)).trans lost, (kept .summary (by simp)).trans sticky⟩

/-- The summary flag when condition field 0 is set. -/
theorem value?_summary_overflowed (processor : m.cpu = cpu) (overflow : Bool) (le : lost ≤ 1)
    (value : m.value? summaryFlag = some so) (le' : so ≤ 1) :
    (m.when overflow (·.overflowed so lost)).value? summaryFlag =
        some (if overflow then so ||| lost else so) ∧
      (if overflow then so ||| lost else so) ≤ 1 := by
  cases overflow with
  | false => exact ⟨value, le'⟩
  | true =>
    have byte : so < 2 ^ 8 := Nat.lt_of_le_of_lt le' (by decide)
    obtain ⟨-, sticky⟩ := Machine.register?_overflow_of_le processor le byte
    have lt : so ||| lost < 2 ^ 1 := Nat.or_lt_two_pow (by omega) (by omega)
    refine ⟨?_, Nat.le_of_lt_succ lt⟩
    simp only [Machine.when, if_true, Machine.value?, sticky]
    rfl

/-- Condition field 0 behind a result, where the summary flag is any byte. -/
theorem fieldHolds_flagged (processor : m.cpu = cpu) (wanted : record = true) (le : lost ≤ 1)
    (value : m.value? summaryFlag = some so) (r : Nat) :
    FieldHolds (m.flagged overflow record lost (so % 2 ^ 8) (some r)) defaultField
      (compare (registerWidth.toSigned r) 0) := by
  subst wanted
  obtain ⟨so', value', same⟩ : ∃ so',
      (m.when overflow (·.overflowed (so % 2 ^ 8) lost)).value? summaryFlag = some so' ∧
        so' % 2 ^ 8 = if overflow then so % 2 ^ 8 ||| lost else so % 2 ^ 8 := by
    cases overflow with
    | false => exact ⟨so, value, rfl⟩
    | true =>
      have lt : so % 2 ^ 8 < 2 ^ 8 := Nat.mod_lt so (by decide)
      obtain ⟨-, sticky⟩ := Machine.register?_overflow_of_le processor le lt
      refine ⟨so % 2 ^ 8 ||| lost, ?_, Nat.mod_eq_of_lt (Nat.or_lt_two_pow lt (by omega))⟩
      simp only [Machine.when, if_true, Machine.value?, sticky]
      rfl
  have holds := fieldHolds_conditioned (Machine.cpu_overflowing processor ..) value'
    defaultField (compare (registerWidth.toSigned r) 0)
  rw [same, ← Machine.orderBit_eq] at holds
  exact holds

/--
A recorded result shows its order in condition field 0, with the summary flag behind the overflow.
-/
theorem recordsOrder_flagged (processor : m.cpu = cpu) (wanted : record = true) (le : lost ≤ 1)
    (value : m.value? summaryFlag = some so) (le' : so ≤ 1) (r : Nat) :
    RecordsOrder (m.flagged overflow record lost so (some r)) r := by
  have holds : FieldHolds (m.flagged overflow record lost (so % 2 ^ 8) (some r)) defaultField
      (compare (registerWidth.toSigned r) 0) := fieldHolds_flagged processor wanted le value r
  rw [Nat.mod_eq_of_lt (Nat.lt_of_le_of_lt le' (by decide))] at holds
  subst wanted
  obtain ⟨value', le''⟩ := value?_summary_overflowed processor overflow le value le'
  -- the condition field is set last, so the summary flag is what the overflow made it
  have kept : (m.flagged overflow true lost so (some r)).register? summaryFlag =
      (m.when overflow (·.overflowed so lost)).register? summaryFlag :=
    Machine.register?_ordered_of_ne (Machine.cpu_overflowing processor ..)
      (summary_ne_condition defaultField) _ (some r)
  exact (recordsOrder_iff_fieldHolds ((Machine.value?_congr kept).trans value')
    (Nat.lt_of_le_of_lt le'' (by decide))).2 holds

/-- Without a result condition field 0 is undefined but for the summary flag. -/
theorem recordsNothing_flagged (processor : m.cpu = cpu) (wanted : record = true) (le : lost ≤ 1)
    (value : m.value? summaryFlag = some so) (le' : so ≤ 1) :
    RecordsNothing m (m.flagged overflow record lost so none) := by
  subst wanted
  obtain ⟨value', le''⟩ := value?_summary_overflowed processor overflow le value le'
  obtain ⟨order, summary⟩ :=
    recordsNothing_unrecorded (Machine.cpu_overflowing processor ..) value' le''
  refine ⟨?_, summary⟩
  intro bit ne
  refine (order bit ne).trans ?_
  rw [Machine.register?_when_of]
  intro _
  rw [Machine.register?_overflowed processor, if_neg, if_neg]
  · exact (status_ne_condition (b := .overflow) (by simp) bit).symm
  · exact (status_ne_condition (b := .summary) (by simp) bit).symm

/-- The end of a script that records how its result came out. -/
theorem runs_flagged {s t : Script Unit} (processor : m.cpu = cpu) (result : Option Nat)
    (le : lost ≤ 1) (summary : overflow ∨ record → m.Holds x.taken StatusBit.summary.operand so)
    (first : s.Runs x m fun _ => Leaves x (m.when overflow (·.overflowed so lost)))
    (second : record = true → ∀ {X m'}, Leaves x (m.when overflow (·.overflowed so lost)) X m' →
      m'.cpu = cpu → m'.Holds X.taken StatusBit.summary.operand
        (if overflow then so ||| lost else so) →
      t.Runs X m' fun _ => Leaves X (m'.ordered (if overflow then so ||| lost else so) result)) :
    (s >>= fun _ => onlyIf record t).Runs x m fun _ =>
      Leaves x (m.flagged overflow record lost so result) := by
  apply first.bind
  intro _ X₁ m₁ flags
  have processor₁ := Machine.cpu_overflowing processor overflow so lost
  have processor₂ : m₁.cpu = cpu := flags.keeps.cpu.trans processor₁
  apply (runs_onlyIf flags.plain record
    (·.ordered (if overflow then so ||| lost else so) result) fun wanted =>
      second wanted flags processor₂
        (flags.holds (holds_summary processor (summary (.inr wanted)) le overflow))).mono
  intro _ X₂ m₂ order
  exact flags.through (·.when record (·.ordered (if overflow then so ||| lost else so) result))
    (fun same => same.when _ _ (same.ordered processor₁ _ result)) order

/-- The end of a script whose result is in its register. -/
theorem runs_flagged_gpr {s : Script Unit} {rd : Gpr} {r : Nat} (processor : m.cpu = cpu)
    (le : lost ≤ 1) (held : m.Holds x.taken (gprOperand rd) r)
    (summary : overflow ∨ record → m.Holds x.taken StatusBit.summary.operand so)
    (first : s.Runs x m fun _ => Leaves x (m.when overflow (·.overflowed so lost))) :
    (s >>= fun _ => onlyIf record (recordResult (gprOperand rd))).Runs x m fun _ =>
      Leaves x (m.flagged overflow record lost so (some r)) := by
  apply runs_flagged processor (some r) le summary first
  intro _ X' m' flags processor' summary'
  have held' := flags.holds (held.when overflow _
    (held.overflowed (plain_of_cpu processor) (kind_gpr_ne rd _) (kind_gpr_ne rd _) so lost))
  exact runs_recordResult processor' rfl held' summary'

/-- The end of a script that moves its result, and then sets its flags as far as they are there. -/
theorem runs_settled {move : Script Unit} {carry lostFlag : Option Operand} {carries : Bool}
    {rd : Gpr} {r c : Nat} (processor : m.cpu = cpu) (le : lost ≤ 1)
    (moves : move.Runs x m fun _ => Leaves x (m.setGpr rd r))
    (first : Provides m x.taken c carries carry) (second : Provides m x.taken lost overflow lostFlag)
    (summary : overflow ∨ record → m.Holds x.taken StatusBit.summary.operand so) :
    (do
      move
      withOperand (copy · (flagOperand carryFlag)) carry
      withOperand writeOverflow lostFlag
      onlyIf record (recordResult (gprOperand rd)) : Script Unit).Runs x m fun _ =>
      Leaves x ((m.carried rd r carries c).flagged overflow record lost so
        (some (registerWidth.truncate r))) := by
  have plain := plain_of_cpu processor
  let moved : Machine := m.setGpr rd r
  apply moves.bind
  intro _ X₁ m₁ effect₁
  have keep₁ : ∀ {o v}, m.Holds x.taken o v → o.kind ≠ .register (gprName rd) →
      m₁.Holds X₁.taken o v := fun held ne =>
    effect₁.holds (held.set plain ne r registerWidth .defined)
  have processor₁ : m₁.cpu = cpu := effect₁.keeps.cpu.trans processor
  have first₁ := first.imp fun hidden held => keep₁ held (hidden.ne (isTemporary_gprName rd))
  apply (runs_withOperand effect₁.plain (·.setStatus .carry c) first₁ fun o _ held =>
    (runs_status processor₁ .carry held).mono And.left).bind
  intro _ X₂ m₂ effect₂
  have behind : Leaves x (m.carried rd r carries c) X₂ m₂ :=
    effect₁.through (·.when carries (·.setStatus .carry c))
      (fun same => same.when _ (·.setStatus .carry c) (same.setRegister _ _ _ _)) effect₂
  have processor' := (m.cpu_carried rd r carries c).trans processor
  have processor₂ : m₂.cpu = cpu := behind.keeps.cpu.trans processor'
  have keep₂ : ∀ {o v}, m.Holds x.taken o v → o.kind ≠ .register (gprName rd) →
      o.kind ≠ .register StatusBit.carry.name → m₂.Holds X₂.taken o v := by
    intro o v held ne ne'
    have held' : moved.Holds x.taken o v := held.set plain ne r registerWidth .defined
    exact behind.holds (held'.when carries _ (held'.setStatus plain ne' c))
  have result₂ : m₂.Holds X₂.taken (gprOperand rd) (registerWidth.truncate r) := by
    have settled : ¬ m.cpu.Scratch x.taken (gprName rd) := processor ▸ not_scratch_gpr rd x.taken
    have held : moved.Holds x.taken (gprOperand rd) (registerWidth.truncate r) :=
      Machine.holds_setRegister plain settled r registerWidth
    exact behind.holds (held.when carries _ (held.setStatus plain (kind_gpr_ne rd _) c))
  have second₂ := second.imp fun hidden held =>
    keep₂ held (hidden.ne (isTemporary_gprName rd)) (hidden.ne (StatusBit.native _))
  have summary₂ : overflow ∨ record → m₂.Holds X₂.taken StatusBit.summary.operand so :=
    fun needed => keep₂ (summary needed) (kind_status_ne .summary rd) (kind_ne_of_ne nofun)
  -- the summary flag is read before it is written
  apply (runs_flagged_gpr processor₂ le result₂ summary₂ (runs_withOperand behind.plain _ second₂
    fun o wanted held => runs_writeOverflow processor₂ held le (summary₂ (.inl wanted)))).mono
  intro _ X₃ m₃ flags
  exact behind.through (·.flagged overflow record lost so (some (registerWidth.truncate r)))
    (fun same => same.flagged processor' _ _ _ so _) flags

end Flagged

end PowerPC

end RegisterTransfer
