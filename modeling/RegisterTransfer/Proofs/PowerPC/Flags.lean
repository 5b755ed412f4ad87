import RegisterTransfer.PowerPC.Expansion
import RegisterTransfer.Proofs.Evaluation

/-!
# Flags and condition fields

What the scripts that set flags leave behind. The overflow flag is written before the summary flag,
and both before condition field 0, whose last bit is the summary flag as it then stands.

> `runs_setOrder`: three bits of a condition field are an order.
> `runs_setConditionField`: the fourth is a copy of the summary flag.
> `runs_writeOverflow`: the summary flag stays set once it is set.
> `runs_recordResult`: condition field 0 is the order of the signed result and zero.
> `runs_recordUndefined`: without a result three of its bits are undefined.
-/

namespace RegisterTransfer

namespace PowerPC

open Script

/-! ## Names -/

/-- Texts whose first letters differ are different. -/
theorem ne_of_head {name other : String} {c d : Char} {cs ds : List Char}
    (h : name.toList = c :: cs) (h' : other.toList = d :: ds) (ne : c ≠ d) : name ≠ other := by
  intro same
  subst same
  rw [h] at h'
  injection h' with same
  exact ne same

theorem toList_gprName (n : Nat) : (gprName n).toList = '%' :: 'r' :: Nat.toDigits 10 n := by
  simp [gprName]

theorem gprName_injective {i j : Nat} (h : gprName i = gprName j) : i = j := by
  have letters := congrArg String.toList h
  simp only [toList_gprName, List.cons.injEq, true_and] at letters
  have values := congrArg (Nat.ofDigitChars 10 · 0) letters
  simpa using values

theorem gprName_ne_programCounter (n : Nat) : gprName n ≠ programCounter :=
  ne_of_head (toList_gprName n) (show programCounter.toList = ['P', 'C'] from rfl) (by decide)

theorem toList_conditionBitName (field : Nat) (bit : ConditionBit) :
    (conditionBitName field bit).toList =
      'C' :: 'R' :: (Nat.toDigits 10 field ++ bit.suffix.toList) := by
  simp [conditionBitName]

/-- A bit of a condition field is no register whose name begins with another letter than `C`. -/
theorem conditionBitName_ne {name : String} {c : Char} {cs : List Char}
    (letters : name.toList = c :: cs) (ne : 'C' ≠ c) (field : Nat) (bit : ConditionBit) :
    conditionBitName field bit ≠ name :=
  ne_of_head (toList_conditionBitName field bit) letters ne

/-- The bits of one condition field have different names. -/
theorem conditionBitName_inj {field : Nat} {bit bit' : ConditionBit} :
    conditionBitName field bit = conditionBitName field bit' ↔ bit = bit' := by
  refine ⟨fun same => ?_, fun same => same ▸ rfl⟩
  have letters := congrArg String.toList same
  simp only [toList_conditionBitName, List.cons.injEq, List.append_cancel_left_eq, true_and] at letters
  cases bit <;> cases bit' <;> first | rfl | exact absurd letters (by decide)

/-- A bit that records how a result came out: a flag or a bit of condition field 0. -/
inductive StatusBit where
  | carry
  | overflow
  | summary
  | condition (bit : ConditionBit)
  deriving DecidableEq, Repr, Inhabited

namespace StatusBit

/-- The register of a status bit. -/
def name : StatusBit → String
  | carry => carryFlag
  | overflow => overflowFlag
  | summary => summaryFlag
  | condition bit => conditionBitName defaultField bit

/-- A status bit as an operand. -/
def operand (b : StatusBit) : Operand := flagOperand b.name

theorem name_injective {b b' : StatusBit} (h : b.name = b'.name) : b = b' := by
  rcases b with _ | _ | _ | bit <;> rcases b' with _ | _ | _ | bit' <;>
    first
    | rfl
    | exact absurd h (by decide)
    | cases bit <;> exact absurd h (by decide)
    | cases bit' <;> exact absurd h (by decide)
    | cases bit <;> cases bit' <;> first | rfl | exact absurd h (by decide)

theorem name_inj {b b' : StatusBit} : b.name = b'.name ↔ b = b' :=
  ⟨name_injective, congrArg name⟩

theorem native (b : StatusBit) : isTemporary b.name = false := by
  cases b with
  | carry => exact isTemporary_carryFlag
  | overflow => exact isTemporary_overflowFlag
  | summary => exact isTemporary_summaryFlag
  | condition bit => exact isTemporary_conditionBitName _ bit

theorem ne_programCounter (b : StatusBit) : b.name ≠ programCounter := by
  rcases b with _ | _ | _ | bit
  · decide
  · decide
  · decide
  · cases bit <;> decide

theorem ne_gprName (b : StatusBit) (n : Nat) : b.name ≠ gprName n := by
  have head : ∃ c cs, b.name.toList = c :: cs ∧ c ≠ '%' := by
    rcases b with _ | _ | _ | bit
    · exact ⟨'X', _, rfl, by decide⟩
    · exact ⟨'X', _, rfl, by decide⟩
    · exact ⟨'X', _, rfl, by decide⟩
    · cases bit <;> exact ⟨'C', _, rfl, by decide⟩
  obtain ⟨c, cs, h, ne⟩ := head
  exact ne_of_head h (toList_gprName n) ne

end StatusBit

/-- A machine for the processor keeps status bits and general purpose registers apart from scratch. -/
theorem not_scratch_status (b : StatusBit) (n : Nat) : ¬ cpu.Scratch n b.name :=
  Cpu.not_scratch b.native b.ne_programCounter n

/-- No expansion takes a general purpose register as its scratch. -/
theorem not_scratch_gpr (r n : Nat) : ¬ cpu.Scratch n (gprName r) :=
  Cpu.not_scratch (isTemporary_gprName r) (gprName_ne_programCounter r) n

theorem not_scratch_condition (field : Nat) (bit : ConditionBit) (n : Nat) :
    ¬ cpu.Scratch n (conditionBitName field bit) :=
  Cpu.not_scratch (isTemporary_conditionBitName field bit)
    (conditionBitName_ne (c := 'P') rfl (by decide) field bit) n

end PowerPC

/-! ## Machines with flags set -/

namespace Machine

open PowerPC

variable {m : Machine}

/-- Sets a status bit. -/
def setStatus (m : Machine) (b : StatusBit) (v : Nat) : Machine :=
  m.setRegister b.name v flagWidth .defined

/-- Sets a general purpose register. -/
def setGpr (m : Machine) (r : Gpr) (v : Nat) : Machine :=
  m.setRegister (gprName r) v registerWidth .defined

/-- Makes a status bit undefined. -/
def undefineStatus (m : Machine) (b : StatusBit) : Machine := m.undefineRegister b.name flagWidth

/-- Makes a general purpose register undefined. -/
def undefineGpr (m : Machine) (r : Gpr) : Machine :=
  m.undefineRegister (gprName r) registerWidth

/-- An effect that takes place if it is wanted. -/
def when (m : Machine) (wanted : Bool) (f : Machine → Machine) : Machine :=
  if wanted then f m else m

/-- Sets the overflow flag, and the summary flag with it. -/
def overflowed (m : Machine) (summary overflow : Nat) : Machine :=
  (m.setStatus .overflow overflow).setStatus .summary (summary ||| overflow)

/-- Sets a bit of a condition field. -/
def setCondition (m : Machine) (field : ConditionField) (bit : ConditionBit) (v : Nat) : Machine :=
  m.setRegister (conditionBitName field bit) v flagWidth .defined

/-- Sets the bits of a condition field. -/
def conditioned (m : Machine) (field : ConditionField) (value : ConditionBit → Nat) : Machine :=
  (((m.setCondition field .lt (value .lt)).setCondition field .gt (value .gt)).setCondition
    field .eq (value .eq)).setCondition field .so (value .so)

/-- Sets the bits of a condition field that an order decides. -/
def compared (m : Machine) (field : ConditionField) (order : Ordering) : Machine :=
  ((m.setCondition field .lt (flag (order = .lt))).setCondition field .gt
    (flag (order = .gt))).setCondition field .eq (flag (order = .eq))

/-- A bit of a condition field that holds an order and the summary flag. -/
def comparisonBit (order : Ordering) (summary : Nat) : ConditionBit → Nat
  | .lt => flag (order = .lt)
  | .gt => flag (order = .gt)
  | .eq => flag (order = .eq)
  | .so => summary

/-- A bit of condition field 0 behind a result: its order with zero, and the summary flag. -/
def orderBit (result summary : Nat) : ConditionBit → Nat
  | .lt => flag (registerWidth.toSigned result < 0)
  | .gt => flag (0 < registerWidth.toSigned result)
  | .eq => flag (registerWidth.toSigned result = 0)
  | .so => summary

/-- Sets condition field 0 from a result and the summary flag. -/
def recorded (m : Machine) (result summary : Nat) : Machine :=
  (((m.setStatus (.condition .lt) (orderBit result summary .lt)).setStatus
    (.condition .gt) (orderBit result summary .gt)).setStatus
    (.condition .eq) (orderBit result summary .eq)).setStatus
    (.condition .so) (orderBit result summary .so)

/-- Sets condition field 0 without a result. -/
def unrecorded (m : Machine) (summary : Nat) : Machine :=
  (((m.undefineStatus (.condition .lt)).undefineStatus (.condition .gt)).undefineStatus
    (.condition .eq)).setStatus (.condition .so) summary

/-! ### What is read behind them -/

@[simp] theorem cpu_setStatus (m : Machine) (b : StatusBit) (v : Nat) :
    (m.setStatus b v).cpu = m.cpu := rfl

@[simp] theorem cpu_setCondition (m : Machine) (field : ConditionField) (bit : ConditionBit)
    (v : Nat) : (m.setCondition field bit v).cpu = m.cpu := rfl

@[simp] theorem cpu_undefineStatus (m : Machine) (b : StatusBit) :
    (m.undefineStatus b).cpu = m.cpu := rfl

theorem register?_when (wanted : Bool) (f : Machine → Machine) (name : String) :
    (m.when wanted f).register? name =
      if wanted then (f m).register? name else m.register? name := by
  unfold Machine.when
  split <;> rfl

/-- An effect that leaves a register alone does so whether or not it is wanted. -/
theorem register?_when_of {wanted : Bool} {f : Machine → Machine} {name : String}
    (h : wanted = true → (f m).register? name = m.register? name) :
    (m.when wanted f).register? name = m.register? name := by
  rw [register?_when]
  split
  · next e => exact h e
  · rfl

theorem register?_setStatus (processor : m.cpu = PowerPC.cpu) (b : StatusBit) (v : Nat)
    (name : String) :
    (m.setStatus b v).register? name =
      if name = b.name then some (.ofNat v flagWidth .defined) else m.register? name :=
  register?_setRegister (processor ▸ cpu_plain) ..

theorem register?_undefineStatus (processor : m.cpu = PowerPC.cpu) (b : StatusBit)
    (name : String) :
    (m.undefineStatus b).register? name =
      if name = b.name then some (.undefined (m.register? b.name) flagWidth)
      else m.register? name :=
  register?_undefineRegister (processor ▸ cpu_plain) ..

theorem register?_setGpr (processor : m.cpu = PowerPC.cpu) (r : Gpr) (v : Nat) (name : String) :
    (m.setGpr r v).register? name =
      if name = gprName r then some (.ofNat v registerWidth .defined) else m.register? name :=
  register?_setRegister (processor ▸ cpu_plain) ..

/-- An overflow writes two flags, of which the summary flag comes last. -/
theorem register?_overflowed (processor : m.cpu = PowerPC.cpu) (so v : Nat) (name : String) :
    (m.overflowed so v).register? name =
      if name = summaryFlag then some (.ofNat (so ||| v) flagWidth .defined)
      else if name = overflowFlag then some (.ofNat v flagWidth .defined)
      else m.register? name := by
  simp only [overflowed, register?_setStatus, cpu_setStatus, processor]
  rfl

theorem register?_setCondition (processor : m.cpu = PowerPC.cpu) (field : ConditionField)
    (bit : ConditionBit) (v : Nat) (name : String) :
    (m.setCondition field bit v).register? name =
      if name = conditionBitName field bit then some (.ofNat v flagWidth .defined)
      else m.register? name :=
  register?_setRegister (processor ▸ cpu_plain) ..

/-- A condition field that was set holds the bits that it was given. -/
theorem register?_conditioned (processor : m.cpu = PowerPC.cpu) (field : ConditionField)
    (value : ConditionBit → Nat) (bit : ConditionBit) :
    (m.conditioned field value).register? (conditionBitName field bit) =
      some (.ofNat (value bit) flagWidth .defined) := by
  simp only [conditioned, register?_setCondition, cpu_setCondition, processor, conditionBitName_inj]
  cases bit <;> rfl

/-- Setting a condition field changes no other register. -/
theorem register?_conditioned_of_ne (processor : m.cpu = PowerPC.cpu) {field : ConditionField}
    {name : String} (ne : ∀ bit, name ≠ conditionBitName field bit) (value : ConditionBit → Nat) :
    (m.conditioned field value).register? name = m.register? name := by
  simp only [conditioned, register?_setCondition, cpu_setCondition, processor, ne, if_false]

/-- Recording a result changes condition field 0 only. -/
theorem register?_recorded_of_ne (processor : m.cpu = PowerPC.cpu) {name : String}
    (ne : ∀ bit, name ≠ conditionBitName defaultField bit) (result so : Nat) :
    (m.recorded result so).register? name = m.register? name :=
  register?_conditioned_of_ne processor ne (orderBit result so)

/-- A recorded result is a comparison with zero. -/
theorem orderBit_eq (result so : Nat) :
    orderBit result so = comparisonBit (compare (registerWidth.toSigned result) 0) so := by
  funext bit
  cases bit with
  | lt => exact flag_congr Int.compare_eq_lt.symm
  | gt => exact flag_congr Int.compare_eq_gt.symm
  | eq => exact flag_congr Int.compare_eq_eq.symm
  | so => rfl

theorem cpu_when {f : Machine → Machine} (same : (f m).cpu = m.cpu) (wanted : Bool) :
    (m.when wanted f).cpu = m.cpu := by
  unfold Machine.when
  split
  · exact same
  · rfl

/-- An operand keeps its value when a status bit that it does not name is set. -/
theorem Holds.setStatus {n v : Nat} {o : Operand} (h : m.Holds n o v) (plain : m.cpu.Plain)
    {b : StatusBit} (ne : o.kind ≠ .register b.name) (u : Nat) : (m.setStatus b u).Holds n o v :=
  h.set plain ne u flagWidth .defined

theorem Holds.overflowed {n v : Nat} {o : Operand} (h : m.Holds n o v) (plain : m.cpu.Plain)
    (ne : o.kind ≠ .register StatusBit.overflow.name)
    (ne' : o.kind ≠ .register StatusBit.summary.name) (so u : Nat) :
    (m.overflowed so u).Holds n o v :=
  (h.setStatus plain ne u).setStatus plain ne' _

/-- What is read stays, as far as the effect leaves it alone. -/
theorem Holds.when {n v : Nat} {o : Operand} (h : m.Holds n o v) (wanted : Bool)
    (f : Machine → Machine) (leaves : (f m).Holds n o v) : (m.when wanted f).Holds n o v := by
  unfold Machine.when
  split
  · exact leaves
  · exact h

namespace Keeps

variable {m' : Machine} {n : Nat}

/-- An effect that respects what machines share does so if it is left out, too. -/
theorem when (h : m.Keeps n m') (wanted : Bool) (f : Machine → Machine)
    (respects : (f m).Keeps n (f m')) : (m.when wanted f).Keeps n (m'.when wanted f) := by
  unfold Machine.when
  split
  · exact respects
  · exact h

theorem overflowed (h : m.Keeps n m') (summary overflow : Nat) :
    (m.overflowed summary overflow).Keeps n (m'.overflowed summary overflow) :=
  (h.setRegister _ _ _ _).setRegister _ _ _ _

theorem conditioned (h : m.Keeps n m') (field : ConditionField) (value : ConditionBit → Nat) :
    (m.conditioned field value).Keeps n (m'.conditioned field value) :=
  (((h.setRegister _ _ _ _).setRegister _ _ _ _).setRegister _ _ _ _).setRegister _ _ _ _

theorem compared (h : m.Keeps n m') (field : ConditionField) (order : Ordering) :
    (m.compared field order).Keeps n (m'.compared field order) :=
  ((h.setRegister _ _ _ _).setRegister _ _ _ _).setRegister _ _ _ _

theorem recorded (h : m.Keeps n m') (result summary : Nat) :
    (m.recorded result summary).Keeps n (m'.recorded result summary) :=
  h.conditioned defaultField (orderBit result summary)

theorem undefineStatus (h : m.Keeps n m') (processor : m.cpu = PowerPC.cpu) (b : StatusBit) :
    (m.undefineStatus b).Keeps n (m'.undefineStatus b) :=
  h.undefineRegister (processor ▸ not_scratch_status b n) flagWidth

theorem unrecorded (h : m.Keeps n m') (processor : m.cpu = PowerPC.cpu) (summary : Nat) :
    (m.unrecorded summary).Keeps n (m'.unrecorded summary) :=
  (((h.undefineStatus processor _).undefineStatus processor _).undefineStatus processor
    _).setRegister _ _ _ _

end Keeps

end Machine

namespace PowerPC

open Script

/-! ## Scripts that set flags -/

section Scripts

variable {x X : Expansion} {m : Machine} {a b o : Operand} {u v so : Nat}

theorem plain_of_cpu (processor : m.cpu = cpu) : m.cpu.Plain := processor ▸ cpu_plain

/-- A move to a register leaves the machine with the value in it, cut to its width. -/
theorem runs_copy (plain : m.cpu.Plain) (name : String) (w : Width) (h : m.Holds x.taken a v) :
    (copy a (.register name w)).Runs x m fun _ => Leaves x (m.setRegister name v w .defined) :=
  runs_assign plain name (.copy h)

/-- Different status bits are different registers. -/
theorem kind_ne_of_ne {b b' : StatusBit} (ne : b ≠ b') : b.operand.kind ≠ .register b'.name := by
  intro e
  injection e with same
  exact ne (StatusBit.name_injective same)

/-- Setting a status bit leaves general purpose registers alone. -/
theorem kind_gpr_ne (r : Gpr) (b : StatusBit) : (gprOperand r).kind ≠ .register b.name := by
  intro e
  injection e with same
  exact b.ne_gprName r same.symm

/-- Setting a general purpose register leaves status bits alone. -/
theorem kind_status_ne (b : StatusBit) (r : Gpr) : b.operand.kind ≠ .register (gprName r) := by
  intro e
  injection e with same
  exact b.ne_gprName r same

/-- A status bit that was just set can be read. -/
theorem holds_setStatus (processor : m.cpu = cpu) (b : StatusBit) (lt : v < flagWidth.modulus)
    (n : Nat) : (m.setStatus b v).Holds n b.operand v := by
  have settled : ¬ m.cpu.Scratch n b.name := processor ▸ not_scratch_status b n
  have held := Machine.holds_setRegister (plain_of_cpu processor) settled v flagWidth
  rwa [Width.truncate_of_lt lt] at held

/-- A defined register is held. -/
theorem holds_gpr (processor : m.cpu = cpu) (r : Gpr) {n : Nat}
    (value : m.value? (gprName r) = some v) : m.Holds n (gprOperand r) (v % 2 ^ 32) :=
  Machine.holds_register value (processor ▸ not_scratch_gpr r n) registerWidth

/-- A defined status bit is held. -/
theorem holds_flag (processor : m.cpu = cpu) (b : StatusBit) {n : Nat}
    (value : m.value? b.name = some v) : m.Holds n b.operand (v % 2 ^ 8) :=
  Machine.holds_register value (processor ▸ not_scratch_status b n) flagWidth

/-- A status bit whose value is 0 or 1 holds that value as an operand. -/
theorem holds_status (processor : m.cpu = cpu) (b : StatusBit) {n : Nat}
    (value : m.value? b.name = some v) (le : v ≤ 1) : m.Holds n b.operand v := by
  have held := holds_flag processor b (n := n) value
  rwa [Nat.mod_eq_of_lt (by omega)] at held

/-- The summary flag behind an overflow that may be recorded. -/
theorem holds_summary (processor : m.cpu = cpu) {n : Nat}
    (h : m.Holds n StatusBit.summary.operand so) (le : v ≤ 1) (wanted : Bool) :
    (m.when wanted (·.overflowed so v)).Holds n StatusBit.summary.operand
      (if wanted then so ||| v else so) := by
  cases wanted with
  | false => exact h
  | true =>
    have lt : so < 2 ^ 8 := h.lt
    have lt' : v < 2 ^ 8 := by omega
    have processor' : (m.setStatus .overflow v).cpu = cpu := processor
    exact holds_setStatus processor' .summary (Nat.or_lt_two_pow lt lt') n

/-- A general purpose register is set, and what is read elsewhere stays. -/
theorem runs_gpr (processor : m.cpu = cpu) (r : Gpr) (h : m.Holds x.taken a v) :
    (copy a (gprOperand r)).Runs x m fun _ X m' => Leaves x (m.setGpr r v) X m' ∧
      m'.Holds X.taken (gprOperand r) (registerWidth.truncate v) ∧
      ∀ {o u}, m.Holds x.taken o u → o.kind ≠ .register (gprName r) → m'.Holds X.taken o u := by
  have plain := plain_of_cpu processor
  apply (runs_copy plain (gprName r) registerWidth h).mono
  intro _ X m' set
  have set : Leaves x (m.setGpr r v) X m' := set
  have settled : ¬ m.cpu.Scratch x.taken (gprName r) := processor ▸ not_scratch_gpr r x.taken
  refine ⟨set, set.holds (Machine.holds_setRegister plain settled v registerWidth), ?_⟩
  intro o u held ne
  exact set.holds (held.set plain ne v registerWidth .defined)

/-- A status bit is made undefined, and what is read elsewhere stays. -/
theorem runs_undefineStatus (processor : m.cpu = cpu) (b : StatusBit) :
    (emit .undef .absent .absent b.operand).Runs x m fun _ X m' =>
      Leaves x (m.undefineStatus b) X m' ∧
      ∀ {o u}, m.Holds x.taken o u → o.kind ≠ .register b.name → m'.Holds X.taken o u := by
  have plain := plain_of_cpu processor
  apply (runs_undefine plain (processor ▸ not_scratch_status b x.taken)).mono
  intro _ X m' undefined
  have undefined : Leaves x (m.undefineStatus b) X m' := undefined
  refine ⟨undefined, ?_⟩
  intro o u held ne
  exact undefined.holds (held.undefine plain ne flagWidth)

/-- A flag is set, and what is read elsewhere stays. -/
theorem runs_flag (processor : m.cpu = cpu) (name : String) (h : m.Holds x.taken a v) :
    (copy a (flagOperand name)).Runs x m fun _ X m' =>
      Leaves x (m.setRegister name v flagWidth .defined) X m' ∧
      ∀ {o u}, m.Holds x.taken o u → o.kind ≠ .register name → m'.Holds X.taken o u := by
  have plain := plain_of_cpu processor
  apply (runs_copy plain name flagWidth h).mono
  intro _ X m' set
  refine ⟨set, ?_⟩
  intro o u held ne
  exact set.holds (held.set plain ne v flagWidth .defined)

/-- A move to a status bit sets it, and no other operand changes. -/
theorem runs_status (processor : m.cpu = cpu) (b : StatusBit) (h : m.Holds x.taken a v) :
    (copy a b.operand).Runs x m fun _ X m' => Leaves x (m.setStatus b v) X m' ∧
      ∀ {o u}, m.Holds x.taken o u → o.kind ≠ .register b.name → m'.Holds X.taken o u :=
  runs_flag processor b.name h

/-- The overflow flag receives the value, and the summary flag is set if either is. -/
theorem runs_writeOverflow (processor : m.cpu = cpu) (h : m.Holds x.taken a v) (le : v ≤ 1)
    (summary : m.Holds x.taken StatusBit.summary.operand so) :
    (writeOverflow a).Runs x m fun _ => Leaves x (m.overflowed so v) := by
  apply (runs_status processor .overflow h).bind
  intro _ X₁ m₁ ⟨set, keep⟩
  have lt : v < flagWidth.modulus := Nat.lt_of_le_of_lt le (by decide)
  have overflow₁ := set.holds (holds_setStatus processor .overflow lt x.taken)
  have summary₁ := keep summary (kind_ne_of_ne nofun)
  have fits : Opcode.or.Fits StatusBit.summary.operand.width StatusBit.overflow.operand.width
      flagWidth := rfl
  apply (runs_assign set.plain summaryFlag (.combine rfl fits summary₁ overflow₁ rfl)).mono
  intro _ X₂ m₂ set'
  exact set.set set'

/-- The bits of a condition field that the flags "less" and "equal" decide. -/
def setOrder (field : ConditionField) (less equal : Operand) : Script Unit := do
  let either ← binary .or less equal
  let greater ← flagNot either
  copy less (conditionOperand field .lt)
  copy greater (conditionOperand field .gt)
  copy equal (conditionOperand field .eq)

/-- The summary flag is moved to its condition field last. -/
theorem setConditionField_eq (field : ConditionField) (less equal : Operand) :
    setConditionField field less equal = setOrder field less equal >>= fun _ =>
      copy StatusBit.summary.operand (conditionOperand field .so) := by
  simp only [setConditionField, setOrder, bind_assoc]
  rfl

/-- The bits of condition field 0 that a result decides. -/
def recordOrder (result : Operand) : Script Unit := do
  let less ← signBit result
  let equal ← isZero result
  setOrder defaultField less equal

/-- Recording a result is recording its order and then copying the summary flag. -/
theorem recordResult_eq (result : Operand) :
    recordResult result = recordOrder result >>= fun _ =>
      copy StatusBit.summary.operand (conditionOperand defaultField .so) := by
  simp only [recordResult, recordOrder, setConditionField_eq, bind_assoc]

/-- The summary flag is not a bit of a condition field. -/
theorem kind_summary_ne (field : ConditionField) (bit : ConditionBit) :
    StatusBit.summary.operand.kind ≠ .register (conditionBitName field bit) := by
  intro e
  injection e with same
  exact conditionBitName_ne (c := 'X') rfl (by decide) field bit same.symm

/-- What is read elsewhere does not depend on an order. -/
theorem holds_compared {n : Nat} (plain : m.cpu.Plain) (h : m.Holds n o v) {field : ConditionField}
    (apart : ∀ bit, o.kind ≠ .register (conditionBitName field bit)) (order : Ordering) :
    (m.compared field order).Holds n o v :=
  ((h.set plain (apart .lt) _ flagWidth .defined).set plain (apart .gt) _ flagWidth .defined).set
    plain (apart .eq) _ flagWidth .defined

/-- An order from the flags "less" and "equal". -/
theorem runs_setOrder {order : Ordering} (processor : m.cpu = cpu) (field : ConditionField)
    (less : m.Holds x.taken a (flag (order = .lt))) (equal : m.Holds x.taken b (flag (order = .eq)))
    (narrow : a.width = .byte) (narrow' : b.width = .byte) (hidden : b.Hidden) :
    (setOrder field a b).Runs x m fun _ => Leaves x (m.compared field order) := by
  apply (Runs.or (plain_of_cpu processor) (narrow.trans narrow'.symm) less equal).bind
  intro either X₁ m₁ both
  rw [flag_or] at both
  apply (Runs.flagNot both.plain both.holds).bind
  intro greater X₂ m₂ neither
  have behind := both.toLeaves.trans neither.toLeaves
  have processor₂ : m₂.cpu = cpu := behind.keeps.cpu.trans processor
  have greater_iff : ¬(order = .lt ∨ order = .eq) ↔ order = .gt := by cases order <;> decide
  have greater₂ := neither.holds
  rw [flag_congr greater_iff] at greater₂
  have native := isTemporary_conditionBitName field
  -- from here on what was computed only has to be moved
  apply (runs_flag processor₂ (conditionBitName field .lt) (behind.holds less)).bind
  intro _ X₃ m₃ ⟨set₁, keep₁⟩
  have greater₃ := keep₁ greater₂ (neither.hidden.ne (native _))
  have equal₃ := keep₁ (behind.holds equal) (hidden.ne (native _))
  have processor₃ : m₃.cpu = cpu := set₁.keeps.cpu.trans processor₂
  apply (runs_flag processor₃ (conditionBitName field .gt) greater₃).bind
  intro _ X₄ m₄ ⟨set₂, keep₂⟩
  have equal₄ := keep₂ equal₃ (hidden.ne (native _))
  have processor₄ : m₄.cpu = cpu := set₂.keeps.cpu.trans processor₃
  apply (runs_flag processor₄ (conditionBitName field .eq) equal₄).mono
  intro _ X₅ m₅ ⟨set₃, _⟩
  exact ((behind.set set₁).set set₂).set set₃

/-- A condition field from the flags "less" and "equal". -/
theorem runs_setConditionField {order : Ordering} (processor : m.cpu = cpu) (field : ConditionField)
    (less : m.Holds x.taken a (flag (order = .lt))) (equal : m.Holds x.taken b (flag (order = .eq)))
    (narrow : a.width = .byte) (narrow' : b.width = .byte) (hidden : b.Hidden)
    (summary : m.Holds x.taken StatusBit.summary.operand so) :
    (setConditionField field a b).Runs x m fun _ =>
      Leaves x (m.conditioned field (Machine.comparisonBit order so)) := by
  rw [setConditionField_eq]
  apply (runs_setOrder processor field less equal narrow narrow' hidden).bind
  intro _ X₁ m₁ ordered
  have processor₁ : m₁.cpu = cpu := ordered.keeps.cpu.trans processor
  have summary₁ := ordered.holds
    (holds_compared (plain_of_cpu processor) summary (kind_summary_ne field) order)
  apply (runs_flag processor₁ (conditionBitName field .so) summary₁).mono
  intro _ X₂ m₂ ⟨set, _⟩
  exact ordered.set set

/-- The order of a result of register width. -/
theorem runs_recordOrder (processor : m.cpu = cpu) (width : a.width = registerWidth)
    (h : m.Holds x.taken a v) :
    (recordOrder a).Runs x m fun _ =>
      Leaves x (m.compared defaultField (compare (registerWidth.toSigned v) 0)) := by
  have lt : v < registerWidth.modulus := width ▸ h.lt
  apply (Runs.signBit (plain_of_cpu processor) h).bind
  intro less X₁ m₁ sign
  apply (Runs.isZero sign.plain (sign.toLeaves.holds h)).bind
  intro equal X₂ m₂ zero
  have behind := sign.toLeaves.trans zero.toLeaves
  have processor₂ : m₂.cpu = cpu := behind.keeps.cpu.trans processor
  have sign₂ := zero.toLeaves.holds sign.holds
  have zero₂ := zero.holds
  rw [width] at sign₂
  rw [flag_congr Int.compare_eq_lt.symm] at sign₂
  rw [flag_congr ((Width.toSigned_eq_zero_iff lt).symm.trans Int.compare_eq_eq.symm)] at zero₂
  apply (runs_setOrder processor₂ defaultField sign₂ zero₂ sign.width zero.width zero.hidden).mono
  intro _ X₃ m₃ ordered
  exact behind.through (·.compared defaultField _) (·.compared defaultField _) ordered

/-- Condition field 0 from a result of register width. -/
theorem runs_recordResult (processor : m.cpu = cpu) (width : a.width = registerWidth)
    (h : m.Holds x.taken a v) (summary : m.Holds x.taken StatusBit.summary.operand so) :
    (recordResult a).Runs x m fun _ => Leaves x (m.recorded v so) := by
  rw [recordResult_eq]
  apply (runs_recordOrder processor width h).bind
  intro _ X₁ m₁ ordered
  have processor₁ : m₁.cpu = cpu := ordered.keeps.cpu.trans processor
  have summary₁ := ordered.holds
    (holds_compared (plain_of_cpu processor) summary (kind_summary_ne defaultField) _)
  apply (runs_status processor₁ (.condition .so) summary₁).mono
  intro _ X₂ m₂ ⟨set, _⟩
  show Leaves x (m.conditioned defaultField (Machine.orderBit v so)) X₂ m₂
  rw [Machine.orderBit_eq]
  exact ordered.set set

/-- Condition field 0 where there is no result. -/
theorem runs_recordUndefined (processor : m.cpu = cpu)
    (summary : m.Holds x.taken StatusBit.summary.operand so) :
    recordUndefined.Runs x m fun _ => Leaves x (m.unrecorded so) := by
  apply (runs_undefineStatus processor (.condition .lt)).bind
  intro _ X₁ m₁ ⟨undefined₁, keep₁⟩
  have summary₁ := keep₁ summary (kind_ne_of_ne nofun)
  have processor₁ : m₁.cpu = cpu := undefined₁.keeps.cpu.trans processor
  apply (runs_undefineStatus processor₁ (.condition .gt)).bind
  intro _ X₂ m₂ ⟨undefined₂, keep₂⟩
  have summary₂ := keep₂ summary₁ (kind_ne_of_ne nofun)
  have processor₂ : m₂.cpu = cpu := undefined₂.keeps.cpu.trans processor₁
  apply (runs_undefineStatus processor₂ (.condition .eq)).bind
  intro _ X₃ m₃ ⟨undefined₃, keep₃⟩
  have summary₃ := keep₃ summary₂ (kind_ne_of_ne nofun)
  have processor₃ : m₃.cpu = cpu := undefined₃.keeps.cpu.trans processor₂
  apply (runs_status processor₃ (.condition .so) summary₃).mono
  intro _ X₄ m₄ ⟨set, _⟩
  have undefined := undefined₁.through (·.undefineStatus (.condition .gt))
    (·.undefineStatus processor _) undefined₂
  have undefined := undefined.through (·.undefineStatus (.condition .eq))
    (·.undefineStatus processor _) undefined₃
  exact undefined.set set

/-- A script that may be left out has its effect if it is wanted. -/
theorem runs_onlyIf {s : Script Unit} (plain : m.cpu.Plain) (wanted : Bool) (f : Machine → Machine)
    (h : wanted = true → s.Runs x m fun _ => Leaves x (f m)) :
    (onlyIf wanted s).Runs x m fun _ => Leaves x (m.when wanted f) := by
  unfold onlyIf Machine.when
  split
  · next e => exact h e
  · exact .pure ⟨Nat.le_refl _, .refl plain _⟩

/-- A script on an operand that may be missing has its effect if there is one. -/
theorem runs_withOperand {s : Operand → Script Unit} {wanted : Bool} {p : Option Operand}
    (plain : m.cpu.Plain) (f : Machine → Machine) (provides : Provides m x.taken v wanted p)
    (h : ∀ o, wanted = true → m.Holds x.taken o v → (s o).Runs x m fun _ => Leaves x (f m)) :
    (withOperand s p).Runs x m fun _ => Leaves x (m.when wanted f) := by
  cases provides with
  | unwanted => exact .pure ⟨Nat.le_refl _, .refl plain _⟩
  | wanted holds => exact h _ rfl holds

theorem runs_complementIf (plain : m.cpu.Plain) (wanted : Bool) (h : m.Holds x.taken a v) :
    (complementIf wanted a).Runs x m
      (Settled x m a.width (if wanted then a.width.mask - v else v)) := by
  unfold complementIf
  split
  · apply (Runs.complement plain h).mono
    intro o X m' computed
    exact computed.toSettled
  · exact .pure ⟨⟨Nat.le_refl _, .refl plain _⟩, h, rfl⟩

end Scripts

end PowerPC

end RegisterTransfer
