import RegisterTransfer.Proofs.PowerPC.Alone
import RegisterTransfer.Proofs.PowerPC.Results

/-!
# Deliveries

Products, shifts and rotations differ in how they compute, but not in what they do with it: a result
goes to a register, a carry or an overflow to its flag, and perhaps the order of the result to
condition field 0. A delivery says what goes where.

> `runs_delivery`: the end of a script that makes a delivery.
> `interpret_delivers`: the run of one lifted instruction whose script makes a delivery.
-/

namespace RegisterTransfer

namespace PowerPC

/-- A result for a register, and the flags that are set with it. -/
structure Delivery where
  target : Gpr
  result : Nat
  fits : result < 2 ^ 32
  carry : Option Bool := none
  overflow : Option Bool := none
  /-- Whether condition field 0 is set. -/
  record : Bool := false

namespace Delivery

/-- The registers that a delivery writes. -/
def writes (d : Delivery) : List String :=
  gprName d.target :: (if d.carry.isSome then [carryFlag] else []) ++
    writtenFlags d.overflow.isSome d.record

/-- Whether the summary flag is read. -/
def NeedsSummary (d : Delivery) : Prop := d.overflow.isSome ∨ d.record

/-- What a delivery does to a machine. -/
structure Outcome (d : Delivery) (m m' : Machine) : Prop where
  result : m'.register? (gprName d.target) = some ⟨d.result, .dword, .defined⟩
  carry : ∀ c, d.carry = some c → m'.register? carryFlag = some ⟨flag c, .byte, .defined⟩
  overflow : ∀ v, d.overflow = some v →
    m'.register? overflowFlag = some ⟨flag v, .byte, .defined⟩ ∧
    ∃ so, m.value? summaryFlag = some so ∧
      m'.register? summaryFlag = some ⟨so % 2 ^ 8 ||| flag v, .byte, .defined⟩
  record : d.record → FieldHolds m' defaultField (compare (registerWidth.toSigned d.result) 0)
  others : ∀ name, name ∉ d.writes → isTemporary name = false → name ≠ programCounter →
    m'.register? name = m.register? name
  memory : m'.memory = m.memory

end Delivery

end PowerPC

open PowerPC

/-- The machine behind a delivery, where the summary flag was `so`. -/
def Machine.delivered (m : Machine) (d : Delivery) (so : Nat) : Machine :=
  (m.carried d.target d.result d.carry.isSome (flag (d.carry = some true))).flagged
    d.overflow.isSome d.record (flag (d.overflow = some true)) so (some d.result)

theorem Machine.cpu_delivered (m : Machine) (d : Delivery) (so : Nat) :
    (m.delivered d so).cpu = m.cpu :=
  (cpu_flagged ..).trans (cpu_carried ..)

/-- The same delivery on both sides leaves them different in scratch registers only. -/
theorem Machine.Keeps.delivered {e m : Machine} {n : Nat} (h : e.Keeps n m)
    (processor : e.cpu = PowerPC.cpu) (d : Delivery) (so : Nat) :
    (e.delivered d so).Keeps n (m.delivered d so) :=
  (h.carried d.target d.result d.carry.isSome _).flagged ((cpu_carried ..).trans processor) _ _ _ _ _

namespace PowerPC

open Script

/-! ## Scripts -/

section Scripts

variable {x X : Expansion} {m m' : Machine} {d : Delivery} {so : Nat}

/-- The end of a script that makes a delivery. -/
theorem runs_delivery {move : Script Unit} {carry lostFlag : Option Operand} (left : Leaves x m X m')
    (processor : m.cpu = cpu)
    (moves : move.Runs X m' fun _ => Leaves X (m'.setGpr d.target d.result))
    (first : Provides m' X.taken (flag (d.carry = some true)) d.carry.isSome carry)
    (second : Provides m' X.taken (flag (d.overflow = some true)) d.overflow.isSome lostFlag)
    (summary : d.NeedsSummary → m.Holds x.taken StatusBit.summary.operand so) :
    (do
      move
      withOperand (copy · (flagOperand carryFlag)) carry
      withOperand writeOverflow lostFlag
      onlyIf d.record (recordResult (gprOperand d.target)) : Script Unit).Runs X m' fun _ =>
      Leaves x (m.delivered d so) := by
  have processor' : m'.cpu = cpu := left.keeps.cpu.trans processor
  apply (runs_settled processor' (flag_le_one _) moves first second
    fun needed => left.holds (summary needed)).mono
  intro _ Y e settled
  rw [show registerWidth.truncate d.result = d.result from Width.truncate_of_lt d.fits] at settled
  exact left.through (·.delivered d so) (·.delivered processor d so) settled

/-- The end of a script that moves its result and perhaps records it. -/
theorem runs_deliver {o : Operand} {r : Nat} (left : Leaves x m X m') (processor : m.cpu = cpu)
    (held : m'.Holds X.taken o r) (rd : Gpr) (fits : r < 2 ^ 32) (record : Bool)
    (summary : record → m.Holds x.taken StatusBit.summary.operand so) :
    (deliver o rd record).Runs X m' fun _ =>
      Leaves x (m.delivered ⟨rd, r, fits, none, none, record⟩ so) := by
  have processor' : m'.cpu = cpu := left.keeps.cpu.trans processor
  let d : Delivery := ⟨rd, r, fits, none, none, record⟩
  have needs : d.NeedsSummary → m.Holds x.taken StatusBit.summary.operand so := by
    intro needed
    rcases needed with unwanted | wanted
    · cases unwanted
    · exact summary wanted
  have ends := runs_delivery (d := d) left processor ((runs_gpr processor' rd held).mono And.left)
    .unwanted .unwanted needs
  simp only [withOperand, pure_bind] at ends
  exact ends

end Scripts

/-! ## Outcomes -/

section Outcome

variable {m e m' : Machine} {d : Delivery} {so n : Nat}

/-- The outcome of a delivery survives a change of scratch registers. -/
theorem Delivery.Outcome.keep (h : d.Outcome m e) (keeps : e.Keeps n m') (processor : e.cpu = cpu) :
    d.Outcome m m' := by
  have status := register?_status_of_keeps keeps processor
  refine ⟨?_, ?_, ?_, ?_, ?_, keeps.memory.trans h.memory⟩
  · rw [register?_of_keeps keeps processor (isTemporary_gprName _) (gprName_ne_programCounter _),
      h.result]
  · intro c carries
    exact (status .carry).trans (h.carry c carries)
  · intro v overflow
    obtain ⟨lost, so, value, sticky⟩ := h.overflow v overflow
    exact ⟨(status .overflow).trans lost, so, value, (status .summary).trans sticky⟩
  · intro record
    exact (h.record record).keep keeps processor
  · intro name unwritten native ne
    rw [register?_of_keeps keeps processor native ne, h.others name unwritten native ne]

/-- The machine behind a delivery is as the delivery says. -/
theorem outcome_delivered (processor : m.cpu = cpu) (d : Delivery)
    (summary : d.NeedsSummary → m.value? summaryFlag = some so) :
    d.Outcome m (m.delivered d (so % 2 ^ 8)) := by
  have processor' := (m.cpu_carried d.target d.result d.carry.isSome
    (flag (d.carry = some true))).trans processor
  have byte : so % 2 ^ 8 < 2 ^ 8 := Nat.mod_lt so (by decide)
  have lost_le := flag_le_one (d.overflow = some true)
  refine ⟨?_, ?_, ?_, ?_, ?_, (Machine.memory_flagged ..).trans (Machine.memory_carried ..)⟩
  · refine (register?_flagged_of_not_mem processor' (gprName_not_mem_writtenFlags _)).trans ?_
    rw [Machine.register?_carried_gpr processor, RegisterValue.ofNat,
      show registerWidth.truncate d.result = d.result from Width.truncate_of_lt d.fits]
    rfl
  · intro c carries
    have same : flag (d.carry = some true) = flag c := flag_congr (by rw [carries]; simp)
    have apart := status_ne_condition (b := .carry) (by simp)
    refine (Machine.register?_flagged_of_ne processor' (fun _ => ⟨by decide, by decide⟩)
      fun _ => apart).trans ?_
    rw [same]
    exact Machine.register?_carried_flag processor (by rw [carries]; rfl) _ _ (flag_le_one _)
  · intro v overflow
    have wanted : d.overflow.isSome = true := by rw [overflow]; rfl
    have same : flag (d.overflow = some true) = flag v := flag_congr (by rw [overflow]; simp)
    obtain ⟨lost, sticky⟩ := register?_flagged_overflow processor' wanted lost_le byte d.record
      (some d.result)
    rw [← same]
    exact ⟨lost, so, summary (.inl wanted), sticky⟩
  · intro record
    have value := Machine.value?_carried_summary processor d.target d.result d.carry.isSome
      (flag (d.carry = some true))
    exact fieldHolds_flagged processor' record lost_le (value.trans (summary (.inr record))) _
  · intro name unwritten _ _
    simp only [Delivery.writes, List.cons_append, List.mem_cons, List.mem_append, not_or] at unwritten
    obtain ⟨ne, carry, flags⟩ := unwritten
    refine (register?_flagged_of_not_mem processor' flags).trans ?_
    refine Machine.register?_carried_of_ne processor ne fun carries => ?_
    rwa [if_pos carries, List.mem_singleton] at carry

/-- The run of one lifted instruction whose script makes a delivery. -/
theorem interpret_delivers {n : NativeInstruction} {p : Program} (lifted : lift [n] = .ok p) :
    ∃ count operation,
      (∃ form, (n.mnemonic, form) ∈ forms ∧ form.decode cpu.catalog.widthOf n = .ok operation) ∧
      ∀ {m : Machine} {d : Delivery}, m.cpu = cpu → m.settings.stepLimit = none →
        (d.NeedsSummary → ∃ so, m.value? summaryFlag = some so) →
        (∀ so, (d.NeedsSummary → m.begun.Holds (blank count n).taken StatusBit.summary.operand so) →
          (operation.expand n.mnemonic n.address).Runs (blank count n) m.begun fun _ =>
            Leaves (blank count n) (m.begun.delivered d so)) →
        ∃ turns, (m.interpret .silent p turns (.ofNative n.address) ()).progress = .finished ∧
          d.Outcome m (m.interpret .silent p turns (.ofNative n.address) ()).machine := by
  obtain ⟨count, operation, decoded, run⟩ := interpret_alone lifted
  refine ⟨count, operation, decoded, ?_⟩
  intro m d processor limit summary script
  have processor' : m.begun.cpu = cpu := processor
  -- where no flag is recorded the summary overflow is not read, so that any number will do
  obtain ⟨so, value⟩ : ∃ so, d.NeedsSummary → m.begun.value? summaryFlag = some so := by
    by_cases needed : d.NeedsSummary
    · obtain ⟨so, value⟩ := summary needed
      exact ⟨so, fun _ => value⟩
    · exact ⟨0, fun needed' => absurd needed' needed⟩
  have held : d.NeedsSummary →
      m.begun.Holds (blank count n).taken StatusBit.summary.operand (so % 2 ^ 8) := fun needed =>
    holds_flag processor' .summary (value needed)
  have effect := script (so % 2 ^ 8) held
  obtain ⟨turns, ends, keeps⟩ := run processor limit effect
  have outcome := (outcome_delivered processor' d value).keep keeps
    ((Machine.cpu_delivered ..).trans processor')
  exact ⟨turns, ends, outcome.result, outcome.carry, outcome.overflow, outcome.record,
    outcome.others, outcome.memory⟩

end Outcome

end PowerPC

end RegisterTransfer
