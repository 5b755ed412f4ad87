import RegisterTransfer.Proofs.PowerPC.Alone
import RegisterTransfer.Proofs.PowerPC.Results

/-!
# Divisions

What divisions do to the registers. A division by zero, and the signed division of the least number
by minus one, has no quotient: then the destination is left undefined, and the flags say so. The code
tests for this first and jumps over the division.

> `runs_expandDivide`: the effect of the script, whichever branch it takes.
> `lifted_division_divides`: the run of any lifted spelling.
-/

namespace RegisterTransfer

open PowerPC

/-- A division that has no quotient. -/
def DivisionInvalid (signed : Bool) (a b : Nat) : Prop :=
  b = 0 ∨ signed = true ∧ a = 2 ^ 31 ∧ b = 2 ^ 32 - 1

instance (signed : Bool) (a b : Nat) : Decidable (DivisionInvalid signed a b) :=
  inferInstanceAs (Decidable (_ ∨ _ ∧ _))

/-- The quotient of two registers, rounded toward zero. -/
def ratio (signed : Bool) (a b : Nat) : Nat :=
  if signed then registerWidth.ofInt ((registerWidth.toSigned a).tdiv (registerWidth.toSigned b))
  else a / b

/-- The machine behind a division of `a` by `b`, where the summary flag was `so`. -/
def Machine.divided (m : Machine) (signed : Bool) (rd : Gpr) (overflow record : Bool)
    (a b so : Nat) : Machine :=
  if DivisionInvalid signed a b then (m.undefineGpr rd).flagged overflow record 1 so none
  else (m.setGpr rd (ratio signed a b)).flagged overflow record 0 so (some (ratio signed a b))

theorem Machine.cpu_divided (m : Machine) (signed : Bool) (rd : Gpr) (overflow record : Bool)
    (a b so : Nat) : (m.divided signed rd overflow record a b so).cpu = m.cpu := by
  unfold Machine.divided
  split
  · exact cpu_flagged ..
  · exact cpu_flagged ..

/--
A quotient fits a register: an unsigned one is at most its dividend, and a signed one is cut to
size.
-/
theorem ratio_lt {signed : Bool} {a b : Nat} (h : a < registerWidth.modulus) :
    ratio signed a b < registerWidth.modulus := by
  unfold ratio
  split
  · rw [← Width.truncate_ofInt]
    exact Width.truncate_lt _ _
  · exact Nat.lt_of_le_of_lt (Nat.div_le_self a b) h

namespace PowerPC

open Script

/-! ## Scripts -/

/-- The branch of a division that has a quotient. -/
def storeQuotient (signed : Bool) (rd ra rb : Gpr) (overflow record : Bool) : Script Unit := do
  let q ← quotient signed (gprOperand ra) (gprOperand rb)
  copy q (gprOperand rd)
  onlyIf overflow (writeOverflow (.integer 0 .byte))
  onlyIf record (recordResult (gprOperand rd))

/-- The branch of a division that has none. -/
def storeNothing (rd : Gpr) (overflow record : Bool) : Script Unit := do
  emit .undef .absent .absent (gprOperand rd)
  onlyIf overflow (writeOverflow (.integer 1 .byte))
  onlyIf record recordUndefined

/-- A division takes one of two branches. -/
theorem expandDivide_eq (signed : Bool) (rd ra rb : Gpr) (overflow record : Bool) :
    expandDivide signed rd ra rb overflow record = (do
      let invalid ← divisionInvalid signed (gprOperand ra) (gprOperand rb)
      branches invalid (storeQuotient signed rd ra rb overflow record)
        (storeNothing rd overflow record)) := by
  simp only [expandDivide, branches, storeQuotient, storeNothing, bind_assoc]

theorem straight_onlyIf {s : Script Unit} (h : s.Straight) (wanted : Bool) :
    (onlyIf wanted s).Straight := by
  cases wanted
  · trivial
  · exact h

theorem straight_magnitude (a : Operand) : (magnitude a).Straight :=
  fun _ _ _ _ => trivial

/-- A quotient is computed without jumps. -/
theorem straight_quotient (signed : Bool) (a b : Operand) : (quotient signed a b).Straight := by
  cases signed with
  | false => exact fun _ => trivial
  | true =>
    apply (straight_magnitude a).bind
    intro _
    apply (straight_magnitude b).bind
    intro _ _ _ _ _ _
    trivial

theorem straight_storeQuotient (signed : Bool) (rd ra rb : Gpr) (overflow record : Bool) :
    (storeQuotient signed rd ra rb overflow record).Straight := by
  have flags : (onlyIf overflow (writeOverflow (.integer 0 .byte))).Straight :=
    straight_onlyIf (s := writeOverflow _) trivial overflow
  have order : (recordResult (gprOperand rd)).Straight := fun _ _ _ _ => trivial
  apply (straight_quotient signed _ _).bind
  intro q
  exact flags.bind fun _ => straight_onlyIf order record

theorem straight_storeNothing (rd : Gpr) (overflow record : Bool) :
    (storeNothing rd overflow record).Straight := by
  have flags : (onlyIf overflow (writeOverflow (.integer 1 .byte))).Straight :=
    straight_onlyIf (s := writeOverflow _) trivial overflow
  exact flags.bind fun _ => straight_onlyIf (s := recordUndefined) trivial record

section Effect

variable {x : Expansion} {m : Machine} {a b : Operand} {u v so : Nat}

/-- The test whether a division has a quotient. -/
theorem runs_divisionInvalid (plain : m.cpu.Plain) (signed : Bool) (width : a.width = registerWidth)
    (width' : b.width = registerWidth) (first : m.Holds x.taken a u) (second : m.Holds x.taken b v) :
    (divisionInvalid signed a b).Runs x m
      (Computed x m .byte (flag (DivisionInvalid signed u v))) := by
  apply (Runs.isZero plain second).bind
  intro byZero X₁ m₁ zero
  -- zero never has a quotient, and with signs the least number over minus one has none either
  cases signed with
  | false =>
    have unsigned : v = 0 ↔ DivisionInvalid false u v := by simp [DivisionInvalid]
    exact .pure (flag_congr unsigned ▸ zero)
  | true =>
    have least := Machine.holds_integer m₁ X₁.taken registerWidth.signBit registerWidth
    rw [show registerWidth.truncate registerWidth.signBit = 2 ^ 31 from rfl] at least
    apply (Runs.equal zero.plain width (zero.toLeaves.holds first) least).bind
    intro isLeast X₂ m₂ smallest
    have behind := zero.toLeaves.trans smallest.toLeaves
    have ones := Machine.holds_integer m₂ X₂.taken registerWidth.mask registerWidth
    rw [show registerWidth.truncate registerWidth.mask = 2 ^ 32 - 1 from rfl] at ones
    apply (Runs.equal smallest.plain width' (behind.holds second) ones).bind
    intro isMinusOne X₃ m₃ minusOne
    apply (Runs.and minusOne.plain (smallest.width.trans minusOne.width.symm)
      (minusOne.toLeaves.holds smallest.holds) minusOne.holds).bind
    intro isBoth X₄ m₄ both
    rw [flag_and, smallest.width] at both
    have zero₄ := both.toLeaves.holds (minusOne.toLeaves.holds (smallest.toLeaves.holds zero.holds))
    apply (Runs.or both.plain (zero.width.trans both.width.symm) zero₄ both.holds).mono
    intro o X₅ m₅ any
    have exact_cases : (v = 0 ∨ u = 2 ^ 31 ∧ v = 2 ^ 32 - 1) ↔ DivisionInvalid true u v := by
      simp [DivisionInvalid]
    rw [flag_or, flag_congr exact_cases, zero.width] at any
    exact any.after ((behind.trans minusOne.toLeaves).trans both.toLeaves)

/-- The quotient of two numbers, of which the second is not zero. -/
theorem runs_quotient (plain : m.cpu.Plain) (signed : Bool) (width : a.width = registerWidth)
    (width' : b.width = registerWidth) (first : m.Holds x.taken a u) (second : m.Holds x.taken b v)
    (nonzero : v ≠ 0) :
    (quotient signed a b).Runs x m (Computed x m registerWidth (ratio signed u v)) := by
  have hu : u < registerWidth.modulus := width ▸ first.lt
  have hv : v < registerWidth.modulus := width' ▸ second.lt
  cases signed with
  | false =>
    have fits : Opcode.div.Fits a.width b.width a.width := trivial
    have divides := Runs.binary plain rfl fits first second (if_neg nonzero)
    have kept : registerWidth.truncate (u / v) = u / v :=
      Width.truncate_of_lt (Nat.lt_of_le_of_lt (Nat.div_le_self u v) hu)
    rw [width, kept] at divides
    exact divides
  | true =>
    apply (Runs.magnitude plain first).bind
    intro found X₁ m₁ found'
    obtain ⟨o, sign⟩ := found
    obtain ⟨size, negative⟩ := found'
    rw [width] at size negative
    apply (Runs.magnitude size.plain (size.toLeaves.holds second)).bind
    intro found X₂ m₂ found'
    obtain ⟨o', sign'⟩ := found
    obtain ⟨size', negative'⟩ := found'
    rw [width'] at size' negative'
    have behind := size.toLeaves.trans size'.toLeaves
    have some_size : (registerWidth.toSigned v).natAbs ≠ 0 := by
      intro none
      exact nonzero ((Width.toSigned_eq_zero_iff hv).1 (Int.natAbs_eq_zero.1 none))
    -- a quotient of magnitudes is no greater than the first of them
    have small : (registerWidth.toSigned u).natAbs / (registerWidth.toSigned v).natAbs <
        registerWidth.modulus :=
      Nat.lt_of_le_of_lt (Nat.div_le_self _ _) (size.width ▸ size.holds.lt)
    have fits : Opcode.div.Fits o.width o'.width o.width := trivial
    have divides := Runs.binary size'.plain rfl fits (size'.toLeaves.holds size.holds) size'.holds
      (if_neg some_size)
    rw [size.width, Width.truncate_of_lt small] at divides
    apply divides.bind
    intro q X₃ m₃ magnitudes
    apply (Runs.xor magnitudes.plain (negative.width.trans negative'.width.symm)
      (magnitudes.toLeaves.holds (size'.toLeaves.holds negative.holds))
      (magnitudes.toLeaves.holds negative'.holds)).bind
    intro differ X₄ m₄ signs
    rw [flag_xor, negative.width] at signs
    -- the quotient of the magnitudes is negated where the signs differ
    have signed := Runs.negateIf signs.plain signs.width (signs.toLeaves.holds magnitudes.holds)
      signs.holds (flag_le_one _)
    rw [magnitudes.width, Width.ofInt_tdiv _ _ small] at signed
    apply signed.mono
    intro r X₅ m₅ result
    exact result.after ((behind.trans magnitudes.toLeaves).trans signs.toLeaves)

/-- The branch with a quotient. -/
theorem runs_storeQuotient (processor : m.cpu = cpu) (signed : Bool) (rd : Gpr) {ra rb : Gpr}
    (overflow record : Bool) (first : m.Holds x.taken (gprOperand ra) u)
    (second : m.Holds x.taken (gprOperand rb) v) (nonzero : v ≠ 0)
    (summary : overflow ∨ record → m.Holds x.taken StatusBit.summary.operand so) :
    (storeQuotient signed rd ra rb overflow record).Runs x m fun _ => Leaves x
      ((m.setGpr rd (ratio signed u v)).flagged overflow record 0 so (some (ratio signed u v))) := by
  have kept : registerWidth.truncate (ratio signed u v) = ratio signed u v :=
    Width.truncate_of_lt (ratio_lt first.lt)
  apply (runs_quotient (plain_of_cpu processor) signed rfl rfl first second nonzero).bind
  intro q X₁ m₁ computed
  have processor₁ : m₁.cpu = cpu := computed.keeps.cpu.trans processor
  apply (runs_gpr processor₁ rd computed.holds).bind
  intro _ X₂ m₂ ⟨moved, result₂, keep⟩
  rw [kept] at result₂
  have processor₂ : m₂.cpu = cpu := moved.keeps.cpu.trans processor₁
  have summary₂ : overflow ∨ record → m₂.Holds X₂.taken StatusBit.summary.operand so :=
    fun needed => keep (computed.toLeaves.holds (summary needed)) (kind_status_ne .summary rd)
  have zero := Machine.holds_integer m₂ X₂.taken 0 .byte
  apply (runs_flagged_gpr processor₂ (Nat.zero_le 1) result₂ summary₂ (runs_onlyIf moved.plain overflow _
    fun wanted => runs_writeOverflow processor₂ zero (Nat.zero_le 1) (summary₂ (.inl wanted)))).mono
  intro _ X₃ m₃ flags
  have processor' : (m.setGpr rd (ratio signed u v)).cpu = cpu := processor
  exact (computed.toLeaves.set moved).through (·.flagged overflow record 0 so (some _))
    (fun same => same.flagged processor' overflow record 0 so _) flags

/-- The branch without. -/
theorem runs_storeNothing (processor : m.cpu = cpu) (rd : Gpr) (overflow record : Bool)
    (summary : overflow ∨ record → m.Holds x.taken StatusBit.summary.operand so) :
    (storeNothing rd overflow record).Runs x m fun _ =>
      Leaves x ((m.undefineGpr rd).flagged overflow record 1 so none) := by
  have plain := plain_of_cpu processor
  have processor' : (m.undefineGpr rd).cpu = cpu := processor
  apply (runs_undefine plain (processor ▸ not_scratch_gpr rd x.taken)).bind
  intro _ X₁ m₁ undefined
  have undefined : Leaves x (m.undefineGpr rd) X₁ m₁ := undefined
  have processor₁ : m₁.cpu = cpu := undefined.keeps.cpu.trans processor'
  have summary₁ : overflow ∨ record → m₁.Holds X₁.taken StatusBit.summary.operand so :=
    fun needed => undefined.holds
      ((summary needed).undefine plain (kind_status_ne .summary rd) registerWidth)
  have one := Machine.holds_integer m₁ X₁.taken 1 .byte
  apply (runs_flagged processor₁ none (Nat.le_refl 1) summary₁ (runs_onlyIf undefined.plain overflow _
    fun wanted => runs_writeOverflow processor₁ one (Nat.le_refl 1) (summary₁ (.inl wanted))) ?_).mono
  · intro _ X₂ m₂ flags
    exact undefined.through (·.flagged overflow record 1 so none)
      (fun same => same.flagged processor' overflow record 1 so none) flags
  · intro _ X₂ m₂ _ processor₂ summary₂
    exact runs_recordUndefined processor₂ summary₂

/-- The effect of the script of a division. -/
theorem runs_expandDivide (processor : m.cpu = cpu) (signed : Bool) (rd : Gpr) {ra rb : Gpr}
    (overflow record : Bool) (first : m.Holds x.taken (gprOperand ra) u)
    (second : m.Holds x.taken (gprOperand rb) v)
    (summary : overflow ∨ record → m.Holds x.taken StatusBit.summary.operand so) :
    (expandDivide signed rd ra rb overflow record).Runs x m fun _ =>
      Leaves x (m.divided signed rd overflow record u v so) := by
  rw [expandDivide_eq]
  apply (runs_divisionInvalid (plain_of_cpu processor) signed rfl rfl first second).bind
  intro invalid X m₁ tested
  -- either branch works on what the test has left, and ends as the whole does
  apply runs_branches tested.plain tested.holds (straight_storeQuotient ..) (straight_storeNothing ..)
  · intro valid X' m' between
    rw [flag_eq_zero_iff] at valid
    have behind := tested.toLeaves.trans between
    have processor' : m'.cpu = cpu := behind.keeps.cpu.trans processor
    have nonzero : v ≠ 0 := fun zero => valid (.inl zero)
    rw [Machine.divided, if_neg valid]
    apply (runs_storeQuotient processor' signed rd overflow record (behind.holds first)
      (behind.holds second) nonzero fun needed => behind.holds (summary needed)).mono
    intro _ Y m'' effect
    refine behind.through (fun m => (m.setGpr rd _).flagged overflow record 0 so (some _)) ?_ effect
    intro same
    have moved : (m.setGpr rd (ratio signed u v)).Keeps x.taken
        (m'.setGpr rd (ratio signed u v)) := same.setRegister _ _ _ _
    exact moved.flagged processor overflow record 0 so _
  · intro invalid X' m' between
    rw [ne_eq, flag_eq_zero_iff, Decidable.not_not] at invalid
    have behind := tested.toLeaves.trans between
    have processor' : m'.cpu = cpu := behind.keeps.cpu.trans processor
    rw [Machine.divided, if_pos invalid]
    apply (runs_storeNothing processor' rd overflow record fun needed =>
      behind.holds (summary needed)).mono
    intro _ Y m'' effect
    refine behind.through (fun m => (m.undefineGpr rd).flagged overflow record 1 so none) ?_ effect
    intro same
    have undefined : (m.undefineGpr rd).Keeps x.taken (m'.undefineGpr rd) :=
      same.undefineRegister (processor ▸ not_scratch_gpr rd x.taken) registerWidth
    exact undefined.flagged processor overflow record 1 so none

end Effect

/-! ## Outcomes -/

/-- What the run of a division of `a` by `b` does to a machine. -/
structure DivisionOutcome (signed : Bool) (rd : Gpr) (overflow record : Bool) (a b : Nat)
    (m m' : Machine) : Prop where
  quotient : ¬ DivisionInvalid signed a b →
    m'.register? (gprName rd) = some ⟨ratio signed a b, .dword, .defined⟩
  undefined : DivisionInvalid signed a b →
    m'.register? (gprName rd) = some (.undefined (m.register? (gprName rd)) .dword)
  flags : overflow →
    m'.register? overflowFlag = some ⟨flag (DivisionInvalid signed a b), .byte, .defined⟩ ∧
    ∃ so, m.value? summaryFlag = some so ∧ m'.register? summaryFlag =
      some ⟨so ||| flag (DivisionInvalid signed a b), .byte, .defined⟩
  order : record → ¬ DivisionInvalid signed a b → RecordsOrder m' (ratio signed a b)
  noOrder : record → DivisionInvalid signed a b → RecordsNothing m m'
  others : ∀ name, name ∉ gprName rd :: writtenFlags overflow record → isTemporary name = false →
    name ≠ programCounter → m'.register? name = m.register? name
  memory : m'.memory = m.memory

section Outcome

variable {signed overflow record : Bool} {rd : Gpr} {a b so n : Nat} {m e m' : Machine}

/-- The outcome of a division survives a change of scratch registers. -/
theorem DivisionOutcome.keep (h : DivisionOutcome signed rd overflow record a b m e)
    (keeps : e.Keeps n m') (processor : e.cpu = cpu) :
    DivisionOutcome signed rd overflow record a b m m' := by
  have status := register?_status_of_keeps keeps processor
  have target := register?_of_keeps keeps processor (isTemporary_gprName rd)
    (gprName_ne_programCounter rd)
  refine ⟨?_, ?_, ?_, ?_, ?_, ?_, keeps.memory.trans h.memory⟩
  · intro valid
    rw [target, h.quotient valid]
  · intro invalid
    rw [target, h.undefined invalid]
  · intro wanted
    obtain ⟨lost, so, value, sticky⟩ := h.flags wanted
    exact ⟨(status .overflow).trans lost, so, value, (status .summary).trans sticky⟩
  · intro wanted valid
    exact (h.order wanted valid).keep keeps processor
  · intro wanted invalid
    exact (h.noOrder wanted invalid).keep keeps processor
  · intro name unwritten native ne
    rw [register?_of_keeps keeps processor native ne, h.others name unwritten native ne]

/-- The machine behind a division is as it should be. -/
theorem outcome_divided (processor : m.cpu = cpu) (h : a < 2 ^ 32)
    (summary : overflow ∨ record → m.value? summaryFlag = some so ∧ so ≤ 1) :
    DivisionOutcome signed rd overflow record a b m
      (m.divided signed rd overflow record a b so) := by
  have unflagged : gprName rd ∉ writtenFlags overflow record := gprName_not_mem_writtenFlags rd
  have apart : ∀ b : StatusBit, b.name ≠ gprName rd := fun b => b.ne_gprName rd
  -- the destination is undefined or holds the quotient, and the flags are set accordingly
  by_cases invalid : DivisionInvalid signed a b
  · have processor' : (m.undefineGpr rd).cpu = cpu := processor
    have kept : ∀ {name}, name ≠ gprName rd →
        (m.undefineGpr rd).register? name = m.register? name := fun ne =>
      (Machine.register?_undefineRegister (plain_of_cpu processor) ..).trans (if_neg ne)
    have value : (m.undefineGpr rd).value? summaryFlag = m.value? summaryFlag :=
      Machine.value?_congr (kept (apart .summary))
    rw [Machine.divided, if_pos invalid]
    refine ⟨(absurd invalid ·), ?_, ?_, fun _ => (absurd invalid ·), ?_, ?_, Machine.memory_flagged ..⟩
    · intro _
      rw [register?_flagged_of_not_mem processor' unflagged]
      exact (Machine.register?_undefineRegister (plain_of_cpu processor) ..).trans (if_pos rfl)
    · intro wanted
      obtain ⟨known, le⟩ := summary (.inl wanted)
      have flags := register?_flagged_overflow processor' wanted (Nat.le_refl 1)
        (Nat.lt_of_le_of_lt le (by decide)) record none
      rw [flag_of invalid]
      exact ⟨flags.1, so, known, flags.2⟩
    · intro wanted _
      obtain ⟨known, le⟩ := summary (.inr wanted)
      exact (recordsNothing_flagged processor' wanted (Nat.le_refl 1) (value.trans known) le).congr
        fun bit => kept (apart (.condition bit))
    · intro name unwritten _ _
      rw [List.mem_cons, not_or] at unwritten
      rw [register?_flagged_of_not_mem processor' unwritten.2, kept unwritten.1]
  · have processor' : (m.setGpr rd (ratio signed a b)).cpu = cpu := processor
    have kept : ∀ {name}, name ≠ gprName rd →
        (m.setGpr rd (ratio signed a b)).register? name = m.register? name := fun ne =>
      (Machine.register?_setGpr processor ..).trans (if_neg ne)
    have value : (m.setGpr rd (ratio signed a b)).value? summaryFlag = m.value? summaryFlag :=
      Machine.value?_congr (kept (apart .summary))
    rw [Machine.divided, if_neg invalid]
    refine ⟨?_, (absurd · invalid), ?_, ?_, fun _ => (absurd · invalid), ?_,
      Machine.memory_flagged ..⟩
    · intro _
      have small : ratio signed a b < registerWidth.modulus := ratio_lt h
      rw [register?_flagged_of_not_mem processor' unflagged, Machine.register?_setGpr processor,
        if_pos rfl, RegisterValue.ofNat, Width.truncate_of_lt small]
      rfl
    · intro wanted
      obtain ⟨known, le⟩ := summary (.inl wanted)
      have flags := register?_flagged_overflow processor' wanted (Nat.zero_le 1)
        (Nat.lt_of_le_of_lt le (by decide)) record (some (ratio signed a b))
      rw [flag_of_not invalid]
      exact ⟨flags.1, so, known, flags.2⟩
    · intro wanted _
      obtain ⟨known, le⟩ := summary (.inr wanted)
      exact recordsOrder_flagged processor' wanted (Nat.zero_le 1) (value.trans known) le _
    · intro name unwritten _ _
      rw [List.mem_cons, not_or] at unwritten
      rw [register?_flagged_of_not_mem processor' unwritten.2, kept unwritten.1]

end Outcome

/-! ## Runs -/

/-- The spelling of a division. -/
def divisionMnemonic (signed overflow record : Bool) : String :=
  (if signed then "divw" else "divwu") ++ (if overflow then "o" else "") ++
    (if record then "." else "")

/-- All eight divisions are mnemonics of the processor. -/
theorem registered_division (signed overflow record : Bool) :
    (divisionMnemonic signed overflow record, Form.divide signed overflow record) ∈ forms := by
  have listed : (divisionMnemonic signed overflow record, Form.divide signed overflow record) ∈
      productForms := by
    cases signed <;> cases overflow <;> cases record <;> decide
  simp only [forms, List.mem_append, listed, true_or, or_true]

/-- What a division is decoded to. -/
theorem decoded_division {n : NativeInstruction} {signed overflow record : Bool}
    {operation : Operation}
    (h : (Form.divide signed overflow record).decode cpu.catalog.widthOf n = .ok operation) :
    ∃ rd ra rb, operation = .divide signed rd ra rb overflow record ∧
      gprAt cpu.catalog.widthOf n 0 = .ok rd ∧ gprAt cpu.catalog.widthOf n 1 = .ok ra ∧
      gprAt cpu.catalog.widthOf n 2 = .ok rb := by
  simp only [Form.decode, Except.bind_eq_ok] at h
  obtain ⟨_, -, h⟩ := h
  simp only [Form.read, Except.bind_eq_ok] at h
  obtain ⟨rd, target, ra, left, rb, right, e⟩ := h
  cases e
  exact ⟨rd, ra, rb, rfl, target, left, right⟩

/--
The run of a lifted division ends well and leaves the quotient in its destination, or an undefined
register where there is none; the flags that the spelling writes tell which, and everything else is
as it was.
-/
theorem lifted_division_divides (signed overflow record : Bool) {n : NativeInstruction}
    (named : n.mnemonic = divisionMnemonic signed overflow record) {p : Program}
    (lifted : lift [n] = .ok p) {m : Machine} (processor : m.cpu = cpu)
    (limit : m.settings.stepLimit = none)
    (sources : ∀ r, gprAt cpu.catalog.widthOf n 1 = .ok r ∨ gprAt cpu.catalog.widthOf n 2 = .ok r →
      ∃ v, m.value? (gprName r) = some v)
    (summary : overflow ∨ record → ∃ so ≤ 1, m.value? summaryFlag = some so) :
    ∃ rd ra rb a b turns, gprAt cpu.catalog.widthOf n 0 = .ok rd ∧
      gprAt cpu.catalog.widthOf n 1 = .ok ra ∧ gprAt cpu.catalog.widthOf n 2 = .ok rb ∧
      m.value? (gprName ra) = some a ∧ m.value? (gprName rb) = some b ∧
      (m.interpret .silent p turns (.ofNative n.address) ()).progress = .finished ∧
      DivisionOutcome signed rd overflow record (a % 2 ^ 32) (b % 2 ^ 32) m
        (m.interpret .silent p turns (.ofNative n.address) ()).machine := by
  obtain ⟨count, operation, ⟨form, registered, decoded⟩, run⟩ := interpret_alone lifted
  obtain rfl := form_unique (named ▸ registered) (registered_division signed overflow record)
  obtain ⟨rd, ra, rb, rfl, target, left, right⟩ := decoded_division decoded
  obtain ⟨a, value⟩ := sources ra (.inl left)
  obtain ⟨b, value'⟩ := sources rb (.inr right)
  -- where no flag is recorded the summary overflow is not read, so that any number will do
  obtain ⟨so, known⟩ : ∃ so, overflow ∨ record → m.value? summaryFlag = some so ∧ so ≤ 1 := by
    by_cases needed : overflow ∨ record
    · obtain ⟨so, le, value⟩ := summary needed
      exact ⟨so, fun _ => ⟨value, le⟩⟩
    · exact ⟨0, fun needed' => absurd needed' needed⟩
  have processor' : m.begun.cpu = cpu := processor
  have first : m.begun.Holds (blank count n).taken (gprOperand ra) (a % 2 ^ 32) :=
    holds_gpr processor' ra value
  have second : m.begun.Holds (blank count n).taken (gprOperand rb) (b % 2 ^ 32) :=
    holds_gpr processor' rb value'
  have effect := runs_expandDivide processor' signed rd overflow record first second fun needed =>
    holds_status processor' .summary (known needed).1 (known needed).2
  obtain ⟨turns, ends, keeps⟩ := run processor limit effect
  have outcome := (outcome_divided processor' (Nat.mod_lt a (by decide)) known).keep keeps
    ((Machine.cpu_divided ..).trans processor')
  exact ⟨rd, ra, rb, a, b, turns, target, left, right, value, value', ends, outcome.quotient,
    outcome.undefined, outcome.flags, outcome.order,
    fun wanted invalid => (outcome.noOrder wanted invalid).congr fun _ => rfl, outcome.others,
    outcome.memory⟩

/-- A division of the least signed number by its own destination. -/
def leastByMinusOne : NativeInstruction :=
  ⟨0x100, "divwo.", [.sized .dword (.register "%r3"), .sized .dword (.register "%r4"),
    .sized .dword (.register "%r3")]⟩

/-- A machine with minus one in `%r3` and the least signed number in `%r4`. -/
def beforeDivision : Machine :=
  ((Machine.start {} cpu).setGpr 3 (2 ^ 32 - 1) |>.setGpr 4 (2 ^ 31)).setStatus .summary 0

/-- The destination keeps minus one, but undefined. -/
theorem leastByMinusOne_divides :
    ∃ p, lift [leastByMinusOne] = .ok p ∧ ∃ turns,
      let run := beforeDivision.interpret .silent p turns (.ofNative 0x100) ()
      run.progress = .finished ∧
        run.machine.register? (gprName 3) = some ⟨2 ^ 32 - 1, .dword, .undefined⟩ ∧
        run.machine.register? summaryFlag = some ⟨1, .byte, .defined⟩ := by
  have expands : Expands 0 leastByMinusOne (.divide true 3 4 3 true true) _ _ :=
    ⟨⟨_, registered_division true true true, rfl⟩, rfl, rfl⟩
  obtain ⟨p, lifted, -⟩ := expands.lift_alone
  have target : gprAt cpu.catalog.widthOf leastByMinusOne 0 = .ok 3 := rfl
  have left : gprAt cpu.catalog.widthOf leastByMinusOne 1 = .ok 4 := rfl
  have right : gprAt cpu.catalog.widthOf leastByMinusOne 2 = .ok 3 := rfl
  have minusOne : beforeDivision.value? (gprName 3) = some (2 ^ 32 - 1) := rfl
  have least : beforeDivision.value? (gprName 4) = some (2 ^ 31) := rfl
  have clear : beforeDivision.value? summaryFlag = some 0 := rfl
  have sources : ∀ r, gprAt cpu.catalog.widthOf leastByMinusOne 1 = .ok r ∨
      gprAt cpu.catalog.widthOf leastByMinusOne 2 = .ok r →
        ∃ v, beforeDivision.value? (gprName r) = some v := by
    intro r found
    rcases found with written | written
    · obtain rfl := Except.ok.inj (left.symm.trans written)
      exact ⟨_, least⟩
    · obtain rfl := Except.ok.inj (right.symm.trans written)
      exact ⟨_, minusOne⟩
  obtain ⟨rd, ra, rb, a, b, turns, target', left', right', value, value', ends, outcome⟩ :=
    lifted_division_divides true true true rfl lifted (m := beforeDivision) rfl rfl sources
      fun _ => ⟨0, Nat.zero_le 1, clear⟩
  obtain rfl := Except.ok.inj (target.symm.trans target')
  obtain rfl := Except.ok.inj (left.symm.trans left')
  obtain rfl := Except.ok.inj (right.symm.trans right')
  obtain rfl := Option.some.inj (least.symm.trans value)
  obtain rfl := Option.some.inj (minusOne.symm.trans value')
  have invalid : DivisionInvalid true (2 ^ 31 % 2 ^ 32) ((2 ^ 32 - 1) % 2 ^ 32) := by decide
  obtain ⟨-, so, known, sticky⟩ := outcome.flags rfl
  obtain rfl := Option.some.inj (clear.symm.trans known)
  rw [flag_of invalid] at sticky
  exact ⟨p, lifted, turns, ends, outcome.undefined invalid, sticky⟩

end PowerPC

end RegisterTransfer
