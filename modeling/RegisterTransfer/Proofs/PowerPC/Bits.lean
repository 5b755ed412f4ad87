import RegisterTransfer.Proofs.Limits
import RegisterTransfer.Proofs.PowerPC.Flags
import RegisterTransfer.Proofs.PowerPC.Lockstep

/-!
# Expansions within limits

The bits of the exception register and of the condition register are registers a byte wide, and the
script of every operation is written so that they hold 0 or 1: no instruction that writes one has a
ceiling above 1. The overflow flag and the summary flag are written together, the one by a move and
the other right behind it.

`Limited` says both of a script, in one pass: what it writes is either lawful or such a pair. The
limits of its temporaries are given, so nothing has to be carried along; that limits with the right
equations exist is a matter of the finished code.

> `kept_setConditionField`, `kept_writeOverflow`: flags in, flags out.
> `limited_addWithCarry`: a carry of at most 1 goes in, and one comes out.
> `Operation.limited`: the script of every operation keeps to the limits.
-/

namespace RegisterTransfer.PowerPC

open Script

/-! ## Registers of one bit -/

/-- A register for one bit of the exception register or of the condition register. -/
def BitRegister (name : String) : Prop :=
  ∃ r ∈ registers, r.name = name ∧ (r.role = .flag ∨ r.role = .condition)

instance (name : String) : Decidable (BitRegister name) :=
  inferInstanceAs (Decidable (∃ r ∈ registers, _))

/-- The flags of the exception register are registers for one bit. -/
theorem bitRegister_flag {name : String} (h : name ∈ [carryFlag, overflowFlag, summaryFlag]) :
    BitRegister name := by
  refine ⟨⟨name, flagWidth, .flag⟩, ?_, rfl, .inl rfl⟩
  refine List.mem_append_left _ (List.mem_append_left _ (List.mem_append_right _ ?_))
  exact List.mem_map_of_mem h

/-- Names of bits begin with an `X` or with `CR`. -/
theorem BitRegister.letters {name : String} (h : BitRegister name) :
    (∃ cs, name.toList = 'X' :: cs) ∨ ∃ cs, name.toList = 'C' :: 'R' :: cs := by
  obtain ⟨r, mem, rfl, role⟩ := h
  simp only [registers, List.mem_append, List.mem_map, List.mem_flatMap] at mem
  rcases mem with ((⟨i, -, rfl⟩ | ⟨name, flag, rfl⟩) | ⟨field, -, bit, -, rfl⟩) | ⟨name, -, rfl⟩
  · rcases role with role | role <;> cases role
  · left
    simp only [List.mem_cons, List.not_mem_nil, or_false] at flag
    rcases flag with rfl | rfl | rfl <;> exact ⟨_, rfl⟩
  · right
    exact ⟨Nat.toDigits 10 field ++ bit.suffix.toList, by simp [conditionBitName]⟩
  · rcases role with role | role <;> cases role

/-- No register for a bit is a temporary, as the first letters of their names show. -/
theorem BitRegister.native {name : String} (h : BitRegister name) : isTemporary name = false := by
  rcases h.letters with ⟨cs, letters⟩ | ⟨cs, letters⟩
  · exact isTemporary_of_head letters (by decide)
  · exact isTemporary_of_head letters (by decide)

/-- A general purpose register may hold more than a bit. -/
theorem not_bitRegister_gpr (n : Nat) : ¬ BitRegister (gprName n) := by
  intro h
  rcases h.letters with ⟨cs, letters⟩ | ⟨cs, letters⟩
  · exact ne_of_head letters (toList_gprName n) (by decide) rfl
  · exact ne_of_head letters (toList_gprName n) (by decide) rfl

theorem not_bitRegister_branch (r : BranchRegister) : ¬ BitRegister r.name := by
  intro h
  rcases h.letters with ⟨cs, letters⟩ | ⟨cs, letters⟩
  · cases r <;> exact absurd letters (by simp [BranchRegister.name])
  · cases r <;> exact absurd letters (by simp [BranchRegister.name])

theorem not_bitRegister_programCounter : ¬ BitRegister programCounter := by
  intro h
  rcases h.letters with ⟨cs, letters⟩ | ⟨cs, letters⟩ <;>
    exact absurd letters (by simp [programCounter])

/-- The limits of the registers of the processor: 1 for bits, if they are held to it. -/
def bitLimits (strict : Bool) (name : String) : Option Nat :=
  if strict ∧ BitRegister name then some 1 else none

/-- The only limit that a register of the processor can have is 1, and only bits have it. -/
theorem eq_one_of_bitLimits {strict : Bool} {name : String} {l : Nat}
    (h : bitLimits strict name = some l) : l = 1 ∧ strict ∧ BitRegister name := by
  unfold bitLimits at h
  split at h
  · next bit =>
    cases h
    exact ⟨rfl, bit⟩
  · cases h

theorem bitLimits_eq_none {name : String} (h : ¬ BitRegister name) (strict : Bool) :
    bitLimits strict name = none :=
  if_neg fun bit => h bit.2

/-- Limits of all registers that are those of bits for the processor. -/
structure BitLimits (strict : Bool) (T : String → Option Nat) : Prop where
  native : ∀ {name}, isTemporary name = false → T name = bitLimits strict name

/-- A bit that is held to it is a flag. -/
theorem BitLimits.ceiling {strict : Bool} {T : String → Option Nat} (limits : BitLimits strict T)
    {name : String} (bit : BitRegister name) (kept : strict) : (flagOperand name).ceiling T ≤ 1 :=
  Operand.ceiling_register ((limits.native bit.native).trans (if_pos ⟨kept, bit⟩)) _

/-! ## Lawful instructions -/

/--
An instruction that keeps a register of the processor within its limit, and leaves the overflow flag
and the summary flag alone.
-/
structure Lawful (T : String → Option Nat) (i : Instruction) : Prop where
  heeds : ∀ {name w l}, i.Writes name w → isTemporary name = false → T name = some l →
    i.ceiling T ≤ l
  overflow : ¬ i.Changes overflowFlag
  summary : ¬ i.Changes summaryFlag

section Lawful

variable {T : String → Option Nat} {strict : Bool} {opcode : Opcode} {a b : Operand}
  {name : String} {w : Width}

/-- An instruction that changes no register. -/
theorem lawful_of_idle {i : Instruction} (idle : ¬ i.opcode.writesRegister)
    (defines : i.opcode ≠ .undef) : Lawful T i where
  heeds writes := absurd writes.1 idle
  overflow changes := changes.1.elim idle defines
  summary changes := changes.1.elim idle defines

/-- A jump changes no register, so it is lawful whatever it jumps on. -/
theorem lawful_of_jcc {i : Instruction} (jump : i.opcode = .jcc) : Lawful T i :=
  lawful_of_idle (by simp [jump, Opcode.writesRegister]) (by simp [jump])

/-- An instruction that names another register than the two flags in its third slot. -/
theorem lawful_of_ne (overflow : name ≠ overflowFlag) (summary : name ≠ summaryFlag)
    (heeds : opcode.writesRegister → isTemporary name = false → ∀ l, T name = some l →
      opcode.ceiling T a b w ≤ l) : Lawful T (Draft.plain opcode a b (.register name w)).outline where
  heeds {other v l} writes native limit := by
    have same : Operand.register name w = .register other v := writes.2
    cases same
    exact heeds writes.1 native l limit
  overflow changes := by
    obtain ⟨-, kind⟩ := changes
    cases kind
    exact overflow rfl
  summary changes := by
    obtain ⟨-, kind⟩ := changes
    cases kind
    exact summary rfl

/-- A temporary is neither a register of the processor nor a flag. -/
theorem lawful_temporary (n : Nat) :
    Lawful T (Draft.plain opcode a b (.register (temporaryName n) w)).outline := by
  refine lawful_of_ne (ne_temporaryName isTemporary_overflowFlag n).symm
    (ne_temporaryName isTemporary_summaryFlag n).symm fun _ native => ?_
  rw [isTemporary_temporaryName] at native
  cases native

/-- An instruction that writes a register without a limit. -/
theorem lawful_free (limits : BitLimits strict T) (free : ¬ BitRegister name) :
    Lawful T (Draft.plain opcode a b (.register name w)).outline := by
  have flag : ∀ {other}, other ∈ [carryFlag, overflowFlag, summaryFlag] → name ≠ other :=
    fun mem same => free (same ▸ bitRegister_flag mem)
  refine lawful_of_ne (flag (by simp)) (flag (by simp)) fun _ native l limit => ?_
  rw [limits.native native, bitLimits_eq_none free] at limit
  cases limit

/-- A move of a flag to a bit. -/
theorem lawful_bit (limits : BitLimits strict T) (overflow : name ≠ overflowFlag)
    (summary : name ≠ summaryFlag) (flag : strict → a.ceiling T ≤ 1) :
    Lawful T (Draft.plain .str a .absent (flagOperand name)).outline := by
  refine lawful_of_ne overflow summary fun _ native l limit => ?_
  rw [limits.native native] at limit
  obtain ⟨rfl, kept, -⟩ := eq_one_of_bitLimits limit
  exact Nat.le_trans (Nat.min_le_left _ _) (flag kept)

end Lawful

/-! ## Scripts -/

/--
A script whose instructions are lawful, or moves of a flag to the overflow flag with the summary flag
set right behind. The limits of temporaries are those that the instructions settle, and the results
satisfy `Q`.
-/
inductive Limited (T : String → Option Nat) {α : Type} (Q : α → Prop) : Script α → Prop
  | done {a} (h : Q a) : Limited T Q (.done a)
  | fail {e} : Limited T Q (.fail e)
  | allocate {w k} (rest : ∀ n, Limited T Q (k (.register (temporaryName n) w))) :
    Limited T Q (.allocate w k)
  | write {opcode a b c s} (lawful : Lawful T (Draft.plain opcode a b c).outline)
    (rest : (Draft.plain opcode a b c).outline.Settles T → Limited T Q s) :
    Limited T Q (.write opcode a b c s)
  | overflow {a s} (flag : a.ceiling T ≤ 1) (rest : Limited T Q s) :
    Limited T Q (.write .str a .absent (flagOperand overflowFlag)
      (.write .or (flagOperand summaryFlag) (flagOperand overflowFlag) (flagOperand summaryFlag) s))
  | create {k} (rest : ∀ l, Limited T Q (k l)) : Limited T Q (.create k)
  | attach {l s} (rest : Limited T Q s) : Limited T Q (.attach l s)
  | leave {a l s} (rest : Limited T Q s) : Limited T Q (.leave a l s)

/-- An operand of a width, with a bound for its ceiling. -/
structure Below (T : String → Option Nat) (c : Nat) (w : Width) (o : Operand) : Prop where
  ceiling : o.ceiling T ≤ c
  width : o.width = w

namespace Limited

variable {T : String → Option Nat} {α β : Type} {Q : α → Prop} {R : β → Prop} {s : Script α}
  {f : α → Script β} {opcode : Opcode} {a b : Operand} {w : Width}

/-- A script within its limits may go on with one that is within them for every result. -/
theorem bind (h : Limited T Q s) (next : ∀ {a}, Q a → Limited T R (f a)) :
    Limited T R (s >>= f) := by
  show Limited T R (s.andThen f)
  induction h with
  | done h => exact next h
  | fail => exact .fail
  | allocate _ ih => exact .allocate ih
  | write lawful _ ih => exact .write lawful ih
  | overflow flag _ ih => exact .overflow flag ih
  | create _ ih => exact .create ih
  | attach _ ih => exact .attach ih
  | leave _ ih => exact .leave ih

theorem mono {R : α → Prop} (h : Limited T Q s) (weaken : ∀ {a}, Q a → R a) : Limited T R s := by
  have same : s >>= pure = s := bind_pure s
  rw [← same]
  exact h.bind fun q => .done (weaken q)

/-- Whatever comes out. -/
theorem any (h : Limited T Q s) : Limited T (fun _ => True) s := h.mono fun _ => trivial

/-- A temporary for a computed value, and what is done with it. -/
theorem computing {f : Operand → Script β} (writes : opcode.writesRegister)
    (next : ∀ {o}, Below T (opcode.ceiling T a b w) w o → Limited T R (f o)) :
    Limited T R (temporary w >>= fun o => emit opcode a b o >>= fun _ => f o) := by
  refine .allocate fun n => .write (lawful_temporary n) fun settles => next ⟨?_, rfl⟩
  exact Operand.ceiling_register (settles ⟨writes, rfl⟩ (isTemporary_temporaryName n)) w

/-- A temporary for a computed value, as the result. -/
theorem computed (writes : opcode.writesRegister) :
    Limited T (Below T (opcode.ceiling T a b w) w)
      (temporary w >>= fun o => emit opcode a b o >>= fun _ => pure o) :=
  computing writes .done

end Limited

section Scripts

variable {T : String → Option Nat} {opcode : Opcode} {a b : Operand} {w : Width}

/-! ### Computations -/

/-- What a binary operation yields is below the ceiling of the operation. -/
theorem limited_binary (writes : opcode.writesRegister) :
    Limited T (Below T (opcode.ceiling T a b a.width) a.width) (binary opcode a b) :=
  .computed writes

/-- Of a flag and 1 the exclusive disjunction is a flag again. -/
theorem limited_flagNot (flag : a.ceiling T ≤ 1) :
    Limited T (Below T 1 a.width) (flagNot a) := by
  have one : (Operand.integer 1 a.width).ceiling T ≤ 1 := by
    simp only [Operand.ceiling, Operand.integer, Width.truncate_truncate]
    exact Width.truncate_le _ _
  refine (limited_binary rfl).mono fun h => ⟨Nat.le_trans h.ceiling ?_, h.width⟩
  exact Nat.le_of_eq (Opcode.ceiling_flags (.inr rfl) flag one)

/-- A shift that leaves one bit leaves a flag. -/
theorem limited_signBit : Limited T (Below T 1 .byte) (signBit a) := by
  have amount : (-(a.width.bits - 1) : Int) = -((a.width.bits - 1 : Nat) : Int) := by
    have := a.width.one_lt_bits
    omega
  have pos := a.width.one_lt_bits
  have most := a.width.bits_le
  have fits := a.width.bits_le_signBit
  unfold signBit
  rw [amount]
  refine (Limited.computed rfl).mono fun h => ⟨Nat.le_trans h.ceiling ?_, h.width⟩
  refine Nat.le_trans (Opcode.ceiling_shift (by omega) (by omega) (by omega)) ?_
  have inside : a.ceiling T < a.width.modulus := by
    have := a.ceiling_le_mask (T := T)
    have := a.width.modulus_pos
    unfold Width.mask at *
    omega
  -- what is shifted out leaves the sign alone, which is less than two
  rw [← Width.signBit_eq_two_pow]
  refine Nat.le_of_lt_succ (Nat.div_lt_of_lt_mul ?_)
  rw [Nat.mul_comm]
  exact a.width.modulus_eq_two_mul_signBit ▸ inside

theorem limited_isZero : Limited T (Below T 1 .byte) (isZero a) :=
  (Limited.computed rfl).mono fun h => h

theorem limited_isNonzero : Limited T (Below T 1 .byte) (isNonzero a) :=
  limited_isZero.bind fun zero => zero.width ▸ limited_flagNot zero.ceiling

theorem limited_equal : Limited T (Below T 1 .byte) (equal a b) :=
  (limited_binary rfl).bind fun _ => limited_isZero

/-- A sum is no greater than what its addends add up to at most. -/
theorem limited_wideSum (carryIn : Option Operand) :
    Limited T (Below T (a.ceiling T + b.ceiling T + (carryIn.elim 0 (·.ceiling T))) w)
      (wideSum w a b carryIn) := by
  refine .computing rfl fun {sum} total => ?_
  have above : sum.ceiling T ≤ a.ceiling T + b.ceiling T :=
    Nat.le_trans total.ceiling (Nat.min_le_left _ _)
  cases carryIn with
  | none => exact .done ⟨above, total.width⟩
  | some c =>
    refine (Limited.computed rfl).mono fun withCarry => ⟨?_, withCarry.width⟩
    refine Nat.le_trans withCarry.ceiling (Nat.le_trans (Nat.min_le_left _ _) ?_)
    exact Nat.add_le_add_right above _

/-- A sum of two numbers and a carry has one bit at most above the width. -/
theorem limited_carryOut {wide : Width} (wider : w.wider? = some wide) {sum : Operand}
    (fits : sum.ceiling T ≤ 2 * w.mask + 1) : Limited T (Below T 1 .byte) (carryOut w wide sum) := by
  have room : 0 < w.bits ∧ w.bits < 128 ∧ w.bits ≤ wide.signBit := by
    cases w <;> cases wider <;> decide
  refine (Limited.computed rfl).mono fun h => ⟨Nat.le_trans h.ceiling ?_, h.width⟩
  refine Nat.le_trans (Opcode.ceiling_shift room.1 room.2.1 room.2.2) ?_
  rw [← Width.modulus_eq_two_pow]
  refine Nat.le_of_lt_succ (Nat.div_lt_of_lt_mul ?_)
  have := w.modulus_pos
  unfold Width.mask at fits
  omega

/-- What overflows is a sign bit, and so a flag. -/
theorem limited_overflowOut {result : Operand} :
    Limited T (Below T 1 .byte) (overflowOut a b result) :=
  (limited_binary rfl).bind fun _ => (limited_binary rfl).bind fun _ =>
    (limited_binary rfl).bind fun _ => limited_signBit

/-- A result that may be left out is within its limit if it is there. -/
theorem limited_optionally {Q : Operand → Prop} {s : Script Operand} (wanted : Bool)
    (h : Limited T Q s) : Limited T (fun r => ∀ {o}, r = some o → Q o) (optionally wanted s) := by
  unfold optionally
  split
  · rw [map_eq_pure_bind]
    refine h.bind fun {o} q => .done fun {o'} same => ?_
    cases same
    exact q
  · exact .done nofun

/-- The flags of a sum are flags, the carry if the carry that went in is one. -/
theorem limited_addWithCarry (carryIn : Option Operand) (flags : AdditionFlags) :
    Limited T (fun sum => (∀ {c}, sum.carry = some c → (carryIn.elim 0 (·.ceiling T)) ≤ 1 →
        c.ceiling T ≤ 1) ∧ ∀ {o}, sum.overflow = some o → o.ceiling T ≤ 1)
      (addWithCarry a b carryIn flags) := by
  unfold addWithCarry
  split
  · next same =>
    split
    · exact .fail
    · next wide wider =>
      refine (limited_wideSum carryIn).bind fun {sum} total => .computing rfl fun _ => ?_
      -- whether the carry in is a flag decides what is known of the carry out
      have carries : Limited T (fun c => (carryIn.elim 0 (·.ceiling T)) ≤ 1 → c.ceiling T ≤ 1)
          (carryOut a.width wide sum) := by
        by_cases flag : (carryIn.elim 0 (·.ceiling T)) ≤ 1
        · refine (limited_carryOut wider ?_).mono fun carry _ => carry.ceiling
          have first := a.ceiling_le_mask (T := T)
          have second := b.ceiling_le_mask (T := T)
          rw [same] at second
          have := total.ceiling
          omega
        · exact (Limited.computed rfl).mono fun _ bit => absurd bit flag
      refine (limited_optionally _ carries).bind fun carry => ?_
      refine (limited_optionally _ limited_overflowOut).bind fun overflow => ?_
      exact .done ⟨fun is_some flag => carry is_some flag, fun is_some => (overflow is_some).ceiling⟩
  · exact .fail

/-- An order is the carry of a difference, and so a flag. -/
theorem limited_unsignedLess : Limited T (Below T 1 .byte) (unsignedLess a b) := by
  unfold unsignedLess
  split
  · exact .fail
  · exact .computing rfl fun _ => limited_signBit

/-- Numbers with their signs flipped compare to a flag as well. -/
theorem limited_signedLess : Limited T (Below T 1 .byte) (signedLess a b) :=
  (limited_binary rfl).bind fun _ => (limited_binary rfl).bind fun _ => limited_unsignedLess

theorem limited_signExtend : Limited T (fun _ => True) (signExtend a w) :=
  (limited_binary rfl).bind fun _ => .computing rfl fun _ => (Limited.computed rfl).any

theorem limited_negateIf : Limited T (fun _ => True) (negateIf a b) :=
  (Limited.computed rfl).bind fun _ => (limited_binary rfl).bind fun _ => (limited_binary rfl).any

theorem limited_magnitude : Limited T (fun _ => True) (magnitude a) :=
  limited_signBit.bind fun _ => limited_negateIf.bind fun _ => .done trivial

end Scripts

section Expansions

variable {strict : Bool} {T : String → Option Nat} {opcode : Opcode} {a b : Operand} {w : Width}

/-- Nothing is asked of the results. -/
abbrev Kept (T : String → Option Nat) {α : Type} (s : Script α) : Prop := Limited T (fun _ => True) s

/-! ### Moves and flags -/

/-- A register that holds more than a bit may receive anything. -/
theorem kept_assign (limits : BitLimits strict T) {name : String} (free : ¬ BitRegister name) :
    Kept T (emit opcode a b (.register name w)) :=
  .write (lawful_free limits free) fun _ => .done trivial

theorem kept_copy_gpr (limits : BitLimits strict T) (r : Gpr) : Kept T (copy a (gprOperand r)) :=
  kept_assign limits (not_bitRegister_gpr r)

theorem kept_copy_branch (limits : BitLimits strict T) (r : BranchRegister) :
    Kept T (copy a r.operand) :=
  kept_assign limits (not_bitRegister_branch r)

theorem kept_copy_condition (limits : BitLimits strict T) (field : ConditionField)
    (bit : ConditionBit) (flag : strict → a.ceiling T ≤ 1) :
    Kept T (copy a (conditionOperand field bit)) :=
  .write (lawful_bit limits (conditionBitName_ne rfl (by decide) field bit)
    (conditionBitName_ne rfl (by decide) field bit) flag) fun _ => .done trivial

/-- What is undefined is no value that a limit could be exceeded by. -/
theorem kept_undefine (field : ConditionField) (bit : ConditionBit) :
    Kept T (emit .undef .absent .absent (conditionOperand field bit)) :=
  .write (lawful_of_ne (conditionBitName_ne rfl (by decide) field bit)
    (conditionBitName_ne rfl (by decide) field bit) nofun) fun _ => .done trivial

theorem kept_onlyIf (wanted : Bool) {s : Script Unit} (h : Kept T s) :
    Kept T (onlyIf wanted s) := by
  unfold onlyIf
  split
  · exact h
  · exact .done trivial

theorem kept_withOperand {script : Operand → Script Unit} {o : Option Operand}
    (each : ∀ {a}, o = some a → Kept T (script a)) : Kept T (withOperand script o) := by
  cases o with
  | none => exact .done trivial
  | some a => exact each rfl

theorem kept_complementIf (wanted : Bool) : Kept T (complementIf wanted a) := by
  unfold complementIf
  split
  · exact (limited_binary rfl).any
  · exact .done trivial

theorem kept_flagNotIf (wanted : Bool) : Kept T (flagNotIf wanted a) := by
  unfold flagNotIf
  split
  · exact (limited_binary rfl).any
  · exact .done trivial

/-- The two flags are written as a pair, from a flag. -/
theorem kept_writeOverflow (flag : a.ceiling T ≤ 1) : Kept T (writeOverflow a) :=
  .overflow flag (.done trivial)

/-- The bits "less" and "equal" are flags, so "greater", which is neither of them, is one too. -/
theorem kept_setConditionField (limits : BitLimits strict T) (field : ConditionField)
    (less : a.ceiling T ≤ 1) (equal : b.ceiling T ≤ 1) : Kept T (setConditionField field a b) := by
  refine (limited_binary rfl).bind fun either => ?_
  have flag := Nat.le_trans either.ceiling
    (Nat.le_of_eq (Opcode.ceiling_flags (.inl rfl) less equal))
  refine (limited_flagNot flag).bind fun greater => ?_
  refine (kept_copy_condition limits _ _ fun _ => less).bind fun _ => ?_
  refine (kept_copy_condition limits _ _ fun _ => greater.ceiling).bind fun _ => ?_
  refine (kept_copy_condition limits _ _ fun _ => equal).bind fun _ => ?_
  exact kept_copy_condition limits _ _ (limits.ceiling (bitRegister_flag (by simp)))

theorem kept_recordResult (limits : BitLimits strict T) : Kept T (recordResult a) :=
  limited_signBit.bind fun less => limited_isZero.bind fun equal =>
    kept_setConditionField limits _ less.ceiling equal.ceiling

/-- The summary flag is the only value that is moved, and it is a bit already. -/
theorem kept_recordUndefined (limits : BitLimits strict T) : Kept T recordUndefined := by
  refine (kept_undefine _ _).bind fun _ => (kept_undefine _ _).bind fun _ => ?_
  refine (kept_undefine _ _).bind fun _ => ?_
  exact kept_copy_condition limits _ _ (limits.ceiling (bitRegister_flag (by simp)))

/-- What a script moves to a register may be recorded. -/
theorem kept_recorded (limits : BitLimits strict T) (r : Gpr) (record : Bool) {s : Script Unit}
    (h : Kept T s) : Kept T (s >>= fun _ => onlyIf record (recordResult (gprOperand r))) :=
  h.bind fun _ => kept_onlyIf record (kept_recordResult limits)

/-! ### Sums, products and quotients -/

/-- The carry that goes into a sum is a flag. -/
theorem ceiling_carryIn (limits : BitLimits strict T) (c : CarryIn) (kept : strict) :
    c.operand?.elim 0 (·.ceiling T) ≤ 1 := by
  cases c with
  | clear => exact Nat.zero_le 1
  | set => exact Nat.le_refl 1
  | flag => exact limits.ceiling (bitRegister_flag (by simp)) kept

/-- The carry and the overflow of a sum are flags if the carry that goes in is one. -/
theorem kept_expandSum (limits : BitLimits strict T) (kind : SumKind) (rd : Gpr) (first : Base)
    (second : Source) : Kept T (expandSum kind rd first second) := by
  refine (kept_complementIf _).bind fun _ => ?_
  refine (limited_addWithCarry _ _).bind fun {sum} flags => ?_
  refine (kept_copy_gpr limits rd).bind fun _ => ?_
  have carries : Kept T (withOperand (copy · (flagOperand carryFlag)) sum.carry) := by
    refine kept_withOperand fun {c} carry => .write ?_ fun _ => .done trivial
    exact lawful_bit limits (by decide) (by decide) fun kept =>
      flags.1 carry (ceiling_carryIn limits _ kept)
  refine carries.bind fun _ => ?_
  refine (kept_withOperand fun overflow => kept_writeOverflow (flags.2 overflow)).bind fun _ => ?_
  exact kept_onlyIf _ (kept_recordResult limits)

theorem kept_signedProduct : Kept T (signedProduct a b) :=
  limited_signExtend.bind fun _ => limited_signExtend.bind fun _ => (limited_binary rfl).any

theorem kept_exactProduct (signed : Bool) : Kept T (exactProduct signed a b) := by
  unfold exactProduct
  split
  · exact kept_signedProduct
  · exact (Limited.computed rfl).any

/-- Whether a product is lost is a flag, the negation of an equality. -/
theorem kept_multiplyInto (limits : BitLimits strict T) (overflow : Bool) (rd ra rb : Gpr) :
    Kept T (multiplyInto overflow rd ra rb) := by
  unfold multiplyInto
  split
  · refine kept_signedProduct.bind fun _ => .computing rfl fun _ => ?_
    refine limited_signExtend.bind fun _ => limited_equal.bind fun fits => ?_
    refine (limited_flagNot fits.ceiling).bind fun lost => ?_
    exact (kept_copy_gpr limits rd).bind fun _ => kept_writeOverflow lost.ceiling
  · exact (limited_binary rfl).bind fun _ => kept_copy_gpr limits rd

theorem kept_expandMultiplyHigh (limits : BitLimits strict T) (signed : Bool) (rd ra rb : Gpr)
    (record : Bool) : Kept T (expandMultiplyHigh signed rd ra rb record) :=
  (kept_exactProduct signed).bind fun _ =>
    kept_recorded limits rd record (kept_assign limits (not_bitRegister_gpr rd))

theorem kept_divisionInvalid (signed : Bool) : Kept T (divisionInvalid signed a b) := by
  refine limited_isZero.bind fun _ => ?_
  split
  · refine limited_equal.bind fun _ => limited_equal.bind fun _ => ?_
    exact (limited_binary rfl).bind fun _ => (limited_binary rfl).any
  · exact .done trivial

theorem kept_quotient (signed : Bool) : Kept T (quotient signed a b) := by
  unfold quotient
  split
  · refine limited_magnitude.bind fun _ => limited_magnitude.bind fun _ => ?_
    exact (limited_binary rfl).bind fun _ => (limited_binary rfl).bind fun _ => limited_negateIf
  · exact (limited_binary rfl).any

/-- On either way through a division the overflow flag receives 0 or 1. -/
theorem kept_expandDivide (limits : BitLimits strict T) (signed : Bool) (rd ra rb : Gpr)
    (overflow record : Bool) : Kept T (expandDivide signed rd ra rb overflow record) := by
  refine (kept_divisionInvalid signed).bind fun _ => .create fun _ => .create fun _ => .leave ?_
  -- the arm with a quotient
  refine (kept_quotient signed).bind fun _ => (kept_copy_gpr limits rd).bind fun _ => ?_
  refine (kept_onlyIf overflow (kept_writeOverflow (a := .integer 0 .byte) (Nat.zero_le 1))).bind fun _ => ?_
  refine (kept_onlyIf record (kept_recordResult limits)).bind fun _ => .leave (.attach ?_)
  -- the arm without one
  refine (kept_assign limits (not_bitRegister_gpr rd)).bind fun _ => ?_
  refine (kept_onlyIf overflow (kept_writeOverflow (a := .integer 1 .byte) (Nat.le_refl 1))).bind fun _ => ?_
  exact (kept_onlyIf record (kept_recordUndefined limits)).bind fun _ => .attach (.done trivial)

/-! ### Bitwise operations and shifts -/

theorem kept_deliver (limits : BitLimits strict T) (r : Gpr) (record : Bool) :
    Kept T (deliver a r record) :=
  kept_recorded limits r record (kept_copy_gpr limits r)

theorem kept_expandLogic (limits : BitLimits strict T) (kind : LogicKind) (ra rs rb : Gpr)
    (record : Bool) : Kept T (expandLogic kind ra rs rb record) :=
  (kept_complementIf _).bind fun _ => (limited_binary (by cases kind <;> rfl)).bind fun _ =>
    (kept_complementIf _).bind fun _ => kept_deliver limits ra record

theorem kept_expandLogicConstant (limits : BitLimits strict T)
    (bitwise : opcode = .and ∨ opcode = .or ∨ opcode = .xor) (ra rs : Gpr) (value : Nat)
    (record : Bool) : Kept T (expandLogicConstant opcode ra rs value record) := by
  have writes : opcode.writesRegister := by rcases bitwise with rfl | rfl | rfl <;> rfl
  exact (limited_binary writes).bind fun _ => kept_deliver limits ra record

theorem kept_expandExtend (limits : BitLimits strict T) (width : Width) (ra rs : Gpr)
    (record : Bool) : Kept T (expandExtend width ra rs record) :=
  .computing rfl fun _ => limited_signExtend.bind fun _ => kept_deliver limits ra record

theorem kept_directed (left : Bool) : Kept T (directed left a) := by
  unfold directed
  split
  · exact .done trivial
  · exact (limited_binary rfl).any

theorem kept_expandShift (limits : BitLimits strict T) (left : Bool) (ra rs rb : Gpr)
    (record : Bool) : Kept T (expandShift left ra rs rb record) :=
  (limited_binary rfl).bind fun _ => (kept_directed left).bind fun _ =>
    .computing rfl fun _ => kept_deliver limits ra record

theorem kept_amount (s : Source) : Kept T s.amount := by
  cases s with
  | register r => exact (limited_binary rfl).any
  | constant v => exact .done trivial

/-- The carry is a flag because the sign bit is one. -/
theorem kept_expandShiftAlgebraic (limits : BitLimits strict T) (ra rs : Gpr) (amount : Source)
    (record : Bool) : Kept T (expandShiftAlgebraic ra rs amount record) := by
  refine (kept_amount amount).bind fun _ => limited_signExtend.bind fun _ => ?_
  refine (limited_binary rfl).bind fun _ => .computing rfl fun _ => .computing rfl fun _ => ?_
  refine (limited_binary rfl).bind fun _ => limited_isNonzero.bind fun _ => ?_
  refine limited_signBit.bind fun negative => (limited_binary rfl).bind fun carry => ?_
  -- the carry is a conjunction with the sign bit, and no greater than that
  have flag := Nat.le_trans carry.ceiling (Nat.le_trans (Nat.min_le_left _ _) negative.ceiling)
  refine .computing rfl fun _ => (kept_copy_gpr limits ra).bind fun _ => ?_
  exact kept_recorded limits ra record (.write
    (lawful_bit limits (by decide) (by decide) fun _ => flag) fun _ => .done trivial)

theorem kept_rotated (amount : Nat) : Kept T (rotated a amount) := by
  unfold rotated
  split
  · exact .done trivial
  · exact .computing rfl fun _ => .computing rfl fun _ => (limited_binary rfl).any

theorem kept_expandRotate (limits : BitLimits strict T) (ra rs : Gpr) (amount first last : Nat)
    (record : Bool) : Kept T (expandRotate ra rs amount first last record) :=
  (kept_rotated amount).bind fun _ => (limited_binary rfl).bind fun _ =>
    kept_deliver limits ra record

/-! ### Comparison and memory -/

/-- An order and an equality are flags, which is what a condition field takes. -/
theorem kept_expandCompare (limits : BitLimits strict T) (signed : Bool) (field : ConditionField)
    (ra : Gpr) (second : Source) : Kept T (expandCompare signed field ra second) := by
  have less : Limited T (Below T 1 .byte) (lessThan signed (gprOperand ra) second.operand) := by
    unfold lessThan
    split
    · exact limited_signedLess
    · exact limited_unsignedLess
  exact less.bind fun less => limited_equal.bind fun same =>
    kept_setConditionField limits field less.ceiling same.ceiling

theorem kept_effective (l : Location) : Kept T l.effective := by
  cases l <;> exact (limited_binary rfl).any

theorem kept_updated (mnemonic : String) (l : Location) : Kept T (l.updated mnemonic) := by
  unfold Location.updated
  split
  · split
    · exact .fail
    · exact .done trivial
  · exact .done trivial
  · exact .done trivial

theorem kept_refuseUpdateOf (mnemonic : String) (rd : Gpr) (base : Option Gpr) :
    Kept T (refuseUpdateOf mnemonic rd base) := by
  unfold refuseUpdateOf
  split
  · exact .fail
  · exact .done trivial

theorem kept_writeBack (limits : BitLimits strict T) (base : Option Gpr) :
    Kept T (writeBack a base) := by
  cases base with
  | none => exact .done trivial
  | some r => exact kept_copy_gpr limits r

theorem kept_signExtendIf (signed : Bool) : Kept T (signExtendIf signed a) := by
  unfold signExtendIf
  split
  · exact limited_signExtend
  · exact .done trivial

theorem kept_narrowed (width : Width) : Kept T (narrowed width a) := by
  unfold narrowed
  split
  · exact (Limited.computed rfl).any
  · exact .done trivial

theorem kept_expandLoad (limits : BitLimits strict T) (mnemonic : String) (width : Width)
    (signed : Bool) (rd : Gpr) (location : Location) :
    Kept T (expandLoad mnemonic width signed rd location) := by
  refine (kept_effective location).bind fun _ => (kept_updated mnemonic location).bind fun _ => ?_
  refine (kept_refuseUpdateOf mnemonic rd _).bind fun _ => .computing rfl fun _ => ?_
  refine (kept_signExtendIf signed).bind fun _ => (kept_copy_gpr limits rd).bind fun _ => ?_
  exact kept_writeBack limits _

theorem kept_expandStore (limits : BitLimits strict T) (mnemonic : String) (width : Width) (rs : Gpr)
    (location : Location) : Kept T (expandStore mnemonic width rs location) := by
  refine (kept_effective location).bind fun _ => (kept_updated mnemonic location).bind fun _ => ?_
  refine (kept_narrowed width).bind fun _ => .write (lawful_of_idle nofun nofun) fun _ => ?_
  exact kept_writeBack limits _

/-! ### Branches -/

theorem kept_leaveTo : Kept T (leaveTo a b) :=
  .write (lawful_of_jcc rfl) fun _ => .done trivial

theorem kept_expandBranchThrough (limits : BitLimits strict T) (address : Nat)
    (register : BranchRegister) (link : Bool) :
    Kept T (expandBranchThrough address register link) := by
  unfold expandBranchThrough
  split
  · exact .computing rfl fun _ => (kept_copy_branch limits .link).bind fun _ => kept_leaveTo
  · exact kept_leaveTo

/-- The counter is a branch register, so it may hold any number. -/
theorem kept_expandBranchCounted (limits : BitLimits strict T) (target : Nat) :
    Kept T (expandBranchCounted target) :=
  (limited_binary rfl).bind fun _ => (kept_copy_branch limits .count).bind fun _ =>
    limited_isNonzero.bind fun _ => kept_leaveTo

/-! ### All operations -/

/-- The script of every operation keeps to the limits. -/
theorem Operation.limited {operation : Operation} (bitwise : operation.Bitwise)
    (limits : BitLimits strict T) (mnemonic : String) (address : Nat) :
    Kept T (operation.expand mnemonic address) := by
  cases operation with
  | sum => exact kept_expandSum limits ..
  | loadConstant rd value => exact kept_copy_gpr limits rd
  | multiplyLow rd ra rb overflow record =>
    exact kept_recorded limits rd record (kept_multiplyInto limits overflow rd ra rb)
  | multiplyConstant rd => exact (limited_binary rfl).bind fun _ => kept_copy_gpr limits rd
  | multiplyHigh => exact kept_expandMultiplyHigh limits ..
  | divide => exact kept_expandDivide limits ..
  | logic => exact kept_expandLogic limits ..
  | logicConstant => exact kept_expandLogicConstant limits bitwise ..
  | move complemented ra rs record =>
    cases complemented with
    | true => exact (limited_binary rfl).bind fun _ => kept_deliver limits ra record
    | false => exact kept_deliver limits ra record
  | extend => exact kept_expandExtend limits ..
  | shift => exact kept_expandShift limits ..
  | shiftAlgebraic => exact kept_expandShiftAlgebraic limits ..
  | rotate => exact kept_expandRotate limits ..
  | compare => exact kept_expandCompare limits ..
  | load => exact kept_expandLoad limits ..
  | store => exact kept_expandStore limits ..
  | branch link target =>
    cases link with
    | true => exact (kept_copy_branch limits .link).bind fun _ => kept_leaveTo
    | false => exact kept_leaveTo
  | branchThrough => exact kept_expandBranchThrough limits ..
  | branchIf => exact (kept_flagNotIf _).bind fun _ => kept_leaveTo
  | branchCounted => exact kept_expandBranchCounted limits ..
  | moveTo register source => exact kept_copy_branch limits register
  | moveFrom register destination => exact kept_copy_gpr limits destination
  | nop => exact .write (lawful_of_idle nofun nofun) fun _ => .done trivial

end Expansions

end RegisterTransfer.PowerPC
