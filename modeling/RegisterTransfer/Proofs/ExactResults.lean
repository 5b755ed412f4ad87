import RegisterTransfer.Proofs.Arithmetic
import RegisterTransfer.Proofs.Registers
import RegisterTransfer.Proofs.Twins

/-!
# Exact results

The machine computes within 128 bits, and shifts by 128 or more are cut short. None of this shows:
what a computing instruction leaves in its destination is the result in whole numbers, reduced once,
to the width of the destination.

> `Machine.source_eq_ok_iff`: what the sources of an instruction are worth.
> `checkWidths_eq_error_iff`: which widths clash.
> `shiftValue_exact`: a shift, however far, is a product or a quotient.
> `results_are_exact`: how an instruction that computes can fail, and what it leaves if it does not.
-/

namespace RegisterTransfer

/-! ## What is to be computed -/

/--
What an operand is worth to an instruction that reads it: the low bits, as many as the operand has,
of a literal or of a defined register. Where reads of undefined registers are tolerated, these are
worth nothing.
-/
inductive Machine.Reads (m : Machine) : Operand → Nat → Prop
  | integer (v : Nat) (w : Width) : Reads m ⟨.integer v, w⟩ (v % 2 ^ w.bits)
  | defined {name : String} {r : RegisterValue} (found : m.register? name = some r)
    (status : r.status = .defined) (w : Width) :
    Reads m (.register name w) (r.value % 2 ^ w.bits)
  | lacking {name : String} (tolerant : m.settings.undefinedReads = .zero)
    (nothing : ∀ r, m.register? name = some r → r.status = .undefined) (w : Width) :
    Reads m (.register name w) 0

/-- A number shifted to the left, or to the right if the distance is negative. No bit on the left is
lost. -/
def exactShift (a : Nat) (s : Int) : Int :=
  if 0 ≤ s then a * 2 ^ s.toNat else a / 2 ^ (-s).toNat

/--
The whole number that an opcode makes of two sources. The width is that of the second source, which
a shift reads as two's complement.
-/
def Opcode.exact (opcode : Opcode) (w : Width) (a b : Nat) : Int :=
  match opcode with
  | .add => a + b
  | .sub => a - b
  | .mul => a * b
  | .div => a / b
  | .mod => a % b
  | .bsh => exactShift a (if b < 2 ^ (w.bits - 1) then b else b - 2 ^ w.bits)
  | .and => (a &&& b : Nat)
  | .or => (a ||| b : Nat)
  | .xor => (a ^^^ b : Nat)
  | .bisz => if a = 0 then 1 else 0
  | _ => a

/-- The clashes of the widths of an instruction. -/
inductive Instruction.Clashes (i : Instruction) : WidthClash → Prop
  | narrow (opcode : i.opcode = .add ∨ i.opcode = .sub ∨ i.opcode = .mul)
    (narrower : i.op3.width.bits < i.op1.width.bits ∨ i.op3.width.bits < i.op2.width.bits) :
    Clashes i (.narrowDestination i.opcode i.op3.width (max i.op1.width i.op2.width))
  | unequal (opcode : i.opcode = .and ∨ i.opcode = .or ∨ i.opcode = .xor)
    (differ : i.op1.width ≠ i.op2.width) :
    Clashes i (.unequalSources i.opcode i.op1.width i.op2.width)

/-- The faults of an instruction that can read its sources, of which the second is worth `b`. -/
inductive Instruction.FailsOn (i : Instruction) (b : Nat) : Fault Address → Prop
  | widths {clash : WidthClash} (h : i.Clashes clash) : FailsOn i b (.widthClash i.address clash)
  | zero (opcode : i.opcode = .div ∨ i.opcode = .mod) (nothing : b = 0) :
    FailsOn i b (.divisionByZero i.address)

/-! ## Sources and widths -/

theorem Width.truncate_eq_mod (w : Width) (v : Nat) : w.truncate v = v % 2 ^ w.bits := by
  rw [truncate, modulus_eq_two_pow]

theorem Width.ofInt_eq (w : Width) (i : Int) : w.ofInt i = (i % 2 ^ w.bits).toNat := by
  rw [ofInt, modulus_eq_two_pow]
  norm_cast

/-- A register has a value if it is defined, whatever width it was stored with. -/
theorem Machine.value?_eq_some_iff {m : Machine} {name : String} {v : Nat} :
    m.value? name = some v ↔ ∃ r, m.register? name = some r ∧ r.status = .defined ∧ r.value = v := by
  unfold value? RegisterValue.isDefined
  cases m.register? name with
  | none => simp
  | some r => simp [Option.filter, and_comm]

/-- A register has no value if it is undefined or was never written. -/
theorem Machine.value?_eq_none_iff {m : Machine} {name : String} :
    m.value? name = none ↔ ∀ r, m.register? name = some r → r.status = .undefined := by
  unfold value? RegisterValue.isDefined
  cases m.register? name with
  | none => simp
  | some r => cases status : r.status <;> simp [Option.filter, status]

/-- What the sources of an instruction are worth. -/
theorem Machine.source_eq_ok_iff {m : Machine} {place : Address} {o : Operand} {v : Nat} :
    m.source place o = .ok v ↔ m.Reads o v := by
  obtain ⟨kind, w⟩ := o
  constructor
  · intro h
    cases kind with
    | integer u =>
      cases h
      rw [Width.truncate_eq_mod]
      exact .integer u w
    | register name =>
      simp only [source] at h
      split at h
      · next u held =>
        cases h
        obtain ⟨r, found, status, rfl⟩ := value?_eq_some_iff.1 held
        rw [Width.truncate_eq_mod]
        exact .defined found status w
      · next nothing =>
        split at h
        · cases h
        · next tolerant =>
          cases h
          exact .lacking tolerant (value?_eq_none_iff.1 nothing) w
    | absent | address t => cases h
  · intro h
    cases h with
    | integer u => simp only [source, Width.truncate_eq_mod]
    | @defined name r found status =>
      have held := value?_eq_some_iff.2 ⟨r, found, status, rfl⟩
      simp only [source, held, Width.truncate_eq_mod]
    | @lacking name tolerant nothing =>
      have lacks := value?_eq_none_iff.2 nothing
      simp only [source, lacks, tolerant]

/-- A width is below the greater of two if it is narrower than one of them. -/
theorem Width.lt_max_iff {a b c : Width} : c < max a b ↔ c.bits < a.bits ∨ c.bits < b.bits := by
  cases a <;> cases b <;> cases c <;> decide

/-- Which widths clash. -/
theorem checkWidths_eq_error_iff {i : Instruction} {f : Fault Address} :
    i.checkWidths = .error f ↔ ∃ clash, i.Clashes clash ∧ f = .widthClash i.address clash := by
  constructor
  · intro h
    cases e : i.opcode with
    | add | sub | mul =>
      simp only [Instruction.checkWidths, e] at h
      split at h
      · next below =>
        cases h
        exact ⟨_, .narrow (by simp [e]) (Width.lt_max_iff.1 below), by rw [e]⟩
      · cases h
    | and | or | xor =>
      simp only [Instruction.checkWidths, e] at h
      split at h
      · cases h
      · next differ =>
        cases h
        exact ⟨_, .unequal (by simp [e]) differ, by rw [e]⟩
    | div | mod | bsh | bisz | jcc | ldm | stm | str | nop | undef | unkn | halt =>
      simp only [Instruction.checkWidths, e] at h
      cases h
  · rintro ⟨clash, clashes, rfl⟩
    cases clashes with
    | narrow opcode narrower =>
      have below := Width.lt_max_iff.2 narrower
      rcases opcode with e | e | e <;> simp only [Instruction.checkWidths, e, if_pos below]
    | unequal opcode differ =>
      rcases opcode with e | e | e <;> simp only [Instruction.checkWidths, e, if_neg differ]

/-- Only divisions fail for want of a value, and only by zero. -/
theorem Opcode.combine_eq_none_iff {opcode : Opcode} {w : Width} {a b : Nat} :
    opcode.combine w a b = none ↔ (opcode = .div ∨ opcode = .mod) ∧ b = 0 := by
  cases opcode <;> simp [combine]

/-! ## Results -/

theorem Width.ofInt_cast (w : Width) (v : Nat) : w.ofInt v = w.truncate v := by
  have same : (w.ofInt v : Int) = (w.truncate v : Int) := by
    rw [natCast_ofInt, truncate, Int.natCast_emod]
  exact Int.ofNat.inj same

/-- A shift, however far, is a product or a quotient: what falls off the 128 bits is a multiple of
every modulus, and what falls off at the low end is all there was. -/
theorem shiftValue_exact (w : Width) {a : Nat} (ha : a < 2 ^ 128) (s : Int) :
    w.truncate (shiftValue a s) = w.ofInt (exactShift a s) := by
  have room := w.bits_le
  by_cases left : 0 ≤ s
  · obtain ⟨k, rfl⟩ := Int.eq_ofNat_of_zero_le left
    have product : exactShift a k = (a * 2 ^ k : Nat) := by
      rw [exactShift, if_pos left, Int.toNat_natCast]
      norm_cast
    rw [product, Width.ofInt_cast]
    by_cases near : k < 128
    · rw [shiftValue_natCast near, Width.truncate_oword_truncate]
    · have nothing : shiftValue a k = 0 := by
        rw [shiftValue, Int.natAbs_natCast, if_pos (by omega)]
      -- all that would be left has been shifted out at the top
      have multiple : 2 ^ w.bits ∣ a * 2 ^ k :=
        Nat.dvd_mul_left_of_dvd (Nat.pow_dvd_pow 2 (by omega)) a
      rw [nothing, Width.truncate_eq_mod, Width.truncate_eq_mod, Nat.zero_mod,
        Nat.mod_eq_zero_of_dvd multiple]
  · obtain ⟨k, rfl⟩ : ∃ k : Nat, s = -k := ⟨s.natAbs, by omega⟩
    have quotient : exactShift a (-k) = (a / 2 ^ k : Nat) := by
      rw [exactShift, if_neg left, Int.neg_neg, Int.toNat_natCast]
      norm_cast
    rw [quotient, Width.ofInt_cast]
    by_cases near : k < 128
    · rw [shiftValue_neg (by omega) near]
    · have nothing : shiftValue a (-k) = 0 := by
        rw [shiftValue, Int.natAbs_neg, Int.natAbs_natCast, if_pos (by omega)]
      -- all there is has been shifted out at the bottom
      have small : a < 2 ^ k := Nat.lt_of_lt_of_le ha (Nat.pow_le_pow_right (by omega) (by omega))
      rw [nothing, Nat.div_eq_of_lt small]

/-- The value of an operation keeps the low bits of its exact result. -/
theorem Opcode.truncate_combine {opcode : Opcode} (combines : opcode.combines) {w : Width}
    {a b v : Nat} (ha : a < 2 ^ 128) (hb : b < w.modulus) (h : opcode.combine w a b = some v)
    (target : Width) : target.truncate v = target.ofInt (opcode.exact w a b) := by
  cases opcode with
  | add | mul =>
    cases h
    rw [Width.truncate_oword_truncate, ← Width.ofInt_cast]
    norm_cast
  | sub =>
    cases h
    rw [Width.truncate_oword_ofInt]
    rfl
  | div | mod =>
    simp only [combine] at h
    split at h
    · cases h
    · cases h
      rw [← Width.ofInt_cast]
      norm_cast
  | bsh =>
    cases h
    have distance : w.toSigned b = if b < 2 ^ (w.bits - 1) then (b : Int) else b - 2 ^ w.bits := by
      rw [← Width.signBit_eq_two_pow]
      split
      · next lt => exact Width.toSigned_of_lt lt
      · next le =>
        rw [Width.toSigned_of_le (by omega) hb, Width.modulus_eq_two_pow]
        norm_cast
    rw [shiftValue_exact target ha, distance]
    rfl
  | and | or | xor =>
    cases h
    exact (Width.ofInt_cast target _).symm
  | bisz | jcc | ldm | stm | str | nop | undef | unkn | halt => cases combines

namespace Machine

variable {m : Machine} {p : Program} {i : Instruction} {name : String} {a b : Nat}

/-- What an operand is worth fits the operand. -/
theorem Reads.lt {o : Operand} {v : Nat} (h : m.Reads o v) : v < o.width.modulus := by
  have pos := o.width.modulus_pos
  rw [Width.modulus_eq_two_pow] at *
  cases h with
  | integer | defined => exact Nat.mod_lt _ pos
  | lacking => exact pos

/-- An opcode of two sources writes what it makes of them, or fails as they do. -/
theorem execute_of_combines (combines : i.opcode.combines) (m : Machine) (p : Program) :
    m.execute p i = m.assignResult i (m.combine i) := by
  unfold execute
  cases e : i.opcode with
  | add | sub | mul | div | mod | bsh | and | or | xor => rfl
  | bisz | jcc | ldm | stm | str | nop | undef | unkn | halt =>
    rw [e] at combines
    cases combines

/-- Once the widths fit and the sources are read, only the operation itself can fail. -/
theorem combine_of_reads (fits : i.checkWidths = .ok ()) (first : m.Reads i.op1 a)
    (second : m.Reads i.op2 b) :
    m.combine i = (match i.opcode.combine i.op2.width a b with
      | some v => .ok v
      | none => .error (.divisionByZero i.address)) := by
  rw [combine, fits, source_eq_ok_iff.2 first, source_eq_ok_iff.2 second]
  simp only [bind, Except.bind]
  cases i.opcode.combine i.op2.width a b <;> rfl

/-- A register that is no alias holds what an instruction assigns to it. -/
theorem register?_assignResult (destination : i.op3.kind = .register name)
    (whole : m.cpu.catalog.alias? name = none) (v : Nat) :
    (m.assignResult i (.ok v)).1 = .ok .next ∧
      (m.assignResult i (.ok v)).2.register? name =
        some ⟨i.op3.width.truncate v, i.op3.width, .defined⟩ := by
  rw [assignResult, assign, destination_eq destination]
  exact ⟨rfl, RegisterFile.read_write_self whole _ _ _ _⟩

end Machine

/-- The opcodes that leave a result of their sources in a register. -/
def Opcode.Results (opcode : Opcode) : Prop :=
  opcode.combines ∨ opcode = .bisz ∨ opcode = .str

section Failures

variable {i : Instruction} {b : Nat} {f f' : Fault Address}

/-- Only opcodes of two sources fail because of their values. -/
theorem Instruction.FailsOn.combines (h : i.FailsOn b f) : i.opcode.combines := by
  cases h with
  | widths clashes =>
    cases clashes with
    | narrow opcode | unequal opcode => rcases opcode with e | e | e <;> rw [e] <;> rfl
  | zero opcode => rcases opcode with e | e <;> rw [e] <;> rfl

/-- No instruction can fail in two ways. -/
theorem Instruction.FailsOn.unique (h : i.FailsOn b f) (h' : i.FailsOn b f') : f = f' := by
  have apart : ∀ {clash}, i.Clashes clash → ¬ (i.opcode = .div ∨ i.opcode = .mod) := by
    intro clash clashes divides
    cases clashes with
    | narrow opcode | unequal opcode =>
      rcases divides with d | d <;> rcases opcode with e | e | e <;> rw [d] at e <;> cases e
  cases h with
  | widths clashes =>
    cases h' with
    | widths clashes' =>
      have fails := checkWidths_eq_error_iff.2 ⟨_, clashes, rfl⟩
      have fails' := checkWidths_eq_error_iff.2 ⟨_, clashes', rfl⟩
      exact Except.error.inj (fails.symm.trans fails')
    | zero divides => exact absurd divides (apart clashes)
  | zero divides =>
    cases h' with
    | widths clashes' => exact absurd divides (apart clashes')
    | zero => rfl

end Failures

/-- An instruction that computes fails, or assigns a value with the low bits of the exact result. -/
theorem Machine.execute_of_reads (m : Machine) (p : Program) (i : Instruction) {a b : Nat}
    (results : i.opcode.Results) (first : m.Reads i.op1 a)
    (second : i.opcode.combines → m.Reads i.op2 b) :
    (∃ f, i.FailsOn b f ∧ m.execute p i = (.error f, m)) ∨
      (∀ f, ¬ i.FailsOn b f) ∧ ∃ v, m.execute p i = m.assignResult i (.ok v) ∧
        i.op3.width.truncate v = i.op3.width.ofInt (i.opcode.exact i.op2.width a b) := by
  by_cases combines : i.opcode.combines
  · rw [execute_of_combines combines]
    cases fits : i.checkWidths with
    | error f =>
      obtain ⟨clash, clashes, rfl⟩ := checkWidths_eq_error_iff.1 fits
      refine .inl ⟨_, .widths clashes, ?_⟩
      rw [combine, fits]
      rfl
    | ok =>
      rw [combine_of_reads fits first (second combines)]
      have unclashed : ∀ clash, ¬ i.Clashes clash := by
        intro clash clashes
        rw [checkWidths_eq_error_iff.2 ⟨_, clashes, rfl⟩] at fits
        cases fits
      cases found : i.opcode.combine i.op2.width a b with
      | none =>
        obtain ⟨divides, zero⟩ := Opcode.combine_eq_none_iff.1 found
        exact .inl ⟨_, .zero divides zero, rfl⟩
      | some v =>
        refine .inr ⟨fun f fails => ?_, v, rfl, ?_⟩
        · cases fails with
          | widths clashes => exact unclashed _ clashes
          | zero divides zero =>
            rw [Opcode.combine_eq_none_iff.2 ⟨divides, zero⟩] at found
            cases found
        -- values are read at a width, so that they are below what a shift takes
        · have small : a < 2 ^ 128 :=
            Nat.lt_of_lt_of_le first.lt (by
              rw [Width.modulus_eq_two_pow]
              exact Nat.pow_le_pow_right (by omega) i.op1.width.bits_le)
          exact Opcode.truncate_combine combines small (second combines).lt found _
  · refine .inr ⟨fun f fails => combines fails.combines, ?_⟩
    have read : m.source i.address i.op1 = .ok a := source_eq_ok_iff.2 first
    rcases results with h | e | e
    · exact absurd h combines
    · refine ⟨if a = 0 then 1 else 0, ?_, ?_⟩
      · simp only [execute, e, read, Except.map]
      · rw [e, Opcode.exact, ← Width.ofInt_cast]
        split <;> rfl
    · refine ⟨a, ?_, ?_⟩
      · simp only [execute, e, read]
      · rw [e]
        exact (Width.ofInt_cast _ _).symm

/--
Let an instruction that computes have sources that can be read, and a destination that is no alias.
It fails exactly if its widths clash, or if it divides by zero. Otherwise the destination is defined,
has the width that the instruction gives it, and holds the exact result modulo a power of two.
-/
theorem results_are_exact (m : Machine) (p : Program) (i : Instruction) {name : String} {a b : Nat}
    (results : i.opcode.Results) (destination : i.op3.kind = .register name)
    (whole : m.cpu.catalog.alias? name = none) (first : m.Reads i.op1 a)
    (second : i.opcode.combines → m.Reads i.op2 b) :
    (∀ f, (m.execute p i).1 = .error f ↔ i.FailsOn b f) ∧
      ((∀ f, ¬ i.FailsOn b f) →
        (m.execute p i).1 = .ok .next ∧
          (m.execute p i).2.register? name =
            some ⟨(i.opcode.exact i.op2.width a b % 2 ^ i.op3.width.bits).toNat, i.op3.width,
              .defined⟩) := by
  rcases m.execute_of_reads p i results first second with
    ⟨f, fails, executed⟩ | ⟨sound, v, executed, low⟩
  · rw [executed]
    refine ⟨fun f' => ⟨fun e => ?_, fun fails' => ?_⟩, fun sound => absurd fails (sound f)⟩
    · cases e
      exact fails
    · rw [fails.unique fails']
  · obtain ⟨onward, held⟩ := Machine.register?_assignResult destination whole v
    rw [executed]
    refine ⟨fun f => ⟨fun e => ?_, fun fails => absurd fails (sound f)⟩, fun _ => ⟨onward, ?_⟩⟩
    · rw [onward] at e
      cases e
    · rw [held, low, Width.ofInt_eq]

/-- A shift of the low byte of a register by -2, given as a literal that is too wide for its byte. -/
def quarterOfLowByte : Instruction :=
  ⟨⟨0x100, 0⟩, .bsh, .register "r3" .byte, ⟨.integer 0x1FE, .byte⟩, .register "r4" .word, none⟩

/-- The sources are cut down to a byte each, and the distance is negative. -/
theorem quarterOfLowByte_is_exact :
    let m := (Machine.start {} PowerPC.cpu).setRegister "r3" 0x12FF .word .defined
    (m.execute .empty quarterOfLowByte).1 = .ok .next ∧
      (m.execute .empty quarterOfLowByte).2.register? "r4" = some ⟨0x3F, .word, .defined⟩ := by
  intro m
  have found : m.register? "r3" = some ⟨0x12FF, .word, .defined⟩ :=
    RegisterFile.read_write_self (PowerPC.alias?_cpu "r3") _ _ _ _
  have first : m.Reads quarterOfLowByte.op1 0xFF := .defined found rfl .byte
  have second : m.Reads quarterOfLowByte.op2 0xFE := .integer 0x1FE .byte
  have sound : ∀ f, ¬ quarterOfLowByte.FailsOn 0xFE f := by
    intro f fails
    cases fails with
    | widths clashes => cases clashes <;> simp_all [quarterOfLowByte]
    | zero divides => simp [quarterOfLowByte] at divides
  exact (results_are_exact m .empty quarterOfLowByte (.inl rfl) rfl (PowerPC.alias?_cpu "r4") first
    fun _ => second).2 sound

end RegisterTransfer
