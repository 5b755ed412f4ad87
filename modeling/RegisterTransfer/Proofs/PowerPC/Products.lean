import RegisterTransfer.Proofs.PowerPC.Deliveries
import RegisterTransfer.Proofs.PowerPC.Terms

/-!
# Products

What multiplications do to the registers. The machine multiplies unsigned numbers only, so signed
factors are extended first; an exact product is lost if its low half, extended again, is another
number.

> `runs_signedProduct`: the exact signed product, twice as wide as its factors.
> `runs_multiplyChecked`: the low half of a product, and whether the product is lost.
> `lifted_product_multiplies`: the run of any lifted multiplication.
-/

namespace RegisterTransfer.PowerPC

open Script

/-! ## Multiplications -/

/-- A multiplication. -/
inductive Multiplication where
  | low (overflow record : Bool)
  /-- The low half of the product with an immediate. -/
  | immediate
  | high (signed record : Bool)
  deriving DecidableEq, Repr

/-- The exact product of two signed registers is no signed register. -/
def ProductOverflows (x y : Int) : Prop := x * y < -2 ^ 31 ∨ 2 ^ 31 ≤ x * y

instance (x y : Int) : Decidable (ProductOverflows x y) := inferInstanceAs (Decidable (_ ∨ _))

namespace Multiplication

/-- The spelling of a multiplication. -/
def mnemonic : Multiplication → String
  | low overflow record =>
    "mullw" ++ (if overflow then "o" else "") ++ (if record then "." else "")
  | immediate => "mulli"
  | high signed record => (if signed then "mulhw" else "mulhwu") ++ (if record then "." else "")

/-- The form that decodes a multiplication. -/
def form : Multiplication → Form
  | low overflow record => .multiplyLow overflow record
  | immediate => .multiplyConstant
  | high signed record => .multiplyHigh signed record

/-- The second factor, as it is written. -/
def second : Multiplication → Term
  | immediate => .immediate 1
  | low _ _ | high _ _ => .register 2

/-- Whether the overflow flags are set. -/
def overflows : Multiplication → Bool
  | low overflow _ => overflow
  | immediate | high _ _ => false

/-- Whether condition field 0 is set. -/
def records : Multiplication → Bool
  | low _ record | high _ record => record
  | immediate => false

/-- The number that a factor stands for. -/
def factor (k : Multiplication) (v : Nat) : Int :=
  match k with
  | high false _ => v
  | low _ _ | immediate | high true _ => registerWidth.toSigned v

/-- The half of the exact product of two factors that is wanted. -/
def result (k : Multiplication) (u v : Nat) : Nat :=
  match k with
  | high _ _ => registerWidth.ofInt (k.factor u * k.factor v / 2 ^ 32)
  | low _ _ | immediate => registerWidth.ofInt (k.factor u * k.factor v)

theorem result_lt (k : Multiplication) (u v : Nat) : k.result u v < 2 ^ 32 := by
  cases k <;> exact Width.ofInt_lt _ _

/-- What is delivered of the product of two factors. -/
def delivery (k : Multiplication) (rd : Gpr) (u v : Nat) : Delivery :=
  { target := rd
    result := k.result u v
    fits := k.result_lt u v
    overflow := if k.overflows then some (ProductOverflows (k.factor u) (k.factor v)) else none
    record := k.records }

/-- The summary flag is read where a flag is set that depends on it. -/
theorem needsSummary_iff (k : Multiplication) (rd : Gpr) (u v : Nat) :
    (k.delivery rd u v).NeedsSummary ↔ k.overflows ∨ k.records := by
  cases wanted : k.overflows <;> simp [Delivery.NeedsSummary, delivery, wanted]

/-- A multiplication is registered with its form. -/
theorem registered (k : Multiplication) : (k.mnemonic, k.form) ∈ forms := by
  have listed : (k.mnemonic, k.form) ∈ productForms := by
    rcases k with ⟨_ | _, _ | _⟩ | _ | ⟨_ | _, _ | _⟩ <;> decide
  simp only [forms, List.mem_append, listed, true_or, or_true]

end Multiplication

/-! ## Scripts -/

section Scripts

variable {x : Expansion} {m : Machine} {a b : Operand} {u v so : Nat} {rd ra rb : Gpr}

/-- The exact product of two signed numbers. -/
theorem runs_signedProduct (plain : m.cpu.Plain) (width : a.width = registerWidth)
    (width' : b.width = registerWidth) (first : m.Holds x.taken a u) (second : m.Holds x.taken b v) :
    (signedProduct a b).Runs x m (Computed x m .qword
      (Width.qword.ofInt (registerWidth.toSigned u * registerWidth.toSigned v))) := by
  apply (Runs.signExtend plain first .qword).bind
  rw [width]
  intro left X₁ m₁ extended
  apply (Runs.signExtend extended.plain (extended.toLeaves.holds second) .qword).bind
  rw [width']
  intro right X₂ m₂ extended'
  have fits : Opcode.mul.Fits left.width right.width left.width := by
    rw [extended.width, extended'.width]
    exact Width.not_lt_max_self _
  have product := Runs.binary extended'.plain rfl fits (extended'.toLeaves.holds extended.holds)
    extended'.holds rfl
  rw [extended.width, Width.truncate_oword_truncate, Width.truncate_ofInt_mul] at product
  exact product.mono fun product => (product.after extended'.toLeaves).after extended.toLeaves

/-- The exact product of two numbers. -/
theorem runs_exactProduct (plain : m.cpu.Plain) (signed record : Bool)
    (first : m.Holds x.taken (gprOperand ra) u) (second : m.Holds x.taken (gprOperand rb) v) :
    (exactProduct signed (gprOperand ra) (gprOperand rb)).Runs x m (Computed x m .qword
      (Width.qword.ofInt ((Multiplication.high signed record).factor u *
        (Multiplication.high signed record).factor v))) := by
  cases signed with
  | true => exact runs_signedProduct plain rfl rfl first second
  | false =>
    have hu : u < 2 ^ 32 := first.lt
    have hv : v < 2 ^ 32 := second.lt
    have lt : u * v < Width.qword.modulus :=
      Nat.lt_of_lt_of_le (Nat.mul_lt_mul'' hu hv) (by decide)
    have value : Width.qword.truncate (Width.oword.truncate (u * v)) =
        Width.qword.ofInt ((u : Int) * v) := by
      rw [Width.truncate_oword_truncate, Width.truncate_of_lt lt, ← Int.natCast_mul,
        Width.ofInt_natCast lt]
    have fits : ¬ Width.qword < max registerWidth registerWidth := by decide
    exact value ▸ Runs.computed plain (.combine rfl fits first second rfl)

/-- The low half of a product, whichever way its factors are read. -/
theorem runs_lowProduct (plain : m.cpu.Plain) (width : b.width = registerWidth)
    (first : m.Holds x.taken (gprOperand ra) u) (second : m.Holds x.taken b v) :
    (binary .mul (gprOperand ra) b).Runs x m (Computed x m registerWidth
      (registerWidth.ofInt (registerWidth.toSigned u * registerWidth.toSigned v))) := by
  have fits : Opcode.mul.Fits (gprOperand ra).width b.width (gprOperand ra).width := by
    rw [width]
    exact Width.not_lt_max_self _
  have value : registerWidth.truncate (Width.oword.truncate (u * v)) =
      registerWidth.ofInt (registerWidth.toSigned u * registerWidth.toSigned v) := by
    rw [Width.truncate_oword_truncate, Width.truncate_mul]
  exact value ▸ Runs.binary plain rfl fits first second rfl

/-- An exact product is the extension of its low half exactly if it is a signed register. -/
theorem lowHalf_extends_iff (u v : Nat) :
    Width.qword.ofInt (registerWidth.toSigned (registerWidth.ofInt
        (registerWidth.toSigned u * registerWidth.toSigned v))) =
      Width.qword.ofInt (registerWidth.toSigned u * registerWidth.toSigned v) ↔
      ¬ ProductOverflows (registerWidth.toSigned u) (registerWidth.toSigned v) := by
  have size := registerWidth.natAbs_mul_le u v
  have square : registerWidth.signBit * registerWidth.signBit = 2 ^ 62 := by decide
  have half : (Width.qword.signBit : Int) = 2 ^ 63 := by decide
  have half' : (registerWidth.signBit : Int) = 2 ^ 31 := by decide
  rw [square] at size
  rw [Width.ofInt_toSigned_eq_iff (by decide) (by omega) (by omega), ProductOverflows, half']
  omega

/-- The low half of a product, and the overflow flags. -/
theorem runs_multiplyChecked (processor : m.cpu = cpu) (record : Bool)
    (first : m.Holds x.taken (gprOperand ra) u) (second : m.Holds x.taken (gprOperand rb) v)
    (summary : m.Holds x.taken StatusBit.summary.operand so) :
    (expandMultiplyLow rd ra rb true record).Runs x m fun _ =>
      Leaves x (m.delivered ((Multiplication.low true record).delivery rd u v) so) := by
  let d : Delivery := (Multiplication.low true record).delivery rd u v
  simp only [expandMultiplyLow, multiplyInto, multiplyChecked, if_true, bind_assoc]
  apply (runs_signedProduct (plain_of_cpu processor) rfl rfl first second).bind
  intro whole X₁ m₁ product
  apply Runs.computing product.plain (.copy product.holds)
  intro low X₂ m₂ half
  rw [Width.truncate_ofInt_of_le (by decide)] at half
  -- the low half is extended again and compared
  apply (Runs.signExtend half.plain half.holds .qword).bind
  rw [half.width]
  intro back X₃ m₃ extended
  have product₃ := extended.toLeaves.holds (half.toLeaves.holds product.holds)
  apply (Runs.equal extended.plain (extended.width.trans product.width.symm) extended.holds
    product₃).bind
  intro fits X₄ m₄ same
  rw [flag_congr (lowHalf_extends_iff u v)] at same
  apply (Runs.flagNot same.plain same.holds).bind
  intro lost X₅ m₅ overflow
  have behind := (extended.toLeaves.trans same.toLeaves).trans overflow.toLeaves
  have left := (product.toLeaves.trans half.toLeaves).trans behind
  have processor₅ : m₅.cpu = cpu := left.keeps.cpu.trans processor
  have moves := (runs_gpr processor₅ rd (behind.holds half.holds)).mono And.left
  have lost_iff : ¬¬ ProductOverflows (registerWidth.toSigned u) (registerWidth.toSigned v) ↔
      d.overflow = some true := by
    rw [Decidable.not_not]
    exact (decide_eq_true_iff.symm.trans (Option.some.injEq _ _).symm.to_iff)
  have lost₅ := overflow.holds
  rw [flag_congr lost_iff] at lost₅
  have ends := runs_delivery (d := d) left processor moves .unwanted
    (.wanted lost₅ overflow.hidden) fun _ => summary
  simp only [withOperand, pure_bind] at ends
  exact ends

/-- The low half of a product with a register or an immediate. -/
theorem runs_multiplyUnchecked (processor : m.cpu = cpu) (width : b.width = registerWidth)
    (first : m.Holds x.taken (gprOperand ra) u) (second : m.Holds x.taken b v) (record : Bool)
    (summary : record → m.Holds x.taken StatusBit.summary.operand so) :
    (binary .mul (gprOperand ra) b >>= fun low => deliver low rd record).Runs x m fun _ =>
      Leaves x (m.delivered ((Multiplication.low false record).delivery rd u v) so) := by
  apply (runs_lowProduct (plain_of_cpu processor) width first second).bind
  intro low X₁ m₁ product
  exact runs_deliver product.toLeaves processor product.holds rd _ record summary

/-- The high half of a product. -/
theorem runs_expandMultiplyHigh (processor : m.cpu = cpu) (signed record : Bool)
    (first : m.Holds x.taken (gprOperand ra) u) (second : m.Holds x.taken (gprOperand rb) v)
    (summary : record → m.Holds x.taken StatusBit.summary.operand so) :
    (expandMultiplyHigh signed rd ra rb record).Runs x m fun _ =>
      Leaves x (m.delivered ((Multiplication.high signed record).delivery rd u v) so) := by
  let k : Multiplication := .high signed record
  apply (runs_exactProduct (plain_of_cpu processor) signed record first second).bind
  intro whole X₁ m₁ product
  have high : Width.qword.ofInt (k.factor u * k.factor v) / 2 ^ 32 =
      registerWidth.ofInt (k.factor u * k.factor v / 2 ^ 32) := by
    have lt : Width.qword.ofInt (k.factor u * k.factor v) / 2 ^ 32 < registerWidth.modulus :=
      Nat.div_lt_of_lt_mul (Width.ofInt_lt ..)
    have room : 32 + registerWidth.bits ≤ Width.qword.bits := by decide
    rw [← Width.truncate_ofInt_div room, Width.truncate_of_lt lt]
  have shifts := computes_shift product.holds (k := 32) (by decide) (by decide)
    (show 32 ≤ Width.qword.signBit by decide) registerWidth
  have moves := runs_assign product.plain (gprName rd) shifts
  rw [high] at moves
  have ends := runs_delivery (d := k.delivery rd u v) product.toLeaves processor moves .unwanted .unwanted
    fun needed => summary (needed.resolve_left nofun)
  simp only [withOperand, pure_bind] at ends
  exact ends

end Scripts

/-! ## Decoding -/

/-- The operation that a multiplication of two sources is decoded to. -/
inductive Multiplication.Decodes : Multiplication → Gpr → Gpr → Source → Operation → Prop
  | low {overflow record rd ra rb} : Decodes (.low overflow record) rd ra (.register rb)
    (.multiplyLow rd ra rb overflow record)
  | immediate {rd ra value} : Decodes .immediate rd ra (.constant value)
    (.multiplyConstant rd ra value)
  | high {signed record rd ra rb} : Decodes (.high signed record) rd ra (.register rb)
    (.multiplyHigh signed rd ra rb record)

/--
A multiplication that is read has its destination, its first factor and its second in this order.
-/
theorem Multiplication.decoded {k : Multiplication} {n : NativeInstruction} {operation : Operation}
    (h : k.form.decode cpu.catalog.widthOf n = .ok operation) :
    ∃ rd ra b, gprAt cpu.catalog.widthOf n 0 = .ok rd ∧ gprAt cpu.catalog.widthOf n 1 = .ok ra ∧
      k.second.Becomes n b.operand ∧ k.Decodes rd ra b operation := by
  simp only [Form.decode, Except.bind_eq_ok] at h
  obtain ⟨_, -, h⟩ := h
  cases k with
  | low overflow record =>
    simp only [form, Form.read, Except.bind_eq_ok] at h
    obtain ⟨rd, target, ra, left, rb, right, e⟩ := h
    cases e
    exact ⟨rd, ra, .register rb, target, left, .register right, .low⟩
  | immediate =>
    simp only [form, Form.read, Except.bind_eq_ok] at h
    obtain ⟨rd, target, ra, left, value, right, e⟩ := h
    cases e
    exact ⟨rd, ra, .constant value, target, left, becomes_of_immediateAt right, .immediate⟩
  | high signed record =>
    simp only [form, Form.read, Except.bind_eq_ok] at h
    obtain ⟨rd, target, ra, left, rb, right, e⟩ := h
    cases e
    exact ⟨rd, ra, .register rb, target, left, .register right, .high⟩

/-- The script of a multiplication delivers what it should. -/
theorem Multiplication.Decodes.runs {k : Multiplication} {rd ra : Gpr} {b : Source}
    {operation : Operation} (h : k.Decodes rd ra b operation) {x : Expansion} {m : Machine}
    {u v so : Nat} (processor : m.cpu = cpu) (first : m.Holds x.taken (gprOperand ra) u)
    (second : m.Holds x.taken b.operand v)
    (summary : k.overflows ∨ k.records → m.Holds x.taken StatusBit.summary.operand so)
    (mnemonic : String) (address : Nat) :
    (operation.expand mnemonic address).Runs x m fun _ =>
      Leaves x (m.delivered (k.delivery rd u v) so) := by
  cases h with
  | @low overflow record =>
    cases overflow with
    | true => exact runs_multiplyChecked processor record first second (summary (.inl rfl))
    | false =>
      exact runs_multiplyUnchecked processor rfl first second record fun wanted =>
        summary (.inr wanted)
  | immediate => exact runs_multiplyUnchecked processor rfl first second false nofun
  | @high signed record =>
    exact runs_expandMultiplyHigh processor signed record first second fun wanted =>
      summary (.inr wanted)

/-! ## Runs -/

/--
The run of a lifted multiplication ends well and delivers the wanted half of the exact product of
its factors, and whether the product is lost where the spelling records it; everything else is as it
was.
-/
theorem lifted_product_multiplies (k : Multiplication) {n : NativeInstruction}
    (named : n.mnemonic = k.mnemonic) {p : Program} (lifted : lift [n] = .ok p) {m : Machine}
    (processor : m.cpu = cpu) (limit : m.settings.stepLimit = none)
    (sources : ∀ r, (Term.register 1).Reads n r ∨ k.second.Reads n r →
      ∃ v, m.value? (gprName r) = some v)
    (summary : k.overflows ∨ k.records → ∃ so, m.value? summaryFlag = some so) :
    ∃ rd u v turns, gprAt cpu.catalog.widthOf n 0 = .ok rd ∧
      (Term.register 1).Denotes n m u ∧ k.second.Denotes n m v ∧
      (m.interpret .silent p turns (.ofNative n.address) ()).progress = .finished ∧
      (k.delivery rd u v).Outcome m
        (m.interpret .silent p turns (.ofNative n.address) ()).machine := by
  obtain ⟨count, operation, ⟨form, registered, decoded⟩, run⟩ := interpret_delivers lifted
  obtain rfl := form_unique (named ▸ registered) k.registered
  obtain ⟨rd, ra, b, target, left, right, decodes⟩ := Multiplication.decoded decoded
  have first : (Term.register 1).Becomes n (gprOperand ra) := .register left
  obtain ⟨u, denotes, holds⟩ := first.denotes processor fun r reads => sources r (.inl reads)
  obtain ⟨v, denotes', holds'⟩ := right.denotes processor fun r reads => sources r (.inr reads)
  have begun := Machine.keeps_begun (plain_of_cpu processor) count
  have processor' : m.begun.cpu = cpu := processor
  have needs := k.needsSummary_iff rd u v
  obtain ⟨turns, ends, outcome⟩ := run processor limit (fun needed => summary (needs.1 needed))
    fun so held => decodes.runs processor' ((holds count).keep begun (Nat.le_refl _))
      ((holds' count).keep begun (Nat.le_refl _)) (fun needed => held (needs.2 needed)) _ _
  exact ⟨rd, u, v, turns, target, denotes, denotes', ends, outcome⟩

/-- A multiplication into both of its factors. -/
def squareOfRegister : NativeInstruction :=
  ⟨0x100, "mullwo.", [.sized .dword (.register "%r3"), .sized .dword (.register "%r3"),
    .sized .dword (.register "%r3")]⟩

/-- A machine with `2 ^ 16 + 1` in `%r3`. -/
def beforeSquare : Machine :=
  ((Machine.start {} cpu).setGpr 3 0x10001).setStatus .summary 0

/-- The square does not fit, and its low half takes the place of the factors. -/
theorem squareOfRegister_multiplies :
    ∃ p, lift [squareOfRegister] = .ok p ∧ ∃ turns,
      let run := beforeSquare.interpret .silent p turns (.ofNative 0x100) ()
      run.progress = .finished ∧
        run.machine.register? (gprName 3) = some ⟨0x20001, .dword, .defined⟩ ∧
        run.machine.register? overflowFlag = some ⟨1, .byte, .defined⟩ ∧
        run.machine.register? (conditionBitName 0 .gt) = some ⟨1, .byte, .defined⟩ := by
  let k : Multiplication := .low true true
  have expands : Expands 0 squareOfRegister (.multiplyLow 3 3 3 true true) _ _ :=
    ⟨⟨k.form, k.registered, rfl⟩, rfl, rfl⟩
  obtain ⟨p, lifted, -⟩ := expands.lift_alone
  have operand : ∀ i < 3, gprAt cpu.catalog.widthOf squareOfRegister i = .ok 3 := by decide
  have value : beforeSquare.value? (gprName 3) = some 0x10001 := rfl
  have clear : beforeSquare.value? summaryFlag = some 0 := rfl
  have sources : ∀ r, (Term.register 1).Reads squareOfRegister r ∨ k.second.Reads squareOfRegister r →
      ∃ v, beforeSquare.value? (gprName r) = some v := by
    intro r found
    rcases found with reads | reads
    · obtain rfl := Except.ok.inj ((operand 1 (by decide)).symm.trans reads)
      exact ⟨_, value⟩
    · obtain rfl := Except.ok.inj ((operand 2 (by decide)).symm.trans reads)
      exact ⟨_, value⟩
  obtain ⟨rd, u, v, turns, target, left, right, ends, outcome⟩ :=
    lifted_product_multiplies k rfl lifted (m := beforeSquare) rfl rfl sources fun _ => ⟨0, clear⟩
  obtain rfl := Except.ok.inj ((operand 0 (by decide)).symm.trans target)
  have factor : ∀ {i w}, i < 3 → (Term.register i).Denotes squareOfRegister beforeSquare w →
      w = 0x10001 := by
    intro i w lt denotes
    rcases denotes with ⟨written, known⟩
    obtain rfl := Except.ok.inj ((operand i lt).symm.trans written)
    obtain rfl := Option.some.inj (value.symm.trans known)
    rfl
  obtain rfl := factor (by decide) left
  obtain rfl := factor (by decide) right
  exact ⟨p, lifted, turns, ends, outcome.result.trans (by decide +kernel),
    (outcome.overflow true rfl).1, (outcome.record rfl).greater.trans (by decide +kernel)⟩

end RegisterTransfer.PowerPC
