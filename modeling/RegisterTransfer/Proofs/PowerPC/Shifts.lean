import RegisterTransfer.Proofs.PowerPC.Deliveries
import RegisterTransfer.Proofs.PowerPC.Terms

/-!
# Shifts and rotations

What shifts and rotations do to the registers. The machine shifts by signed amounts, to the left if
they are positive, and brings in zeros; so a right shift negates its amount, an arithmetic one works
on a sign extension, and a rotation joins two shifts.

> `rotationMask_eq`: the mask of a rotation selects the bits between its bounds.
> `runs_expandShiftAlgebraic`: shifting back tells whether one bits were lost.
> `lifted_shift_shifts`: the run of any lifted shift or rotation.
-/

namespace RegisterTransfer.PowerPC

open Script

/-! ## Rotations and selections of bits -/

/--
The bits from `first` to `last`, bit 0 being the most significant one. If `first` is greater than
`last`, the run of bits wraps around.
-/
def Selected (first last j : Nat) : Prop :=
  if first ≤ last then first ≤ j ∧ j ≤ last else first ≤ j ∨ j ≤ last

instance (first last j : Nat) : Decidable (Selected first last j) :=
  inferInstanceAs
    (Decidable (if first ≤ last then first ≤ j ∧ j ≤ last else first ≤ j ∨ j ≤ last))

/-- The register with the selected bits set. -/
def selection (first last : Nat) : BitVec 32 :=
  .ofBoolListBE ((List.range 32).map fun j => decide (Selected first last j))

section Bits

variable {first last k v : Nat}

/-- A mask has the bits between its first and its last, counted from the most significant one. -/
theorem getMsbD_selection {j : Nat} (h : j < 32) :
    (selection first last).getMsbD j = decide (Selected first last j) := by
  have bit : (selection first last).getMsbD j =
      ((List.range 32).map fun j => decide (Selected first last j)).getD j false :=
    BitVec.getMsbD_ofBoolListBE
  rw [bit]
  simp [h]

/-- The mask of a rotation selects its bits. -/
theorem rotationMask_eq (h : first < 32) (h' : last < 32) :
    rotationMask first last = (selection first last).toNat := by
  -- one of the two shifted masks selects from the first bit on, the other up to the last
  have onward : ∀ i, (registerWidth.mask >>> first).testBit i = decide (first + i < 32) := by
    intro i
    rw [Nat.testBit_shiftRight]
    exact Nat.testBit_two_pow_sub_one 32 (first + i)
  have upTo : ∀ i, (registerWidth.modulus - 1 <<< (31 - last)).testBit i =
      (decide (i < 32) && !decide (i < 31 - last)) := by
    intro i
    have pos := Nat.two_pow_pos (31 - last)
    have lt : 2 ^ (31 - last) - 1 < 2 ^ 32 :=
      Nat.lt_of_lt_of_le (Nat.sub_lt pos Nat.one_pos) (Nat.pow_le_pow_right (by decide) (by omega))
    have bit := Nat.testBit_two_pow_sub_succ lt i
    rw [Nat.sub_add_cancel pos, Nat.testBit_two_pow_sub_one] at bit
    rw [Nat.one_shiftLeft]
    exact bit
  refine Nat.eq_of_testBit_eq fun i => ?_
  rw [← BitVec.getLsbD, BitVec.getLsbD_eq_getMsbD]
  by_cases inside : i < 32
  · rw [getMsbD_selection (by omega), rotationMask]
    -- where the first bit lies behind the last one, the mask goes around
    by_cases le : first ≤ last
    · simp only [le, if_true, Nat.testBit_and, onward, upTo, Selected]
      simp only [inside, decide_true, Bool.true_and]
      rw [Bool.eq_iff_iff]
      simp only [Bool.and_eq_true, Bool.not_eq_true', decide_eq_true_eq, decide_eq_false_iff_not]
      omega
    · simp only [le, if_false, Nat.testBit_or, onward, upTo, Selected]
      simp only [inside, decide_true, Bool.true_and]
      rw [Bool.eq_iff_iff]
      simp only [Bool.or_eq_true, Bool.not_eq_true', decide_eq_true_eq, decide_eq_false_iff_not]
      omega
  · have outside : ¬ first + i < 32 := by omega
    rw [rotationMask]
    split <;> simp [onward, upTo, inside, outside]

/-- A rotation joins the bits that two shifts keep. -/
theorem rotateLeft_eq (h : k < 32) (hv : v < 2 ^ 32) :
    v * 2 ^ k % 2 ^ 32 ||| v / 2 ^ (32 - k) = ((BitVec.ofNat 32 v).rotateLeft k).toNat := by
  rw [BitVec.toNat_rotateLeft, BitVec.toNat_ofNat, Nat.mod_eq_of_lt hv, Nat.mod_eq_of_lt h,
    Nat.shiftLeft_eq, Nat.shiftRight_eq_div_pow]

/-- A left shift is a rotation of which the low bits are cleared. -/
theorem rotateLeft_and_selection_left (h : k < 32) (b : BitVec 32) :
    b.rotateLeft k &&& selection 0 (31 - k) = b <<< k := by
  refine BitVec.eq_of_getMsbD_eq fun j hj => ?_
  rw [BitVec.getMsbD_and, BitVec.getMsbD_rotateLeft, getMsbD_selection hj, BitVec.getMsbD_shiftLeft]
  by_cases kept : j + k < 32
  · have selected : Selected 0 (31 - k) j := by
      rw [Selected, if_pos (Nat.zero_le _)]
      omega
    rw [Nat.add_comm k j, Nat.mod_eq_of_lt kept]
    simp [hj, selected]
  · have unselected : ¬ Selected 0 (31 - k) j := by
      rw [Selected, if_pos (Nat.zero_le _)]
      omega
    rw [BitVec.getMsbD_of_ge b (j + k) (by omega)]
    simp [unselected]

/-- A right shift is a rotation of which the high bits are cleared. -/
theorem rotateLeft_and_selection_right (h : k < 32) (b : BitVec 32) :
    b.rotateLeft ((32 - k) % 32) &&& selection k 31 = b >>> k := by
  refine BitVec.eq_of_getMsbD_eq fun j hj => ?_
  have selected_iff : Selected k 31 j ↔ ¬ j < k := by
    rw [Selected, if_pos (by omega)]
    omega
  rw [BitVec.getMsbD_and, BitVec.getMsbD_rotateLeft, getMsbD_selection hj,
    BitVec.getMsbD_ushiftRight]
  by_cases lost : j < k
  · simp [lost, selected_iff]
  · have place : ((32 - k) % 32 + j) % 32 = j - k := by omega
    rw [place]
    simp [hj, lost, selected_iff]

/-- A rotation of which all bits are selected is the rotation. -/
theorem and_selection_all (b : BitVec 32) : b &&& selection 0 31 = b := by
  refine BitVec.eq_of_getMsbD_eq fun j hj => ?_
  have selected : Selected 0 31 j := by
    rw [Selected, if_pos (by omega)]
    omega
  rw [BitVec.getMsbD_and, getMsbD_selection hj]
  simp [selected]

end Bits

/-! ## Shifts -/

/-- A shift or rotation. -/
inductive Shift where
  | left (record : Bool)
  | right (record : Bool)
  | algebraic (immediate record : Bool)
  | rotate (form : RotationForm) (record : Bool)
  deriving DecidableEq, Repr

/-- A negative number loses one bits if its last `k` bits are shifted out. -/
def LosesOnes (b : BitVec 32) (k : Nat) : Prop :=
  registerWidth.toSigned b.toNat < 0 ∧ ¬ (2 ^ k : Int) ∣ registerWidth.toSigned b.toNat

instance (b : BitVec 32) (k : Nat) : Decidable (LosesOnes b k) :=
  inferInstanceAs (Decidable (_ ∧ ¬ _))

namespace Shift

/-- Whether condition field 0 is set. -/
def records : Shift → Bool
  | left record | right record | algebraic _ record | rotate _ record => record

/-- The spelling of a shift. -/
def mnemonic (k : Shift) : String :=
  (match k with
    | left _ => "slw"
    | right _ => "srw"
    | algebraic immediate _ => if immediate then "srawi" else "sraw"
    | rotate .full _ => "rlwinm"
    | rotate .shiftLeft _ => "slwi"
    | rotate .shiftRight _ => "srwi"
    | rotate .rotateLeft _ => "rotlwi") ++ (if k.records then "." else "")

/-- The form that decodes a shift. -/
def form : Shift → Form
  | left record => .shift true record
  | right record => .shift false record
  | algebraic immediate record => .shiftAlgebraic immediate record
  | rotate form record => .rotate form record

/-- Whether the amount is the low six bits of a register. -/
def byRegister : Shift → Bool
  | left _ | right _ => true
  | algebraic immediate _ => !immediate
  | rotate _ _ => false

/-- Whether the selected bits are written. -/
def selects : Shift → Bool
  | rotate .full _ => true
  | _ => false

/-- The result of shifting by `k`; `first` and `last` bound the selected bits, if they are read. -/
def result (s : Shift) (b : BitVec 32) (k first last : Nat) : Nat :=
  match s with
  | left _ | rotate .shiftLeft _ => b.toNat * 2 ^ k % 2 ^ 32
  | right _ | rotate .shiftRight _ => b.toNat / 2 ^ k
  | algebraic _ _ => registerWidth.ofInt (registerWidth.toSigned b.toNat / 2 ^ k)
  | rotate .full _ => (b.rotateLeft k &&& selection first last).toNat
  | rotate .rotateLeft _ => (b.rotateLeft k).toNat

theorem result_lt (s : Shift) (b : BitVec 32) (k first last : Nat) :
    s.result b k first last < 2 ^ 32 := by
  have modulo : b.toNat * 2 ^ k % 2 ^ 32 < 2 ^ 32 := Nat.mod_lt _ (by decide)
  have quotient : b.toNat / 2 ^ k < 2 ^ 32 := Nat.lt_of_le_of_lt (Nat.div_le_self _ _) b.isLt
  rcases s with _ | _ | _ | ⟨_ | _ | _ | _, _⟩
  · exact modulo
  · exact quotient
  · exact Width.ofInt_lt _ _
  · exact (b.rotateLeft k &&& selection first last).isLt
  · exact modulo
  · exact quotient
  · exact (b.rotateLeft k).isLt

/-- What a shift delivers. -/
def delivery (s : Shift) (ra : Gpr) (b : BitVec 32) (k first last : Nat) : Delivery :=
  { target := ra
    result := s.result b k first last
    fits := s.result_lt b k first last
    carry :=
      match s with
      | algebraic _ _ => some (LosesOnes b k)
      | left _ | right _ | rotate _ _ => none
    record := s.records }

/-- A shift is registered with its form. -/
theorem registered (s : Shift) : (s.mnemonic, s.form) ∈ forms := by
  have listed : (s.mnemonic, s.form) ∈ shiftForms := by
    rcases s with ⟨_ | _⟩ | ⟨_ | _⟩ | ⟨_ | _, _ | _⟩ | ⟨_ | _ | _ | _, _ | _⟩ <;> decide
  simp only [forms, List.mem_append, listed, true_or, or_true]

end Shift

/-! ## Scripts -/

/-- A source that holds a shift amount. -/
inductive HoldsAmount (m : Machine) (n : Nat) : Source → Nat → Prop
  | register {rb : Gpr} {u : Nat} (held : m.Holds n (gprOperand rb) u) :
    HoldsAmount m n (.register rb) (u % 64)
  | constant {k : Nat} (lt : k < 32) : HoldsAmount m n (.constant k) k

section Scripts

variable {x : Expansion} {m : Machine} {o : Operand} {b : BitVec 32} {u so k : Nat} {ra rs rb : Gpr}

/-- The negation of an amount. -/
theorem runs_opposite (plain : m.cpu.Plain) (h : m.Holds x.taken o k) :
    (opposite o).Runs x m (Computed x m o.width (o.width.ofInt (-k))) := by
  have zero := Machine.holds_integer m x.taken 0 o.width
  rw [Width.truncate_of_le_one _ (Nat.zero_le 1)] at zero
  have fits : Opcode.sub.Fits (Operand.integer 0 o.width).width o.width
      (Operand.integer 0 o.width).width := o.width.not_lt_max_self
  have negated := Runs.binary plain rfl fits zero h rfl
  rw [Width.truncate_oword_ofInt, Int.natCast_zero, Int.zero_sub] at negated
  exact negated

/-- The low six bits of a register. -/
theorem runs_registerAmount (plain : m.cpu.Plain) (h : m.Holds x.taken (gprOperand rb) u) :
    (registerAmount rb).Runs x m (Computed x m registerWidth (u % 64)) := by
  have mask := Machine.holds_integer m x.taken 0x3F registerWidth
  have low : u &&& registerWidth.truncate 0x3F = u % 64 := Nat.and_two_pow_sub_one_eq_mod u 6
  exact low ▸ Runs.and plain rfl h mask

/-- A shift by the amount in a register, to either side. -/
theorem runs_expandShift (processor : m.cpu = cpu) (left record : Bool)
    (first : m.Holds x.taken (gprOperand rs) b.toNat) (second : m.Holds x.taken (gprOperand rb) u)
    (summary : record → m.Holds x.taken StatusBit.summary.operand so) {r : Nat} (fits : r < 2 ^ 32)
    (result : registerWidth.truncate
      (shiftValue b.toNat (if left then (u % 64 : Nat) else -(u % 64 : Nat))) = r) :
    (expandShift left ra rs rb record).Runs x m fun _ =>
      Leaves x (m.delivered ⟨ra, r, fits, none, none, record⟩ so) := by
  have small : u % 64 < 64 := Nat.mod_lt u (by decide)
  apply (runs_registerAmount (plain_of_cpu processor) second).bind
  intro magnitude X₁ m₁ amount
  -- a shift to the right is a shift by the opposite amount
  have turned : (directed left magnitude).Runs X₁ m₁ (Settled X₁ m₁ registerWidth
      (registerWidth.ofInt (if left then (u % 64 : Nat) else -(u % 64 : Nat)))) := by
    cases left with
    | true =>
      have positive : registerWidth.ofInt (u % 64 : Nat) = u % 64 :=
        Width.ofInt_natCast (Nat.lt_of_lt_of_le small (by decide))
      rw [if_pos rfl, positive]
      exact .pure ⟨⟨Nat.le_refl _, .refl amount.plain _⟩, amount.holds, amount.width⟩
    | false =>
      have negated := runs_opposite amount.plain amount.holds
      rw [amount.width] at negated
      exact negated.mono fun negated => negated.toSettled
  apply turned.bind
  intro distance X₂ m₂ side
  have behind := amount.toLeaves.trans side.toLeaves
  have half : (registerWidth.signBit : Int) = 2 ^ 31 := by decide
  have distance₂ := side.holds
  rw [← side.width] at distance₂
  have shifts := computes_shiftBy (behind.holds first) distance₂
    (by rw [side.width, half]; split <;> omega) (by rw [side.width, half]; split <;> omega)
    registerWidth
  apply Runs.computing side.plain shifts
  intro shifted X₃ m₃ value
  rw [result] at value
  exact runs_deliver (behind.trans value.toLeaves) processor value.holds ra fits record summary

/-- A shift amount has six bits. -/
theorem HoldsAmount.lt {n : Nat} {source : Source} (h : HoldsAmount m n source k) : k < 64 := by
  cases h with
  | register => exact Nat.mod_lt _ (by decide)
  | constant lt => omega

/-- The amount of a source is what the script computes. -/
theorem HoldsAmount.runs {source : Source} (h : HoldsAmount m x.taken source k)
    (plain : m.cpu.Plain) : source.amount.Runs x m (Settled x m registerWidth k) := by
  cases h with
  | register held =>
    apply (runs_registerAmount plain held).mono
    intro _ X m' amount
    exact amount.toSettled
  | constant lt =>
    have held := Machine.holds_signed m x.taken k registerWidth
    rw [Width.ofInt_natCast (Nat.lt_of_lt_of_le lt (by decide))] at held
    exact .pure ⟨⟨Nat.le_refl _, .refl plain _⟩, held, rfl⟩

/-- The wide quotient of a right shift, and what differs when it is shifted back. -/
def shiftedWide (rs : Gpr) (amount : Operand) : Script (Operand × Operand) := do
  let wide ← signExtend (gprOperand rs) .oword
  let right ← opposite amount
  let shifted ← temporary .oword
  emit .bsh wide right shifted
  let back ← temporary .oword
  emit .bsh shifted amount back
  let lost ← binary .xor back wide
  return (shifted, lost)

/-- An arithmetic shift takes the low half of a wide quotient. -/
theorem expandShiftAlgebraic_eq (ra rs : Gpr) (source : Source) (record : Bool) :
    expandShiftAlgebraic ra rs source record = (do
      let amount ← source.amount
      let (shifted, lost) ← shiftedWide rs amount
      let anyLost ← isNonzero lost
      let negative ← signBit (gprOperand rs)
      let carry ← binary .and negative anyLost
      let result ← temporary registerWidth
      copy shifted result
      copy result (gprOperand ra)
      copy carry (flagOperand carryFlag)
      onlyIf record (recordResult (gprOperand ra))) := by
  simp only [expandShiftAlgebraic, shiftedWide, bind_assoc, pure_bind]

/-- The wide shift leaves the quotient by a power of two, and which bits were lost by it. -/
theorem runs_shiftedWide (plain : m.cpu.Plain) (first : m.Holds x.taken (gprOperand rs) b.toNat)
    (second : m.Holds x.taken o k) (width : o.width = registerWidth) (small : k < 64) :
    (shiftedWide rs o).Runs x m fun r X m' =>
      Computed x m .oword (Width.oword.ofInt (registerWidth.toSigned b.toNat) / 2 ^ k) r.1 X m' ∧
        m'.Holds X.taken r.2 (Width.oword.ofInt (registerWidth.toSigned b.toNat) / 2 ^ k * 2 ^ k ^^^
          Width.oword.ofInt (registerWidth.toSigned b.toNat)) := by
  let wide : Nat := Width.oword.ofInt (registerWidth.toSigned b.toNat)
  have wide_lt : wide < Width.oword.modulus := Width.ofInt_lt _ _
  have half : (registerWidth.signBit : Int) = 2 ^ 31 := by decide
  apply (Runs.signExtend plain first .oword).bind
  intro source X₁ m₁ extended
  apply (runs_opposite extended.plain (extended.toLeaves.holds second)).bind
  intro right X₂ m₂ turned
  have wide₂ : m₂.Holds X₂.taken source wide := turned.toLeaves.holds extended.holds
  -- to the right
  have right₂ := turned.holds
  rw [← turned.width] at right₂
  have shifts := computes_shiftBy wide₂ right₂ (by rw [turned.width, width, half]; omega)
    (by rw [turned.width, width, half]; omega) .oword
  rw [shiftValue_neg_of_lt (by omega) wide_lt] at shifts
  apply Runs.computing turned.plain shifts
  intro shifted X₃ m₃ quotient
  have quotient_le : wide / 2 ^ k ≤ wide := Nat.div_le_self _ _
  rw [Width.truncate_of_lt (Nat.lt_of_le_of_lt quotient_le wide_lt)] at quotient
  -- and back again
  have amount₃ := ((extended.toLeaves.trans turned.toLeaves).trans quotient.toLeaves).holds second
  rw [← Width.ofInt_natCast (Nat.lt_of_lt_of_le small (show 64 ≤ registerWidth.modulus by decide)),
    ← width] at amount₃
  have shifts' := computes_shiftBy quotient.holds amount₃ (by rw [width, half]; omega)
    (by rw [width, half]; omega) .oword
  rw [shiftValue_natCast (by omega)] at shifts'
  apply Runs.computing quotient.plain shifts'
  intro back X₄ m₄ product
  have product_le : wide / 2 ^ k * 2 ^ k ≤ wide := Nat.div_mul_le_self _ _
  rw [Width.truncate_truncate, Width.truncate_of_lt (Nat.lt_of_le_of_lt product_le wide_lt)] at product
  have wide₄ := product.toLeaves.holds (quotient.toLeaves.holds wide₂)
  apply (Runs.xor product.plain (product.width.trans extended.width.symm) product.holds wide₄).bind
  intro lost X₅ m₅ differs
  have behind := product.toLeaves.trans differs.toLeaves
  have all := ((extended.toLeaves.trans turned.toLeaves).trans quotient.toLeaves).trans behind
  exact .pure ⟨⟨⟨all, behind.holds quotient.holds, quotient.width⟩, quotient.hidden⟩, differs.holds⟩

/-- Shifting back and forth loses nothing exactly if the last bits are zero. -/
theorem shiftedBack_ne_iff (h : k < 64) (i : Int) :
    Width.oword.ofInt i / 2 ^ k * 2 ^ k ^^^ Width.oword.ofInt i ≠ 0 ↔ ¬ (2 ^ k : Int) ∣ i := by
  have le : k ≤ Width.oword.bits := Nat.le_trans (Nat.le_of_lt h) (by decide)
  rw [ne_eq, xor_eq_zero_iff, ← Width.two_pow_dvd_ofInt_iff le]
  exact not_congr ⟨fun same => ⟨_, same.symm.trans (Nat.mul_comm _ _)⟩, Nat.div_mul_cancel⟩

/-- A right shift that brings in sign bits. -/
theorem runs_expandShiftAlgebraic (processor : m.cpu = cpu) (immediate record : Bool)
    {source : Source} (first : m.Holds x.taken (gprOperand rs) b.toNat)
    (second : HoldsAmount m x.taken source k)
    (summary : record → m.Holds x.taken StatusBit.summary.operand so) (low high : Nat) :
    (expandShiftAlgebraic ra rs source record).Runs x m fun _ => Leaves x
      (m.delivered ((Shift.algebraic immediate record).delivery ra b k low high) so) := by
  let d : Delivery := (Shift.algebraic immediate record).delivery ra b k low high
  rw [expandShiftAlgebraic_eq]
  apply (second.runs (plain_of_cpu processor)).bind
  intro amount X₁ m₁ distance
  apply (runs_shiftedWide distance.plain (distance.toLeaves.holds first) distance.holds distance.width
    second.lt).bind
  intro (shifted, lost) X₂ m₂ ⟨quotient, differs⟩
  -- the carry
  apply (Runs.isNonzero quotient.plain differs).bind
  intro anyLost X₃ m₃ differ
  rw [flag_congr (shiftedBack_ne_iff second.lt _)] at differ
  have behind := (distance.toLeaves.trans quotient.toLeaves).trans differ.toLeaves
  apply (Runs.signBit differ.plain (behind.holds first)).bind
  intro negative X₄ m₄ sign
  apply (Runs.and sign.plain (sign.width.trans differ.width.symm) sign.holds
    (sign.toLeaves.holds differ.holds)).bind
  intro carry X₅ m₅ both
  rw [flag_and] at both
  have carry_iff : LosesOnes b k ↔ d.carry = some true :=
    decide_eq_true_iff.symm.trans (Option.some.injEq _ _).symm.to_iff
  have carry₅ : m₅.Holds X₅.taken carry (flag (d.carry = some true)) := by
    rw [← flag_congr carry_iff]
    exact both.holds
  -- the result
  have quotient₅ := both.toLeaves.holds (sign.toLeaves.holds (differ.toLeaves.holds quotient.holds))
  apply Runs.computing both.plain (.copy quotient₅)
  intro result X₆ m₆ moved
  have room : k + registerWidth.bits ≤ Width.oword.bits := by
    have small := second.lt
    show k + 32 ≤ 128
    omega
  rw [Width.truncate_ofInt_div room] at moved
  have left := ((behind.trans sign.toLeaves).trans both.toLeaves).trans moved.toLeaves
  have processor' : m₆.cpu = cpu := left.keeps.cpu.trans processor
  have ends := runs_delivery (d := d) left processor ((runs_gpr processor' ra moved.holds).mono And.left)
    (.wanted (moved.toLeaves.holds carry₅) both.hidden) .unwanted fun needed =>
      summary (needed.resolve_left nofun)
  simp only [withOperand, pure_bind] at ends
  exact ends

/-- A rotation. -/
theorem runs_rotated (plain : m.cpu.Plain) (first : m.Holds x.taken (gprOperand rs) b.toNat)
    (h : k < 32) :
    (rotated (gprOperand rs) k).Runs x m (Settled x m registerWidth (b.rotateLeft k).toNat) := by
  unfold rotated
  split
  · next zero =>
    subst zero
    have same : b.rotateLeft 0 = b := by
      refine BitVec.eq_of_getMsbD_eq fun j hj => ?_
      simp [BitVec.getMsbD_rotateLeft, hj, Nat.mod_eq_of_lt hj]
    rw [same]
    exact .pure ⟨⟨Nat.le_refl _, .refl plain _⟩, first, rfl⟩
  · next nonzero =>
    -- what a shift to the left loses is what a shift to the right brings back
    have half : (registerWidth.signBit : Int) = 2 ^ 31 := by decide
    have lt : k < registerWidth.modulus := Nat.lt_of_lt_of_le h (by decide)
    have value : registerWidth.truncate k = registerWidth.ofInt k := by
      rw [Width.ofInt_natCast lt, Width.truncate_of_lt lt]
    have amount : m.Holds x.taken (.integer k registerWidth) (registerWidth.ofInt k) :=
      value ▸ Machine.holds_integer m x.taken k registerWidth
    have shifts := computes_shiftBy first amount (show -(registerWidth.signBit : Int) ≤ k by omega)
      (show (k : Int) < registerWidth.signBit by omega) registerWidth
    rw [shiftValue_natCast (by omega)] at shifts
    apply Runs.computing plain shifts
    intro high X₁ m₁ upper
    rw [Width.truncate_oword_truncate] at upper
    have shifts' := computes_shift (upper.toLeaves.holds first) (k := 32 - k) (by omega) (by omega)
      (show 32 - k ≤ registerWidth.signBit from Nat.le_trans (Nat.sub_le ..) (by decide)) registerWidth
    apply Runs.computing upper.plain shifts'
    intro low X₂ m₂ lower
    have quotient_lt : b.toNat / 2 ^ (32 - k) < registerWidth.modulus :=
      Nat.lt_of_le_of_lt (Nat.div_le_self _ _) b.isLt
    rw [Width.truncate_of_lt quotient_lt] at lower
    apply (Runs.or lower.plain (upper.width.trans lower.width.symm)
      (lower.toLeaves.holds upper.holds) lower.holds).mono
    intro o X₃ m₃ joined
    have joins : registerWidth.truncate (b.toNat * 2 ^ k) ||| b.toNat / 2 ^ (32 - k) =
        (b.rotateLeft k).toNat := by
      have whole := rotateLeft_eq h b.isLt
      rw [BitVec.ofNat_toNat, BitVec.setWidth_eq] at whole
      exact whole
    rw [joins, upper.width] at joined
    exact ((joined.after lower.toLeaves).after upper.toLeaves).toSettled

/-- A rotation and a selection. -/
theorem runs_expandRotate (processor : m.cpu = cpu) (record : Bool) {amount first last r : Nat}
    (held : m.Holds x.taken (gprOperand rs) b.toNat) (lt : amount < 32) (lt' : first < 32)
    (lt'' : last < 32) (fits : r < 2 ^ 32)
    (result : (b.rotateLeft amount &&& selection first last).toNat = r)
    (summary : record → m.Holds x.taken StatusBit.summary.operand so) :
    (expandRotate ra rs amount first last record).Runs x m fun _ =>
      Leaves x (m.delivered ⟨ra, r, fits, none, none, record⟩ so) := by
  apply (runs_rotated (plain_of_cpu processor) held lt).bind
  intro all X₁ m₁ turned
  have mask : m₁.Holds X₁.taken (.integer (rotationMask first last) registerWidth)
      (selection first last).toNat := by
    rw [rotationMask_eq lt' lt'']
    have held := Machine.holds_integer m₁ X₁.taken (selection first last).toNat registerWidth
    have small : (selection first last).toNat < registerWidth.modulus := (selection first last).isLt
    rwa [Width.truncate_of_lt small] at held
  apply (Runs.and turned.plain turned.width turned.holds mask).bind
  intro selected X₂ m₂ selects
  have value := selects.holds
  rw [← BitVec.toNat_and, result] at value
  exact runs_deliver (turned.toLeaves.trans selects.toLeaves) processor value ra fits record summary

end Scripts

/-! ## Decoding -/

namespace Shift

/-- The operation that a shift is decoded to. -/
inductive Decodes : Shift → Gpr → Gpr → Source → Nat → Nat → Operation → Prop
  | left {record ra rs rb first last} : Decodes (.left record) ra rs (.register rb) first last
    (.shift true ra rs rb record)
  | right {record ra rs rb first last} : Decodes (.right record) ra rs (.register rb) first last
    (.shift false ra rs rb record)
  | algebraic {immediate record ra rs source first last} :
    Decodes (.algebraic immediate record) ra rs source first last
      (.shiftAlgebraic ra rs source record)
  | rotate {record ra rs first last} {k : Nat} (lt : first < 32) (lt' : last < 32) :
    Decodes (.rotate .full record) ra rs (.constant k) first last
      (.rotate ra rs k first last record)
  | shiftLeft {record ra rs first last} {k : Nat} :
    Decodes (.rotate .shiftLeft record) ra rs (.constant k) first last
      (.rotate ra rs k 0 (31 - k) record)
  | shiftRight {record ra rs first last} {k : Nat} :
    Decodes (.rotate .shiftRight record) ra rs (.constant k) first last
      (.rotate ra rs ((32 - k) % 32) k 31 record)
  | rotateLeft {record ra rs first last} {k : Nat} :
    Decodes (.rotate .rotateLeft record) ra rs (.constant k) first last
      (.rotate ra rs k 0 31 record)

/-- The source of the amount, as it is written. -/
inductive TakesAmount (s : Shift) (n : NativeInstruction) : Source → Prop
  | register {rb : Gpr} (kind : s.byRegister = true)
    (written : gprAt cpu.catalog.widthOf n 2 = .ok rb) : TakesAmount s n (.register rb)
  | immediate {k : Nat} (kind : s.byRegister = false)
    (written : bitNumberAt cpu.catalog.widthOf n 2 = .ok k) : TakesAmount s n (.constant k)

/-- The bounds of the selected bits, if they are written. -/
def TakesBounds (s : Shift) (n : NativeInstruction) (first last : Nat) : Prop :=
  s.selects = true → bitNumberAt cpu.catalog.widthOf n 3 = .ok first ∧
    bitNumberAt cpu.catalog.widthOf n 4 = .ok last

/-- Bounds are written for a full rotation only. -/
theorem unbounded {s : Shift} {n : NativeInstruction} {first last : Nat} (h : s.selects = false) :
    s.TakesBounds n first last :=
  fun wanted => absurd (h.symm.trans wanted) Bool.false_ne_true

/-- What the spellings of a rotation take from what is written. -/
theorem decoded_rotation {form : RotationForm} {n : NativeInstruction} {k low high : Nat}
    (h : rotationAt cpu.catalog.widthOf n form = .ok (k, low, high)) (ra rs : Gpr)
    (record : Bool) :
    ∃ source first last, (Shift.rotate form record).TakesAmount n source ∧
      (Shift.rotate form record).TakesBounds n first last ∧
      (Shift.rotate form record).Decodes ra rs source first last
        (.rotate ra rs k low high record) := by
  cases form with
  | full =>
    simp only [rotationAt, Except.bind_eq_ok] at h
    obtain ⟨_, amount, _, first, _, last, e⟩ := h
    cases e
    exact ⟨.constant k, low, high, .immediate rfl amount, fun _ => ⟨first, last⟩,
      .rotate (bitNumberAt_lt first) (bitNumberAt_lt last)⟩
  | shiftLeft =>
    simp only [rotationAt, Except.bind_eq_ok] at h
    obtain ⟨k, amount, e⟩ := h
    cases e
    exact ⟨.constant k, 0, 0, .immediate rfl amount, unbounded rfl, .shiftLeft⟩
  | shiftRight =>
    -- the number that is written is the first bit here, and the amount is what is left of 32
    simp only [rotationAt, Except.bind_eq_ok] at h
    obtain ⟨_, amount, e⟩ := h
    cases e
    exact ⟨.constant low, 0, 0, .immediate rfl amount, unbounded rfl, .shiftRight⟩
  | rotateLeft =>
    simp only [rotationAt, Except.bind_eq_ok] at h
    obtain ⟨k, amount, e⟩ := h
    cases e
    exact ⟨.constant k, 0, 0, .immediate rfl amount, unbounded rfl, .rotateLeft⟩

/--
A shift that is read has its destination, its source and its amount in this order, and then its
bounds.
-/
theorem decoded {s : Shift} {n : NativeInstruction} {operation : Operation}
    (h : s.form.decode cpu.catalog.widthOf n = .ok operation) :
    ∃ ra rs source first last, gprAt cpu.catalog.widthOf n 0 = .ok ra ∧
      gprAt cpu.catalog.widthOf n 1 = .ok rs ∧ s.TakesAmount n source ∧
      s.TakesBounds n first last ∧ s.Decodes ra rs source first last operation := by
  simp only [Form.decode, Except.bind_eq_ok] at h
  obtain ⟨_, -, h⟩ := h
  cases s with
  | left record =>
    simp only [form, Form.read, Except.bind_eq_ok] at h
    obtain ⟨ra, target, rs, left, rb, right, e⟩ := h
    cases e
    exact ⟨ra, rs, .register rb, 0, 0, target, left, .register rfl right, unbounded rfl, .left⟩
  | right record =>
    simp only [form, Form.read, Except.bind_eq_ok] at h
    obtain ⟨ra, target, rs, left, rb, right, e⟩ := h
    cases e
    exact ⟨ra, rs, .register rb, 0, 0, target, left, .register rfl right, unbounded rfl, .right⟩
  | algebraic immediate record =>
    simp only [form, Form.read, Except.bind_eq_ok] at h
    obtain ⟨ra, target, rs, left, source, right, e⟩ := h
    cases e
    refine ⟨ra, rs, source, 0, 0, target, left, ?_, unbounded rfl, .algebraic⟩
    cases written_of_sourceAt right with
    | register kind written => exact .register (by rw [byRegister, kind]; rfl) written
    | immediate kind written =>
      obtain ⟨k, -, rfl, number⟩ := bitNumberAt_of_immediateAt written
      exact .immediate (by rw [byRegister, kind]; rfl) number
  | rotate form record =>
    simp only [Shift.form, Form.read, Except.bind_eq_ok] at h
    obtain ⟨ra, target, rs, left, ⟨k, low, high⟩, right, e⟩ := h
    cases e
    obtain ⟨source, first, last, takes⟩ := decoded_rotation right ra rs record
    exact ⟨ra, rs, source, first, last, target, left, takes⟩

/-- The script of a shift delivers what it should. -/
theorem Decodes.runs {s : Shift} {ra rs : Gpr} {source : Source} {first last : Nat}
    {operation : Operation} (h : s.Decodes ra rs source first last operation) {x : Expansion}
    {m : Machine} {b : BitVec 32} {k so : Nat} (processor : m.cpu = cpu)
    (held : m.Holds x.taken (gprOperand rs) b.toNat) (amount : HoldsAmount m x.taken source k)
    (summary : s.records → m.Holds x.taken StatusBit.summary.operand so) (mnemonic : String)
    (address : Nat) :
    (operation.expand mnemonic address).Runs x m fun _ =>
      Leaves x (m.delivered (s.delivery ra b k first last) so) := by
  have small := amount.lt
  cases h with
  | left =>
    cases amount with
    | register amount =>
      refine runs_expandShift processor true _ held amount summary _ ?_
      rw [if_pos rfl, shiftValue_natCast (by omega), Width.truncate_oword_truncate]
      rfl
  | right =>
    cases amount with
    | @register _ u amount =>
      refine runs_expandShift processor false _ held amount summary _ ?_
      have quotient_lt : b.toNat / 2 ^ (u % 64) < registerWidth.modulus :=
        Nat.lt_of_le_of_lt (Nat.div_le_self _ _) b.isLt
      have value_lt : b.toNat < Width.oword.modulus := Nat.lt_of_lt_of_le b.isLt (by decide)
      rw [if_neg Bool.false_ne_true, shiftValue_neg_of_lt (by omega) value_lt,
        Width.truncate_of_lt quotient_lt]
      rfl
  | algebraic => exact runs_expandShiftAlgebraic processor _ _ held amount summary _ _
  | rotate lt lt' =>
    cases amount with
    | constant small => exact runs_expandRotate processor _ held small lt lt' _ rfl summary
  | shiftLeft =>
    cases amount with
    | constant small =>
      -- a shift by a constant is spelled as a rotation behind a mask
      refine runs_expandRotate processor _ held small (by decide) (by omega) _ ?_ summary
      rw [rotateLeft_and_selection_left small, BitVec.toNat_shiftLeft, Nat.shiftLeft_eq]
      rfl
  | shiftRight =>
    cases amount with
    | constant small =>
      refine runs_expandRotate processor _ held (Nat.mod_lt _ (by decide)) small (by decide) _ ?_
        summary
      rw [rotateLeft_and_selection_right small, BitVec.toNat_ushiftRight, Nat.shiftRight_eq_div_pow]
      rfl
  | rotateLeft =>
    cases amount with
    | constant small =>
      refine runs_expandRotate processor _ held small (by decide) (by decide) _ ?_ summary
      rw [and_selection_all]
      rfl

end Shift

/-! ## Runs -/

/-- The amount of a shift: the low six bits of a register, or an immediate. -/
inductive Shift.Amount (s : Shift) (n : NativeInstruction) (m : Machine) : Nat → Prop
  | register {rb : Gpr} {u : Nat} (kind : s.byRegister = true)
    (written : gprAt cpu.catalog.widthOf n 2 = .ok rb) (value : m.value? (gprName rb) = some u) :
    s.Amount n m (u % 64)
  | immediate {k : Nat} (kind : s.byRegister = false)
    (written : bitNumberAt cpu.catalog.widthOf n 2 = .ok k) : s.Amount n m k

/-- Where its register is defined, an amount is what its source holds. -/
theorem Shift.TakesAmount.holds {s : Shift} {n : NativeInstruction} {m : Machine} {source : Source}
    (h : s.TakesAmount n source) (processor : m.cpu = cpu)
    (defined : ∀ r, s.byRegister = true → gprAt cpu.catalog.widthOf n 2 = .ok r →
      ∃ v, m.value? (gprName r) = some v) :
    ∃ k, s.Amount n m k ∧ ∀ i, HoldsAmount m.begun i source k := by
  cases h with
  | register kind written =>
    obtain ⟨u, value⟩ := defined _ kind written
    have processor' : m.begun.cpu = cpu := processor
    refine ⟨u % 64, .register kind written value, fun i => ?_⟩
    rw [← Nat.mod_mod_of_dvd u (show 64 ∣ 2 ^ 32 by decide)]
    exact .register (holds_gpr processor' _ value)
  | immediate kind written =>
    exact ⟨_, .immediate kind written, fun _ => .constant (bitNumberAt_lt written)⟩

/--
The run of a lifted shift or rotation ends well and delivers what its name says, an arithmetic shift
also whether a negative number lost one bits; everything else is as it was.
-/
theorem lifted_shift_shifts (s : Shift) {n : NativeInstruction} (named : n.mnemonic = s.mnemonic)
    {p : Program} (lifted : lift [n] = .ok p) {m : Machine} (processor : m.cpu = cpu)
    (limit : m.settings.stepLimit = none)
    (sources : ∀ r, gprAt cpu.catalog.widthOf n 1 = .ok r ∨
      s.byRegister = true ∧ gprAt cpu.catalog.widthOf n 2 = .ok r →
        ∃ v, m.value? (gprName r) = some v)
    (summary : s.records → ∃ so, m.value? summaryFlag = some so) :
    ∃ ra rs v k first last turns, gprAt cpu.catalog.widthOf n 0 = .ok ra ∧
      gprAt cpu.catalog.widthOf n 1 = .ok rs ∧ m.value? (gprName rs) = some v ∧ s.Amount n m k ∧
      s.TakesBounds n first last ∧
      (m.interpret .silent p turns (.ofNative n.address) ()).progress = .finished ∧
      (s.delivery ra (BitVec.ofNat 32 v) k first last).Outcome m
        (m.interpret .silent p turns (.ofNative n.address) ()).machine := by
  obtain ⟨count, operation, ⟨form, registered, decoded⟩, run⟩ := interpret_delivers lifted
  obtain rfl := form_unique (named ▸ registered) s.registered
  obtain ⟨ra, rs, source, first, last, target, left, takes, bounds, decodes⟩ :=
    Shift.decoded decoded
  obtain ⟨v, value⟩ := sources rs (.inl left)
  obtain ⟨k, amount, holds⟩ := takes.holds processor fun r kind written =>
    sources r (.inr ⟨kind, written⟩)
  have processor' : m.begun.cpu = cpu := processor
  have held : ∀ i, m.begun.Holds i (gprOperand rs) (BitVec.ofNat 32 v).toNat := by
    intro i
    rw [BitVec.toNat_ofNat]
    exact holds_gpr processor' rs value
  -- no shift touches the overflow flag, so that the summary matters to a record only
  have unlost : ¬ (s.delivery ra (BitVec.ofNat 32 v) k first last).overflow.isSome = true := nofun
  obtain ⟨turns, ends, outcome⟩ := run processor limit
    (fun needed => summary (needed.resolve_left unlost)) fun so flag =>
      decodes.runs processor' (held _) (holds _) (fun wanted => flag (.inr wanted)) _ _
  exact ⟨ra, rs, v, k, first, last, turns, target, left, value, amount, bounds, ends, outcome⟩

/-- An arithmetic shift of a register in place. -/
def halvingInPlace : NativeInstruction :=
  ⟨0x100, "sraw.", [.sized .dword (.register "%r3"), .sized .dword (.register "%r3"),
    .sized .dword (.register "%r4")]⟩

/-- A machine with an odd negative number in `%r3`, and 65 in `%r4`. -/
def beforeHalving : Machine :=
  ((Machine.start {} cpu).setGpr 3 0x80000001 |>.setGpr 4 65).setStatus .summary 0

/-- The low six bits of 65 shift by one, and a one bit is lost. -/
theorem halvingInPlace_shifts :
    ∃ p, lift [halvingInPlace] = .ok p ∧ ∃ turns,
      let run := beforeHalving.interpret .silent p turns (.ofNative 0x100) ()
      run.progress = .finished ∧
        run.machine.register? (gprName 3) = some ⟨0xC0000000, .dword, .defined⟩ ∧
        run.machine.register? carryFlag = some ⟨1, .byte, .defined⟩ ∧
        run.machine.register? (conditionBitName 0 .lt) = some ⟨1, .byte, .defined⟩ := by
  let s : Shift := .algebraic false true
  have expands : Expands 0 halvingInPlace (.shiftAlgebraic 3 3 (.register 4) true) _ _ :=
    ⟨⟨s.form, s.registered, rfl⟩, rfl, rfl⟩
  obtain ⟨p, lifted, -⟩ := expands.lift_alone
  have target : gprAt cpu.catalog.widthOf halvingInPlace 0 = .ok 3 := rfl
  have left : gprAt cpu.catalog.widthOf halvingInPlace 1 = .ok 3 := rfl
  have right : gprAt cpu.catalog.widthOf halvingInPlace 2 = .ok 4 := rfl
  have odd : beforeHalving.value? (gprName 3) = some 0x80000001 := rfl
  have amount : beforeHalving.value? (gprName 4) = some 65 := rfl
  have clear : beforeHalving.value? summaryFlag = some 0 := rfl
  have sources : ∀ r, gprAt cpu.catalog.widthOf halvingInPlace 1 = .ok r ∨
      s.byRegister = true ∧ gprAt cpu.catalog.widthOf halvingInPlace 2 = .ok r →
        ∃ v, beforeHalving.value? (gprName r) = some v := by
    intro r found
    rcases found with written | ⟨-, written⟩
    · obtain rfl := Except.ok.inj (left.symm.trans written)
      exact ⟨_, odd⟩
    · obtain rfl := Except.ok.inj (right.symm.trans written)
      exact ⟨_, amount⟩
  obtain ⟨ra, rs, v, k, first, last, turns, target', left', value, shifts, -, ends, outcome⟩ :=
    lifted_shift_shifts s rfl lifted (m := beforeHalving) rfl rfl sources fun _ => ⟨0, clear⟩
  obtain rfl := Except.ok.inj (target.symm.trans target')
  obtain rfl := Except.ok.inj (left.symm.trans left')
  obtain rfl := Option.some.inj (odd.symm.trans value)
  rcases shifts with ⟨-, right', value'⟩ | ⟨⟨⟩, -⟩
  obtain rfl := Except.ok.inj (right.symm.trans right')
  obtain rfl := Option.some.inj (amount.symm.trans value')
  have halved : (s.delivery 3 (BitVec.ofNat 32 0x80000001) (65 % 64) first last).result = 0xC0000000 :=
    show registerWidth.ofInt (registerWidth.toSigned 0x80000001 / 2 ^ 1) = 0xC0000000 by
      decide +kernel
  have result := outcome.result
  have less := (outcome.record rfl).less
  rw [halved] at result less
  exact ⟨p, lifted, turns, ends, result, outcome.carry true rfl, less.trans (by decide +kernel)⟩

end RegisterTransfer.PowerPC
