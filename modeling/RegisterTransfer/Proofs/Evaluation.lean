import RegisterTransfer.Proofs.Arithmetic
import RegisterTransfer.Proofs.Computations
import RegisterTransfer.Proofs.Effects

/-!
# Values of computations

What the operands hold that computations hand on, in terms of what their own operands hold. Each
computation changes scratch registers only.

> `Script.Runs.addWithCarry`: the sum modulo the width, its carry and its signed overflow.
> `Script.Runs.negateIf`: the two's complement negation if the flag is set.
> `Script.Runs.magnitude`: the absolute value of the signed reading, and its sign.
> `Script.Runs.signExtend`: the low bits of the signed number at another width.
> `Script.Runs.unsignedLess`, `Script.Runs.signedLess`: the order of the numbers, and that of the
> signed readings as far as the widths are the same.
-/

namespace RegisterTransfer

namespace Script

variable {x : Expansion} {m : Machine} {a b o : Operand} {u v c : Nat} {opcode : Opcode}
  {w : Width}

/-! ## Bitwise operations -/

theorem Runs.binary (plain : m.cpu.Plain) (two : opcode.combines)
    (fits : opcode.Fits a.width b.width a.width) (first : m.Holds x.taken a u)
    (second : m.Holds x.taken b v) {r : Nat} (value : opcode.combine b.width u v = some r) :
    (Script.binary opcode a b).Runs x m (Computed x m a.width (a.width.truncate r)) :=
  Runs.computed plain (.combine two fits first second value)

theorem Runs.xor (plain : m.cpu.Plain) (same : a.width = b.width) (first : m.Holds x.taken a u)
    (second : m.Holds x.taken b v) :
    (Script.binary .xor a b).Runs x m (Computed x m a.width (u ^^^ v)) := by
  have fits : Opcode.xor.Fits a.width b.width a.width := same
  have kept : a.width.truncate (u ^^^ v) = u ^^^ v :=
    Width.truncate_xor first.lt (same ▸ second.lt)
  exact kept ▸ Runs.binary plain rfl fits first second rfl

theorem Runs.and (plain : m.cpu.Plain) (same : a.width = b.width) (first : m.Holds x.taken a u)
    (second : m.Holds x.taken b v) :
    (Script.binary .and a b).Runs x m (Computed x m a.width (u &&& v)) := by
  have fits : Opcode.and.Fits a.width b.width a.width := same
  have kept : a.width.truncate (u &&& v) = u &&& v := Width.truncate_and u (same ▸ second.lt)
  exact kept ▸ Runs.binary plain rfl fits first second rfl

theorem Runs.or (plain : m.cpu.Plain) (same : a.width = b.width) (first : m.Holds x.taken a u)
    (second : m.Holds x.taken b v) :
    (Script.binary .or a b).Runs x m (Computed x m a.width (u ||| v)) := by
  have fits : Opcode.or.Fits a.width b.width a.width := same
  have kept : a.width.truncate (u ||| v) = u ||| v :=
    Width.truncate_or first.lt (same ▸ second.lt)
  exact kept ▸ Runs.binary plain rfl fits first second rfl

theorem Runs.complement (plain : m.cpu.Plain) (h : m.Holds x.taken a u) :
    (Script.complement a).Runs x m (Computed x m a.width (a.width.mask - u)) := by
  have mask := Machine.holds_integer m x.taken a.width.mask a.width
  rw [Width.truncate_mask] at mask
  exact Width.xor_mask h.lt ▸ Runs.xor plain rfl h mask

/-! ## Flags -/

/-- The negation of a flag is the flag of the negation. -/
theorem Runs.flagNot {p : Prop} [Decidable p] (plain : m.cpu.Plain)
    (h : m.Holds x.taken a (flag p)) :
    (Script.flagNot a).Runs x m (Computed x m a.width (flag ¬ p)) := by
  have one := Machine.holds_integer m x.taken 1 a.width
  rw [Width.truncate_of_le_one _ (Nat.le_refl 1)] at one
  exact flag_xor_one p ▸ Runs.xor plain rfl h one

theorem Runs.isZero (plain : m.cpu.Plain) (h : m.Holds x.taken a u) :
    (Script.isZero a).Runs x m (Computed x m .byte (flag (u = 0))) := by
  have kept := Width.byte.truncate_of_le_one (flag_le_one (u = 0))
  exact kept ▸ Runs.computed plain (.isZero h)

theorem Runs.equal (plain : m.cpu.Plain) (same : a.width = b.width)
    (first : m.Holds x.taken a u) (second : m.Holds x.taken b v) :
    (Script.equal a b).Runs x m (Computed x m .byte (flag (u = v))) := by
  refine (Runs.xor plain same first second).bind fun difference => ?_
  rw [← flag_congr (@xor_eq_zero_iff u v)]
  exact (Runs.isZero difference.plain difference.holds).mono fun zero =>
    zero.after difference.toLeaves

/-- A shift by a signed amount, to the left if it is positive. -/
theorem computes_shiftBy {s : Int} (first : m.Holds x.taken a u)
    (second : m.Holds x.taken b (b.width.ofInt s)) (low : -(b.width.signBit : Int) ≤ s)
    (high : s < b.width.signBit) (w : Width) :
    m.Computes x.taken .bsh a b w (shiftValue u s) := by
  refine .combine rfl trivial first second ?_
  show some (shiftValue u (b.width.toSigned (b.width.ofInt s))) = _
  rw [Width.toSigned_ofInt_of_mem low high]

/-- A right shift by a fixed amount. -/
theorem computes_shift {wide : Width} {k : Nat} (h : m.Holds x.taken a u) (pos : 0 < k)
    (small : k < 128) (le : k ≤ wide.signBit) (w : Width) :
    m.Computes x.taken .bsh a (.signed (-k) wide) w (u / 2 ^ k) := by
  have low : -(wide.signBit : Int) ≤ -k := by omega
  have high : -(k : Int) < wide.signBit := by omega
  rw [← shiftValue_neg pos small]
  exact computes_shiftBy h (Machine.holds_signed m x.taken (-k) wide) low high w

/-- The sign bit of a number is the flag of its being negative. -/
theorem Runs.signBit (plain : m.cpu.Plain) (h : m.Holds x.taken a u) :
    (Script.signBit a).Runs x m (Computed x m .byte (flag (a.width.toSigned u < 0))) := by
  have bits := a.width.one_lt_bits
  have bits_le := a.width.bits_le
  have amount : (-(a.width.bits - 1) : Int) = -((a.width.bits - 1 : Nat) : Int) := by omega
  have le : a.width.bits - 1 ≤ a.width.signBit :=
    Nat.le_trans (Nat.sub_le _ _) a.width.bits_le_signBit
  have computes := computes_shift h (by omega) (by omega) le .byte
  rw [← Width.signBit_eq_two_pow, Width.div_signBit h.lt] at computes
  have kept := Width.byte.truncate_of_le_one (flag_le_one (a.width.toSigned u < 0))
  unfold Script.signBit
  rw [amount]
  exact kept ▸ Runs.computed plain computes

/-! ## Addition -/

/-- An optional carry: nothing counts as zero. -/
def HoldsCarry (m : Machine) (n : Nat) (c : Nat) : Option Operand → Prop
  | none => c = 0
  | some o => o.width = .byte ∧ m.Holds n o c ∧ c ≤ 1

/-- An optional carry that is no wider than the sum it goes into. -/
def HoldsCarryWithin (wide : Width) (m : Machine) (n : Nat) (c : Nat) : Option Operand → Prop
  | none => c = 0
  | some o => o.width ≤ wide ∧ m.Holds n o c ∧ c ≤ 1

theorem HoldsCarry.within {n : Nat} {carry : Option Operand} (h : HoldsCarry m n c carry)
    (wide : Width) : HoldsCarryWithin wide m n c carry := by
  cases carry with
  | none => exact h
  | some o =>
    obtain ⟨narrow, held, le⟩ := h
    refine ⟨?_, held, le⟩
    rw [narrow]
    cases wide <;> decide

/-- A carry is at most one, and nothing counts as zero. -/
theorem HoldsCarryWithin.le_one {wide : Width} {n : Nat} {carry : Option Operand}
    (h : HoldsCarryWithin wide m n c carry) : c ≤ 1 := by
  cases carry with
  | none =>
    have zero : c = 0 := h
    omega
  | some o => exact h.2.2

theorem HoldsCarry.keep {m' : Machine} {n k : Nat} {carry : Option Operand}
    (h : HoldsCarry m n c carry) (keeps : m.Keeps n m') (le : n ≤ k) : HoldsCarry m' k c carry := by
  cases carry with
  | none => exact h
  | some o => exact ⟨h.1, h.2.1.keep keeps le, h.2.2⟩

/-- A result that is there if it is wanted, in no register of the processor. -/
inductive Provides (m : Machine) (n v : Nat) : Bool → Option Operand → Prop
  | unwanted : Provides m n v false none
  | wanted {o : Operand} (holds : m.Holds n o v) (hidden : o.Hidden) : Provides m n v true (some o)

/-- A result that is wanted stays what it is as long as its operand does. -/
theorem Provides.imp {m' : Machine} {n k : Nat} {wanted : Bool} {p : Option Operand}
    (h : Provides m n v wanted p)
    (keep : ∀ {o : Operand}, o.Hidden → m.Holds n o v → m'.Holds k o v) :
    Provides m' k v wanted p := by
  cases h with
  | unwanted => exact .unwanted
  | wanted holds hidden => exact .wanted (keep hidden holds) hidden

/-- A result is provided if it is wanted, and nothing is run for it if it is not. -/
theorem Runs.optionally {s : Script Operand} (wanted : Bool)
    (plain : m.cpu.Plain) (h : s.Runs x m (Computed x m w v)) :
    (Script.optionally wanted s).Runs x m fun p X m' =>
      Leaves x m X m' ∧ Provides m' X.taken v wanted p := by
  unfold Script.optionally
  split
  · next e =>
    subst e
    rw [map_eq_pure_bind]
    exact h.bind fun computed => .pure ⟨computed.toLeaves, .wanted computed.holds computed.hidden⟩
  · next e =>
    rw [Bool.not_eq_true] at e
    subst e
    exact .pure ⟨⟨Nat.le_refl _, .refl plain _⟩, .unwanted⟩

/-- A wide sum is the sum of the numbers. -/
theorem Runs.wideSum {wide : Width} {carry : Option Operand} (plain : m.cpu.Plain)
    (wider : a.width.wider? = some wide) (same : b.width = a.width) (first : m.Holds x.taken a u)
    (second : m.Holds x.taken b v) (third : HoldsCarryWithin wide m x.taken c carry) :
    (Script.wideSum wide a b carry).Runs x m (Computed x m wide (u + v + c)) := by
  have room := Width.two_mul_modulus_le wider
  have hu := first.lt
  have hv : v < a.width.modulus := same ▸ second.lt
  have fits : Opcode.add.Fits a.width b.width wide := Width.not_wider_lt_max wider same
  -- twice the modulus fits into the wider width, so nothing is lost there
  have sum : wide.truncate (Width.oword.truncate (u + v)) = u + v := by
    rw [Width.truncate_oword_truncate, Width.truncate_of_lt (by omega)]
  refine Runs.computing plain (.combine rfl fits first second rfl) fun {o X m'} partly => ?_
  rw [sum] at partly
  cases carry with
  | none =>
    have zero : c = 0 := third
    subst zero
    exact .pure partly
  | some o' =>
    obtain ⟨narrow, third, le⟩ := third
    have all : wide.truncate (Width.oword.truncate (u + v + c)) = u + v + c := by
      rw [Width.truncate_oword_truncate, Width.truncate_of_lt (by omega)]
    have fits' : Opcode.add.Fits o.width o'.width wide := by
      rw [partly.width]
      exact Width.not_lt_max_of_le narrow
    refine (Runs.computed partly.plain
      (.combine rfl fits' partly.holds (partly.toLeaves.holds third) rfl)).mono fun total => ?_
    rw [all] at total
    exact total.after partly.toLeaves

/-- What an addition leaves behind. -/
structure Added (x : Expansion) (m : Machine) (w : Width) (flags : AdditionFlags) (u v c : Nat)
    (r : Addition) (X : Expansion) (m' : Machine) : Prop extends Leaves x m X m' where
  result : m'.Holds X.taken r.result (w.truncate (u + v + c))
  carry : Provides m' X.taken ((u + v + c) / w.modulus) flags.carry r.carry
  overflow : Provides m' X.taken (flag (w.Overflows u v c)) flags.overflow r.overflow

/-- The bit above the low ones of a wide sum is its carry. -/
theorem Runs.carryOut {wide : Width} {sum : Operand} {t : Nat} (plain : m.cpu.Plain)
    (wider : w.wider? = some wide) (h : m.Holds x.taken sum t) (lt : t < 2 * w.modulus) :
    (Script.carryOut w wide sum).Runs x m (Computed x m .byte (t / w.modulus)) := by
  have pos := w.one_lt_bits
  have small : w.bits < 128 := by cases w <;> cases wider <;> decide
  have le : w.bits ≤ wide.signBit := by cases w <;> cases wider <;> decide
  have carry := Width.div_modulus_le_one lt
  have computes := computes_shift h (Nat.lt_of_succ_lt pos) small le .byte
  rw [← Width.modulus_eq_two_pow] at computes
  exact Width.byte.truncate_of_le_one carry ▸ Runs.computed plain computes

/-- The signed overflow of a sum. -/
theorem Runs.overflowOut {r : Operand} (plain : m.cpu.Plain) (same : b.width = a.width)
    (same' : r.width = a.width) (first : m.Holds x.taken a u) (second : m.Holds x.taken b v)
    (result : m.Holds x.taken r (a.width.truncate (u + v + c))) (le : c ≤ 1) :
    (Script.overflowOut a b r).Runs x m (Computed x m .byte
      (flag (a.width.Overflows u v c))) := by
  have hv : v < a.width.modulus := same ▸ second.lt
  apply (Runs.xor plain same'.symm first result).bind
  intro o X₁ m₁ left
  have second₁ := left.toLeaves.holds second
  have result₁ := left.toLeaves.holds result
  apply (Runs.xor left.plain (same.trans same'.symm) second₁ result₁).bind
  intro p X₂ m₂ right
  have left₂ := right.toLeaves.holds left.holds
  have widths : o.width = p.width := by rw [left.width, right.width, same]
  apply (Runs.and right.plain widths left₂ right.holds).bind
  intro q X₃ m₃ both
  have sign := Runs.signBit both.plain both.holds
  rw [both.width, left.width] at sign
  have lt := both.holds.lt
  rw [both.width, left.width] at lt
  rw [← Width.div_signBit lt, Width.overflow_bit first.lt hv le] at sign
  apply sign.mono
  intro f X₄ m₄ overflow
  exact ((overflow.after both.toLeaves).after right.toLeaves).after left.toLeaves

/-- The sum modulo the width, and the flags that are wanted. -/
theorem Runs.addWithCarry {wide : Width} {carry : Option Operand} (flags : AdditionFlags)
    (plain : m.cpu.Plain) (wider : a.width.wider? = some wide) (same : b.width = a.width)
    (first : m.Holds x.taken a u) (second : m.Holds x.taken b v)
    (third : HoldsCarryWithin wide m x.taken c carry) :
    (Script.addWithCarry a b carry flags).Runs x m (Added x m a.width flags u v c) := by
  have le := third.le_one
  have hu := first.lt
  have hv : v < a.width.modulus := same ▸ second.lt
  have below : u + v + c < 2 * a.width.modulus := by omega
  unfold Script.addWithCarry
  rw [if_pos same, wider]
  apply (Runs.wideSum plain wider same first second third).bind
  intro sum X₁ m₁ total
  -- the low bits
  have ones : a.width.mask < wide.modulus := by
    have := Width.two_mul_modulus_le wider
    have := a.width.modulus_pos
    rw [Width.mask]
    omega
  have mask := Machine.holds_integer m₁ X₁.taken a.width.mask wide
  rw [Width.truncate_of_lt ones] at mask
  have fits : Opcode.and.Fits sum.width (Operand.integer a.width.mask wide).width a.width :=
    total.width
  apply Runs.computing total.plain (.combine rfl fits total.holds mask rfl)
  intro r X₂ m₂ result
  rw [Width.and_mask, Width.truncate_truncate] at result
  have behind := total.toLeaves.trans result.toLeaves
  -- the flags
  have sum₂ := result.toLeaves.holds total.holds
  apply (Runs.optionally flags.carry result.plain
    (Runs.carryOut result.plain wider sum₂ below)).bind
  intro carry X₃ m₃ found
  obtain ⟨grows, carries⟩ := found
  have first₃ := grows.holds (behind.holds first)
  have second₃ := grows.holds (behind.holds second)
  have result₃ := grows.holds result.holds
  apply (Runs.optionally flags.overflow grows.plain
    (Runs.overflowOut grows.plain same result.width first₃ second₃ result₃ le)).bind
  intro overflow X₄ m₄ found
  obtain ⟨grows', overflows⟩ := found
  refine .pure ⟨(behind.trans grows).trans grows', ?_, ?_, overflows⟩
  · exact grows'.holds result₃
  · exact carries.imp fun _ held => grows'.holds held

/-! ## Signs -/

/-- A flag of one becomes a mask of ones, and a flag of zero none. -/
theorem Runs.flagMask {f : Operand} (plain : m.cpu.Plain) (narrow : f.width = .byte)
    (h : m.Holds x.taken f c) (w : Width) :
    (Script.flagMask f w).Runs x m (Computed x m w (w.ofInt (0 - c))) := by
  have zero := Machine.holds_integer m x.taken 0 w
  rw [Width.truncate_of_le_one _ (Nat.zero_le 1)] at zero
  have fits : Opcode.sub.Fits (Operand.integer 0 w).width f.width w := by
    rw [narrow]
    exact w.not_lt_max_byte
  have value : w.truncate (Width.oword.ofInt ((0 : Nat) - c)) = w.ofInt (0 - c) :=
    Width.truncate_oword_ofInt w _
  exact value ▸ Runs.computed plain (.combine rfl fits zero h rfl)

/-- The two's complement negation if the flag is set, else the operand itself. -/
theorem Runs.negateIf {f : Operand} (plain : m.cpu.Plain) (narrow : f.width = .byte)
    (first : m.Holds x.taken a u) (second : m.Holds x.taken f c) (le : c ≤ 1) :
    (Script.negateIf a f).Runs x m
      (Computed x m a.width (if c = 0 then u else a.width.ofInt (-u))) := by
  apply (Runs.flagMask plain narrow second a.width).bind
  intro mask X₁ m₁ masks
  apply (Runs.xor masks.plain masks.width.symm (masks.toLeaves.holds first) masks.holds).bind
  intro o X₂ m₂ flipped
  have masks₂ := flipped.toLeaves.holds masks.holds
  have fits : Opcode.sub.Fits o.width mask.width o.width := by
    rw [flipped.width, masks.width]
    exact a.width.not_lt_max_self
  have negated := Runs.binary flipped.plain rfl fits flipped.holds masks₂ rfl
  rw [Width.truncate_oword_ofInt, flipped.width, Width.ofInt_sub_mask le first.lt] at negated
  apply negated.mono
  intro p X₃ m₃ result
  exact (result.after flipped.toLeaves).after masks.toLeaves

/-- The absolute value of the signed reading, and its sign. -/
theorem Runs.magnitude (plain : m.cpu.Plain) (h : m.Holds x.taken a u) :
    (Script.magnitude a).Runs x m fun r X m' =>
      Computed x m a.width (a.width.toSigned u).natAbs r.1 X m' ∧
        Computed x m .byte (flag (a.width.toSigned u < 0)) r.2 X m' := by
  apply (Runs.signBit plain h).bind
  intro negative X₁ m₁ sign
  have size := Runs.negateIf sign.plain sign.width (sign.toLeaves.holds h) sign.holds
    (flag_le_one _)
  rw [Width.natAbs_toSigned h.lt] at size
  apply size.bind
  intro o X₂ m₂ size
  exact .pure ⟨size.after sign.toLeaves, sign.kept size.toLeaves⟩

/-! ## Sign extension and order -/

theorem Runs.isNonzero (plain : m.cpu.Plain) (h : m.Holds x.taken a u) :
    (Script.isNonzero a).Runs x m (Computed x m .byte (flag (u ≠ 0))) := by
  apply (Runs.isZero plain h).bind
  intro zero X₁ m₁ zero
  have other := Runs.flagNot zero.plain zero.holds
  rw [zero.width] at other
  exact other.mono fun nonzero => nonzero.after zero.toLeaves

/-- Flipping the sign bit is an exclusive or with it. -/
theorem Runs.flipSign (plain : m.cpu.Plain) (h : m.Holds x.taken a u) :
    (Script.flipSign a).Runs x m (Computed x m a.width (u ^^^ a.width.signBit)) := by
  have sign := Machine.holds_integer m x.taken a.width.signBit a.width
  have small : a.width.signBit < a.width.modulus := by
    have pos := a.width.signBit_pos
    have half := a.width.modulus_eq_two_mul_signBit
    omega
  rw [Width.truncate_of_lt small] at sign
  exact Runs.xor plain rfl h sign

/-- The low bits of the signed number at another width, wider or narrower. -/
theorem Runs.signExtend (plain : m.cpu.Plain) (h : m.Holds x.taken a u) (w : Width) :
    (Script.signExtend a w).Runs x m (Computed x m w (w.ofInt (a.width.toSigned u))) := by
  apply (Runs.flipSign plain h).bind
  intro flipped X₁ m₁ flip
  apply Runs.computing flip.plain (.copy flip.holds)
  intro widened X₂ m₂ wide
  have sign := Machine.holds_integer m₂ X₂.taken a.width.signBit w
  have fits : Opcode.sub.Fits widened.width (Operand.integer a.width.signBit w).width w := by
    rw [wide.width]
    exact w.not_lt_max_self
  -- both the flipped number and its sign bit are cut down, which the low bits do not show
  have value : w.truncate (Width.oword.ofInt
      (w.truncate (u ^^^ a.width.signBit) - w.truncate a.width.signBit)) =
        w.ofInt (a.width.toSigned u) := by
    rw [Width.truncate_oword_ofInt, Width.ofInt_truncate_sub, Width.xor_signBit h.lt,
      Int.add_sub_cancel]
  exact value ▸ (Runs.computed wide.plain (.combine rfl fits wide.holds sign rfl)).mono
    fun result => (result.after wide.toLeaves).after flip.toLeaves

/-- One width wider than both operands, a difference is negative exactly if it borrows. -/
theorem Runs.unsignedLess {wide : Width} (plain : m.cpu.Plain)
    (wider : (max a.width b.width).wider? = some wide) (first : m.Holds x.taken a u)
    (second : m.Holds x.taken b v) :
    (Script.unsignedLess a b).Runs x m (Computed x m .byte (flag (u < v))) := by
  have hu := Nat.lt_of_lt_of_le first.lt (Width.modulus_le_max_left a.width b.width)
  have hv := Nat.lt_of_lt_of_le second.lt (Width.modulus_le_max_right a.width b.width)
  have fits : Opcode.sub.Fits a.width b.width wide := Width.not_wider_lt wider
  unfold Script.unsignedLess
  rw [wider]
  apply Runs.computing plain (.combine rfl fits first second rfl)
  intro difference X₁ m₁ borrows
  rw [Width.truncate_oword_ofInt] at borrows
  have sign := Runs.signBit borrows.plain borrows.holds
  rw [borrows.width, Width.toSigned_ofInt_sub wider hu hv] at sign
  have less : ((u : Int) - v < 0) ↔ u < v := by omega
  rw [flag_congr less] at sign
  exact sign.mono fun less => less.after borrows.toLeaves

/-- The order of the signed readings, each counted from the least number of its own width. -/
theorem Runs.signedLess {wide : Width} (plain : m.cpu.Plain)
    (wider : (max a.width b.width).wider? = some wide) (first : m.Holds x.taken a u)
    (second : m.Holds x.taken b v) :
    (Script.signedLess a b).Runs x m (Computed x m .byte
      (flag (a.width.toSigned u + a.width.signBit < b.width.toSigned v + b.width.signBit))) := by
  apply (Runs.flipSign plain first).bind
  intro left X₁ m₁ flip
  apply (Runs.flipSign flip.plain (flip.toLeaves.holds second)).bind
  intro right X₂ m₂ flip'
  have wider' : (max left.width right.width).wider? = some wide := by
    rw [flip.width, flip'.width, wider]
  have less := Runs.unsignedLess flip'.plain wider' (flip'.toLeaves.holds flip.holds) flip'.holds
  rw [flag_congr (Width.xor_signBit_lt_iff first.lt second.lt)] at less
  exact less.mono fun less => (less.after flip'.toLeaves).after flip.toLeaves

end Script

end RegisterTransfer
