import Mathlib.Algebra.Group.Int.Defs
import Mathlib.Algebra.Group.Nat.Defs
import RegisterTransfer.Machine.Basic

/-!
# Arithmetic of widths

What the operations of the machine, which knows unsigned numbers of 128 bits only, come to at the
width of their destination: which shifts read off a sign or a carry, and which sequences of
exclusive or and subtraction negate, compare or extend a sign.

> `shiftValue_neg`: a right shift is a division by a power of two.
> `overflow_bit`: what differs from a sum in both addends has the sign bit of a signed overflow.
> `ofInt_sub_mask`: exclusive or with a mask and subtraction of it negate, or do nothing.
> `ofInt_tdiv`: signed division is division of magnitudes, negated if the signs differ.
> `xor_signBit_lt_iff`: the signed order of one width is the unsigned order of numbers with inverted
> sign bits.
> `truncate_mul`: the low bits of a product do not depend on how its factors are read.
> `truncate_ofInt_div`: a shift of a wide signed number brings in sign bits.
-/

namespace RegisterTransfer

/-- The flag of a condition. -/
def flag (p : Prop) [Decidable p] : Nat := if p then 1 else 0

section Flag

variable {p q : Prop} [Decidable p] [Decidable q]

theorem flag_le_one (p : Prop) [Decidable p] : flag p ≤ 1 := by
  unfold flag
  split <;> omega

theorem flag_of (h : p) : flag p = 1 := if_pos h

theorem flag_of_not (h : ¬ p) : flag p = 0 := if_neg h

theorem flag_congr (h : p ↔ q) : flag p = flag q := by
  unfold flag
  simp only [h]

theorem flag_eq_zero_iff : flag p = 0 ↔ ¬ p := by
  unfold flag
  split <;> simp_all

/-- Flags are or-ed as their propositions are. -/
theorem flag_or (p q : Prop) [Decidable p] [Decidable q] : flag p ||| flag q = flag (p ∨ q) := by
  by_cases hp : p <;> by_cases hq : q <;> simp [flag, hp, hq]

theorem flag_and (p q : Prop) [Decidable p] [Decidable q] :
    flag p &&& flag q = flag (p ∧ q) := by
  by_cases hp : p <;> by_cases hq : q <;> simp [flag, hp, hq]

theorem flag_xor_one (p : Prop) [Decidable p] : flag p ^^^ 1 = flag (¬ p) := by
  by_cases hp : p <;> simp [flag, hp]

/-- The exclusive or of two flags says that the propositions differ. -/
theorem flag_xor (p q : Prop) [Decidable p] [Decidable q] :
    flag p ^^^ flag q = flag (¬ (p ↔ q)) := by
  by_cases hp : p <;> by_cases hq : q <;> simp [flag, hp, hq]

end Flag

theorem xor_eq_zero_iff {u v : Nat} : u ^^^ v = 0 ↔ u = v := by
  constructor
  · intro h
    rw [← Nat.xor_zero u, ← h, ← Nat.xor_assoc, Nat.xor_self, Nat.zero_xor]
  · intro same
    subst same
    exact Nat.xor_self u

namespace Width

variable {w wide : Width} {u v k : Nat}

/-! ## Powers of two -/

theorem modulus_eq_two_pow (w : Width) : w.modulus = 2 ^ w.bits := Nat.one_shiftLeft _

theorem signBit_eq_two_pow (w : Width) : w.signBit = 2 ^ (w.bits - 1) := Nat.one_shiftLeft _

theorem signBit_pos (w : Width) : 0 < w.signBit := by cases w <;> decide

theorem bits_le (w : Width) : w.bits ≤ 128 := by cases w <;> decide

theorem one_lt_bits (w : Width) : 1 < w.bits := by cases w <;> decide

/--
The modulus of a width divides that of a wider one, so that truncating twice is truncating once.
-/
theorem modulus_dvd_of_le (le : w.bits ≤ wide.bits) : w.modulus ∣ wide.modulus := by
  rw [modulus_eq_two_pow, modulus_eq_two_pow]
  exact Nat.pow_dvd_pow 2 le

theorem modulus_le_max_left (w w' : Width) : w.modulus ≤ (max w w').modulus := by
  cases w <;> cases w' <;> decide

theorem modulus_le_max_right (w w' : Width) : w'.modulus ≤ (max w w').modulus := by
  cases w <;> cases w' <;> decide

theorem two_le_modulus (w : Width) : 2 ≤ w.modulus := by cases w <;> decide

/-- What a sum of two numbers and a carry leaves above its low bits is a carry. -/
theorem div_modulus_le_one (lt : v < 2 * w.modulus) : v / w.modulus ≤ 1 := by
  rw [← Nat.lt_succ_iff, Nat.div_lt_iff_lt_mul w.modulus_pos]
  exact lt

/-- The next wider width has room for a sum and its carry. -/
theorem two_mul_modulus_le (h : w.wider? = some wide) :
    2 * w.modulus ≤ wide.modulus := by
  cases w <;> cases h <;> decide

/-- A flag is a value of every width. -/
theorem truncate_of_le_one (w : Width) (h : v ≤ 1) : w.truncate v = v :=
  truncate_of_lt (by have := w.two_le_modulus; omega)

/-! ## What a narrower destination keeps -/

/-- A truncated result does not depend on whether it was first evaluated in 128 bits. -/
theorem truncate_oword_truncate (w : Width) (v : Nat) :
    w.truncate (Width.oword.truncate v) = w.truncate v :=
  Nat.mod_mod_of_dvd v (modulus_dvd_of_le w.bits_le)

/-- An integer stored in a wide register and truncated is the integer stored in the narrow one. -/
theorem truncate_ofInt_of_le (le : w.bits ≤ wide.bits) (i : Int) :
    w.truncate (wide.ofInt i) = w.ofInt i := by
  have dvd : (w.modulus : Int) ∣ (wide.modulus : Int) :=
    Int.natCast_dvd_natCast.2 (modulus_dvd_of_le le)
  have same : (w.truncate (wide.ofInt i) : Int) = (w.ofInt i : Int) := by
    rw [truncate, Int.natCast_emod, natCast_ofInt, natCast_ofInt, Int.emod_emod_of_dvd i dvd]
  exact Int.ofNat.inj same

theorem truncate_oword_ofInt (w : Width) (i : Int) :
    w.truncate (Width.oword.ofInt i) = w.ofInt i :=
  truncate_ofInt_of_le w.bits_le i

/-- Adding a stored integer adds the integer itself, as far as the width can tell. -/
theorem truncate_add_ofInt (w : Width) (v : Nat) (i : Int) :
    w.truncate (v + w.ofInt i) = w.ofInt (v + i) := by
  have same : (w.truncate (v + w.ofInt i) : Int) = (w.ofInt (v + i) : Int) := by
    rw [truncate, Int.natCast_emod, Int.natCast_add, natCast_ofInt, natCast_ofInt, Int.add_emod_emod]
  exact Int.ofNat.inj same

/-- The low bits of a difference depend on the low bits only. -/
theorem ofInt_truncate_sub (w : Width) (u v : Nat) :
    w.ofInt (w.truncate u - w.truncate v) = w.ofInt (u - v) := by
  have same : (w.ofInt (w.truncate u - w.truncate v) : Int) = (w.ofInt (u - v) : Int) := by
    rw [natCast_ofInt, natCast_ofInt, truncate, truncate, Int.natCast_emod, Int.natCast_emod,
      ← Int.sub_emod]
  exact Int.ofNat.inj same

theorem ofInt_natCast (h : v < w.modulus) : w.ofInt v = v := by
  have same : (w.ofInt v : Int) = (v : Int) := by
    rw [natCast_ofInt]
    exact Int.emod_eq_of_lt (Int.natCast_nonneg v) (Int.ofNat_lt.2 h)
  exact Int.ofNat.inj same

/-- The negation of a positive value is what is missing to the modulus. -/
theorem ofInt_neg (pos : 0 < v) (h : v < w.modulus) : w.ofInt (-v) = w.modulus - v := by
  have same : (w.ofInt (-v) : Int) = (w.modulus : Int) - v := by
    rw [natCast_ofInt, ← Int.add_emod_right]
    rw [show (-(v : Int) + w.modulus) = w.modulus - v by omega]
    exact Int.emod_eq_of_lt (by omega) (by omega)
  omega

/-- The and with a number of the width is a number of the width. -/
theorem truncate_and (u : Nat) (hv : v < w.modulus) :
    w.truncate (u &&& v) = u &&& v := by
  rw [modulus_eq_two_pow] at hv
  exact truncate_of_lt (w.modulus_eq_two_pow ▸ Nat.and_lt_two_pow u hv)

theorem truncate_or (hu : u < w.modulus) (hv : v < w.modulus) :
    w.truncate (u ||| v) = u ||| v := by
  rw [modulus_eq_two_pow] at hu hv
  exact truncate_of_lt (w.modulus_eq_two_pow ▸ Nat.or_lt_two_pow hu hv)

theorem truncate_xor (hu : u < w.modulus) (hv : v < w.modulus) :
    w.truncate (u ^^^ v) = u ^^^ v := by
  rw [modulus_eq_two_pow] at hu hv
  exact truncate_of_lt (w.modulus_eq_two_pow ▸ Nat.xor_lt_two_pow hu hv)

theorem truncate_mask (w : Width) : w.truncate w.mask = w.mask :=
  truncate_of_lt (Nat.sub_lt w.modulus_pos Nat.one_pos)

/-- The complement is the distance to the greatest value. -/
theorem xor_mask (h : v < w.modulus) : v ^^^ w.mask = w.mask - v := by
  rw [mask, modulus_eq_two_pow] at *
  refine Nat.eq_of_testBit_eq fun i => ?_
  rw [show 2 ^ w.bits - 1 - v = 2 ^ w.bits - (v + 1) by omega, Nat.testBit_two_pow_sub_succ h,
    Nat.testBit_xor, Nat.testBit_two_pow_sub_one]
  by_cases inside : i < w.bits
  · simp [inside]
  · have high : v.testBit i = false :=
      Nat.testBit_lt_two_pow (Nat.lt_of_lt_of_le h (Nat.pow_le_pow_right (by omega) (by omega)))
    simp [inside, high]

theorem and_mask (w : Width) (v : Nat) : v &&& w.mask = w.truncate v := by
  rw [mask, truncate, modulus_eq_two_pow]
  exact Nat.and_two_pow_sub_one_eq_mod v w.bits

/-! ## Signs -/

theorem toSigned_of_lt (h : v < w.signBit) : w.toSigned v = v := by
  have below : v < w.modulus := by
    have := w.modulus_eq_two_mul_signBit
    omega
  rw [toSigned, truncate_of_lt below, if_pos h]

theorem toSigned_of_le (le : w.signBit ≤ v) (h : v < w.modulus) :
    w.toSigned v = (v : Int) - w.modulus := by
  rw [toSigned, truncate_of_lt h, if_neg (by omega)]

/-- The signed value of a number by the cases of its sign bit. -/
theorem toSigned_eq (h : v < w.modulus) :
    w.toSigned v = if w.signBit ≤ v then (v : Int) - w.modulus else v := by
  split
  · next le => exact toSigned_of_le le h
  · next lt => exact toSigned_of_lt (by omega)

/-- A signed value is negative if the sign bit is set. -/
theorem toSigned_neg_iff (h : v < w.modulus) : w.toSigned v < 0 ↔ w.signBit ≤ v := by
  by_cases lt : v < w.signBit
  · rw [toSigned_of_lt lt]
    omega
  · rw [toSigned_of_le (by omega) h]
    omega

/-- No number but zero has the signed value zero. -/
theorem toSigned_eq_zero_iff (h : v < w.modulus) : w.toSigned v = 0 ↔ v = 0 := by
  by_cases lt : v < w.signBit
  · rw [toSigned_of_lt lt]
    omega
  · have := w.signBit_pos
    rw [toSigned_of_le (by omega) h]
    omega

/-- The most significant bit is the flag of a negative number. -/
theorem div_signBit (h : v < w.modulus) : v / w.signBit = flag (w.toSigned v < 0) := by
  rw [flag_congr (toSigned_neg_iff h)]
  rw [modulus_eq_two_mul_signBit] at h
  by_cases le : w.signBit ≤ v
  · rw [flag_of le, Nat.div_eq_of_lt_le] <;> omega
  · rw [flag_of_not le, Nat.div_eq_of_lt (by omega)]

/-- The least signed value is the one with nothing but the sign bit set. -/
theorem neg_signBit_le_toSigned (w : Width) (v : Nat) : -(w.signBit : Int) ≤ w.toSigned v := by
  have half := w.modulus_eq_two_mul_signBit
  unfold toSigned
  split <;> omega

/-- Signed values end below the sign bit. -/
theorem toSigned_lt_signBit (w : Width) (v : Nat) : w.toSigned v < w.signBit := by
  have half := w.modulus_eq_two_mul_signBit
  have lt := w.truncate_lt v
  unfold toSigned
  split <;> omega

/-- An integer in the signed range is read back as it was stored. -/
theorem toSigned_ofInt_of_mem {i : Int} (low : -(w.signBit : Int) ≤ i) (high : i < w.signBit) :
    w.toSigned (w.ofInt i) = i := by
  have half := w.modulus_eq_two_mul_signBit
  rw [toSigned_ofInt]
  exact Int.bmod_eq_of_le (by omega) (by omega)

/-- The distance of a shift, read back from the operand that holds it. -/
theorem toSigned_ofInt_neg (h : k ≤ w.signBit) : w.toSigned (w.ofInt (-k)) = -k := by
  have := w.signBit_pos
  exact toSigned_ofInt_of_mem (by omega) (by omega)

/-! ## Comparison -/

/-- Inverting the sign bit moves the signed reading up by half the modulus. -/
theorem xor_signBit (h : v < w.modulus) :
    ((v ^^^ w.signBit : Nat) : Int) = w.toSigned v + w.signBit := by
  have pos := w.signBit_pos
  have half := w.modulus_eq_two_mul_signBit
  -- the top bit is inverted, and those below it stay
  have high : (v ^^^ w.signBit) / w.signBit = flag (¬ w.toSigned v < 0) := by
    have top : w.signBit / w.signBit = 1 := Nat.div_self pos
    rw [← flag_xor_one, ← div_signBit h, ← top]
    simp only [signBit_eq_two_pow, Nat.xor_div_two_pow]
  have low : (v ^^^ w.signBit) % w.signBit = v % w.signBit := by
    simp only [signBit_eq_two_pow, Nat.xor_mod_two_pow, Nat.mod_self, Nat.xor_zero]
  have whole := Nat.div_add_mod (v ^^^ w.signBit) w.signBit
  have whole' := Nat.div_add_mod v w.signBit
  rw [high, low] at whole
  rw [div_signBit h] at whole'
  by_cases neg : w.toSigned v < 0
  · rw [flag_of_not fun nonneg => nonneg neg] at whole
    rw [flag_of neg] at whole'
    rw [toSigned_of_le ((toSigned_neg_iff h).1 neg) h]
    omega
  · have lt := mt (toSigned_neg_iff h).2 neg
    rw [flag_of neg] at whole
    rw [flag_of_not neg] at whole'
    rw [toSigned_of_lt (by omega)]
    omega

/-- Numbers with inverted sign bits are in the order of their distances from the least number of their
own widths, which is the signed order if the widths are the same. -/
theorem xor_signBit_lt_iff {w' : Width} (hu : u < w.modulus) (hv : v < w'.modulus) :
    u ^^^ w.signBit < v ^^^ w'.signBit ↔
      w.toSigned u + w.signBit < w'.toSigned v + w'.signBit := by
  have left := xor_signBit hu
  have right := xor_signBit hv
  omega

/-- One width wider, a difference has its sign. -/
theorem toSigned_ofInt_sub (wider : w.wider? = some wide) (hu : u < w.modulus)
    (hv : v < w.modulus) : wide.toSigned (wide.ofInt (u - v)) = (u : Int) - v := by
  have room := two_mul_modulus_le wider
  have half := wide.modulus_eq_two_mul_signBit
  exact toSigned_ofInt_of_mem (by omega) (by omega)

theorem bits_le_signBit (w : Width) : w.bits ≤ w.signBit := by cases w <;> decide

/-! ## Negation -/

/-- A mask is all ones or nothing, and subtracting it adds one or nothing. -/
theorem ofInt_sub_mask {f : Nat} (hf : f ≤ 1) (h : v < w.modulus) :
    w.ofInt ((v ^^^ w.ofInt (0 - f) : Nat) - (w.ofInt (0 - f) : Nat)) =
      if f = 0 then v else w.ofInt (-v) := by
  have cases_on : f = 0 ∨ f = 1 := by omega
  rcases cases_on with rfl | rfl
  · have nothing : w.ofInt (0 - (0 : Nat)) = 0 := ofInt_natCast w.modulus_pos
    rw [nothing, Nat.xor_zero, if_pos rfl, show ((v : Int) - (0 : Nat)) = v by omega,
      ofInt_natCast h]
  · have ones : w.ofInt (0 - (1 : Nat)) = w.mask := by
      rw [show ((0 : Int) - (1 : Nat)) = -(1 : Nat) by omega,
        ofInt_neg Nat.one_pos w.two_le_modulus]
      rfl
    rw [ones, xor_mask h, if_neg (by omega), mask]
    congr 1
    omega

/-- The magnitude of a number is the number or its negation. -/
theorem natAbs_toSigned (h : v < w.modulus) :
    (if flag (w.toSigned v < 0) = 0 then v else w.ofInt (-v)) = (w.toSigned v).natAbs := by
  by_cases neg : w.toSigned v < 0
  · have le := (toSigned_neg_iff h).1 neg
    have pos := w.signBit_pos
    rw [flag_of neg, if_neg (by omega), ofInt_neg (by omega) h, toSigned_of_le le h]
    omega
  · have lt : v < w.signBit := by
      have := mt (toSigned_neg_iff h).2 neg
      omega
    rw [flag_of_not neg, if_pos rfl, toSigned_of_lt lt]
    omega

/-- A number is its magnitude, negated again if the number is negative. -/
theorem negateIf_natAbs_toSigned (h : v < w.modulus) :
    (if flag (w.toSigned v < 0) = 0 then (w.toSigned v).natAbs
      else w.ofInt (-(w.toSigned v).natAbs)) = v := by
  by_cases neg : w.toSigned v < 0
  · have negated : -((w.toSigned v).natAbs : Int) = w.toSigned v := by omega
    rw [flag_of neg, if_neg Nat.one_ne_zero, negated, ofInt_toSigned, truncate_of_lt h]
  · have lt : v < w.signBit := by
      have := mt (toSigned_neg_iff h).2 neg
      omega
    rw [flag_of_not neg, if_pos rfl, toSigned_of_lt lt, Int.natAbs_natCast]

/-- Signed division is division of magnitudes, negated if the signs differ. -/
theorem ofInt_tdiv (a b : Int) (h : a.natAbs / b.natAbs < w.modulus) :
    (if flag (¬ (a < 0 ↔ b < 0)) = 0 then a.natAbs / b.natAbs
      else w.ofInt (-(a.natAbs / b.natAbs : Nat))) = w.ofInt (a.tdiv b) := by
  by_cases same : a < 0 ↔ b < 0
  · have quotient : a.tdiv b = (a.natAbs / b.natAbs : Nat) := by
      by_cases neg : a < 0
      · have neg' := same.1 neg
        obtain ⟨m, rfl⟩ : ∃ m : Nat, a = -m := ⟨a.natAbs, by omega⟩
        obtain ⟨n, rfl⟩ : ∃ n : Nat, b = -n := ⟨b.natAbs, by omega⟩
        rw [Int.neg_tdiv, Int.tdiv_neg, Int.neg_neg, Int.natAbs_neg, Int.natAbs_neg,
          Int.natAbs_natCast, Int.natAbs_natCast]
        rfl
      · have pos' := mt same.2 neg
        obtain ⟨m, rfl⟩ := Int.eq_ofNat_of_zero_le (show 0 ≤ a by omega)
        obtain ⟨n, rfl⟩ := Int.eq_ofNat_of_zero_le (show 0 ≤ b by omega)
        rfl
    rw [flag_of_not (fun differ => differ same), if_pos rfl, quotient, ofInt_natCast h]
  · have quotient : a.tdiv b = -(a.natAbs / b.natAbs : Nat) := by
      by_cases neg : a < 0
      · have pos' : ¬ b < 0 := fun neg' => same ⟨fun _ => neg', fun _ => neg⟩
        obtain ⟨m, rfl⟩ : ∃ m : Nat, a = -m := ⟨a.natAbs, by omega⟩
        obtain ⟨n, rfl⟩ := Int.eq_ofNat_of_zero_le (show 0 ≤ b by omega)
        rw [Int.neg_tdiv, Int.natAbs_neg, Int.natAbs_natCast, Int.natAbs_natCast]
        rfl
      · have neg' : b < 0 := by
          by_cases neg' : b < 0
          · exact neg'
          · exact absurd ⟨fun h => absurd h neg, fun h => absurd h neg'⟩ same
        obtain ⟨m, rfl⟩ := Int.eq_ofNat_of_zero_le (show 0 ≤ a by omega)
        obtain ⟨n, rfl⟩ : ∃ n : Nat, b = -n := ⟨b.natAbs, by omega⟩
        rw [Int.tdiv_neg, Int.natAbs_neg, Int.natAbs_natCast, Int.natAbs_natCast]
        rfl
    rw [flag_of same, if_neg (by omega), quotient]

/-! ## Sums -/

/-- The sum of two signed numbers and a carry is out of range. -/
def Overflows (w : Width) (a b c : Nat) : Prop :=
  w.toSigned a + w.toSigned b + c < -w.signBit ∨ w.signBit ≤ w.toSigned a + w.toSigned b + c

instance (w : Width) (a b c : Nat) : Decidable (w.Overflows a b c) :=
  inferInstanceAs (Decidable (_ ∨ _))

/-- A signed sum overflows if it lies outside the signed range. -/
theorem overflows_iff {a b c : Nat} :
    w.Overflows a b c ↔ ¬ (-(2 ^ (w.bits - 1) : Int) ≤ w.toSigned a + w.toSigned b + c ∧
      w.toSigned a + w.toSigned b + c < 2 ^ (w.bits - 1)) := by
  have half : (w.signBit : Int) = 2 ^ (w.bits - 1) := by
    rw [w.signBit_eq_two_pow]
    exact Int.natCast_pow 2 _
  rw [Overflows, half]
  omega

/-- The signs of both addends differ from the sign of the sum exactly if the signed sum is lost. -/
theorem overflow_bit {a b c : Nat} (ha : a < w.modulus) (hb : b < w.modulus) (hc : c ≤ 1) :
    ((a ^^^ w.truncate (a + b + c)) &&& (b ^^^ w.truncate (a + b + c))) / w.signBit =
      flag (w.Overflows a b c) := by
  have hr := w.truncate_lt (a + b + c)
  -- the sum keeps within the width, or loses the modulus once
  have sum : a + b + c = w.truncate (a + b + c) ∨
      a + b + c = w.truncate (a + b + c) + w.modulus := by
    by_cases fits : a + b + c < w.modulus
    · exact .inl (truncate_of_lt fits).symm
    · refine .inr ?_
      rw [truncate, Nat.mod_eq_sub_mod (by omega), Nat.mod_eq_of_lt (by omega)]
      omega
  generalize w.truncate (a + b + c) = r at hr sum
  have sign : ∀ {v}, v < w.modulus → v / w.signBit = flag (w.signBit ≤ v) := fun h =>
    (div_signBit h).trans (flag_congr (toSigned_neg_iff h))
  -- the top bit says whether a number stands for a negative one
  have top : ∀ {v}, v < w.modulus → v.testBit (w.bits - 1) = decide (w.signBit ≤ v) := by
    intro v h
    have := flag_le_one (w.signBit ≤ v)
    rw [Nat.testBit_eq_decide_div_mod_eq, ← signBit_eq_two_pow, sign h]
    by_cases le : w.signBit ≤ v <;> simp [flag, le]
  have both : (a ^^^ r) &&& (b ^^^ r) < w.modulus := by
    rw [modulus_eq_two_pow] at *
    exact Nat.and_lt_two_pow _ (Nat.xor_lt_two_pow hb hr)
  rw [sign both]
  refine flag_congr (decide_eq_true_iff.symm.trans ?_)
  have bit := top both
  rw [Nat.testBit_and, Nat.testBit_xor, Nat.testBit_xor, top ha, top hb, top hr] at bit
  have half := w.modulus_eq_two_mul_signBit
  rw [← bit, Overflows, toSigned_eq ha, toSigned_eq hb]
  -- eight cases of signs, in each of which the distance of the sum from its rest decides
  by_cases la : w.signBit ≤ a <;> by_cases lb : w.signBit ≤ b <;> by_cases lr : w.signBit ≤ r <;>
    simp only [la, lb, lr, decide_true, decide_false, Bool.xor_true, Bool.xor_false, Bool.not_true,
      Bool.not_false, Bool.and_true, Bool.and_false, Bool.false_eq_true, true_iff, false_iff,
      if_true, if_false] <;>
    omega

/-! ## Products -/

/-- The low bits of a product depend on the low bits of its factors only. -/
theorem truncate_ofInt_mul (i j : Int) : w.truncate (w.ofInt i * w.ofInt j) = w.ofInt (i * j) := by
  have same : (w.truncate (w.ofInt i * w.ofInt j) : Int) = (w.ofInt (i * j) : Int) := by
    rw [truncate, Int.natCast_emod, Int.natCast_mul, natCast_ofInt, natCast_ofInt, natCast_ofInt,
      ← Int.mul_emod]
  exact Int.ofNat.inj same

/-- The low bits of a product do not depend on how its factors are read. -/
theorem truncate_mul (w : Width) (u v : Nat) :
    w.truncate (u * v) = w.ofInt (w.toSigned u * w.toSigned v) := by
  rw [← truncate_ofInt_mul, ofInt_toSigned, ofInt_toSigned, truncate, truncate, truncate, truncate,
    ← Nat.mul_mod]

/-- No product of two signed values is greater than that of the least one with itself. -/
theorem natAbs_mul_le (w : Width) (u v : Nat) :
    (w.toSigned u * w.toSigned v).natAbs ≤ w.signBit * w.signBit := by
  have left := w.neg_signBit_le_toSigned u
  have left' := w.toSigned_lt_signBit u
  have right := w.neg_signBit_le_toSigned v
  have right' := w.toSigned_lt_signBit v
  rw [Int.natAbs_mul]
  exact Nat.mul_le_mul (by omega) (by omega)

/-- A number survives the way through a narrower width exactly if it is a signed number of it. -/
theorem ofInt_toSigned_eq_iff (le : w.bits ≤ wide.bits) {i : Int} (low : -(wide.signBit : Int) ≤ i)
    (high : i < wide.signBit) :
    wide.ofInt (w.toSigned (w.ofInt i)) = wide.ofInt i ↔ -(w.signBit : Int) ≤ i ∧ i < w.signBit := by
  have narrow : w.signBit ≤ wide.signBit := by
    rw [signBit_eq_two_pow, signBit_eq_two_pow]
    exact Nat.pow_le_pow_right (by omega) (by omega)
  have least := w.neg_signBit_le_toSigned (w.ofInt i)
  have greatest := w.toSigned_lt_signBit (w.ofInt i)
  constructor
  · intro same
    have read := congrArg wide.toSigned same
    rw [toSigned_ofInt_of_mem (by omega) (by omega), toSigned_ofInt_of_mem low high] at read
    omega
  · intro inside
    rw [toSigned_ofInt_of_mem inside.1 inside.2]

/-! ## Shifts -/

/-- The bits of a signed number from an index on, as far as they were kept. -/
theorem truncate_ofInt_div (room : k + w.bits ≤ wide.bits) (i : Int) :
    w.truncate (wide.ofInt i / 2 ^ k) = w.ofInt (i / 2 ^ k) := by
  have whole : (wide.modulus : Int) = 2 ^ (wide.bits - k) * 2 ^ k := by
    rw [modulus_eq_two_pow, ← Int.pow_add, Nat.sub_add_cancel (by omega)]
    norm_cast
  obtain ⟨c, kept⟩ : (w.modulus : Int) ∣ 2 ^ (wide.bits - k) := by
    rw [modulus_eq_two_pow]
    norm_cast
    exact Nat.pow_dvd_pow 2 (by omega)
  have pos : (2 ^ k : Int) ≠ 0 := Int.pow_ne_zero (by decide)
  have shifted : i / 2 ^ k =
      i % wide.modulus / 2 ^ k + 2 ^ (wide.bits - k) * (i / wide.modulus) := by
    calc i / 2 ^ k
        = (i % wide.modulus + 2 ^ (wide.bits - k) * (i / wide.modulus) * 2 ^ k) / 2 ^ k := by
          rw [Int.mul_right_comm, ← whole, Int.emod_add_mul_ediv]
      _ = _ := Int.add_mul_ediv_right _ _ pos
  have same : (w.truncate (wide.ofInt i / 2 ^ k) : Int) = (w.ofInt (i / 2 ^ k) : Int) := by
    rw [truncate, Int.natCast_emod, natCast_ofInt, shifted, Int.natCast_ediv, natCast_ofInt, kept,
      Int.mul_assoc, Int.add_mul_emod_self_left]
    norm_cast
  exact Int.ofNat.inj same

/-- Whether a power of two divides what is stored of an integer can be seen from the integer. -/
theorem two_pow_dvd_ofInt_iff (le : k ≤ w.bits) (i : Int) :
    2 ^ k ∣ w.ofInt i ↔ (2 ^ k : Int) ∣ i := by
  have dvd : (2 ^ k : Int) ∣ (w.modulus : Int) := by
    rw [modulus_eq_two_pow]
    norm_cast
    exact Nat.pow_dvd_pow 2 le
  rw [← Int.natCast_dvd_natCast, natCast_ofInt]
  push_cast
  rw [Int.dvd_iff_emod_eq_zero, Int.emod_emod_of_dvd i dvd, ← Int.dvd_iff_emod_eq_zero]

end Width

/-- A left shift is a product with a power of two. -/
theorem shiftValue_natCast {k : Nat} (h : k < 128) (v : Nat) :
    shiftValue v k = Width.oword.truncate (v * 2 ^ k) := by
  rw [shiftValue, Int.natAbs_natCast, if_neg (by omega), if_pos (by omega), Nat.shiftLeft_eq]

/-- A right shift is a division by a power of two. -/
theorem shiftValue_neg {k : Nat} (pos : 0 < k) (h : k < 128) (v : Nat) :
    shiftValue v (-k) = v / 2 ^ k := by
  rw [shiftValue, Int.natAbs_neg, Int.natAbs_natCast, if_neg (by omega), if_neg (by omega)]
  exact Nat.shiftRight_eq_div_pow v k

/-- A right shift, perhaps by nothing. -/
theorem shiftValue_neg_of_lt {k v : Nat} (h : k < 128) (hv : v < Width.oword.modulus) :
    shiftValue v (-k) = v / 2 ^ k := by
  rcases Nat.eq_zero_or_pos k with rfl | pos
  · have nothing := shiftValue_natCast h v
    rw [Nat.pow_zero, Nat.mul_one, Width.truncate_of_lt hv] at nothing
    rw [Nat.pow_zero, Nat.div_one]
    exact nothing
  · exact shiftValue_neg pos h v

end RegisterTransfer
