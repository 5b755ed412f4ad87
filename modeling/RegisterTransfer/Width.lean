/-!
# Operand widths

Every operand of the intermediate representation carries one of five widths, and every value that
crosses a width boundary is reduced to it. Values are natural numbers: `Width.truncate` is the
residue modulo `2 ^ bits`, written with a shift, and `Width.toSigned` reads that residue as a two's
complement number.

> `toSigned_eq_bmod`: the signed reading is the balanced residue.
> `ofInt_toSigned`: encoding a signed reading gives the low bits back.
-/

namespace RegisterTransfer

/-- The width of an operand, narrowest first. -/
inductive Width where
  | byte
  | word
  | dword
  | qword
  | oword
  deriving DecidableEq, Repr, Inhabited

namespace Width

/-- Number of bits. -/
def bits : Width → Nat
  | byte => 8
  | word => 16
  | dword => 32
  | qword => 64
  | oword => 128

/-- Number of bytes. -/
def bytes (w : Width) : Nat := w.bits / 8

/-- The number of values of this width. -/
def modulus (w : Width) : Nat := 1 <<< w.bits

/-- The all-ones value, which is also the greatest. -/
def mask (w : Width) : Nat := w.modulus - 1

/-- The value with only the most significant bit set. -/
def signBit (w : Width) : Nat := 1 <<< (w.bits - 1)

/-- Widths are ordered by their number of bits. -/
instance : Ord Width := ⟨fun a b => compare a.bits b.bits⟩

instance : LT Width := ⟨fun a b => a.bits < b.bits⟩

instance : LE Width := ⟨fun a b => a.bits ≤ b.bits⟩

instance (a b : Width) : Decidable (a < b) := inferInstanceAs (Decidable (a.bits < b.bits))

instance (a b : Width) : Decidable (a ≤ b) := inferInstanceAs (Decidable (a.bits ≤ b.bits))

/-- The wider of two widths. -/
instance : Max Width := ⟨fun a b => if a < b then b else a⟩

/-- The next wider width, in which a carry out of this one is still visible. -/
def wider? : Width → Option Width
  | byte => some word
  | word => some dword
  | dword => some qword
  | qword => some oword
  | oword => none

/-- The width of a given number of bits. -/
def ofBits? : Nat → Option Width
  | 8 => some byte
  | 16 => some word
  | 32 => some dword
  | 64 => some qword
  | 128 => some oword
  | _ => none

/-! ## Values of a width -/

/-- The low bits of a value. -/
def truncate (w : Width) (v : Nat) : Nat := v % w.modulus

/-- The low bits of a value, read as a two's complement number. -/
def toSigned (w : Width) (v : Nat) : Int :=
  if w.truncate v < w.signBit then w.truncate v else (w.truncate v : Int) - w.modulus

/-- The two's complement encoding of an integer. -/
def ofInt (w : Width) (i : Int) : Nat := (i % w.modulus).toNat

theorem modulus_pos (w : Width) : 0 < w.modulus := by cases w <;> decide

theorem truncate_lt (w : Width) (v : Nat) : w.truncate v < w.modulus :=
  Nat.mod_lt _ w.modulus_pos

theorem truncate_of_lt {w : Width} {v : Nat} (h : v < w.modulus) : w.truncate v = v :=
  Nat.mod_eq_of_lt h

@[simp] theorem truncate_truncate (w : Width) (v : Nat) :
    w.truncate (w.truncate v) = w.truncate v :=
  truncate_of_lt (w.truncate_lt v)

/-- The sign bit is worth half of the modulus. -/
theorem modulus_eq_two_mul_signBit (w : Width) : w.modulus = 2 * w.signBit := by
  cases w <;> rfl

/-- Reading as two's complement is the balanced residue. -/
theorem toSigned_eq_bmod (w : Width) (v : Nat) : w.toSigned v = (v : Int).bmod w.modulus := by
  have half : (w.modulus + 1) / 2 = w.signBit := by cases w <;> rfl
  have cast : (v : Int) % (w.modulus : Int) = (w.truncate v : Int) := by
    rw [truncate, Int.natCast_emod]
  have split_at : ((w.modulus : Int) + 1) / 2 = (w.signBit : Int) := by
    rw [← half, Int.natCast_ediv]
    rfl
  simp only [toSigned, Int.bmod, cast, split_at, Int.ofNat_lt]

/-- What is stored of an integer is its remainder modulo the modulus, which is not negative. -/
theorem natCast_ofInt (w : Width) (i : Int) : (w.ofInt i : Int) = i % w.modulus := by
  have pos : (0 : Int) < w.modulus := Int.natCast_pos.2 w.modulus_pos
  exact Int.toNat_of_nonneg (Int.emod_nonneg i (Int.ne_of_gt pos))

theorem ofInt_lt (w : Width) (i : Int) : w.ofInt i < w.modulus := by
  have pos : (0 : Int) < w.modulus := Int.natCast_pos.2 w.modulus_pos
  have below := Int.emod_lt_of_pos i pos
  rw [← natCast_ofInt] at below
  exact Int.ofNat_lt.1 below

@[simp] theorem truncate_ofInt (w : Width) (i : Int) : w.truncate (w.ofInt i) = w.ofInt i :=
  truncate_of_lt (w.ofInt_lt i)

/-- Encoding what was read as two's complement gives the low bits back. -/
theorem ofInt_toSigned (w : Width) (v : Nat) : w.ofInt (w.toSigned v) = w.truncate v := by
  have h : (w.ofInt (w.toSigned v) : Int) = (w.truncate v : Int) := by
    rw [natCast_ofInt, toSigned_eq_bmod, Int.bmod_emod, truncate, Int.natCast_emod]
  exact Int.ofNat.inj h

/-- Reading an encoded integer gives its balanced residue. -/
theorem toSigned_ofInt (w : Width) (i : Int) : w.toSigned (w.ofInt i) = i.bmod w.modulus := by
  rw [toSigned_eq_bmod, natCast_ofInt, Int.emod_bmod]

/-! ## Names -/

/-- The name used in listings. -/
def name : Width → String
  | byte => "byte"
  | word => "word"
  | dword => "dword"
  | qword => "qword"
  | oword => "oword"

instance : ToString Width := ⟨name⟩

/-- The capitalised name, which descriptions of resolved operands use. -/
def title : Width → String
  | byte => "Byte"
  | word => "Word"
  | dword => "Dword"
  | qword => "Qword"
  | oword => "Oword"

/-- Reads a width by name or as `b` and its bits, in any mix of ASCII case. -/
def ofName? (text : String) : Option Width :=
  match text.toLower with
  | "byte" | "b8" => some byte
  | "word" | "b16" => some word
  | "dword" | "b32" => some dword
  | "qword" | "b64" => some qword
  | "oword" | "b128" => some oword
  | _ => none

end Width

end RegisterTransfer
