import RegisterTransfer.Proofs.PowerPC.Additions

/-!
# Emitted comparisons

The code of a comparison, run by itself from any machine. The unsigned one subtracts one width above
both operands, where the sign of the difference is the borrow, and is right for operands of any two
widths. The signed one inverts the sign bit of each operand first. That moves each signed reading up
by half the modulus of its own width, and so keeps the order of operands of one width only: a byte
and a word that are both zero come out in order.

> `PowerPC.emits_unsignedLess`, `PowerPC.emits_signedLess`: the flags of the two comparisons.
> `PowerPC.emitted_comparison_orders`: both, and the signed order of operands of one width.
> `PowerPC.zeros_misordered`: a comparison of two widths that is wrong.
-/

namespace RegisterTransfer

namespace Script

variable {a b : Operand} {wide : Width}

theorem unsignedLess_took (wider : (max a.width b.width).wider? = some wide) (x : Expansion) :
    ∃ o X, (unsignedLess a b).run x = (.ok o, X) ∧ x.Took X .byte o := by
  unfold unsignedLess
  rw [wider]
  exact ⟨_, _, rfl, x.taken + 1, Nat.le_succ _, Nat.lt_succ_self _, rfl⟩

theorem signedLess_took (wider : (max a.width b.width).wider? = some wide) (x : Expansion) :
    ∃ o X, (signedLess a b).run x = (.ok o, X) ∧ x.Took X .byte o := by
  -- what is compared in the end are the first two temporaries
  let left : Operand := .register (temporaryName x.taken) a.width
  let right : Operand := .register (temporaryName (x.taken + 1)) b.width
  let y : Expansion := ((flipSign b).run ((flipSign a).run x).2).2
  obtain ⟨o, X, ran, took⟩ := unsignedLess_took (a := left) (b := right) wider y
  exact ⟨o, X, ran, took.mono (Nat.le_add_right _ 2) (Nat.le_refl _)⟩

end Script

namespace PowerPC

variable {m : Machine} {x : Expansion} {a b : Operand} {u v : Nat} {wide : Width}

section Flags

variable (processor : m.cpu = cpu) (unlimited : m.settings.stepLimit = none)
  (wider : (max a.width b.width).wider? = some wide) (first : m.Supplies x a u)
  (second : m.Supplies x b v)

include processor unlimited wider first second

/-- The flag of an unsigned comparison, for operands of any two widths. -/
theorem emits_unsignedLess :
    m.Emits x (Script.unsignedLess a b) fun o X f => f.Delivers x X .byte (flag (u < v)) o := by
  refine Script.Calculates.emits_value [(a, u), (b, v)] (.unsignedLess wider) ?_
    (processor ▸ cpu_plain) unlimited ?_ ?_ (Script.unsignedLess_took wider x)
  · intro O common each
    exact ⟨O, Script.confined_unsignedLess common (each (a, u) (by simp)) (each (b, v) (by simp))⟩
  · simp [first, second]
  · intro e plain held
    exact Script.Runs.unsignedLess plain wider (held (a, u) (by simp)) (held (b, v) (by simp))

/-- The flag of a signed comparison, in which each operand counts from the least number of its own
width. -/
theorem emits_signedLess :
    m.Emits x (Script.signedLess a b) fun o X f => f.Delivers x X .byte
      (flag (a.width.toSigned u + a.width.signBit < b.width.toSigned v + b.width.signBit)) o := by
  refine Script.Calculates.emits_value [(a, u), (b, v)] (.signedLess wider) ?_
    (processor ▸ cpu_plain) unlimited ?_ ?_ (Script.signedLess_took wider x)
  · intro O common each
    exact ⟨O, Script.confined_signedLess common (each (a, u) (by simp)) (each (b, v) (by simp))⟩
  · simp [first, second]
  · intro e plain held
    exact Script.Runs.signedLess plain wider (held (a, u) (by simp)) (held (b, v) (by simp))

end Flags

/--
The code of a comparison, run on its own from any machine. Whatever the widths of the operands, the
unsigned comparison leaves the flag of the order of their values. The signed one leaves the flag of
the order of the signed readings moved up by half the modulus of each width. For operands of one
width this is the order of the signed readings.
-/
theorem emitted_comparison_orders {m : Machine} {x : Expansion} {a b : Operand} {u v : Nat}
    (processor : m.cpu = cpu) (unlimited : m.settings.stepLimit = none)
    (narrow : a.width ≠ .oword) (narrow' : b.width ≠ .oword) (first : m.Supplies x a u)
    (second : m.Supplies x b v) :
    m.Emits x (Script.unsignedLess a b)
        (fun o X f => f.Delivers x X .byte (flag (u < v)) o) ∧
      m.Emits x (Script.signedLess a b)
        (fun o X f => f.Delivers x X .byte
          (flag (a.width.toSigned u + 2 ^ (a.width.bits - 1) <
            b.width.toSigned v + 2 ^ (b.width.bits - 1))) o) ∧
      (a.width = b.width → m.Emits x (Script.signedLess a b)
        fun o X f => f.Delivers x X .byte (flag (a.width.toSigned u < b.width.toSigned v)) o) := by
  obtain ⟨wide, wider⟩ := Width.exists_wider (Width.max_ne narrow narrow')
  have half : ∀ w : Width, (w.signBit : Int) = 2 ^ (w.bits - 1) := fun w => by
    rw [w.signBit_eq_two_pow]
    exact Int.natCast_pow 2 _
  have signed := emits_signedLess processor unlimited wider first second
  refine ⟨emits_unsignedLess processor unlimited wider first second, ?_, fun same => ?_⟩
  · simp only [half] at signed
    exact signed
  · have order : a.width.toSigned u + a.width.signBit < b.width.toSigned v + b.width.signBit ↔
        a.width.toSigned u < b.width.toSigned v := by
      rw [same]
      omega
    rw [flag_congr order] at signed
    exact signed

/-- A machine with the least signed number in `%r3`. -/
def beforeComparison : Machine := (Machine.start {} cpu).setGpr 3 0x80000000

/-- The least number and the program counter stand in opposite orders, signed and unsigned. -/
theorem leastNumber_orders :
    beforeComparison.Emits ownAddress
        (Script.unsignedLess (.register (gprName 3) .dword) (.register programCounter .dword))
        (fun o X f => f.Delivers ownAddress X .byte 0 o) ∧
      beforeComparison.Emits ownAddress
        (Script.signedLess (.register (gprName 3) .dword) (.register programCounter .dword))
        fun o X f => f.Delivers ownAddress X .byte 1 o := by
  have first := Machine.supplies_register (m := beforeComparison) cpu_plain (isTemporary_gprName 3)
    (gprName_ne_programCounter 3) (v := 0x80000000) rfl ownAddress .dword
  have second := Machine.supplies_programCounter (m := beforeComparison) cpu_plain ownAddress .dword
  -- the address is a number of every width, whatever the width of the program counter
  have small (w : Width) : w.truncate ownAddress.native = ownAddress.native := by cases w <;> rfl
  rw [small, small] at second
  obtain ⟨unsigned, -, signed⟩ := emitted_comparison_orders
    (a := .register (gprName 3) .dword) (b := .register programCounter .dword) rfl rfl nofun nofun
    first second
  exact ⟨unsigned, signed rfl⟩

/--
A byte and a word that are both zero are found in order: the sign bit of the byte is below that of
the word.
-/
theorem zeros_misordered :
    (Machine.start {} cpu).Emits ownAddress
        (Script.signedLess (.integer 0 .byte) (.integer 0 .word))
        (fun o X f => f.Delivers ownAddress X .byte 1 o) ∧
      ¬ Width.byte.toSigned 0 < Width.word.toSigned 0 :=
  ⟨emits_signedLess (a := .integer 0 .byte) (b := .integer 0 .word) rfl rfl rfl
    (Machine.supplies_integer _ _ 0 .byte) (Machine.supplies_integer _ _ 0 .word), by decide⟩

end PowerPC

end RegisterTransfer
