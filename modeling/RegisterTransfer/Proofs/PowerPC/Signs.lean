import RegisterTransfer.Proofs.ExactResults
import RegisterTransfer.Proofs.PowerPC.Additions

/-!
# Emitted changes of sign

The code of a sign extension and of a magnitude, run by itself from any machine. Neither needs a
wider width, so both are right up to the greatest one. The magnitude of the least number of a width
is half the modulus, which is no signed number of that width, and yet negating it again gives the
least number back.

> `Script.Runs.roundTrip`: negated by its sign, a magnitude is the number again.
> `PowerPC.emits_signExtend`, `PowerPC.emits_magnitude`, `PowerPC.emits_roundTrip`: what each
> leaves.
> `PowerPC.emitted_signs_are_kept`: all three for every width.
-/

namespace RegisterTransfer

namespace Script

/-- The magnitude of a signed number with its sign, and what negating it by that sign gives. -/
def roundTrip (a : Operand) : Script ((Operand × Operand) × Operand) := do
  let size ← magnitude a
  return (size, ← negateIf size.1 size.2)

variable {a : Operand} {x : Expansion} {m : Machine} {u : Nat}

theorem Calculates.roundTrip (a : Operand) : (Script.roundTrip a).Calculates none :=
  (Calculates.magnitude a).bind fun size => (Calculates.negateIf size.1 size.2).bind fun _ => rfl

/-- Whatever the instructions of a magnitude have to do with their operands, so have the others. -/
theorem confined_roundTrip {O : Operand → Prop} (common : Operand.Common O) (h : O a) :
    (roundTrip a).Each (·.Confined O) fun r => (O r.1.1 ∧ O r.1.2) ∧ O r.2 :=
  (confined_magnitude common h).bind fun size =>
    (confined_negateIf common size.1 size.2).bind fun back => ⟨size, back⟩

/-- Negated by its sign, a magnitude is the number again. -/
theorem Runs.roundTrip (plain : m.cpu.Plain) (h : m.Holds x.taken a u) :
    (Script.roundTrip a).Runs x m fun r X m' =>
      (Computed x m a.width (a.width.toSigned u).natAbs r.1.1 X m' ∧
        Computed x m .byte (flag (a.width.toSigned u < 0)) r.1.2 X m') ∧
      Computed x m a.width u r.2 X m' := by
  apply (Runs.magnitude plain h).bind
  intro size X₁ m₁ ⟨magnitude, sign⟩
  have back := Runs.negateIf magnitude.plain sign.width magnitude.holds sign.holds (flag_le_one _)
  rw [magnitude.width, Width.negateIf_natAbs_toSigned h.lt] at back
  apply back.bind
  intro o X₂ m₂ back
  exact .pure ⟨⟨magnitude.kept back.toLeaves, sign.kept back.toLeaves⟩,
    back.after magnitude.toLeaves⟩

/-! ## What is handed on -/

theorem signExtend_took (a : Operand) (w : Width) (x : Expansion) :
    ∃ o X, (signExtend a w).run x = (.ok o, X) ∧ x.Took X w o :=
  -- two temporaries lead up to the difference
  ⟨_, _, rfl, x.taken + 2, Nat.le_add_right _ _, Nat.lt_succ_self _, rfl⟩

theorem negateIf_took (a f : Operand) (x : Expansion) :
    ∃ o X, (negateIf a f).run x = (.ok o, X) ∧ x.Took X a.width o :=
  ⟨_, _, rfl, x.taken + 2, Nat.le_add_right _ _, Nat.lt_succ_self _, rfl⟩

/-- A magnitude comes as two new temporaries, the number and its sign. -/
theorem magnitude_took (a : Operand) (x : Expansion) :
    ∃ r X, (magnitude a).run x = (.ok r, X) ∧ x.Took X a.width r.1 ∧ x.Took X .byte r.2 := by
  -- the sign comes first
  let y := ((signBit a).run x).2
  obtain ⟨o, X, ran, took⟩ := negateIf_took a (.register (temporaryName x.taken) .byte) y
  have grows : y.taken < X.taken := by
    obtain ⟨k, above, below, -⟩ := took
    omega
  refine ⟨(o, .register (temporaryName x.taken) .byte), X, ?_, ?_, ?_⟩
  · show (negateIf a (.register (temporaryName x.taken) .byte) >>= _).run y = _
    rw [run_bind, ran]
    rfl
  · exact took.mono (Nat.le_succ _) (Nat.le_refl _)
  · exact ⟨x.taken, Nat.le_refl _, Nat.lt_of_succ_lt grows, rfl⟩

theorem roundTrip_took (a : Operand) (x : Expansion) :
    ∃ r X, (roundTrip a).run x = (.ok r, X) ∧ (x.Took X a.width r.1.1 ∧ x.Took X .byte r.1.2) ∧
      x.Took X a.width r.2 := by
  obtain ⟨size, y, ran, took, took'⟩ := magnitude_took a x
  obtain ⟨back, X, ran', took''⟩ := negateIf_took size.1 size.2 y
  have width : size.1.width = a.width := by
    obtain ⟨_, -, -, same⟩ := took
    rw [same]
    rfl
  have begins : x.taken ≤ y.taken := (Calculates.magnitude a).extends_of_run ran |>.taken
  have grows : y.taken ≤ X.taken := (Calculates.negateIf _ _).extends_of_run ran' |>.taken
  refine ⟨(size, back), X, ?_, ⟨took.mono (Nat.le_refl _) grows, took'.mono (Nat.le_refl _) grows⟩,
    width ▸ took''.mono begins (Nat.le_refl _)⟩
  show (magnitude a >>= _).run x = _
  rw [run_bind, ran]
  show (negateIf size.1 size.2 >>= _).run y = _
  rw [run_bind, ran']
  rfl

end Script

namespace PowerPC

variable {m : Machine} {x : Expansion} {a : Operand} {v : Nat}

section Signs

variable (processor : m.cpu = cpu) (unlimited : m.settings.stepLimit = none)
  (h : m.Supplies x a v)

include processor unlimited h

/-- The low bits of the signed number, at any width. -/
theorem emits_signExtend (w : Width) :
    m.Emits x (Script.signExtend a w) fun o X f =>
      f.Delivers x X w (w.ofInt (a.width.toSigned v)) o := by
  refine Script.Calculates.emits_value [(a, v)] (.signExtend a w) ?_ (processor ▸ cpu_plain)
    unlimited ?_ ?_ (Script.signExtend_took a w x)
  · intro O common each
    exact ⟨O, Script.confined_signExtend common (each (a, v) (by simp))⟩
  · simp [h]
  · intro e plain held
    exact Script.Runs.signExtend plain (held (a, v) (by simp)) w

/-- The magnitude and the sign. -/
theorem emits_magnitude :
    m.Emits x (Script.magnitude a) fun r X f =>
      f.Delivers x X a.width (a.width.toSigned v).natAbs r.1 ∧
        f.Delivers x X .byte (flag (a.width.toSigned v < 0)) r.2 := by
  refine Script.Calculates.emits [(a, v)] (.magnitude a) ?_ (processor ▸ cpu_plain) unlimited ?_
    (fun plain held => Script.Runs.magnitude plain (held (a, v) (by simp)))
    (fun known => known.1.toLeaves) (Script.magnitude_took a x) ?_
  · intro O common each
    exact ⟨_, Script.confined_magnitude common (each (a, v) (by simp))⟩
  · simp [h]
  · rintro e r X m' f delivers ⟨took, took'⟩ ⟨size, sign⟩
    exact ⟨delivers size.holds took, delivers sign.holds took'⟩

/-- The magnitude and the sign, and the number that they are the magnitude and the sign of. -/
theorem emits_roundTrip :
    m.Emits x (Script.roundTrip a) fun r X f =>
      (f.Delivers x X a.width (a.width.toSigned v).natAbs r.1.1 ∧
        f.Delivers x X .byte (flag (a.width.toSigned v < 0)) r.1.2) ∧
      f.Delivers x X a.width v r.2 := by
  refine Script.Calculates.emits [(a, v)] (.roundTrip a) ?_ (processor ▸ cpu_plain) unlimited ?_
    (fun plain held => Script.Runs.roundTrip plain (held (a, v) (by simp)))
    (fun known => known.2.toLeaves) (Script.roundTrip_took a x) ?_
  · intro O common each
    exact ⟨_, Script.confined_roundTrip common (each (a, v) (by simp))⟩
  · simp [h]
  · rintro e r X m' f delivers ⟨⟨took, took'⟩, took''⟩ ⟨⟨size, sign⟩, back⟩
    exact ⟨⟨delivers size.holds took, delivers sign.holds took'⟩, delivers back.holds took''⟩

end Signs

/--
The code of a sign extension, of a magnitude and of the way there and back, run on its own from any
machine, for an operand of any width. The sign extension leaves the signed reading modulo the target
width, wider or narrower. The magnitude leaves the absolute value of the signed reading, and whether
it is negative. Negated if it is, the magnitude is the value of the operand again.
-/
theorem emitted_signs_are_kept {m : Machine} {x : Expansion} {a : Operand} {v : Nat}
    (processor : m.cpu = cpu) (unlimited : m.settings.stepLimit = none) (h : m.Supplies x a v) :
    (∀ w : Width, m.Emits x (Script.signExtend a w) fun o X f =>
        f.Delivers x X w (a.width.toSigned v % 2 ^ w.bits).toNat o) ∧
      (m.Emits x (Script.magnitude a) fun r X f =>
        f.Delivers x X a.width (a.width.toSigned v).natAbs r.1 ∧
          f.Delivers x X .byte (flag (a.width.toSigned v < 0)) r.2) ∧
      m.Emits x (Script.roundTrip a) fun r X f =>
        (f.Delivers x X a.width (a.width.toSigned v).natAbs r.1.1 ∧
          f.Delivers x X .byte (flag (a.width.toSigned v < 0)) r.1.2) ∧
        f.Delivers x X a.width v r.2 := by
  refine ⟨fun w => ?_, emits_magnitude processor unlimited h, emits_roundTrip processor unlimited h⟩
  rw [← Width.ofInt_eq]
  exact emits_signExtend processor unlimited h w

/-- The least number of the greatest width has zeros in its low half, and itself as its magnitude. -/
theorem leastOword_is_kept :
    let least : Operand := .integer (2 ^ 127) .oword
    (Machine.start {} cpu).Emits ownAddress (Script.signExtend least .qword)
        (fun o X f => f.Delivers ownAddress X .qword 0 o) ∧
      (Machine.start {} cpu).Emits ownAddress (Script.roundTrip least) fun r X f =>
        (f.Delivers ownAddress X .oword (2 ^ 127) r.1.1 ∧
          f.Delivers ownAddress X .byte 1 r.1.2) ∧
        f.Delivers ownAddress X .oword (2 ^ 127) r.2 := by
  obtain ⟨extended, -, back⟩ := emitted_signs_are_kept rfl rfl
    (Machine.supplies_integer (Machine.start {} cpu) ownAddress (2 ^ 127) .oword)
  exact ⟨extended .qword, back⟩

end PowerPC

end RegisterTransfer
