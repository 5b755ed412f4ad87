import RegisterTransfer.Proofs.Lockstep

/-!
# Twin machines

Machines that agree on everything but temporaries, where the temporaries that are held on one side
have their twins on the other. Corresponding operands read the same on both, and corresponding
computations give the same, or the same fault: a read of an undefined register of the processor, or a
division by zero where divisions are allowed.

> `Scope.Computes.outcome`: what twins compute.
-/

namespace RegisterTransfer

/-- The faults that an expansion can cause by itself, that is, without a jump out of it. -/
inductive Fault.Mild (settings : MachineSettings) (division : Prop) : Fault Address → Prop
  | undefinedRead {name place} (mode : settings.undefinedReads = .fail)
    (native : isTemporary name = false) : Mild settings division (.undefinedRead name place)
  | divisionByZero {place} (h : division) : Mild settings division (.divisionByZero place)

/-! ## Twin machines -/

namespace Machine

/-- Two machines that agree on everything but temporaries and counters. -/
structure SameNative (m m' : Machine) : Prop where
  settings : m'.settings = m.settings
  cpu : m'.cpu = m.cpu
  memory : m'.memory = m.memory
  register? : ∀ {name}, isTemporary name = false → m'.register? name = m.register? name

theorem SameNative.refl (m : Machine) : m.SameNative m := ⟨rfl, rfl, rfl, fun _ => rfl⟩

/--
Two machines that agree on everything but temporaries, where each temporary that is held by the first
has its twin, `d` numbers further, in the second.
-/
structure Twins (d : Nat) (held : List (Nat × Width)) (m m' : Machine) : Prop
    extends m.SameNative m' where
  plain : m.cpu.Plain
  holds : ∀ {n w}, (n, w) ∈ held →
    ∃ v, m.register? (temporaryName n) = some (.ofNat v w .defined) ∧
      m'.register? (temporaryName (n + d)) = some (.ofNat v w .defined)

namespace Twins

variable {d : Nat} {held : List (Nat × Width)} {m m' : Machine}

theorem plain' (h : m.Twins d held m') : m'.cpu.Plain := h.cpu ▸ h.plain

/-- Twins in some temporaries are twins in fewer of them. -/
theorem subset (h : m.Twins d held m') {fewer : List (Nat × Width)} (sub : fewer ⊆ held) :
    m.Twins d fewer m' :=
  { h with holds := fun mem => h.holds (sub mem) }

theorem counted (h : m.Twins d held m') : m.counted.Twins d held m'.counted :=
  ⟨⟨h.settings, h.cpu, h.memory, h.register?⟩, h.plain, h.holds⟩

theorem jumped (h : m.Twins d held m') : m.jumped.Twins d held m'.jumped :=
  ⟨⟨h.settings, h.cpu, h.memory, h.register?⟩, h.plain, h.holds⟩

theorem loaded (h : m.Twins d held m') (a : Nat) (w : Width) :
    (m.loaded a w).Twins d held (m'.loaded a w) :=
  ⟨⟨h.settings, h.cpu, by simp only [Machine.loaded, h.memory], h.register?⟩, h.plain, h.holds⟩

theorem stored (h : m.Twins d held m') (a v : Nat) (w : Width) :
    (m.stored a v w).Twins d held (m'.stored a v w) :=
  ⟨⟨h.settings, h.cpu, by simp only [Machine.stored, h.memory], h.register?⟩, h.plain, h.holds⟩

/-- Writing the same to a register of the processor. -/
theorem setRegister (h : m.Twins d held m') {name : String} (native : isTemporary name = false)
    (v : Nat) (w : Width) :
    (m.setRegister name v w .defined).Twins d held (m'.setRegister name v w .defined) where
  settings := h.settings
  cpu := h.cpu
  memory := h.memory
  plain := h.plain
  register? {other} ho := by
    rw [register?_setRegister h.plain', register?_setRegister h.plain, h.register? ho]
  holds {n w'} mem := by
    obtain ⟨u, left, right⟩ := h.holds mem
    refine ⟨u, ?_, ?_⟩
    · rw [register?_setRegister h.plain, if_neg (ne_temporaryName native n).symm, left]
    · rw [register?_setRegister h.plain', if_neg (ne_temporaryName native (n + d)).symm, right]

/-- Writing the same to a new temporary and to its twin. -/
theorem hold (h : m.Twins d held m') {n : Nat} (new : ∀ w, (n, w) ∉ held) (v : Nat)
    (w : Width) :
    (m.setRegister (temporaryName n) v w .defined).Twins d ((n, w) :: held)
      (m'.setRegister (temporaryName (n + d)) v w .defined) where
  settings := h.settings
  cpu := h.cpu
  memory := h.memory
  plain := h.plain
  register? {other} ho := by
    rw [register?_setRegister h.plain', if_neg (ne_temporaryName ho _),
      register?_setRegister h.plain, if_neg (ne_temporaryName ho _), h.register? ho]
  holds {k w'} mem := by
    rcases List.mem_cons.1 mem with e | old
    · cases e
      exact ⟨v, by rw [register?_setRegister h.plain, if_pos rfl],
        by rw [register?_setRegister h.plain', if_pos rfl]⟩
    · have ne : k ≠ n := fun e => new w' (e ▸ old)
      obtain ⟨u, left, right⟩ := h.holds old
      refine ⟨u, ?_, ?_⟩
      · rw [register?_setRegister h.plain, if_neg (fun e => ne (temporaryName_injective e)), left]
      · rw [register?_setRegister h.plain', if_neg, right]
        intro e
        have := temporaryName_injective e
        omega

/-- The program counter is no temporary, so both get the same. -/
theorem syncProgramCounter (h : m.Twins d held m') (native : Nat) :
    (m.syncProgramCounter native).Twins d held (m'.syncProgramCounter native) := by
  unfold Machine.syncProgramCounter
  rw [h.cpu]
  exact h.setRegister h.plain.programCounter _ _

/-- A register of the processor becomes undefined on both sides, with the same value. -/
theorem undefineRegister (h : m.Twins d held m') {name : String}
    (native : isTemporary name = false) (w : Width) :
    (m.undefineRegister name w).Twins d held (m'.undefineRegister name w) where
  settings := h.settings
  cpu := h.cpu
  memory := h.memory
  plain := h.plain
  register? {other} ho := by
    rw [register?_undefineRegister h.plain', register?_undefineRegister h.plain, h.register? ho,
      h.register? native]
  holds {n w'} mem := by
    obtain ⟨u, left, right⟩ := h.holds mem
    refine ⟨u, ?_, ?_⟩
    · rw [register?_undefineRegister h.plain, if_neg (ne_temporaryName native n).symm, left]
    · rw [register?_undefineRegister h.plain', if_neg (ne_temporaryName native (n + d)).symm, right]

end Twins

end Machine

/-! ## What twins read and compute -/

section Sources

variable {division : Prop} {d : Nat} {Γ : Scope} {m m' : Machine}

/-- Corresponding sources read the same, and fail only at a register of the processor. -/
theorem Scope.Reads.source {o o' : Operand} (h : Γ.Reads d o o') (division : Prop)
    (twins : m.Twins d Γ.held m') (place : Address) :
    m'.source place o' = m.source place o ∧
      ∀ {f}, m.source place o = .error f → f.Mild m.settings division := by
  cases h with
  | integer v w => exact ⟨rfl, fun e => by cases e⟩
  | @native name native w =>
    have value : m'.value? name = m.value? name := by
      simp only [Machine.value?, twins.register? native]
    refine ⟨by simp only [Machine.source, Operand.register, value, twins.settings], ?_⟩
    intro f e
    simp only [Machine.source, Operand.register] at e
    split at e
    · cases e
    · split at e
      · next mode =>
        cases e
        exact .undefinedRead mode native
      · cases e
  | @temporary n w mem =>
    obtain ⟨v, left, right⟩ := twins.holds mem
    have value : m.value? (temporaryName n) = some (w.truncate v) := by
      simp only [Machine.value?, left]
      rfl
    have value' : m'.value? (temporaryName (n + d)) = some (w.truncate v) := by
      simp only [Machine.value?, right]
      rfl
    refine ⟨by simp only [Machine.source, Operand.register, value, value'], fun e => ?_⟩
    simp only [Machine.source, Operand.register, value] at e
    cases e

/-- What can be read is a number or a register, and so are its values. -/
theorem Scope.Reads.not_address {o o' : Operand} (h : Γ.Reads d o o') :
    (∀ t, o.kind ≠ .address t) ∧ ∀ t, o'.kind ≠ .address t := by
  cases h <;> exact ⟨nofun, nofun⟩

/-- Instructions whose widths fit pass the check. -/
theorem checkWidths_of_fits {i : Instruction}
    (h : i.opcode.Fits i.op1.width i.op2.width i.op3.width) : i.checkWidths = .ok () := by
  cases opcode : i.opcode with
  | add | sub | mul =>
    rw [opcode] at h
    simp only [Instruction.checkWidths, opcode]
    exact if_neg h
  | and | or | xor =>
    rw [opcode] at h
    simp only [Instruction.checkWidths, opcode]
    exact if_pos h
  | div | mod | bsh | bisz | jcc | ldm | stm | str | nop | undef | unkn | halt =>
    simp only [Instruction.checkWidths, opcode]

/-- Where the widths fit, an operation fails only by its sources or by a division by zero. -/
theorem combine_of_fits {i : Instruction}
    (h : i.opcode.Fits i.op1.width i.op2.width i.op3.width) (m : Machine) :
    m.combine i = (do
      let a ← m.source i.address i.op1
      let b ← m.source i.address i.op2
      match i.opcode.combine i.op2.width a b with
      | some v => return v
      | none => throw (.divisionByZero i.address)) := by
  rw [Machine.combine, checkWidths_of_fits h]
  rfl

/-- What an opcode of two sources has to write is what it makes of them. -/
theorem outcome_of_combines {i : Instruction} (h : i.opcode.combines) (m : Machine) :
    m.outcome i = (m.combine i).map (·, m) := by
  unfold Machine.outcome
  split
  · next e => rw [e] at h; cases h
  · next e => rw [e] at h; cases h
  · next e => rw [e] at h; cases h
  · rfl

/-- Only divisions can have no value. -/
theorem divides_of_combine_eq_none {opcode : Opcode} {w : Width} {a b : Nat}
    (h : opcode.combine w a b = none) : opcode = .div ∨ opcode = .mod := by
  cases opcode with
  | div => exact .inl rfl
  | mod => exact .inr rfl
  | add | sub | mul | bsh | and | or | xor | bisz | jcc | ldm | stm | str | nop | undef | unkn
  | halt => cases h

/-- Two outcomes of twins: the same fault, or the same value and twins again. -/
def TwinOutcomes (division : Prop) (d : Nat) (Γ : Scope) (m : Machine)
    (r r' : Except (Fault Address) (Nat × Machine)) : Prop :=
  (∃ f, r = .error f ∧ r' = .error f ∧ f.Mild m.settings division) ∨
    ∃ v k k', r = .ok (v, k) ∧ r' = .ok (v, k') ∧ k.Twins d Γ.held k' ∧ k.settings = m.settings

/-- Twins that read the same combine it to the same. -/
theorem Scope.Reads.outcome_combine {opcode : Opcode} {a b a' b' o o' : Operand}
    (first : Γ.Reads d a a') (second : Γ.Reads d b b') (two : opcode.combines)
    (divides : opcode = .div ∨ opcode = .mod → division)
    (fits : opcode.Fits a.width b.width o.width) (width : o'.width = o.width)
    (twins : m.Twins d Γ.held m') (place : Address) :
    TwinOutcomes division d Γ m (m.outcome ⟨place, opcode, a, b, o, none⟩)
      (m'.outcome ⟨place, opcode, a', b', o', none⟩) := by
  obtain ⟨same, mild⟩ := first.source division twins place
  obtain ⟨same', mild'⟩ := second.source division twins place
  have fits' : opcode.Fits a'.width b'.width o'.width := by
    rw [width, first.width, second.width]
    exact fits
  rw [outcome_of_combines two, outcome_of_combines two, combine_of_fits fits, combine_of_fits fits']
  dsimp only
  rw [same, same', second.width]
  cases ha : m.source place a with
  | error f => exact .inl ⟨f, rfl, rfl, mild ha⟩
  | ok u =>
    cases hb : m.source place b with
    | error f => exact .inl ⟨f, rfl, rfl, mild' hb⟩
    | ok v =>
      cases hc : opcode.combine b.width u v with
      | none =>
        -- only a division by zero has no value
        refine .inl ⟨.divisionByZero place, ?_, ?_,
          .divisionByZero (divides (divides_of_combine_eq_none hc))⟩
        · simp only [bind, Except.bind, hc]
          rfl
        · simp only [bind, Except.bind, hc]
          rfl
      | some r =>
        refine .inr ⟨r, m, m', ?_, ?_, twins, rfl⟩
        · simp only [bind, Except.bind, hc]
          rfl
        · simp only [bind, Except.bind, hc]
          rfl

/-- Twins compute the same, or fail in the same way. -/
theorem Scope.Computes.outcome {opcode : Opcode} {a b a' b' : Operand} {w : Width}
    (h : Γ.Computes division d opcode a b w a' b') (o o' : Operand) (width : o.width = w)
    (width' : o'.width = w) (twins : m.Twins d Γ.held m') (place : Address) :
    TwinOutcomes division d Γ m (m.outcome ⟨place, opcode, a, b, o, none⟩)
      (m'.outcome ⟨place, opcode, a', b', o', none⟩) := by
  cases h with
  | combine two divides fits first second =>
    subst width
    exact first.outcome_combine second two divides fits width' twins place
  | pass one first =>
    obtain ⟨same, mild⟩ := first.source division twins place
    rcases one with rfl | rfl | rfl
    · simp only [Machine.outcome, same]
      cases ha : m.source place a with
      | error f => exact .inl ⟨f, rfl, rfl, mild ha⟩
      | ok u => exact .inr ⟨_, m, m', rfl, rfl, twins, rfl⟩
    · simp only [Machine.outcome, same]
      cases ha : m.source place a with
      | error f => exact .inl ⟨f, rfl, rfl, mild ha⟩
      | ok u => exact .inr ⟨_, m, m', rfl, rfl, twins, rfl⟩
    · -- a load reads the same memory, and counts on both sides
      simp only [Machine.outcome, same, width, width', twins.memory]
      cases ha : m.source place a with
      | error f => exact .inl ⟨f, rfl, rfl, mild ha⟩
      | ok u => exact .inr ⟨_, _, _, rfl, rfl, twins.loaded _ _, rfl⟩

end Sources

end RegisterTransfer
