import RegisterTransfer.Lifting.Computation
import RegisterTransfer.Proofs.Lockstep

/-!
# Computations in lockstep

The scripts that compute with operands, applied to corresponding operands, are in lockstep: one lemma
a script, each assembled from those of the scripts it calls. What a computation yields is a
temporary that holds a value from there on (`Scope.Yields`).
-/

namespace RegisterTransfer

/-! ## Widths that fit -/

theorem Width.max_self (w : Width) : max w w = w := if_neg (Nat.lt_irrefl _)

theorem Width.not_lt_max_self (w : Width) : ¬ w < max w w := by cases w <;> decide

theorem Width.not_lt_max_byte (w : Width) : ¬ w < max w .byte := by cases w <;> decide

/-- A width is not below the maximum of itself and a narrower one. -/
theorem Width.not_lt_max_of_le {w wide : Width} (h : w ≤ wide) : ¬ wide < max wide w := by
  have widest : max wide w = wide := if_neg (Nat.not_lt_of_le h)
  rw [widest]
  exact Nat.lt_irrefl _

/-- There is room for what has a width at the next wider one. -/
theorem Width.not_wider_lt {w wide : Width} (h : w.wider? = some wide) : ¬ wide < w := by
  cases w <;> cases h <;> decide

/-- So there is room for what has two operands of one width. -/
theorem Width.not_wider_lt_max {w w' wide : Width} (wider : w.wider? = some wide)
    (same : w' = w) : ¬ wide < max w w' := by
  rw [same, Width.max_self]
  exact Width.not_wider_lt wider

/-- Below the greatest width there is a wider one. -/
theorem Width.exists_wider {w : Width} (narrow : w ≠ .oword) : ∃ wide, w.wider? = some wide := by
  cases w <;> first | exact ⟨_, rfl⟩ | contradiction

/-- The wider of two widths is one of them. -/
theorem Width.max_ne {w w' v : Width} (ne : w ≠ v) (ne' : w' ≠ v) : max w w' ≠ v := by
  show (if w < w' then w' else w) ≠ v
  split <;> assumption

/-! ## Scopes that grow -/

namespace Scope

/-- A later scope with the same labels. -/
structure Extends (Γ Γ' : Scope) : Prop where
  held : Γ.held ⊆ Γ'.held
  labels : Γ'.labels = Γ.labels
  size : Γ.size ≤ Γ'.size

/-- A later scope with the same labels and at least one more instruction. -/
structure Advances (Γ Γ' : Scope) : Prop extends Γ.Extends Γ' where
  further : Γ.size < Γ'.size

/-- Corresponding results of a width, and the scope behind what computed them. -/
structure Yields (Γ : Scope) (d : Nat) (w : Width) (o o' : Operand) (Γ' : Scope) : Prop where
  grows : Γ.Extends Γ'
  reads : Γ'.Reads d o o'
  width : o.width = w

variable {Γ Γ' Γ'' : Scope} {d : Nat} {w : Width} {o o' : Operand}

theorem Extends.refl (Γ : Scope) : Γ.Extends Γ := ⟨fun _ h => h, rfl, Nat.le_refl _⟩

/-- Scopes that grow one after the other have grown. -/
theorem Extends.trans (h : Γ.Extends Γ') (h' : Γ'.Extends Γ'') : Γ.Extends Γ'' :=
  ⟨fun _ mem => h'.held (h.held mem), h'.labels.trans h.labels, Nat.le_trans h.size h'.size⟩

theorem extends_next (Γ : Scope) : Γ.Extends Γ.next := ⟨fun _ h => h, rfl, Nat.le_succ _⟩

theorem advances_next (Γ : Scope) : Γ.Advances Γ.next := ⟨Γ.extends_next, Nat.lt_succ_self _⟩

theorem Extends.advances (h : Γ.Extends Γ') (h' : Γ'.Advances Γ'') : Γ.Advances Γ'' :=
  ⟨h.trans h'.toExtends, Nat.lt_of_le_of_lt h.size h'.further⟩

theorem Advances.extends (h : Γ.Advances Γ') (h' : Γ'.Extends Γ'') : Γ.Advances Γ'' :=
  ⟨h.toExtends.trans h', Nat.lt_of_lt_of_le h.further h'.size⟩

theorem extends_hold (Γ : Scope) (w : Width) : Γ.Extends (Γ.hold w) :=
  ⟨fun _ h => List.mem_cons_of_mem _ h, rfl, Nat.le_succ _⟩

/-- What can be read stays readable as long as temporaries only gain values. -/
theorem Reads.of_held (h : Γ.Reads d o o') (more : Γ.held ⊆ Γ'.held) : Γ'.Reads d o o' := by
  cases h with
  | integer v w => exact .integer v w
  | native native w => exact .native native w
  | temporary mem => exact .temporary (more mem)

theorem Reads.extend (h : Γ.Reads d o o') (grows : Γ.Extends Γ') : Γ'.Reads d o o' :=
  h.of_held grows.held

/-- The same result, said of an earlier scope. -/
theorem Yields.after (h : Γ'.Yields d w o o' Γ'') (grows : Γ.Extends Γ') : Γ.Yields d w o o' Γ'' :=
  { h with grows := grows.trans h.grows }

theorem Yields.of_reads (h : Γ.Reads d o o') : Γ.Yields d o.width o o' Γ := ⟨.refl Γ, h, rfl⟩

/-- The temporary that was just given a value is what a computation results in. -/
theorem yields_hold (Γ : Scope) (d : Nat) (w : Width) :
    Γ.Yields d w (.register (temporaryName Γ.count) w) (.register (temporaryName (Γ.count + d)) w)
      (Γ.hold w) :=
  ⟨Γ.extends_hold w, .temporary (List.mem_cons_self ..), rfl⟩

end Scope

/-! ## Scripts that compute -/

namespace Script.Lockstep

variable {division : Prop} {d : Nat} {Γ : Scope} {α β : Type} {a a' b b' : Operand} {w : Width}
  {opcode : Opcode}

/-- A weaker account of the results. -/
theorem mono {Q R : α → α → Scope → Prop} {s t : Script α} (h : Lockstep division d Q Γ s t)
    (weaken : ∀ {a b Γ'}, Q a b Γ' → R a b Γ') : Lockstep division d R Γ s t := by
  have same : s >>= pure = s := bind_pure s
  have same' : t >>= pure = t := bind_pure t
  rw [← same, ← same']
  exact h.bind fun _ _ _ q => .done (weaken q)

/-- A temporary for a computed value, and what is done with it. -/
theorem computing {R : β → β → Scope → Prop} {f f' : Operand → Script β}
    (h : Γ.Computes division d opcode a b w a' b')
    (rest : ∀ {o o' Γ'}, Γ.Yields d w o o' Γ' → Lockstep division d R Γ' (f o) (f' o')) :
    Lockstep division d R Γ (temporary w >>= fun o => emit opcode a b o >>= fun _ => f o)
      (temporary w >>= fun o => emit opcode a' b' o >>= fun _ => f' o) :=
  .compute h rfl rfl (rest (Γ.yields_hold d w))

/-- A temporary for a computed value, as the result. -/
theorem computed (h : Γ.Computes division d opcode a b w a' b') :
    Lockstep division d (Γ.Yields d w) Γ (do let o ← temporary w; emit opcode a b o; return o)
      (do let o ← temporary w; emit opcode a' b' o; return o) :=
  computing h .done

theorem binary (two : opcode.combines) (divides : opcode = .div ∨ opcode = .mod → division)
    (fits : opcode.Fits a.width b.width a.width) (first : Γ.Reads d a a')
    (second : Γ.Reads d b b') :
    Lockstep division d (Γ.Yields d a.width) Γ (Script.binary opcode a b)
      (Script.binary opcode a' b') := by
  unfold Script.binary
  rw [first.width]
  exact computed (.combine two divides fits first second)

/-- Bitwise operations of operands of one width. -/
theorem bitwise (kind : opcode = .and ∨ opcode = .or ∨ opcode = .xor) (same : a.width = b.width)
    (first : Γ.Reads d a a') (second : Γ.Reads d b b') :
    Lockstep division d (Γ.Yields d a.width) Γ (Script.binary opcode a b)
      (Script.binary opcode a' b') := by
  rcases kind with rfl | rfl | rfl <;> exact binary rfl nofun same first second

/-- Sums, differences and products of operands of one width. -/
theorem arithmetic (kind : opcode = .add ∨ opcode = .sub ∨ opcode = .mul)
    (same : a.width = b.width) (first : Γ.Reads d a a') (second : Γ.Reads d b b') :
    Lockstep division d (Γ.Yields d a.width) Γ (Script.binary opcode a b)
      (Script.binary opcode a' b') := by
  have fits : ¬ a.width < max a.width b.width := same ▸ a.width.not_lt_max_self
  rcases kind with rfl | rfl | rfl <;> exact binary rfl nofun fits first second

theorem divide (divides : division) (first : Γ.Reads d a a') (second : Γ.Reads d b b') :
    Lockstep division d (Γ.Yields d a.width) Γ (Script.binary .div a b)
      (Script.binary .div a' b') :=
  binary rfl (fun _ => divides) trivial first second

theorem complement (h : Γ.Reads d a a') :
    Lockstep division d (Γ.Yields d a.width) Γ (Script.complement a) (Script.complement a') := by
  unfold Script.complement
  rw [h.width]
  exact bitwise (.inr (.inr rfl)) rfl h (.integer _ _)

theorem flagNot (h : Γ.Reads d a a') :
    Lockstep division d (Γ.Yields d a.width) Γ (Script.flagNot a) (Script.flagNot a') := by
  unfold Script.flagNot
  rw [h.width]
  exact bitwise (.inr (.inr rfl)) rfl h (.integer _ _)

theorem signBit (h : Γ.Reads d a a') :
    Lockstep division d (Γ.Yields d .byte) Γ (Script.signBit a) (Script.signBit a') := by
  unfold Script.signBit
  rw [h.width]
  exact computed (.combine rfl nofun trivial h (.integer _ _))

theorem isZero (h : Γ.Reads d a a') :
    Lockstep division d (Γ.Yields d .byte) Γ (Script.isZero a) (Script.isZero a') :=
  computed (.pass (.inl rfl) h)

theorem isNonzero (h : Γ.Reads d a a') :
    Lockstep division d (Γ.Yields d .byte) Γ (Script.isNonzero a) (Script.isNonzero a') := by
  refine (isZero h).bind fun o o' Γ' zero => (flagNot zero.reads).mono fun h => ?_
  exact zero.width ▸ h.after zero.grows

theorem equal (same : a.width = b.width) (first : Γ.Reads d a a') (second : Γ.Reads d b b') :
    Lockstep division d (Γ.Yields d .byte) Γ (Script.equal a b) (Script.equal a' b') := by
  refine (bitwise (.inr (.inr rfl)) same first second).bind fun o o' Γ' difference => ?_
  exact (isZero difference.reads).mono fun h => h.after difference.grows

/-! ### Addition -/

/-- Corresponding results of an addition, and the scope behind it. -/
structure Sums (Γ : Scope) (d : Nat) (w : Width) (r r' : Addition) (Γ' : Scope) : Prop where
  result : Γ.Yields d w r.result r'.result Γ'
  carry : Option.Rel (Γ'.Reads d) r.carry r'.carry
  overflow : Option.Rel (Γ'.Reads d) r.overflow r'.overflow

variable {c c' : Option Operand}

/-- Corresponding sums with a carry are in lockstep if no source is wider than the sum. -/
theorem wideSum {wide : Width} (first : Γ.Reads d a a')
    (second : Γ.Reads d b b') (carry : Option.Rel (Γ.Reads d) c c')
    (fits : ¬ wide < max a.width b.width) (fits_carry : ∀ o, c = some o → ¬ wide < max wide o.width) :
    Lockstep division d (Γ.Yields d wide) Γ (Script.wideSum wide a b c)
      (Script.wideSum wide a' b' c') := by
  refine computing (.combine rfl nofun fits first second) fun {o o' Γ'} sum => ?_
  cases carry with
  | none => exact .done sum
  | some carry =>
    refine (computed (.combine rfl nofun ?_ sum.reads (carry.extend sum.grows))).mono
      fun h => h.after sum.grows
    rw [sum.width]
    exact fits_carry _ rfl

theorem carryOut {wide : Width} {sum sum' : Operand} (h : Γ.Reads d sum sum') :
    Lockstep division d (Γ.Yields d .byte) Γ (Script.carryOut w wide sum)
      (Script.carryOut w wide sum') :=
  computed (.combine rfl nofun trivial h (.integer _ _))

theorem overflowOut {r r' : Operand} (first : Γ.Reads d a a') (second : Γ.Reads d b b')
    (result : Γ.Reads d r r') (same : a.width = r.width) (same' : b.width = r.width) :
    Lockstep division d (Γ.Yields d .byte) Γ (Script.overflowOut a b r)
      (Script.overflowOut a' b' r') := by
  refine (bitwise (.inr (.inr rfl)) same first result).bind fun o o' Γ₁ left => ?_
  refine (bitwise (.inr (.inr rfl)) same' (second.extend left.grows)
    (result.extend left.grows)).bind fun p p' Γ₂ right => ?_
  refine (bitwise (.inl rfl) ?_ (left.reads.extend right.grows) right.reads).bind
    fun q q' Γ₃ both => ?_
  · rw [left.width, right.width, same, same']
  · refine (signBit both.reads).mono fun h => ?_
    exact ((h.after both.grows).after right.grows).after left.grows

/-- What corresponds goes on corresponding, present or not. -/
theorem extend_option {Γ' : Scope} {o o' : Option Operand} (h : Option.Rel (Γ.Reads d) o o')
    (grows : Γ.Extends Γ') : Option.Rel (Γ'.Reads d) o o' := by
  cases h with
  | none => exact .none
  | some h => exact .some (h.extend grows)

/-- Corresponding results that may be unwanted, and the scope behind them. -/
def Offers (Γ : Scope) (d : Nat) (o o' : Option Operand) (Γ' : Scope) : Prop :=
  Γ.Extends Γ' ∧ Option.Rel (Γ'.Reads d) o o'

theorem optionally {wanted : Bool} {s t : Script Operand}
    (h : Lockstep division d (Γ.Yields d w) Γ s t) :
    Lockstep division d (Offers Γ d) Γ (Script.optionally wanted s)
      (Script.optionally wanted t) := by
  unfold Script.optionally
  split
  · rw [map_eq_pure_bind, map_eq_pure_bind]
    exact h.bind fun o o' Γ' yields => .done ⟨yields.grows, .some yields.reads⟩
  · exact .done ⟨.refl Γ, .none⟩

/-- Corresponding additions are in lockstep, whatever flags are wanted of them. -/
theorem addWithCarry (flags : AdditionFlags) (same : b.width = a.width) (first : Γ.Reads d a a')
    (second : Γ.Reads d b b') (carry : Option.Rel (Γ.Reads d) c c')
    (narrow : ∀ o, c = some o → o.width = .byte) :
    Lockstep division d (Sums Γ d a.width) Γ (Script.addWithCarry a b c flags)
      (Script.addWithCarry a' b' c' flags) := by
  unfold Script.addWithCarry
  rw [first.width, second.width, if_pos same, if_pos same]
  cases wider : a.width.wider? with
  | none => exact .fail
  | some wide =>
    have fits : ¬ wide < max a.width b.width := Width.not_wider_lt_max wider same
    refine (wideSum first second carry fits
      fun o ho => (narrow o ho).symm ▸ wide.not_lt_max_byte).bind fun sum sum' Γ₁ total => ?_
    refine computing (.combine rfl nofun total.width total.reads (.integer _ _))
      fun {r r' Γ₂} result => ?_
    refine (optionally (carryOut (total.reads.extend result.grows))).bind
      fun carry carry' Γ₃ ⟨grows, carries⟩ => ?_
    have behind := (total.grows.trans result.grows).trans grows
    refine (optionally (overflowOut (first.extend behind) (second.extend behind)
      (result.reads.extend grows) result.width.symm (same.trans result.width.symm))).bind
        fun overflow overflow' Γ₄ ⟨grows', overflows⟩ => .done ?_
    exact {
      result := ⟨behind.trans grows', (result.reads.extend grows).extend grows', result.width⟩
      carry := extend_option carries grows'
      overflow := overflows }

/-! ### Comparison and signs -/

/-- Comparisons of sources of the same width are in lockstep. -/
theorem unsignedLess (same : b.width = a.width) (first : Γ.Reads d a a')
    (second : Γ.Reads d b b') :
    Lockstep division d (Γ.Yields d .byte) Γ (Script.unsignedLess a b)
      (Script.unsignedLess a' b') := by
  unfold Script.unsignedLess
  rw [first.width, second.width, same]
  rw [Width.max_self]
  cases wider : a.width.wider? with
  | none => exact .fail
  | some wide =>
    refine computing (.combine rfl nofun ?_ first second) fun {o o' Γ'} difference => ?_
    · show ¬ wide < max a.width b.width
      exact Width.not_wider_lt_max wider same
    · exact (signBit difference.reads).mono fun h => h.after difference.grows

theorem flipSign (h : Γ.Reads d a a') :
    Lockstep division d (Γ.Yields d a.width) Γ (Script.flipSign a) (Script.flipSign a') := by
  unfold Script.flipSign
  rw [h.width]
  exact bitwise (.inr (.inr rfl)) rfl h (.integer _ _)

/-- Flipping both sign bits first, a signed comparison is an unsigned one in lockstep. -/
theorem signedLess (same : b.width = a.width) (first : Γ.Reads d a a')
    (second : Γ.Reads d b b') :
    Lockstep division d (Γ.Yields d .byte) Γ (Script.signedLess a b)
      (Script.signedLess a' b') := by
  refine (flipSign first).bind fun o o' Γ₁ left => ?_
  refine (flipSign (second.extend left.grows)).bind fun p p' Γ₂ right => ?_
  refine (unsignedLess ?_ (left.reads.extend right.grows) right.reads).mono fun h => ?_
  · rw [left.width, right.width, same]
  · exact (h.after right.grows).after left.grows

/-- Corresponding sign extensions are in lockstep, to any width. -/
theorem signExtend (h : Γ.Reads d a a') :
    Lockstep division d (Γ.Yields d w) Γ (Script.signExtend a w) (Script.signExtend a' w) := by
  unfold Script.signExtend
  rw [h.width]
  refine (flipSign h).bind fun o o' Γ₁ flipped => ?_
  refine computing (.pass (.inr (.inl rfl)) flipped.reads) fun {p p' Γ₂} widened => ?_
  refine (computed (.combine rfl nofun ?_ widened.reads (.integer _ _))).mono fun h => ?_
  · rw [widened.width]
    exact w.not_lt_max_self
  · exact (h.after widened.grows).after flipped.grows

theorem flagMask (narrow : a.width = .byte) (h : Γ.Reads d a a') :
    Lockstep division d (Γ.Yields d w) Γ (Script.flagMask a w) (Script.flagMask a' w) := by
  refine computed (.combine rfl nofun ?_ (.integer _ _) h)
  rw [narrow]
  exact w.not_lt_max_byte

theorem negateIf (narrow : b.width = .byte) (first : Γ.Reads d a a') (second : Γ.Reads d b b') :
    Lockstep division d (Γ.Yields d a.width) Γ (Script.negateIf a b) (Script.negateIf a' b') := by
  unfold Script.negateIf
  rw [first.width]
  refine (flagMask narrow second).bind fun mask mask' Γ₁ masks => ?_
  refine (bitwise (.inr (.inr rfl)) masks.width.symm (first.extend masks.grows)
    masks.reads).bind fun o o' Γ₂ flipped => ?_
  refine (arithmetic (.inr (.inl rfl)) (flipped.width.trans masks.width.symm) flipped.reads
    (masks.reads.extend flipped.grows)).mono fun h => ?_
  exact flipped.width ▸ (h.after flipped.grows).after masks.grows

/-- A magnitude comes with the flag that tells its sign. -/
theorem magnitude (h : Γ.Reads d a a') :
    Lockstep division d
      (fun r r' Γ' => Γ.Yields d a.width r.1 r'.1 Γ' ∧ Γ.Yields d .byte r.2 r'.2 Γ') Γ
      (Script.magnitude a) (Script.magnitude a') := by
  refine (signBit h).bind fun negative negative' Γ₁ sign => ?_
  refine (negateIf sign.width (h.extend sign.grows) sign.reads).bind fun o o' Γ₂ size => .done ?_
  exact ⟨size.after sign.grows, sign.grows.trans size.grows, sign.reads.extend size.grows,
    sign.width⟩

end Script.Lockstep

end RegisterTransfer
