import RegisterTransfer.Lifting.Computation
import RegisterTransfer.Proofs.Layout

/-!
# How scripts end

A script ends with a result or gives up with an error, and if it ends with a result it may have left
labels open. Which of these it does depends neither on the expansion nor on the names of the
temporaries, so it is computed along the script: `Script.Ends` is a weakest precondition, with one
postcondition for results and the labels bound by then, and one for errors.

> `Script.ends_bind`: a sequence ends as its second part does where the first part ends.
> `Script.Ends.run`: the run of a script ends as computed.
> `Expansion.Binds.finish`: an expansion whose labels are all bound can be finished.
-/

namespace RegisterTransfer

@[simp] theorem Operand.width_register (name : String) (w : Width) : (register name w).width = w :=
  rfl

namespace Script

variable {α β : Type} {Q : α → List Bool → Prop} {E : LiftingError → Prop} {bound : List Bool}

/--
A script ends with a result and labels in `Q`, or gives up with an error in `E`. The list says of
each label so far whether it is bound; only labels that exist are jumped to.
-/
def Ends (Q : α → List Bool → Prop) (E : LiftingError → Prop) : Script α → List Bool → Prop
  | done a, bound => Q a bound
  | fail e, _ => E e
  | allocate w next, bound => ∀ name, (next (.register name w)).Ends Q E bound
  | write _ _ _ _ next, bound => next.Ends Q E bound
  | create next, bound => (next ⟨bound.length⟩).Ends Q E (bound ++ [false])
  | attach label next, bound => next.Ends Q E (bound.set label.index true)
  | leave _ label next, bound => label.index < bound.length ∧ next.Ends Q E bound

/-- A sequence ends as its second part does where the first part ends. -/
@[simp] theorem ends_bind {Q : β → List Bool → Prop} (s : Script α) (f : α → Script β) :
    (s >>= f).Ends Q E bound ↔ s.Ends (fun a bound => (f a).Ends Q E bound) E bound := by
  show (s.andThen f).Ends Q E bound ↔ _
  induction s generalizing bound with
  | done | fail => rfl
  | allocate _ _ ih => exact forall_congr' fun name => ih _
  | create _ ih => exact ih _
  | write _ _ _ _ _ ih | attach _ _ ih => exact ih
  | leave _ _ _ ih => exact and_congr_right fun _ => ih

/-! ## Steps -/

section Steps

variable {opcode : Opcode} {a b c : Operand} {l : Label} {w : Width}

/-- A script that is over has its result and its labels in `Q`. -/
@[simp] theorem ends_pure {result : α} : (pure result : Script α).Ends Q E bound ↔ Q result bound :=
  .rfl

@[simp] theorem ends_temporary {Q : Operand → List Bool → Prop} :
    (temporary w).Ends Q E bound ↔ ∀ name, Q (.register name w) bound := .rfl

variable {Q : Unit → List Bool → Prop}

@[simp] theorem ends_emit : (emit opcode a b c).Ends Q E bound ↔ Q () bound := .rfl

@[simp] theorem ends_copy : (copy a b).Ends Q E bound ↔ Q () bound := .rfl

@[simp] theorem ends_newLabel {Q : Label → List Bool → Prop} :
    newLabel.Ends Q E bound ↔ Q ⟨bound.length⟩ (bound ++ [false]) := .rfl

@[simp] theorem ends_bindLabel :
    (bindLabel l).Ends Q E bound ↔ Q () (bound.set l.index true) := .rfl

@[simp] theorem ends_jumpIf :
    (jumpIf a l).Ends Q E bound ↔ l.index < bound.length ∧ Q () bound := .rfl

@[simp] theorem ends_jump : (jump l).Ends Q E bound ↔ l.index < bound.length ∧ Q () bound := .rfl

end Steps

end Script

/-! ## Running to the end -/

/-- The labels of an expansion that are bound; only labels that exist are jumped to. -/
structure Expansion.Binds (x : Expansion) (bound : List Bool) : Prop where
  labels : x.labels.map Option.isSome = bound
  known : ∀ label, some label ∈ x.drafts.map Draft.target? → label.index < x.labels.length

namespace Expansion.Binds

variable {x : Expansion} {bound : List Bool}

theorem length (h : x.Binds bound) : x.labels.length = bound.length := by
  rw [← h.labels, List.length_map]

/-- Writing an instruction binds no label. -/
theorem emit (h : x.Binds bound) (opcode : Opcode) (a b c : Operand) :
    (x.emit opcode a b c).Binds bound where
  labels := h.labels
  known label mem := by
    simp only [Expansion.emit, List.map_append, List.map_cons, List.map_nil, List.mem_append,
      Draft.target?, List.mem_singleton, reduceCtorEq, or_false] at mem
    exact h.known label mem

/-- A new label is open. -/
theorem newLabel (h : x.Binds bound) : x.newLabel.2.Binds (bound ++ [false]) where
  labels := by simp [Expansion.newLabel, h.labels]
  known label mem := by
    have := h.known label mem
    simp only [Expansion.newLabel, List.length_append, List.length_singleton]
    omega

/-- Binding a label closes it, and no other. -/
theorem bind (h : x.Binds bound) (label : Label) :
    (x.bind label).Binds (bound.set label.index true) where
  labels := by simp [Expansion.bind, List.map_set, h.labels]
  known label mem := by
    have := h.known label mem
    simpa [Expansion.bind] using this

/-- A jump leaves the labels alone, and needs its own to exist. -/
theorem jumpIf (h : x.Binds bound) (condition : Operand) {label : Label}
    (known : label.index < bound.length) : (x.jumpIf condition label).Binds bound where
  labels := h.labels
  known other mem := by
    simp only [Expansion.jumpIf, List.map_append, List.map_cons, List.map_nil, List.mem_append,
      Draft.target?, List.mem_singleton, Option.some.injEq] at mem
    rcases mem with mem | rfl
    · exact h.known other mem
    · exact h.length ▸ known

/-- An expansion whose labels are all bound can be finished. -/
theorem finish (h : x.Binds bound) (all : ∀ b ∈ bound, b = true) :
    ∃ code, x.finish = .ok code := by
  refine Expansion.finish_isOk_iff.2 fun label mem => ?_
  have inside := h.known label mem
  have marked : x.labels[label.index].isSome ∈ bound := by
    rw [← h.labels]
    exact List.mem_map_of_mem (List.getElem_mem inside)
  obtain ⟨t, here⟩ := Option.isSome_iff_exists.1 (all _ marked)
  exact ⟨t, by rw [List.getElem?_eq_getElem inside, here]⟩

end Expansion.Binds

namespace Script

/-- The run of a script ends as computed. -/
theorem Ends.run {α : Type} {Q : α → List Bool → Prop} {E : LiftingError → Prop} {s : Script α}
    {bound : List Bool} (h : s.Ends Q E bound) {x : Expansion} (binds : x.Binds bound) :
    (∃ a X bound', s.run x = (.ok a, X) ∧ X.Binds bound' ∧ Q a bound') ∨
      ∃ e X, s.run x = (.error e, X) ∧ E e := by
  induction s generalizing x bound with
  | done a => exact .inl ⟨a, x, bound, rfl, binds, h⟩
  | fail e => exact .inr ⟨e, x, rfl, h⟩
  | allocate w next ih => exact ih _ (h _) (x := (x.temporary w).2) ⟨binds.labels, binds.known⟩
  | write opcode a b c next ih => exact ih h (binds.emit opcode a b c)
  | create next ih =>
    have same : x.newLabel.1 = ⟨bound.length⟩ := by rw [← binds.length]; rfl
    rw [Script.run, same]
    exact ih _ h binds.newLabel
  | attach label next ih => exact ih h (binds.bind label)
  | leave condition label next ih => exact ih h.2 (binds.jumpIf condition h.1)

/-! ## Computations -/

section Computations

variable {E : LiftingError → Prop} {bound : List Bool} {opcode : Opcode} {a b c : Operand}
  {w wide : Width} {Q : Operand → List Bool → Prop}

@[simp] theorem ends_map {α β : Type} {f : α → β} {s : Script α} {Q : β → List Bool → Prop} :
    (f <$> s).Ends Q E bound ↔ s.Ends (fun a bound => Q (f a) bound) E bound :=
  ends_bind s (pure ∘ f)

/-- Arithmetic never gives up and leaves the labels alone; so it is for all operations below. -/
@[simp] theorem ends_binary :
    (binary opcode a b).Ends Q E bound ↔ ∀ name, Q (.register name a.width) bound := by
  simp [binary]

@[simp] theorem ends_complement :
    (complement a).Ends Q E bound ↔ ∀ name, Q (.register name a.width) bound := ends_binary

@[simp] theorem ends_flagNot :
    (flagNot a).Ends Q E bound ↔ ∀ name, Q (.register name a.width) bound := ends_binary

@[simp] theorem ends_signBit :
    (signBit a).Ends Q E bound ↔ ∀ name, Q (.register name .byte) bound := by
  simp [signBit]

@[simp] theorem ends_isZero :
    (isZero a).Ends Q E bound ↔ ∀ name, Q (.register name .byte) bound := by
  simp [isZero]

@[simp] theorem ends_isNonzero :
    (isNonzero a).Ends Q E bound ↔ ∀ name, Q (.register name .byte) bound := by
  simp [isNonzero]

@[simp] theorem ends_equal :
    (equal a b).Ends Q E bound ↔ ∀ name, Q (.register name .byte) bound := by
  simp [equal]

@[simp] theorem ends_wideSum {carryIn : Option Operand} :
    (wideSum wide a b carryIn).Ends Q E bound ↔ ∀ name, Q (.register name wide) bound := by
  cases carryIn <;> simp [wideSum]

@[simp] theorem ends_carryOut :
    (carryOut w wide a).Ends Q E bound ↔ ∀ name, Q (.register name .byte) bound := by
  simp [carryOut]

@[simp] theorem ends_overflowOut :
    (overflowOut a b c).Ends Q E bound ↔ ∀ name, Q (.register name .byte) bound := by
  simp [overflowOut]

@[simp] theorem ends_flipSign :
    (flipSign a).Ends Q E bound ↔ ∀ name, Q (.register name a.width) bound := ends_binary

@[simp] theorem ends_signExtend :
    (signExtend a w).Ends Q E bound ↔ ∀ name, Q (.register name w) bound := by
  simp [signExtend]

@[simp] theorem ends_negateIf :
    (negateIf a b).Ends Q E bound ↔ ∀ name, Q (.register name a.width) bound := by
  simp [negateIf, flagMask]

@[simp] theorem ends_magnitude {Q : Operand × Operand → List Bool → Prop} :
    (magnitude a).Ends Q E bound ↔
      ∀ negative name, Q (.register name a.width, .register negative .byte) bound := by
  simp [magnitude]

/-- A sum needs operands of one width, and a width to see the carry in. -/
theorem ends_addWithCarry {carryIn : Option Operand} {flags : AdditionFlags}
    {Q : Addition → List Bool → Prop} (same : b.width = a.width) (wider : a.width.wider?.isSome)
    (h : ∀ sum, Q sum bound) : (addWithCarry a b carryIn flags).Ends Q E bound := by
  obtain ⟨wide, found⟩ := Option.isSome_iff_exists.1 wider
  rw [addWithCarry, if_pos same, found]
  obtain ⟨carry, overflow⟩ := flags
  cases carry <;> cases overflow <;> simp [optionally, h]

/-- A comparison needs a width to see the borrow in. -/
theorem ends_unsignedLess (wider : (max a.width b.width).wider?.isSome)
    (h : ∀ name, Q (.register name .byte) bound) : (unsignedLess a b).Ends Q E bound := by
  obtain ⟨wide, found⟩ := Option.isSome_iff_exists.1 wider
  rw [unsignedLess, found]
  simpa using h

/-- Comparing never gives up where there is a wider width to subtract in. -/
theorem ends_signedLess (wider : (max a.width b.width).wider?.isSome)
    (h : ∀ name, Q (.register name .byte) bound) : (signedLess a b).Ends Q E bound := by
  simp only [signedLess, ends_bind, ends_flipSign]
  exact fun _ _ => ends_unsignedLess wider h

end Computations

end Script

end RegisterTransfer
