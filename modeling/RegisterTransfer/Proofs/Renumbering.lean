import RegisterTransfer.Proofs.SingleAssignment

/-!
# Renumbering temporaries

What code looks like when its temporaries get other numbers. Registers of the processor, literals,
addresses and comments stay as they are. Scripts in lockstep write expansions that differ in this
way only, so the finished code of one is that of the other, renumbered.

> `Script.Lockstep.renumbers`: scripts in lockstep write drafts that are `d` temporaries apart.
> `Expansion.Renumbered.finish`: renumbered drafts finish to renumbered code, or fail alike.
> `SingleAssignment.renumber_congr`: only the numbers of the temporaries that code takes matter.
-/

namespace RegisterTransfer

/-! ## Names -/

/-- The number of the temporary that has a name. -/
def temporaryNumber? (name : String) : Option Nat :=
  match name.toList with
  | 't' :: digits => (Text.digits? digits).filter (temporaryName · = name)
  | _ => none

/-- The name of a temporary with another number; other names stay as they are. -/
def renumberName (π : Nat → Nat) (name : String) : String :=
  match temporaryNumber? name with
  | some n => temporaryName (π n)
  | none => name

/-- The digits of a number are read back as the number. -/
theorem digits?_toDigits (n : Nat) : Text.digits? (Nat.toDigits 10 n) = some n := by
  have letters : (temporaryName n).toList = 't' :: Nat.toDigits 10 n := by simp [temporaryName]
  have digits := isTemporary_temporaryName n
  simp only [isTemporary, letters, Text.digits?] at digits ⊢
  split
  · rw [Text.digitsValue_eq, Nat.ofDigitChars_toDigits (by decide) (by decide)]
  · next no =>
    rw [if_neg no] at digits
    cases digits

/-- The names that have a number are those of temporaries, and each has its own. -/
theorem temporaryNumber?_eq_some_iff {name : String} {n : Nat} :
    temporaryNumber? name = some n ↔ name = temporaryName n := by
  constructor
  · intro number
    unfold temporaryNumber? at number
    split at number
    · obtain ⟨-, same⟩ := Option.filter_eq_some_iff.1 number
      exact (of_decide_eq_true same).symm
    · cases number
  · intro same
    subst same
    have letters : (temporaryName n).toList = 't' :: Nat.toDigits 10 n := by simp [temporaryName]
    simp only [temporaryNumber?, letters, digits?_toDigits]
    simp

/-- A temporary is renamed by its new number. -/
theorem renumberName_temporaryName (π : Nat → Nat) (n : Nat) :
    renumberName π (temporaryName n) = temporaryName (π n) := by
  rw [renumberName, temporaryNumber?_eq_some_iff.2 rfl]

/-- A name that is not that of a temporary stays as it is. -/
theorem renumberName_of_ne (π : Nat → Nat) {name : String} (ne : ∀ n, name ≠ temporaryName n) :
    renumberName π name = name := by
  cases number : temporaryNumber? name with
  | none => rw [renumberName, number]
  | some n => exact absurd (temporaryNumber?_eq_some_iff.1 number) (ne n)

/-- Registers of the processor keep their names. -/
theorem renumberName_native (π : Nat → Nat) {name : String} (native : isTemporary name = false) :
    renumberName π name = name :=
  renumberName_of_ne π (ne_temporaryName native)

theorem renumberName_id (name : String) : renumberName id name = name := by
  by_cases temporary : ∃ n, name = temporaryName n
  · obtain ⟨n, rfl⟩ := temporary
    exact renumberName_temporaryName id n
  · exact renumberName_of_ne id fun n same => temporary ⟨n, same⟩

/-- Renumbering twice is renumbering once, by the composition. -/
theorem renumberName_comp (π σ : Nat → Nat) (name : String) :
    renumberName (π ∘ σ) name = renumberName π (renumberName σ name) := by
  by_cases temporary : ∃ n, name = temporaryName n
  · obtain ⟨n, rfl⟩ := temporary
    simp only [renumberName_temporaryName, Function.comp_apply]
  · have ne : ∀ n, name ≠ temporaryName n := fun n same => temporary ⟨n, same⟩
    rw [renumberName_of_ne σ ne, renumberName_of_ne π ne, renumberName_of_ne _ ne]

/-! ## Operands and instructions -/

/-- The operand with its temporary renumbered. -/
def Operand.renumber (π : Nat → Nat) (o : Operand) : Operand :=
  match o.kind with
  | .register name => .register (renumberName π name) o.width
  | _ => o

/-- The draft with its temporaries renumbered. -/
def Draft.renumber (π : Nat → Nat) : Draft → Draft
  | .plain opcode op1 op2 op3 =>
    .plain opcode (op1.renumber π) (op2.renumber π) (op3.renumber π)
  | .jump condition label => .jump (condition.renumber π) label

/-- The instruction with its temporaries renumbered. -/
def Instruction.renumber (π : Nat → Nat) (i : Instruction) : Instruction :=
  { i with op1 := i.op1.renumber π, op2 := i.op2.renumber π, op3 := i.op3.renumber π }

namespace Operand

theorem renumber_register (π : Nat → Nat) (name : String) (w : Width) :
    (register name w).renumber π = register (renumberName π name) w := rfl

theorem renumber_temporary (π : Nat → Nat) (n : Nat) (w : Width) :
    (register (temporaryName n) w).renumber π = register (temporaryName (π n)) w := by
  rw [renumber_register, renumberName_temporaryName]

/-- An operand that names a register of the processor stays as it is. -/
theorem renumber_native (π : Nat → Nat) {name : String} (native : isTemporary name = false)
    (w : Width) : (register name w).renumber π = register name w := by
  rw [renumber_register, renumberName_native π native]

theorem renumber_id (o : Operand) : o.renumber id = o := by
  obtain ⟨kind, w⟩ := o
  cases kind with
  | register name => exact congrArg (register · w) (renumberName_id name)
  | absent | integer | address => rfl

theorem renumber_comp (π σ : Nat → Nat) (o : Operand) :
    o.renumber (π ∘ σ) = (o.renumber σ).renumber π := by
  obtain ⟨kind, w⟩ := o
  cases kind with
  | register name => exact congrArg (register · w) (renumberName_comp π σ name)
  | absent | integer | address => rfl

/-- An operand is renumbered alike by what agrees on its temporary. -/
theorem renumber_congr {π σ : Nat → Nat} {o : Operand}
    (agree : ∀ {name w}, o = register name w → isTemporary name →
      ∃ n, name = temporaryName n ∧ π n = σ n) : o.renumber π = o.renumber σ := by
  obtain ⟨kind, w⟩ := o
  cases kind with
  | register name =>
    cases temporary : isTemporary name with
    | false => exact (renumber_native π temporary w).trans (renumber_native σ temporary w).symm
    | true =>
      obtain ⟨n, rfl, same⟩ := agree rfl temporary
      exact (renumber_temporary π n w).trans (same ▸ (renumber_temporary σ n w).symm)
  | absent | integer | address => rfl

end Operand

namespace Instruction

/-- Code whose temporaries keep their numbers is the same code. -/
theorem map_renumber_id (code : List Instruction) : code.map (renumber id) = code := by
  have each : ∀ i : Instruction, i.renumber id = i := fun i => by
    simp only [renumber, Operand.renumber_id]
  rw [funext each]
  exact List.map_id code

theorem map_renumber_comp (π σ : Nat → Nat) (code : List Instruction) :
    code.map (renumber (π ∘ σ)) = (code.map (renumber σ)).map (renumber π) := by
  rw [List.map_map]
  refine List.map_congr_left fun i _ => ?_
  simp only [Function.comp_apply, renumber, Operand.renumber_comp]

/-- Only the numbers that occur in an instruction matter. -/
theorem renumber_congr {π σ : Nat → Nat} {i : Instruction}
    (agree : ∀ {slot name w}, i.operand slot = .register name w → isTemporary name →
      ∃ n, name = temporaryName n ∧ π n = σ n) : i.renumber π = i.renumber σ := by
  have each : ∀ slot, (i.operand slot).renumber π = (i.operand slot).renumber σ :=
    fun slot => Operand.renumber_congr agree
  have first := each .first
  have second := each .second
  have third := each .third
  simp only [operand] at first second third
  simp only [renumber, first, second, third]

end Instruction

namespace SingleAssignment

variable {first count : Nat} {code : List Instruction}

/-- The temporaries that occur in code are those it takes. -/
theorem number (h : SingleAssignment first count code) {i : Instruction} (mem : i ∈ code)
    {slot : Slot} {name : String} {w : Width} (named : i.operand slot = .register name w)
    (temporary : isTemporary name) :
    ∃ n, name = temporaryName n ∧ first ≤ n ∧ n < first + count := by
  have written := h.mem_written mem named temporary
  rw [h.written, List.mem_map] at written
  obtain ⟨n, taken, same⟩ := written
  rw [List.mem_range'_1] at taken
  exact ⟨n, same.symm, taken⟩

/-- Only the numbers of the temporaries that code takes matter. -/
theorem renumber_congr (h : SingleAssignment first count code) {π σ : Nat → Nat}
    (agree : ∀ n, first ≤ n → n < first + count → π n = σ n) :
    code.map (Instruction.renumber π) = code.map (Instruction.renumber σ) := by
  refine List.map_congr_left fun i mem => Instruction.renumber_congr fun named temporary => ?_
  obtain ⟨n, same, above, below⟩ := h.number mem named temporary
  exact ⟨n, same, agree n above below⟩

end SingleAssignment

/-- Renumbered instructions in another order make the renumbered program. -/
theorem Program.ofList_renumber {l l' : List Instruction} {p : Program} {π : Nat → Nat}
    (assembled : ofList l = .ok p) (perm : l'.Perm (l.map (Instruction.renumber π))) :
    ∃ p', ofList l' = .ok p' ∧ ∀ a, p'.get? a = (p.get? a).map (Instruction.renumber π) := by
  obtain ⟨apart, found⟩ := ofList_eq_ok assembled
  have addresses : (l'.map (·.address)).Perm (l.map (·.address)) := by
    have same := perm.map (·.address)
    rw [List.map_map] at same
    exact same
  obtain ⟨p', assembled'⟩ := ofList_isOk (addresses.nodup_iff.2 apart)
  obtain ⟨-, found'⟩ := ofList_eq_ok assembled'
  refine ⟨p', assembled', fun a => Option.ext fun i => ?_⟩
  rw [found', perm.mem_iff, List.mem_map, Option.map_eq_some_iff]
  constructor
  · rintro ⟨⟨j, mem, rfl⟩, address⟩
    exact ⟨j, (found a j).2 ⟨mem, address⟩, rfl⟩
  · rintro ⟨j, there, rfl⟩
    obtain ⟨mem, address⟩ := (found a j).1 there
    exact ⟨⟨j, mem, rfl⟩, address⟩

/-! ## Expansions -/

namespace Expansion

/-- Two expansions that differ in the numbers of their temporaries only. -/
structure Renumbered (π : Nat → Nat) (x x' : Expansion) : Prop where
  native : x'.native = x.native
  comment : x'.comment = x.comment
  labels : x'.labels = x.labels
  drafts : x'.drafts = x.drafts.map (Draft.renumber π)

namespace Renumbered

variable {π : Nat → Nat} {x x' : Expansion}

theorem size (h : Renumbered π x x') : x'.size = x.size := by
  rw [Expansion.size, Expansion.size, h.drafts, List.length_map]

/-- Taking a temporary on both sides keeps the expansions apart in numbers only. -/
theorem temporary (h : Renumbered π x x') (w : Width) :
    Renumbered π (x.temporary w).2 (x'.temporary w).2 :=
  ⟨h.native, h.comment, h.labels, h.drafts⟩

/-- Corresponding instructions keep the expansions apart in numbers only. -/
theorem emit (h : Renumbered π x x') {opcode : Opcode} {a b c a' b' c' : Operand}
    (first : a' = a.renumber π) (second : b' = b.renumber π) (third : c' = c.renumber π) :
    Renumbered π (x.emit opcode a b c) (x'.emit opcode a' b' c') where
  native := h.native
  comment := h.comment
  labels := h.labels
  drafts := by
    simp only [Expansion.emit, h.drafts, first, second, third, List.map_append, List.map_cons,
      List.map_nil, Draft.renumber]

theorem newLabel (h : Renumbered π x x') : Renumbered π x.newLabel.2 x'.newLabel.2 where
  native := h.native
  comment := h.comment
  labels := congrArg (· ++ [none]) h.labels
  drafts := h.drafts

theorem bind (h : Renumbered π x x') (label : Label) :
    Renumbered π (x.bind label) (x'.bind label) where
  native := h.native
  comment := h.comment
  labels := by simp only [Expansion.bind, h.labels, h.size]
  drafts := h.drafts

theorem jumpIf (h : Renumbered π x x') {a a' : Operand} (condition : a' = a.renumber π)
    (label : Label) : Renumbered π (x.jumpIf a label) (x'.jumpIf a' label) where
  native := h.native
  comment := h.comment
  labels := h.labels
  drafts := by
    simp only [Expansion.jumpIf, h.drafts, condition, List.map_append, List.map_cons,
      List.map_nil, Draft.renumber]

/-- A renumbered draft is laid out like the draft itself, with the same errors. -/
theorem place (h : Renumbered π x x') (offset : Nat) (d : Draft) :
    x'.place offset (d.renumber π) = (x.place offset d).map (Instruction.renumber π) := by
  cases d with
  | plain opcode op1 op2 op3 =>
    rw [Draft.renumber, Expansion.place, Expansion.place, h.native]
    rfl
  | jump condition label =>
    rw [Draft.renumber, Expansion.place, Expansion.place, h.native, h.labels, title, title,
      h.comment, h.native]
    split <;> rfl

/-- Renumbered drafts are laid out like the drafts themselves, with the same errors. -/
theorem layout (h : Renumbered π x x') (drafts : List Draft) (offset : Nat) :
    x'.layout offset (drafts.map (Draft.renumber π)) =
      (x.layout offset drafts).map (List.map (Instruction.renumber π)) := by
  induction drafts generalizing offset with
  | nil => rfl
  | cons d rest ih =>
    rw [List.map_cons, Expansion.layout, Expansion.layout, h.place, ih]
    cases x.place offset d with
    | error e => rfl
    | ok i => cases x.layout (offset + 1) rest <;> rfl

theorem completed (h : Renumbered π x x') :
    x'.completed = x.completed.map (Draft.renumber π) := by
  rw [Expansion.completed, Expansion.completed, h.labels, h.size, h.drafts]
  split
  · rw [List.map_append]
    rfl
  · rfl

/-- Renumbered drafts finish to renumbered code, or fail alike. -/
theorem finish (h : Renumbered π x x') :
    x'.finish = x.finish.map (List.map (Instruction.renumber π)) := by
  rw [Expansion.finish, Expansion.finish, h.completed, h.layout]
  cases x.layout 0 x.completed with
  | error e => rfl
  | ok code =>
    show Except.ok (x'.annotate (code.map _)) = .ok ((x.annotate code).map _)
    cases code with
    | nil => rfl
    | cons i rest =>
      rw [List.map_cons, annotate, annotate, List.map_cons, h.comment]
      rfl

end Renumbered

end Expansion

/-! ## Scripts in lockstep -/

/-- Corresponding sources are the same but for the numbers of temporaries. -/
theorem Scope.Reads.renumber {Γ : Scope} {d : Nat} {o o' : Operand} (h : Γ.Reads d o o') :
    o' = o.renumber (· + d) := by
  cases h with
  | integer => rfl
  | native native w => exact (Operand.renumber_native _ native w).symm
  | @temporary n w => exact (Operand.renumber_temporary (· + d) n w).symm

theorem Scope.Computes.renumber {division : Prop} {Γ : Scope} {d : Nat} {opcode : Opcode}
    {a b a' b' : Operand} {w : Width} (h : Γ.Computes division d opcode a b w a' b') :
    a' = a.renumber (· + d) ∧ b' = b.renumber (· + d) := by
  cases h with
  | combine two divides fits first second => exact ⟨first.renumber, second.renumber⟩
  | pass one first => exact ⟨first.renumber, rfl⟩

namespace Script

/-- Scripts in lockstep write expansions whose temporaries are `d` apart. -/
theorem Lockstep.renumbers {division : Prop} {d : Nat} {α : Type} {Q : α → α → Scope → Prop}
    {Γ : Scope} {s t : Script α} (h : Lockstep division d Q Γ s t) {x x' : Expansion}
    (desc : Γ.Describes d x x') (apart : x.Renumbered (· + d) x') :
    (∃ Γ' : Scope, Γ'.Describes d (s.run x).2 (t.run x').2) ∧
      (s.run x).2.Renumbered (· + d) (t.run x').2 := by
  induction h generalizing x x' with
  | done | fail => exact ⟨⟨_, desc⟩, apart⟩
  | @compute Γ opcode a b w a' b' k k' s s' h left right rest ih =>
    rw [run, run, desc.temporary, desc.temporary', left, right]
    exact ih (desc.hold w opcode opcode a b _ a' b' _) ((apart.temporary w).emit h.renumber.1
      h.renumber.2 (Operand.renumber_temporary (· + d) Γ.count w).symm)
  | @assign Γ opcode a b w a' b' name s s' h native rest ih =>
    exact ih (desc.next opcode opcode a b _ a' b' _) (apart.emit h.renumber.1 h.renumber.2
      (Operand.renumber_native _ native w).symm)
  | store value address rest ih =>
    exact ih (desc.next ..) (apart.emit value.renumber rfl address.renumber)
  | @undefine Γ name w s s' native rest ih =>
    exact ih (desc.next ..) (apart.emit rfl rfl (Operand.renumber_native _ native w).symm)
  | nop rest ih => exact ih (desc.next ..) (apart.emit rfl rfl rfl)
  | exit condition target rest ih =>
    exact ih (desc.next ..) (apart.emit condition.renumber rfl target.renumber)
  | create rest ih =>
    rw [run, run, desc.newLabel, desc.newLabel']
    exact ih desc.create apart.newLabel
  | leave condition unused rest ih =>
    exact ih (desc.leave unused _ _) (apart.jumpIf condition.renumber _)
  | attach sought rest ih => exact ih (desc.attach _) (apart.bind _)

end Script

end RegisterTransfer
