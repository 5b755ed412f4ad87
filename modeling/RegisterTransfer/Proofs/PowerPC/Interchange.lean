import RegisterTransfer.Proofs.PowerPC.Alone
import RegisterTransfer.Proofs.PowerPC.ForwardCode
import RegisterTransfer.Proofs.PowerPC.RegisterNames

/-!
# Interchangeable names

Wherever an operand of a native instruction names a general purpose register or a condition field,
another of its names will do as well. An instruction may be lifted with the one name and not with the
other, as a bare register has a width only under the name that the catalog has for it. But if both
are lifted, what they are lifted to differs in nothing but the comment, which quotes the operands.

> `OperandTree.Alike.resolveWithin`: trees with other names resolve to operands with other names.
> `PowerPC.agree_decode`: the two instructions are decoded to one operation.
> `Script.run_commented`: the comment makes no difference to a script.
> `PowerPC.register_names_are_interchangeable`: the names, and what instructions with them become.
-/

namespace RegisterTransfer

/-! ## Results that agree -/

/-- Where both succeed, the results of two computations are related. -/
def Agree {ε α : Type} (R : α → α → Prop) (r r' : Except ε α) : Prop :=
  ∀ a a', r = .ok a → r' = .ok a' → R a a'

namespace Agree

variable {ε α β : Type} {R : α → α → Prop} {S : β → β → Prop} {r r' : Except ε α}
  {f f' : α → Except ε β}

theorem ok {a a' : α} (h : R a a') : Agree (ε := ε) R (.ok a) (.ok a') := by
  rintro _ _ ⟨⟩ ⟨⟩
  exact h

theorem error (e : ε) (r' : Except ε α) : Agree R (.error e) r' := nofun

/-- A failure of the second reader agrees with anything. -/
theorem error' (r : Except ε α) (e : ε) : Agree R r (.error e) := nofun

theorem refl (r : Except ε α) : Agree Eq r r := fun _ _ left right =>
  Except.ok.inj (left.symm.trans right)

/-- Readers that agree may go on with readers that agree on related results. -/
theorem bind (h : Agree R r r') (next : ∀ {a a'}, R a a' → Agree S (f a) (f' a')) :
    Agree S (r >>= f) (r' >>= f') := by
  cases r with
  | error e => exact error e _
  | ok a =>
    cases r' with
    | error e => exact error' _ e
    | ok a' => exact next (h a a' rfl rfl)

/-- Computations go on alike from one result. -/
theorem step (h : Agree Eq r r') (next : ∀ a, Agree S (f a) (f' a)) :
    Agree S (r >>= f) (r' >>= f') :=
  h.bind fun {a _} same => same ▸ next a

theorem map (h : Agree Eq r r') (f : α → β) : Agree Eq (f <$> r) (f <$> r') := by
  rw [map_eq_pure_bind, map_eq_pure_bind]
  exact h.step fun a => refl _

end Agree

/-! ## Names that may be exchanged -/

open PowerPC (gpr? conditionField? Gpr ConditionField)

/-- Two names of one general purpose register or of one condition field, or one name. -/
inductive SameRegister : String → String → Prop
  | refl (name : String) : SameRegister name name
  | gpr {name name' : String} {r : Gpr} (h : gpr? name = some r) (h' : gpr? name' = some r) :
    SameRegister name name'
  | field {name name' : String} {i : ConditionField} (h : conditionField? name = some i)
    (h' : conditionField? name' = some i) : SameRegister name name'

namespace SameRegister

variable {name name' : String}

/-- Names of the same register are the same general purpose register, if any. -/
theorem gpr?_eq (h : SameRegister name name') : gpr? name = gpr? name' := by
  cases h with
  | refl => rfl
  | gpr h h' => rw [h, h']
  | field h h' =>
    -- a condition field is no register
    cases e : gpr? name with
    | some r => rw [PowerPC.conditionField?_of_gpr? e] at h; cases h
    | none =>
      cases e' : gpr? name' with
      | some r => rw [PowerPC.conditionField?_of_gpr? e'] at h'; cases h'
      | none => rfl

/-- Names of the same register are the same condition field, if any. -/
theorem conditionField?_eq (h : SameRegister name name') :
    conditionField? name = conditionField? name' := by
  cases h with
  | refl => rfl
  | gpr h h' => rw [PowerPC.conditionField?_of_gpr? h, PowerPC.conditionField?_of_gpr? h']
  | field h h' => rw [h, h']

end SameRegister

/-- Operand trees that differ in the names of registers and condition fields only. -/
inductive OperandTree.Alike : OperandTree → OperandTree → Prop
  | register {name name' : String} (same : SameRegister name name') :
    Alike (.register name) (.register name')
  | immediate (v : Int) : Alike (.immediate v) (.immediate v)
  | memory {o o' : OperandTree} (address : Alike o o') : Alike (.memory o) (.memory o')
  | sum {l l' r r' : OperandTree} (left : Alike l l') (right : Alike r r') :
    Alike (.sum l r) (.sum l' r')
  | sized (w : Width) {o o' : OperandTree} (inside : Alike o o') : Alike (.sized w o) (.sized w o')

/-- Native instructions that differ in the names of registers and condition fields only. -/
structure NativeInstruction.Alike (n n' : NativeInstruction) : Prop where
  address : n'.address = n.address
  mnemonic : n'.mnemonic = n.mnemonic
  operands : List.Forall₂ OperandTree.Alike n.operands n'.operands

/-! ## Resolution -/

/-- Parts of an address that differ in the names of registers only. -/
structure AddressTerms.Alike (t t' : AddressTerms) : Prop where
  base : Option.Rel SameRegister t.base t'.base
  index : Option.Rel SameRegister t.index t'.index
  displacement : t.displacement = t'.displacement

/-- Resolved operands that differ in the names of registers, and perhaps in their widths. -/
inductive ResolvedOperand.Alike : ResolvedOperand → ResolvedOperand → Prop
  | register {name name' : String} (same : SameRegister name name') (w w' : Width) :
    Alike (.register name w) (.register name' w')
  | literal (v : Int) (w : Width) : Alike (.literal v w) (.literal v w)
  | memory {base base' index index' : Option String} (same : Option.Rel SameRegister base base')
    (same' : Option.Rel SameRegister index index') (d : Int) (w : Option Width) :
    Alike (.memory base index d w) (.memory base' index' d w)

/-- Adding the same register to addresses that are alike keeps them alike. -/
theorem AddressTerms.Alike.addRegister {t t' : AddressTerms} (h : t.Alike t') {name name' : String}
    (same : SameRegister name name') :
    Agree AddressTerms.Alike (t.addRegister name) (t'.addRegister name') := by
  obtain ⟨base, index, d⟩ := t
  obtain ⟨base', index', d'⟩ := t'
  obtain ⟨bases, indices, displacements⟩ := h
  cases bases with
  | none => exact .ok ⟨.some same, indices, displacements⟩
  | some first =>
    cases indices with
    | none => exact .ok ⟨.some first, .some same, displacements⟩
    | some second => exact .error _ _

namespace OperandTree.Alike

variable {o o' : OperandTree}

/-- Addresses with other names have terms with other names. -/
theorem collect (h : o.Alike o') {t t' : AddressTerms} (terms : t.Alike t') :
    Agree AddressTerms.Alike (t.collect o) (t'.collect o') := by
  induction h generalizing t t' with
  | register same => exact terms.addRegister same
  | immediate v =>
    refine .ok ⟨terms.base, terms.index, ?_⟩
    show (t.displacement + v).bmod _ = (t'.displacement + v).bmod _
    rw [terms.displacement]
  | memory => exact .error _ _
  | sum left right first second => exact (first terms).bind fun terms' => second terms'
  | sized w inside ih => exact ih terms

/-- Operands that are alike resolve alike, at any width around them. -/
theorem resolveWithin (h : o.Alike o') (widthOf : String → Option Width) (outer : Option Width) :
    Agree ResolvedOperand.Alike (o.resolveWithin widthOf outer)
      (o'.resolveWithin widthOf outer) := by
  induction h generalizing outer with
  | register same =>
    unfold OperandTree.resolveWithin
    split
    · split
      · exact .ok (.register same _ _)
      · exact .error' _ _
    · exact .error _ _
  | immediate v => exact .ok (.literal v _)
  | memory address ih =>
    have terms := address.collect (⟨.none, .none, rfl⟩ : AddressTerms.Alike {} {})
    unfold OperandTree.resolveWithin
    split
    · next collected =>
      split
      · next collected' =>
        obtain ⟨bases, indices, displacements⟩ := terms _ _ collected collected'
        rw [displacements]
        exact .ok (.memory bases indices _ _)
      · exact .error' _ _
    · exact .error _ _
  | sum => exact .error _ _
  | sized w inside ih =>
    unfold OperandTree.resolveWithin
    cases outer with
    | none => exact ih _
    | some w' =>
      dsimp only
      split
      · exact ih _
      · exact .error _ _

theorem unsized (h : o.Alike o') : o.unsized.Alike o'.unsized := by
  induction h with
  | register same => exact .register same
  | immediate v => exact .immediate v
  | memory address => exact .memory address
  | sum left right => exact .sum left right
  | sized w inside ih => exact ih

end OperandTree.Alike

/-! ## Decoding -/

namespace PowerPC

variable {n n' : NativeInstruction}

section Operands

variable (h : n.Alike n') (widthOf : String → Option Width) (index : Nat)

include h

/-- Instructions that are alike have alike operands at every index. -/
theorem agree_operandAt :
    Agree ResolvedOperand.Alike (operandAt widthOf n index) (operandAt widthOf n' index) := by
  have at_index : Option.Rel OperandTree.Alike n.operands[index]? n'.operands[index]? := by
    have each := h.operands
    by_cases inside : index < n.operands.length
    · have inside' : index < n'.operands.length := each.length_eq ▸ inside
      rw [List.getElem?_eq_getElem inside, List.getElem?_eq_getElem inside']
      exact .some (each.get inside inside')
    · have outside' : ¬ index < n'.operands.length := each.length_eq ▸ inside
      rw [List.getElem?_eq_none (Nat.le_of_not_lt inside),
        List.getElem?_eq_none (Nat.le_of_not_lt outside')]
      exact .none
  unfold operandAt
  generalize n.operands[index]? = o at at_index
  generalize n'.operands[index]? = o' at at_index
  cases at_index with
  | none => exact .error _ _
  | @some tree tree' alike =>
    have resolved := alike.resolveWithin widthOf none
    dsimp only [OperandTree.resolve]
    split
    · next found =>
      split
      · next found' => exact .ok (resolved _ _ found found')
      · exact .error' _ _
    · exact .error _ _

/-- A register is known by its number. The width is the same as both are wide enough. -/
theorem agree_gprAt : Agree Eq (gprAt widthOf n index) (gprAt widthOf n' index) := by
  refine (agree_operandAt h widthOf index).bind fun {o o'} alike => ?_
  cases alike with
  | @register name name' same w w' =>
    dsimp only
    rw [same.gpr?_eq]
    cases gpr? name' with
    | none => exact .error _ _
    | some r =>
      dsimp only
      split
      · split
        · exact .refl _
        · exact .error' _ _
      · exact .error _ _
  | literal | memory => exact .error _ _

theorem agree_baseAt : Agree Eq (baseAt widthOf n index) (baseAt widthOf n' index) :=
  (agree_gprAt h widthOf index).step fun _ => .refl _

/-- A number is read alike, since names play no part in it. -/
theorem agree_immediateAt (range : ImmediateRange) :
    Agree Eq (immediateAt widthOf n index range) (immediateAt widthOf n' index range) := by
  refine (agree_operandAt h widthOf index).bind fun {o o'} alike => ?_
  cases alike with
  | literal v w =>
    dsimp only
    split
    · exact .refl _
    · exact .error _ _
  | register | memory => exact .error _ _

theorem agree_targetAt : Agree Eq (targetAt widthOf n index) (targetAt widthOf n' index) :=
  (agree_immediateAt h widthOf index targetRange).step fun _ => .refl _

theorem agree_bitNumberAt : Agree Eq (bitNumberAt widthOf n index) (bitNumberAt widthOf n' index) :=
  (agree_immediateAt h widthOf index bitNumber).step fun _ => .refl _

/-- The base of an address is known by its number as well. -/
theorem agree_displacedAt (update : Bool) :
    Agree Eq (displacedAt widthOf n index update) (displacedAt widthOf n' index update) := by
  refine (agree_operandAt h widthOf index).bind fun {o o'} alike => ?_
  cases alike with
  | @memory base base' index index' bases indices d w =>
    cases bases with
    | none => exact .error _ _
    | @some name name' same =>
      cases indices with
      | some => exact .error _ _
      | none =>
        dsimp only
        rw [same.gpr?_eq]
        split
        · cases gpr? name' with
          | none => exact .error _ _
          | some r => exact .refl _
        · exact .error _ _
  | register | literal => exact .error _ _

theorem agree_sourceAt (byConstant : Bool) (range : ImmediateRange) :
    Agree Eq (sourceAt widthOf n index byConstant range)
      (sourceAt widthOf n' index byConstant range) := by
  unfold sourceAt
  split
  · exact (agree_immediateAt h widthOf index range).map _
  · exact (agree_gprAt h widthOf index).map _

theorem agree_addendAt (addend : Addend) :
    Agree Eq (addendAt widthOf n index addend) (addendAt widthOf n' index addend) := by
  cases addend with
  | register => exact (agree_gprAt h widthOf index).map _
  | immediate => exact (agree_immediateAt h widthOf index signed16).map _
  | high => exact (agree_immediateAt h widthOf index high16).step fun _ => .refl _
  | minusOne | zero => exact .refl _

end Operands

section Decode

variable (h : n.Alike n') (widthOf : String → Option Width)

include h

/-- A location is read alike, with the same base and the same index. -/
theorem agree_locationAt (addressing : Addressing) :
    Agree Eq (locationAt widthOf n addressing) (locationAt widthOf n' addressing) := by
  cases addressing with
  | displaced | updating => exact agree_displacedAt h widthOf 1 _
  | indexed =>
    exact (agree_baseAt h widthOf 1).step fun _ => (agree_gprAt h widthOf 2).step fun _ => .refl _

theorem agree_rotationAt (form : RotationForm) :
    Agree Eq (rotationAt widthOf n form) (rotationAt widthOf n' form) := by
  cases form with
  | full =>
    exact (agree_bitNumberAt h widthOf 2).step fun _ => (agree_bitNumberAt h widthOf 3).step
      fun _ => (agree_bitNumberAt h widthOf 4).step fun _ => .refl _
  | shiftLeft | shiftRight | rotateLeft =>
    exact (agree_bitNumberAt h widthOf 2).step fun _ => .refl _

/-- Operands with other names are read as the same operation. -/
theorem agree_read (form : Form) (field : ConditionField) (first : Nat) :
    Agree Eq (form.read widthOf n field first) (form.read widthOf n' field first) := by
  have gpr := agree_gprAt h widthOf
  have immediate := agree_immediateAt h widthOf
  cases form with
  | sum kind addend swapped zeroBase =>
    refine (gpr 0).step fun rd => ?_
    cases zeroBase with
    | true =>
      cases swapped <;> exact (agree_baseAt h widthOf _).step fun _ =>
        (agree_addendAt h widthOf _ addend).step fun _ => .refl _
    | false =>
      cases swapped <;> exact ((gpr _).map Base.register).step fun _ =>
        (agree_addendAt h widthOf _ addend).step fun _ => .refl _
  | loadConstant high =>
    refine (gpr 0).step fun rd => ?_
    cases high <;> exact (immediate 1 _).step fun _ => .refl _
  | subtractConstant =>
    exact (gpr 0).step fun _ => (agree_baseAt h widthOf 1).step fun _ =>
      (immediate 2 _).step fun _ => .refl _
  | multiplyLow | multiplyHigh | divide | logic | shift =>
    exact (gpr 0).step fun _ => (gpr 1).step fun _ => (gpr 2).step fun _ => .refl _
  | multiplyConstant | logicConstant =>
    exact (gpr 0).step fun _ => (gpr 1).step fun _ => (immediate 2 _).step fun _ => .refl _
  | move | extend => exact (gpr 0).step fun _ => (gpr 1).step fun _ => .refl _
  | shiftAlgebraic byConstant =>
    exact (gpr 0).step fun _ => (gpr 1).step fun _ =>
      (agree_sourceAt h widthOf 2 byConstant _).step fun _ => .refl _
  | rotate form =>
    exact (gpr 0).step fun _ => (gpr 1).step fun _ => (agree_rotationAt h widthOf form).step
      fun _ => .refl _
  | compare signed byConstant =>
    exact (gpr first).step fun _ => (agree_sourceAt h widthOf _ byConstant _).step fun _ => .refl _
  | load width signed addressing =>
    exact (gpr 0).step fun _ => (agree_locationAt h widthOf addressing).step fun _ => .refl _
  | store width addressing =>
    exact (gpr 0).step fun _ => (agree_locationAt h widthOf addressing).step fun _ => .refl _
  | branch => exact (agree_targetAt h widthOf 0).step fun _ => .refl _
  | branchIf => exact (agree_targetAt h widthOf first).step fun _ => .refl _
  | branchCounted => exact (agree_targetAt h widthOf 0).step fun _ => .refl _
  | moveTo | moveFrom => exact (gpr 0).step fun _ => .refl _
  | branchThrough | nop => exact .refl _

/-- A condition field in front is recognized on both sides or on none. -/
theorem leadingField?_eq : leadingField? n' = leadingField? n := by
  have each := h.operands
  unfold leadingField?
  generalize n.operands = trees at each
  generalize n'.operands = trees' at each
  cases each with
  | nil => rfl
  | @cons tree tree' _ _ first rest =>
    have inside := first.unsized
    simp only [List.head?_cons, Option.map_some]
    generalize tree.unsized = o at inside
    generalize tree'.unsized = o' at inside
    cases inside with
    | register same => exact same.conditionField?_eq.symm
    | immediate | memory | sum | sized => rfl

/-- Instructions that are alike have equally many operands. -/
theorem checkCount_eq (form : Form) (skipped : Nat) :
    checkCount n' form skipped = checkCount n form skipped := by
  unfold checkCount
  rw [h.mnemonic, ← h.operands.length_eq]

/-- Instructions with other names are decoded to the same operation. -/
theorem agree_decode (form : Form) :
    Agree Eq (form.decode widthOf n) (form.decode widthOf n') := by
  unfold Form.decode
  rw [leadingField?_eq h]
  dsimp only
  rw [checkCount_eq h]
  exact (Agree.refl _).step fun _ => agree_read h widthOf form _ _

end Decode

end PowerPC

/-! ## Comments -/

/-- The same expansion with another comment. -/
def Expansion.commented (x : Expansion) (comment : Option String) : Expansion :=
  { x with comment }

/-- A script does not look at the comment. -/
theorem Script.run_commented {α : Type} (s : Script α) (x : Expansion) (c : Option String) :
    s.run (x.commented c) = ((s.run x).1, (s.run x).2.commented c) := by
  induction s generalizing x with
  | done | fail => rfl
  | allocate w _ ih => exact ih _ (x.temporary w).2
  | create _ ih => exact ih _ x.newLabel.2
  | write opcode a b c' _ ih => exact ih (x.emit opcode a b c')
  | attach label _ ih => exact ih (x.bind label)
  | leave condition label _ ih => exact ih (x.jumpIf condition label)

namespace Expansion

variable {x : Expansion} {code : List Instruction}

/-- A comment does not change where a draft is placed. -/
theorem place_commented {k : Nat} {d : Draft} {i : Instruction} (h : x.place k d = .ok i)
    (c : Option String) : (x.commented c).place k d = .ok i := by
  cases d with
  | plain => exact h
  | jump condition label =>
    unfold place at h ⊢
    dsimp only [commented] at h ⊢
    split at h
    · exact h
    · cases h

/-- The comment shows in the layout only if there is none because a label is not bound. -/
theorem layout_commented {drafts : List Draft} {k : Nat} (h : x.layout k drafts = .ok code)
    (c : Option String) : (x.commented c).layout k drafts = .ok code := by
  induction drafts generalizing k code with
  | nil => exact h
  | cons d rest ih =>
    simp only [layout, Except.bind_eq_ok] at h ⊢
    obtain ⟨i, placed, after, laid, made⟩ := h
    exact ⟨i, place_commented placed c, after, ih laid, made⟩

/-- With another comment, the first instruction has this comment. -/
theorem finish_commented (h : x.finish = .ok code) (text : String) :
    (x.commented (some text)).finish = .ok (code.modifyHead (·.withComment text)) := by
  simp only [finish, Except.bind_eq_ok] at h ⊢
  obtain ⟨laid, layout, made⟩ := h
  cases made
  refine ⟨laid, layout_commented layout _, ?_⟩
  cases laid <;> rfl

end Expansion

/-! ## Lifting -/

namespace PowerPC

/-- Instructions with other names are lifted to the same code, but for the comment. -/
theorem translate_of_alike {e : Environment} {n n' : NativeInstruction} (alike : n.Alike n')
    {code code' : List Instruction} (lifted : (registry.translate e n).1 = .ok code)
    (lifted' : (registry.translate e n').1 = .ok code') :
    (registry.translate e n').2 = (registry.translate e n).2 ∧
      code' = code.modifyHead (·.withComment n'.text) := by
  obtain ⟨form, operation, X, mem, decoded, ran, finished, left⟩ := exists_expansion lifted
  obtain ⟨form', operation', X', mem', decoded', ran', finished', left'⟩ :=
    exists_expansion lifted'
  obtain rfl := form_unique (alike.mnemonic ▸ mem) mem'
  obtain rfl := agree_decode alike e.widthOf form _ _ decoded decoded'
  have opened : Expansion.opened e n' = (Expansion.opened e n).commented (some n'.text) := by
    rw [Expansion.opened, alike.address]
    rfl
  rw [opened, alike.mnemonic, alike.address, Script.run_commented, ran] at ran'
  cases ran'
  rw [Expansion.finish_commented finished] at finished'
  exact ⟨left'.trans left.symm, (Except.ok.inj finished').symm⟩

/--
The names of general purpose registers are an `r` and a number below 32, and those of condition
fields a `cr` and a number below 8. The numbers are decimal and may begin with a plus sign and zeros,
a percent sign may stand in front, and no name is of both kinds. Let two instructions differ only in
which of its names each register and each condition field has. If both are lifted in one
environment, they are lifted to the same code, but for the comment of its first instruction, and take
the same temporaries.
-/
theorem register_names_are_interchangeable :
    (∀ name (r : Gpr), gpr? name = some r ↔ Designates ['r'] name r) ∧
    (∀ name (field : ConditionField),
      conditionField? name = some field ↔ Designates ['c', 'r'] name field) ∧
    (∀ name, gpr? name = none ∨ conditionField? name = none) ∧
    ∀ {e e₁ e₂ : Environment} {n n' : NativeInstruction} {code code' : List Instruction},
      n.Alike n' → registry.translate e n = (.ok code, e₁) →
        registry.translate e n' = (.ok code', e₂) →
          e₂ = e₁ ∧ code' = code.modifyHead (·.withComment n'.text) := by
  refine ⟨fun _ _ => gpr?_eq_some_iff, fun _ _ => conditionField?_eq_some_iff, fun name => ?_, ?_⟩
  · cases e : gpr? name with
    | none => exact .inl rfl
    | some r => exact .inr (conditionField?_of_gpr? e)
  · intro e e₁ e₂ n n' code code' alike lifted lifted'
    have same := translate_of_alike alike (congrArg Prod.fst lifted) (congrArg Prod.fst lifted')
    rw [lifted, lifted'] at same
    exact same

/-- A comparison that names its condition field and its registers briefly. -/
def briefComparison : NativeInstruction :=
  ⟨0x100, "cmpw", [.register "cr3", .sized .dword (.register "r4"),
    .sized .dword (.register "%r5")]⟩

/-- The same comparison with other names. -/
def longComparison : NativeInstruction :=
  ⟨0x100, "cmpw", [.register "%cr+003", .sized .dword (.register "%r+04"),
    .sized .dword (.register "%r5")]⟩

/-- Both are lifted, to the same code but for the comment. -/
theorem comparisons_interchange :
    ∃ code e₁, registry.translate environment briefComparison = (.ok code, e₁) ∧
      registry.translate environment longComparison =
        (.ok (code.modifyHead (·.withComment "cmpw %cr+003, %r+04, %r5")), e₁) := by
  have registered : ("cmpw", Form.compare true false) ∈ forms := by simp [forms, controlForms]
  obtain ⟨X, code, brief⟩ : ∃ X code,
      Expands 0 briefComparison (.compare true 3 4 (.register 5)) X code :=
    ⟨_, _, ⟨.compare true false, registered, rfl⟩, rfl, rfl⟩
  obtain ⟨X', code', long⟩ : ∃ X code,
      Expands 0 longComparison (.compare true 3 4 (.register 5)) X code :=
    ⟨_, _, ⟨.compare true false, registered, rfl⟩, rfl, rfl⟩
  have lifted : registry.translate environment briefComparison = (.ok code, X.environment) :=
    brief.translate
  have lifted' : registry.translate environment longComparison = (.ok code', X'.environment) :=
    long.translate
  have alike : briefComparison.Alike longComparison := by
    refine ⟨rfl, rfl, .cons (.register (.field (i := 3) rfl rfl)) ?_⟩
    refine .cons (.sized _ (.register (.gpr (r := 4) rfl rfl))) ?_
    exact .cons (.sized _ (.register (.refl _))) .nil
  obtain ⟨-, -, -, interchange⟩ := register_names_are_interchangeable
  obtain ⟨taken, same⟩ := interchange alike lifted lifted'
  have quoted : longComparison.text = "cmpw %cr+003, %r+04, %r5" := rfl
  exact ⟨code, X.environment, lifted, by rw [lifted', same, taken, quoted]⟩

end PowerPC

end RegisterTransfer
