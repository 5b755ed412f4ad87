import Mathlib.Algebra.BigOperators.Group.List.Basic
import Mathlib.Algebra.Ring.Int.Defs
import RegisterTransfer.Native.Resolution

/-!
# Resolution of operand trees

An operand tree is an operand inside a chain of widths. If the widths agree, the operand resolves by
its kind, with the width they agree on. The address of a memory operand counts only by its terms,
the leaves of its tree from left to right: sums and widths in between have no effect, so the fold of
`AddressTerms.take` over the terms collects what the walk through the tree does. The first two
registers become base and index, and the immediates add up to the displacement, which wraps around
at 64 bits.

> `AddressTerms.collect_eq_foldlM`: an address is collected term by term.
> `AddressTerms.take_ofTerms`: what one more term does to the terms so far.
> `resolution_flattens_addresses`: what every operand tree resolves to, and that the terms of an
> address are all that matters.
-/

namespace RegisterTransfer

/-! ## Terms of an address -/

/-- What stands at a leaf of an address. -/
inductive AddressTerm where
  | register (name : String)
  | immediate (value : Int)
  /-- Memory inside an address, which is not looked into. -/
  | memory
  deriving DecidableEq, Repr

namespace AddressTerm

def register? : AddressTerm → Option String
  | register name => some name
  | immediate _ | memory => none

def immediate? : AddressTerm → Option Int
  | immediate value => some value
  | register _ | memory => none

/-- The value of a term, given the values of registers. -/
def value (registers : String → Int) : AddressTerm → Int
  | register name => registers name
  | immediate value => value
  | memory => 0

end AddressTerm

/-- The registers among terms. -/
def registersOf (terms : List AddressTerm) : List String := terms.filterMap AddressTerm.register?

/-- The immediates among terms. -/
def immediatesOf (terms : List AddressTerm) : List Int := terms.filterMap AddressTerm.immediate?

namespace OperandTree

/-- The leaves of an address from left to right. -/
def terms : OperandTree → List AddressTerm
  | register name => [.register name]
  | immediate value => [.immediate value]
  | memory _ => [.memory]
  | sum left right => left.terms ++ right.terms
  | sized _ operand => operand.terms

/-- The register leaves of an address from left to right. -/
def registers (address : OperandTree) : List String := registersOf address.terms

/-- The immediate leaves of an address from left to right. -/
def immediates (address : OperandTree) : List Int := immediatesOf address.terms

/-- No memory inside the address. -/
def Flat (address : OperandTree) : Prop := .memory ∉ address.terms

instance (address : OperandTree) : Decidable address.Flat :=
  inferInstanceAs (Decidable (.memory ∉ address.terms))

/-- The sum of all leaves of an address, given the values of registers. -/
def total (values : String → Int) : OperandTree → Int
  | register name => values name
  | immediate value => value
  | memory _ => 0
  | sum left right => left.total values + right.total values
  | sized _ operand => operand.total values

/-- The address without the widths in it. -/
def withoutWidths : OperandTree → OperandTree
  | register name => register name
  | immediate value => immediate value
  | memory address => memory address
  | sum left right => sum left.withoutWidths right.withoutWidths
  | sized _ operand => operand.withoutWidths

/-- Widths inside an address have no effect on its leaves. -/
theorem terms_withoutWidths (address : OperandTree) :
    address.withoutWidths.terms = address.terms := by
  induction address with
  | register | immediate | memory => rfl
  | sum left right left_ih right_ih => simp only [withoutWidths, terms, left_ih, right_ih]
  | sized width operand ih => exact ih

/-- The sum of an address is that of its leaves, however they are nested. -/
theorem total_eq_sum_terms (values : String → Int) (address : OperandTree) :
    address.total values = (address.terms.map (AddressTerm.value values)).sum := by
  induction address with
  | register | immediate | memory => simp [total, terms, AddressTerm.value]
  | sum left right left_ih right_ih =>
    rw [total, terms, List.map_append, List.sum_append, left_ih, right_ih]
  | sized width operand ih => exact ih

end OperandTree

/-- The values of all terms are those of the registers and the immediates. -/
theorem sum_terms_eq (values : String → Int) (terms : List AddressTerm) :
    (terms.map (AddressTerm.value values)).sum =
      ((registersOf terms).map values).sum + (immediatesOf terms).sum := by
  induction terms with
  | nil => rfl
  | cons term rest ih =>
    rw [List.map_cons, List.sum_cons, ih]
    cases term with
    | register name =>
      show _ = (values name + ((registersOf rest).map values).sum) + (immediatesOf rest).sum
      exact (Int.add_assoc ..).symm
    | immediate value =>
      show _ = _ + (value + (immediatesOf rest).sum)
      exact Int.add_left_comm ..
    | memory => exact Int.zero_add _

/-! ## Collecting terms -/

namespace AddressTerms

/-- Takes the next term. -/
def take (t : AddressTerms) : AddressTerm → Except Malformation AddressTerms
  | .register name => t.addRegister name
  | .immediate value => .ok (t.displace value)
  | .memory => .error .nestedMemory

/-- An address is collected term by term. -/
theorem collect_eq_foldlM (t : AddressTerms) (address : OperandTree) :
    t.collect address = address.terms.foldlM take t := by
  induction address generalizing t with
  | register name => exact (bind_pure (t.addRegister name)).symm
  | immediate | memory => rfl
  | sum left right left_ih right_ih =>
    rw [collect, OperandTree.terms, List.foldlM_append, left_ih]
    exact bind_congr fun t => right_ih t
  | sized width operand ih => exact ih t

/-- What the terms so far come to, as long as there are at most two registers among them. -/
def ofTerms (terms : List AddressTerm) : AddressTerms :=
  ⟨(registersOf terms)[0]?, (registersOf terms)[1]?,
    (immediatesOf terms).sum.bmod Width.qword.modulus⟩

/-- A register at the end is the last of the registers. -/
theorem registersOf_concat_register (terms : List AddressTerm) (name : String) :
    registersOf (terms ++ [.register name]) = registersOf terms ++ [name] := List.filterMap_append

/-- An immediate is no register. -/
theorem registersOf_concat_immediate (terms : List AddressTerm) (value : Int) :
    registersOf (terms ++ [.immediate value]) = registersOf terms := by
  rw [registersOf, List.filterMap_append]
  exact List.append_nil _

/-- One more term, if it is no memory and no third register. -/
theorem take_ofTerms {terms : List AddressTerm} {term : AddressTerm} (ne : term ≠ .memory)
    (few : (registersOf (terms ++ [term])).length ≤ 2) :
    (ofTerms terms).take term = .ok (ofTerms (terms ++ [term])) := by
  cases term with
  | memory => exact absurd rfl ne
  | register name =>
    have same : immediatesOf (terms ++ [.register name]) = immediatesOf terms := by
      rw [immediatesOf, List.filterMap_append]
      exact List.append_nil _
    rw [registersOf_concat_register, List.length_append, List.length_singleton] at few
    rw [take, ofTerms, ofTerms, same, registersOf_concat_register]
    match registersOf terms, few with
    | [], _ => rfl
    | [_], _ => rfl
    | _ :: _ :: _, few =>
      rw [List.length_cons, List.length_cons] at few
      omega
  | immediate value =>
    have more : immediatesOf (terms ++ [.immediate value]) = immediatesOf terms ++ [value] :=
      List.filterMap_append
    rw [take, displace, ofTerms, ofTerms, more, registersOf_concat_immediate, List.sum_append,
      List.sum_singleton, Int.bmod_add_bmod]

/-- A third register is refused. -/
theorem take_third {terms : List AddressTerm} (two : (registersOf terms).length = 2)
    (name : String) : (ofTerms terms).take (.register name) = .error (.thirdRegister name) := by
  match found : registersOf terms, two with
  | [_, _], _ => rw [take, ofTerms, found]; rfl

/-- Terms with at most two registers, and no memory, are all taken. -/
theorem foldlM_of_few (before : List AddressTerm) {terms : List AddressTerm}
    (flat : .memory ∉ terms) (few : (registersOf (before ++ terms)).length ≤ 2) :
    terms.foldlM take (ofTerms before) = .ok (ofTerms (before ++ terms)) := by
  induction terms generalizing before with
  | nil => rw [List.append_nil]; rfl
  | cons term rest ih =>
    have ne : term ≠ .memory := fun same => flat (same ▸ List.mem_cons_self ..)
    have flat : .memory ∉ rest := fun mem => flat (List.mem_cons_of_mem _ mem)
    have split : before ++ term :: rest = before ++ [term] ++ rest := by simp
    rw [split] at few ⊢
    have fewer : (registersOf (before ++ [term])).length ≤ 2 := by
      rw [registersOf, List.filterMap_append, List.length_append] at few
      exact Nat.le_trans (Nat.le_add_right _ _) few
    rw [List.foldlM_cons, take_ofTerms ne fewer]
    exact ih (before ++ [term]) flat few

/-- Of three registers or more, without memory before, the third is refused. -/
theorem foldlM_of_third (before : List AddressTerm) {terms : List AddressTerm} {name : String}
    (flat : .memory ∉ terms) (few : (registersOf before).length ≤ 2)
    (third : (registersOf (before ++ terms))[2]? = some name) :
    terms.foldlM take (ofTerms before) = .error (.thirdRegister name) := by
  induction terms generalizing before with
  | nil =>
    rw [List.append_nil] at third
    have := (List.getElem?_eq_some_iff.1 third).1
    omega
  | cons term rest ih =>
    have ne : term ≠ .memory := fun same => flat (same ▸ List.mem_cons_self ..)
    have flat : .memory ∉ rest := fun mem => flat (List.mem_cons_of_mem _ mem)
    have split : before ++ term :: rest = before ++ [term] ++ rest := by simp
    rw [split] at third
    by_cases fewer : (registersOf (before ++ [term])).length ≤ 2
    · rw [List.foldlM_cons, take_ofTerms ne fewer]
      exact ih (before ++ [term]) flat fewer third
    · -- only a register makes them more, and it is the third
      cases term with
      | memory => exact absurd rfl ne
      | immediate value =>
        rw [registersOf_concat_immediate] at fewer
        exact absurd few fewer
      | register other =>
        rw [registersOf_concat_register, List.length_append, List.length_singleton] at fewer
        have two : (registersOf before).length = 2 := by omega
        have same : other = name := by
          rw [registersOf, List.filterMap_append, ← registersOf, registersOf_concat_register,
            List.append_assoc, List.getElem?_append_right (by omega), two] at third
          exact Option.some.inj third
        rw [List.foldlM_cons, take_third two, same]
        rfl

/-- Where there is memory among the terms, some term is refused. -/
theorem foldlM_of_memory {terms : List AddressTerm} (nested : .memory ∈ terms) (t : AddressTerms) :
    ∃ reason, terms.foldlM take t = .error reason := by
  induction terms generalizing t with
  | nil => cases nested
  | cons term rest ih =>
    rw [List.foldlM_cons]
    cases taken : t.take term with
    | error reason => exact ⟨reason, rfl⟩
    | ok t' =>
      rcases List.mem_cons.1 nested with rfl | nested
      · cases taken
      · exact ih nested t'

section Collect

variable {address : OperandTree}

/-- With at most two registers they become base and index, and the immediates add up. -/
theorem collect_of_few (flat : address.Flat) (few : address.registers.length ≤ 2) :
    collect {} address = .ok ⟨address.registers[0]?, address.registers[1]?,
      address.immediates.sum.bmod Width.qword.modulus⟩ := by
  rw [collect_eq_foldlM]
  exact foldlM_of_few [] flat few

/-- The third register is one too many, and the error names it. -/
theorem collect_of_third {name : String} (flat : address.Flat)
    (third : address.registers[2]? = some name) :
    collect {} address = .error (.thirdRegister name) := by
  rw [collect_eq_foldlM]
  exact foldlM_of_third [] flat (Nat.zero_le 2) third

/-- Memory inside an address is always refused, if nothing was refused before. -/
theorem collect_of_not_flat (nested : ¬ address.Flat) :
    ∃ reason, collect {} address = .error reason := by
  rw [collect_eq_foldlM]
  exact foldlM_of_memory (Decidable.not_not.1 nested) {}

/-- An address is refused exactly if it has memory in it or three registers. -/
theorem collect_refuses (bad : ¬ (address.Flat ∧ address.registers.length ≤ 2)) :
    ∃ reason, collect {} address = .error reason := by
  by_cases flat : address.Flat
  · have more : 2 < address.registers.length := by
      by_contra few
      exact bad ⟨flat, Nat.le_of_not_lt few⟩
    exact ⟨_, collect_of_third flat (List.getElem?_eq_getElem more)⟩
  · exact collect_of_not_flat flat

/-- Addresses with the same registers and the same immediates are collected alike. -/
theorem collect_congr {address' : OperandTree} (flat : address.Flat) (flat' : address'.Flat)
    (registers : address.registers = address'.registers)
    (immediates : address.immediates.Perm address'.immediates) :
    collect {} address = collect {} address' := by
  by_cases few : address.registers.length ≤ 2
  · rw [collect_of_few flat few, collect_of_few flat' (registers ▸ few), registers,
      immediates.sum_eq]
  · obtain ⟨name, third⟩ : ∃ name, address.registers[2]? = some name :=
      ⟨_, List.getElem?_eq_getElem (Nat.lt_of_not_le few)⟩
    rw [collect_of_third flat third]
    rw [registers] at third
    exact (collect_of_third flat' third).symm

end Collect

end AddressTerms

/-! ## Widths around an operand -/

namespace OperandTree

/-- The widths around an operand, from the outermost to the innermost. -/
def outerWidths : OperandTree → List Width
  | sized width operand => width :: operand.outerWidths
  | register _ | immediate _ | memory _ | sum _ _ => []

/-- The widths around an operand are all the same. -/
def WidthsAgree (t : OperandTree) : Prop := t.outerWidths.Pairwise (· = ·)

instance (t : OperandTree) : Decidable t.WidthsAgree :=
  inferInstanceAs (Decidable (t.outerWidths.Pairwise (· = ·)))

variable {widthOf : String → Option Width} {t : OperandTree}

/-- Widths that agree with each other and with the one outside leave the operand at that width. -/
theorem resolveWithin_of_agree (outer : Option Width) (agree : t.WidthsAgree)
    (same : ∀ w ∈ outer, ∀ w' ∈ t.outerWidths, w = w') :
    t.resolveWithin widthOf outer =
      t.unsized.resolveWithin widthOf (outer.or t.outerWidths.head?) := by
  induction t generalizing outer with
  | register | immediate | memory | sum =>
    show _ = resolveWithin widthOf (outer.or none) _
    rw [Option.or_none]
    rfl
  | sized width operand ih =>
    obtain ⟨inner, agree⟩ := List.pairwise_cons.1 agree
    have step := ih (some width) agree fun w mem w' mem' =>
      Option.mem_some.1 mem ▸ inner w' mem'
    rw [Option.some_or] at step
    cases outer with
    | none => exact step
    | some w =>
      have equal : w = width := same w rfl width (List.mem_cons_self ..)
      subst equal
      show (if w = w then _ else _) = _
      rw [if_pos rfl, step]
      rfl

/-- Two widths that differ are refused, the first that differs from the one outside. -/
theorem resolveWithin_of_conflict (outer : Option Width)
    (conflict : ¬ (t.WidthsAgree ∧ ∀ w ∈ outer, ∀ w' ∈ t.outerWidths, w = w')) :
    ∃ w w' operand, w ≠ w' ∧ t.resolveWithin widthOf outer =
      .error (.malformed (.conflictingWidths w w' operand)) := by
  induction t generalizing outer with
  | register | immediate | memory | sum => exact absurd ⟨.nil, nofun⟩ conflict
  | sized width operand ih =>
    cases outer with
    | none =>
      refine ih (some width) fun inner => conflict ⟨?_, nofun⟩
      exact List.pairwise_cons.2 ⟨fun w' mem => inner.2 width rfl w' mem, inner.1⟩
    | some w =>
      -- where the two outer widths agree the conflict lies further inside
      by_cases equal : w = width
      · subst equal
        obtain ⟨v, v', inside, ne, refused⟩ := ih (some w) fun inner => by
          refine conflict ⟨List.pairwise_cons.2 ⟨inner.2 w rfl, inner.1⟩, fun v mem v' mem' => ?_⟩
          cases mem
          rcases List.mem_cons.1 mem' with rfl | mem'
          · rfl
          · exact inner.2 w rfl v' mem'
        refine ⟨v, v', inside, ne, ?_⟩
        show (if w = w then _ else _) = _
        rw [if_pos rfl, refused]
      · exact ⟨w, width, operand, equal, if_neg equal⟩

/-- Where the outer widths agree, the outermost one is that of the operand. -/
theorem resolve_of_agree (widthOf : String → Option Width) (agree : t.WidthsAgree) :
    t.resolve widthOf = t.unsized.resolveWithin widthOf t.outerWidths.head? := by
  have outside : ∀ w ∈ (none : Option Width), ∀ w' ∈ t.outerWidths, w = w' := nofun
  rw [resolve, resolveWithin_of_agree none agree outside, Option.none_or]

/-- Two outer widths that differ are refused, whatever they stand around. -/
theorem resolve_of_conflict (widthOf : String → Option Width) (conflict : ¬ t.WidthsAgree) :
    ∃ w w' operand, w ≠ w' ∧
      t.resolve widthOf = .error (.malformed (.conflictingWidths w w' operand)) :=
  resolveWithin_of_conflict none fun both => conflict both.1

/-- What is left without its outer widths has none. -/
theorem unsized_ne_sized {width : Width} {operand : OperandTree} :
    t.unsized ≠ .sized width operand := by
  induction t with
  | register | immediate | memory | sum => exact nofun
  | sized _ _ ih => exact ih

/-! ## Memory operands -/

/-- An address that is looked up is collected, and what is wrong with it is malformed. -/
theorem resolve_of_memory {address : OperandTree} (agree : t.WidthsAgree)
    (memory : t.unsized = .memory address) :
    t.resolve widthOf = match AddressTerms.collect {} address with
      | .ok terms => .ok (.memory terms.base terms.index terms.displacement t.outerWidths.head?)
      | .error reason => .error (.malformed reason) := by
  rw [resolve_of_agree widthOf agree, memory]
  rfl

/-- A flat address with at most two registers resolves to base, index and displacement. -/
theorem resolve_of_few {address : OperandTree} (agree : t.WidthsAgree)
    (memory : t.unsized = .memory address) (flat : address.Flat)
    (few : address.registers.length ≤ 2) :
    t.resolve widthOf = .ok (.memory address.registers[0]? address.registers[1]?
      (address.immediates.sum.bmod Width.qword.modulus) t.outerWidths.head?) := by
  rw [resolve_of_memory agree memory, AddressTerms.collect_of_few flat few]

/-- Memory that resolves has an address with at most two registers, and resolves to its terms. -/
theorem memory_of_resolve {address : OperandTree} {resolved : ResolvedOperand}
    (memory : t.unsized = .memory address) (resolves : t.resolve widthOf = .ok resolved) :
    address.registers.length ≤ 2 ∧ resolved = .memory address.registers[0]? address.registers[1]?
      (address.immediates.sum.bmod Width.qword.modulus) t.outerWidths.head? := by
  by_cases agree : t.WidthsAgree
  · by_cases good : address.Flat ∧ address.registers.length ≤ 2
    · rw [resolve_of_few agree memory good.1 good.2] at resolves
      cases resolves
      exact ⟨good.2, rfl⟩
    · obtain ⟨reason, refused⟩ := AddressTerms.collect_refuses good
      rw [resolve_of_memory agree memory, refused] at resolves
      cases resolves
  · obtain ⟨_, _, _, -, refused⟩ := resolve_of_conflict widthOf agree
    rw [refused] at resolves
    cases resolves

/-- Widths in an address have no effect. -/
theorem resolve_withoutWidths (address : OperandTree) :
    (OperandTree.memory address).resolve widthOf =
      (OperandTree.memory address.withoutWidths).resolve widthOf := by
  have same : AddressTerms.collect {} address = AddressTerms.collect {} address.withoutWidths := by
    rw [AddressTerms.collect_eq_foldlM, AddressTerms.collect_eq_foldlM, terms_withoutWidths]
  show (match AddressTerms.collect {} address with | .ok _ => _ | .error _ => _) = _
  rw [same]
  rfl

/-- Base, index and displacement are the sum of all leaves, modulo the number of addresses. -/
theorem total_emod {address : OperandTree} (few : address.registers.length ≤ 2)
    (values : String → Int) :
    (address.registers[0]?.elim 0 values + address.registers[1]?.elim 0 values +
        address.immediates.sum.bmod Width.qword.modulus) % Width.qword.modulus =
      address.total values % Width.qword.modulus := by
  have named : address.registers[0]?.elim 0 values + address.registers[1]?.elim 0 values =
      (address.registers.map values).sum := by
    match address.registers, few with
    | [], _ => rfl
    | [first], _ => rfl
    | [first, second], _ =>
      show values first + values second = values first + (values second + 0)
      omega
  rw [named, total_eq_sum_terms, sum_terms_eq, Int.add_emod, Int.bmod_emod, ← Int.add_emod]
  rfl

end OperandTree

/--
How operand trees resolve. Two different widths around an operand are malformed. If they agree, a
register has their width or else its declared one, and is unknown without either; an immediate has
their width or else 64 bits; a sum is malformed; and memory resolves exactly if its address has no
memory in it and at most two registers. Then base and index are the first and the second register
from left to right, and the displacement is the sum of the immediates, wrapped around at 64 bits.
Widths in an address have no effect, addresses with the same registers in order and the same
immediates resolve alike, and base, index and displacement are the sum of all leaves modulo
`2 ^ 64`.
-/
theorem resolution_flattens_addresses (widthOf : String → Option Width) :
    (∀ t : OperandTree,
      if t.WidthsAgree then
        match t.unsized with
        | .register name => t.resolve widthOf =
          match t.outerWidths.head?.or (widthOf name) with
          | some width => .ok (.register name width)
          | none => .error (.unknownRegister name)
        | .immediate value =>
          t.resolve widthOf = .ok (.literal value (t.outerWidths.head?.getD .qword))
        | .sum left right =>
          t.resolve widthOf = .error (.malformed (.sumOutsideMemory (.sum left right)))
        | .memory address =>
          if address.Flat ∧ address.registers.length ≤ 2 then
            t.resolve widthOf = .ok (.memory address.registers[0]? address.registers[1]?
              (address.immediates.sum.bmod Width.qword.modulus) t.outerWidths.head?)
          else
            ∃ reason, t.resolve widthOf = .error (.malformed reason)
        | .sized _ _ => False
      else
        ∃ w w' operand, w ≠ w' ∧
          t.resolve widthOf = .error (.malformed (.conflictingWidths w w' operand))) ∧
    (∀ (address : OperandTree), (OperandTree.memory address).resolve widthOf =
      (OperandTree.memory address.withoutWidths).resolve widthOf) ∧
    (∀ (t t' address address' : OperandTree), t.unsized = .memory address →
      t'.unsized = .memory address' → t.WidthsAgree → t'.outerWidths = t.outerWidths →
      address.Flat → address'.Flat → address'.registers = address.registers →
      address'.immediates.Perm address.immediates → t'.resolve widthOf = t.resolve widthOf) ∧
    ∀ (t address : OperandTree) (base index : Option String) (displacement : Int)
      (width : Option Width) (values : String → Int), t.unsized = .memory address →
      t.resolve widthOf = .ok (.memory base index displacement width) →
      (base.elim 0 values + index.elim 0 values + displacement) % Width.qword.modulus =
        address.total values % Width.qword.modulus := by
  refine ⟨fun t => ?_, fun address => ?_, ?_, ?_⟩
  · split
    · next agree =>
      have resolved := OperandTree.resolve_of_agree widthOf agree
      split
      · next name here =>
        rw [resolved, here]
        rfl
      · next value here =>
        rw [resolved, here]
        rfl
      · next left right here =>
        rw [resolved, here]
        rfl
      · next address here =>
        split
        · next good => exact OperandTree.resolve_of_few agree here good.1 good.2
        · next bad =>
          obtain ⟨reason, refused⟩ := AddressTerms.collect_refuses bad
          exact ⟨reason, by rw [OperandTree.resolve_of_memory agree here, refused]⟩
      · next width operand here => exact OperandTree.unsized_ne_sized here
    · next conflict => exact OperandTree.resolve_of_conflict widthOf conflict
  · exact OperandTree.resolve_withoutWidths address
  · intro t t' address address' here here' agree same flat flat' registers immediates
    have agree' : t'.WidthsAgree := by rw [OperandTree.WidthsAgree, same]; exact agree
    rw [OperandTree.resolve_of_memory agree here, OperandTree.resolve_of_memory agree' here', same,
      AddressTerms.collect_congr flat' flat registers immediates]
  · intro t address base index displacement width values here resolved
    obtain ⟨few, e⟩ := OperandTree.memory_of_resolve here resolved
    cases e
    exact OperandTree.total_emod few values

end RegisterTransfer
