import RegisterTransfer.Proofs.Aliases

/-!
# Declarations

A catalog is put together by declarations, each of which may be refused. Whatever the calls are, no
name gets two meanings and the bits of every alias lie inside a register, in numbers that do not
wrap. What becomes of a call is said by its causes (`Catalog.Answers`), first the name, then the
parent, then the bits:

> `Catalog.declare_eq_iff`: a declaration has the one answer that its causes give.
> `Catalog.Nested.after`: one declaration keeps aliases inside registers.
> `declared_catalogs_are_nested`: any declarations one after the other.

The one gap is in the check of an alias. Its shift and width are added as 32-bit numbers, so an alias
that ends behind the last of these is not refused: the program stops (`endlessAlias_stops`). The
catalog is the old one then too.
-/

namespace RegisterTransfer

namespace Catalog

/-! ## Answers and their causes -/

/-- The name of an alias is new, and its parent is a register. -/
structure Placeable (c : Catalog) (x : Alias) (parent : Register) : Prop where
  free : ¬ c.contains x.name
  registered : c.register? x.parent = some parent

/-- What comes of a declaration, and why. -/
inductive Answers (c : Catalog) : Declaration → Option (Except CatalogError Catalog) → Prop
  | registered {r : Register} (free : ¬ c.contains r.name) :
    Answers c (.register r) (some (.ok { c with registers := c.registers.insert r.name r }))
  | registerTaken {r : Register} (taken : c.contains r.name) :
    Answers c (.register r) (some (.error (.duplicate r.name)))
  | placed {x : Alias} {parent : Register} (placeable : c.Placeable x parent)
    (room : x.shift + x.width.bits ≤ parent.width.bits) :
    Answers c (.ofBits x) (some (.ok { c with aliases := c.aliases.insert x.name x }))
  | aliasTaken {x : Alias} (taken : c.contains x.name) :
    Answers c (.ofBits x) (some (.error (.duplicate x.name)))
  | orphaned {x : Alias} (free : ¬ c.contains x.name)
    (unregistered : c.register? x.parent = none) :
    Answers c (.ofBits x) (some (.error (.unknownParent x.name x.parent)))
  | outside {x : Alias} {parent : Register} (placeable : c.Placeable x parent)
    (noRoom : parent.width.bits < x.shift + x.width.bits)
    (numbered : x.shift + x.width.bits < 2 ^ 32) :
    Answers c (.ofBits x) (some (.error (.aliasOutOfRange x.name x.parent)))
  /-- The end of the alias has no 32-bit number. -/
  | endless {x : Alias} {parent : Register} (placeable : c.Placeable x parent)
    (behind : 2 ^ 32 ≤ x.shift + x.width.bits) : Answers c (.ofBits x) none

variable {c c' : Catalog} {d : Declaration} {x : Alias} {parent : Register}
  {answer : Option (Except CatalogError Catalog)}

/-- Only the check of bits comes to the sum that may overflow. -/
theorem overflows_iff :
    c.overflows x ↔ (∃ parent, c.Placeable x parent) ∧ 2 ^ 32 ≤ x.shift + x.width.bits := by
  rw [overflows, Bool.and_eq_true, Bool.and_eq_true, Bool.not_eq_true', decide_eq_true_iff]
  refine and_congr_left fun _ => ?_
  constructor
  · rintro ⟨free, found⟩
    obtain ⟨parent, registered⟩ := Option.isSome_iff_exists.1 found
    exact ⟨parent, by simp [free], registered⟩
  · rintro ⟨parent, free, registered⟩
    exact ⟨eq_false_of_ne_true free, by rw [registered]; rfl⟩

/-- An alias of a register that is not declared has no place. -/
theorem not_placeable_of_unregistered (unregistered : c.register? x.parent = none)
    (parent : Register) : ¬ c.Placeable x parent := by
  intro placeable
  rw [placeable.registered] at unregistered
  cases unregistered

/-- An alias that cannot be placed is refused before its bits are looked at. -/
theorem declare_of_not_placeable (nowhere : ∀ parent, ¬ c.Placeable x parent) :
    c.declare (.ofBits x) = some (c.addAlias x) := by
  have fits : ¬ c.overflows x := by
    intro overflows
    obtain ⟨⟨parent, placeable⟩, -⟩ := overflows_iff.1 overflows
    exact nowhere parent placeable
  rw [declare, if_neg fits]

/-- Where an alias can be placed, its bits decide. -/
theorem Placeable.declare (h : c.Placeable x parent) :
    c.declare (.ofBits x) =
      if 2 ^ 32 ≤ x.shift + x.width.bits then none
      else if x.shift + x.width.bits ≤ parent.width.bits then
        some (.ok { c with aliases := c.aliases.insert x.name x })
      else some (.error (.aliasOutOfRange x.name x.parent)) := by
  rw [Catalog.declare]
  by_cases behind : 2 ^ 32 ≤ x.shift + x.width.bits
  · rw [if_pos behind, if_pos (overflows_iff.2 ⟨⟨parent, h⟩, behind⟩)]
  · have fits : ¬ c.overflows x := fun overflows => behind (overflows_iff.1 overflows).2
    rw [if_neg behind, if_neg fits, addAlias, if_neg h.free, h.registered]
    dsimp only
    split <;> rfl

/-- Every declaration has an answer with a cause. -/
theorem answers_declare (c : Catalog) (d : Declaration) : c.Answers d (c.declare d) := by
  cases d with
  | register r =>
    rw [declare, addRegister]
    by_cases taken : c.contains r.name
    · rw [if_pos taken]
      exact .registerTaken taken
    · rw [if_neg taken]
      exact .registered taken
  | ofBits x =>
    by_cases taken : c.contains x.name
    · rw [declare_of_not_placeable fun parent placeable => placeable.free taken, addAlias,
        if_pos taken]
      exact .aliasTaken taken
    · cases registered : c.register? x.parent with
      | none =>
        rw [declare_of_not_placeable (not_placeable_of_unregistered registered), addAlias,
          if_neg taken, registered]
        exact .orphaned taken registered
      | some parent =>
        have placeable : c.Placeable x parent := ⟨taken, registered⟩
        rw [placeable.declare]
        split
        · next behind => exact .endless placeable behind
        · next numbered =>
          split
          · next room => exact .placed placeable room
          · next noRoom => exact .outside placeable (by omega) (by omega)

/-- A cause has its answer. -/
theorem Answers.declare (h : c.Answers d answer) : c.declare d = answer := by
  have nowhere_taken : ∀ {x : Alias}, c.contains x.name → ∀ parent, ¬ c.Placeable x parent :=
    fun taken parent placeable => placeable.free taken
  cases h with
  | registered free => rw [Catalog.declare, addRegister, if_neg free]
  | registerTaken taken => rw [Catalog.declare, addRegister, if_pos taken]
  | @placed x parent placeable room =>
    -- no register is as wide as the numbers that the check of bits wraps at
    have numbered : ¬ 2 ^ 32 ≤ x.shift + x.width.bits := by
      have := parent.width.bits_le
      omega
    rw [placeable.declare, if_neg numbered, if_pos room]
  | aliasTaken taken =>
    rw [declare_of_not_placeable (nowhere_taken taken), addAlias, if_pos taken]
  | orphaned free unregistered =>
    rw [declare_of_not_placeable (not_placeable_of_unregistered unregistered), addAlias,
      if_neg free, unregistered]
  | outside placeable noRoom numbered =>
    rw [placeable.declare, if_neg (Nat.not_le_of_lt numbered), if_neg (Nat.not_le_of_lt noRoom)]
  | endless placeable behind => rw [placeable.declare, if_pos behind]

/-- A declaration has the one answer that its causes give. -/
theorem declare_eq_iff : c.declare d = answer ↔ c.Answers d answer := by
  constructor
  · rintro rfl
    exact c.answers_declare d
  · exact Answers.declare

/-! ## Declarations one after the other -/

/-- A declaration that is not accepted changes nothing. -/
theorem after_eq_self (refused : ∀ c', c.declare d ≠ some (.ok c')) : c.after d = c := by
  unfold after
  split
  · next c' accepted => exact absurd accepted (refused c')
  · rfl

/-- One declaration keeps aliases inside registers. -/
theorem Nested.after (h : c.Nested) (d : Declaration) : (c.after d).Nested := by
  unfold Catalog.after
  split
  · next c' accepted =>
    cases d with
    | register r => exact h.addRegister (Option.some.inj accepted)
    | ofBits x =>
      rw [declare] at accepted
      split at accepted
      · cases accepted
      · exact h.addAlias (Option.some.inj accepted)
  · exact h

/-- A nested catalog stays nested through any declarations, whether or not they are accepted. -/
theorem Nested.afterAll (h : c.Nested) (calls : List Declaration) :
    (calls.foldl Catalog.after c).Nested := by
  induction calls generalizing c with
  | nil => exact h
  | cons d rest ih => exact ih (h.after d)

end Catalog

/--
Whatever is declared, in a catalog of a list of registers, which may be empty: no name is a register
and an alias, and every alias lies inside its parent, which is a register. The next declaration has
the answer that its causes give, and changes nothing unless it is accepted.
-/
theorem declared_catalogs_are_nested (registers : List Register) (calls : List Declaration) :
    let c := calls.foldl Catalog.after (.ofRegisters registers)
    (∀ name, c.register? name = none ∨ c.alias? name = none) ∧
      (∀ name x, c.alias? name = some x → c.alias? x.parent = none ∧
        ∃ r, c.register? x.parent = some r ∧ x.shift + x.width.bits ≤ r.width.bits) ∧
      (∀ d answer, c.declare d = answer ↔ c.Answers d answer) ∧
      ∀ d, (∀ c', c.declare d ≠ some (.ok c')) → c.after d = c := by
  intro c
  have nested : c.Nested := (Catalog.nested_ofRegisters registers).afterAll calls
  refine ⟨fun name => ?_, fun name x named => ?_, fun d answer => Catalog.declare_eq_iff,
    fun d => Catalog.after_eq_self⟩
  · cases named : c.alias? name with
    | none => exact .inr rfl
    | some x => exact .inl (nested.apart named)
  · obtain ⟨r, registered, -, unaliased, room⟩ := nested.parent named
    exact ⟨unaliased, r, registered, room⟩

/-- An alias for the eight bits behind the last bit that has a 32-bit number. -/
def endlessAlias : Alias := ⟨"bad", "eax", 2 ^ 32 - 1, .byte⟩

/-- The end of the alias lies outside its parent, yet the alias is not refused for it. -/
theorem endlessAlias_stops :
    let c := Catalog.ofRegisters [⟨"eax", .dword, .general⟩]
    c.Placeable endlessAlias ⟨"eax", .dword, .general⟩ ∧
      ¬ endlessAlias.shift + endlessAlias.width.bits ≤ Width.dword.bits ∧
      c.declare (.ofBits endlessAlias) ≠ some (.error (.aliasOutOfRange "bad" "eax")) ∧
      c.declare (.ofBits endlessAlias) = none := by
  intro c
  have free : ¬ c.contains "bad" := by decide
  exact ⟨⟨free, rfl⟩, by decide, by decide, by decide⟩

end RegisterTransfer
