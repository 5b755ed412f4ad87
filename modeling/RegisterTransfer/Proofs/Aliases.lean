import RegisterTransfer.Proofs.Arithmetic
import RegisterTransfer.Proofs.StepFrames

/-!
# Aliases in a register file

An alias names a run of bits of its parent, and several aliases may share bits. Entries are kept for
registers only, so whatever is done through an alias is done to the entry of its parent:

> `Alias.testBit_merge`: writing an alias replaces its bits and leaves all others.
> `RegisterFile.Sound.change`: one change keeps entries away from aliases and inside their widths.
> `aliases_share_bits`: after any changes, what is read under every name once an alias is written or
> marked undefined.

The catalog has to be `Catalog.Nested`, as every catalog is that was declared step by step: the bits
of an alias lie inside a register, and no name stands for an alias and for a register.
-/

namespace RegisterTransfer

/-! ## Nested catalogs -/

namespace Catalog

/-- The bits of every alias lie inside a register, and no alias is a register too. -/
structure Nested (c : Catalog) : Prop where
  inside : ∀ {name x}, c.alias? name = some x →
    ∃ r, c.register? x.parent = some r ∧ x.shift + x.width.bits ≤ r.width.bits
  apart : ∀ {name x}, c.alias? name = some x → c.register? name = none

variable {c c' : Catalog}

/-- A name is free if neither a register nor an alias has it. -/
theorem contains_eq_false_iff {name : String} :
    c.contains name = false ↔ c.register? name = none ∧ c.alias? name = none := by
  have absent : ∀ {α : Type} (m : SortedMap String α),
      m.contains name = false ↔ m.get? name = none := fun m =>
    Option.isSome_eq_false_iff.trans Option.isNone_iff_eq_none
  rw [contains, Bool.or_eq_false_iff]
  exact and_congr (absent c.registers) (absent c.aliases)

/-- A catalog of registers is nested, for it has no aliases. -/
theorem nested_ofRegisters (registers : List Register) : (ofRegisters registers).Nested :=
  ⟨nofun, nofun⟩

/-- A new register is not in the way of any alias. -/
theorem Nested.addRegister (h : c.Nested) {r : Register} (added : c.addRegister r = .ok c') :
    c'.Nested := by
  unfold Catalog.addRegister at added
  split at added
  · cases added
  · next free =>
    cases added
    obtain ⟨unregistered, unaliased⟩ := contains_eq_false_iff.1 (eq_false_of_ne_true free)
    have kept : ∀ {name}, name ≠ r.name →
        (c.registers.insert r.name r).get? name = c.register? name := fun ne =>
      SortedMap.get?_insert_of_ne _ _ ne
    constructor
    · intro name x found
      obtain ⟨parent, registered, room⟩ := h.inside found
      have ne : x.parent ≠ r.name := fun same => by
        rw [same, unregistered] at registered
        cases registered
      exact ⟨parent, (kept ne).trans registered, room⟩
    · intro name x found
      have ne : name ≠ r.name := fun same => by
        have found : c.alias? name = some x := found
        rw [same, unaliased] at found
        cases found
      exact (kept ne).trans (h.apart found)

/-- A new alias is checked to lie inside a register. -/
theorem Nested.addAlias (h : c.Nested) {x : Alias} (added : c.addAlias x = .ok c') :
    c'.Nested := by
  unfold Catalog.addAlias at added
  split at added
  · cases added
  · next free =>
    obtain ⟨unregistered, -⟩ := contains_eq_false_iff.1 (eq_false_of_ne_true free)
    split at added
    · cases added
    · next parent registered =>
      split at added
      · next room =>
        cases added
        have found : ∀ {name y}, (c.aliases.insert x.name x).get? name = some y →
            (name = x.name ∧ y = x) ∨ c.alias? name = some y := by
          intro name y there
          rw [SortedMap.get?_insert] at there
          split at there
          · next same => exact .inl ⟨same, (Option.some.inj there).symm⟩
          · exact .inr there
        constructor
        · intro name y there
          rcases found there with ⟨-, rfl⟩ | old
          · exact ⟨parent, registered, room⟩
          · exact h.inside old
        · intro name y there
          rcases found there with ⟨rfl, -⟩ | old
          · exact unregistered
          · exact h.apart old
      · cases added

/-- The parent of an alias is a register, with its declared width, and no alias itself. -/
theorem Nested.parent (h : c.Nested) {name : String} {x : Alias}
    (found : c.alias? name = some x) :
    ∃ r, c.register? x.parent = some r ∧ c.widthOf x.parent = some r.width ∧
      c.alias? x.parent = none ∧ x.shift + x.width.bits ≤ r.width.bits := by
  obtain ⟨r, registered, room⟩ := h.inside found
  refine ⟨r, registered, by rw [widthOf, registered], ?_, room⟩
  cases other : c.alias? x.parent with
  | none => rfl
  | some y =>
    have none := h.apart other
    rw [registered] at none
    cases none

end Catalog

/-! ## Bits of an alias -/

namespace Alias

variable (x : Alias) (old value : Nat)

/-- The bits that an alias names, as a quotient and a remainder. -/
theorem extract_eq : x.extract old = old / 2 ^ x.shift % 2 ^ x.width.bits := by
  rw [extract, Width.truncate, Width.modulus_eq_two_pow, Nat.shiftRight_eq_div_pow]

/-- Merging puts the old bits above, the new bits, and the old bits below together. -/
theorem merge_eq : x.merge old value =
    2 ^ x.shift * (2 ^ x.width.bits * (old / 2 ^ (x.shift + x.width.bits)) +
      value % 2 ^ x.width.bits) + old % 2 ^ x.shift := by
  simp only [merge, Nat.shiftLeft_eq, Nat.shiftRight_eq_div_pow, Width.truncate,
    Width.modulus_eq_two_pow, Nat.one_mul]
  rw [Nat.mul_add, ← Nat.mul_assoc, ← Nat.pow_add, Nat.mul_comm (2 ^ x.shift) (value % _),
    Nat.mul_comm (2 ^ (x.shift + x.width.bits))]

/-- Writing an alias replaces its bits and leaves all others. -/
theorem testBit_merge (i : Nat) : (x.merge old value).testBit i =
    if x.shift ≤ i ∧ i < x.shift + x.width.bits then value.testBit (i - x.shift)
    else old.testBit i := by
  have low : old % 2 ^ x.shift < 2 ^ x.shift := Nat.mod_lt _ (Nat.two_pow_pos _)
  have middle : value % 2 ^ x.width.bits < 2 ^ x.width.bits := Nat.mod_lt _ (Nat.two_pow_pos _)
  rw [merge_eq, Nat.testBit_two_pow_mul_add _ low, Nat.testBit_two_pow_mul_add _ middle,
    Nat.testBit_mod_two_pow, Nat.testBit_mod_two_pow, Nat.testBit_div_two_pow]
  by_cases below : i < x.shift
  · rw [if_pos below, if_neg (by omega), decide_eq_true below, Bool.true_and]
  · rw [if_neg below]
    by_cases inside : i < x.shift + x.width.bits
    · have narrow : i - x.shift < x.width.bits := by omega
      rw [if_pos narrow, if_pos ⟨Nat.le_of_not_lt below, inside⟩, decide_eq_true narrow,
        Bool.true_and]
    · rw [if_neg (by omega), if_neg fun both => inside both.2]
      congr 1
      omega

/-- The bits of a parent that is wide enough, after they have been written. -/
theorem extract_merge {w : Width} (room : x.shift + x.width.bits ≤ w.bits) :
    x.extract (w.truncate (x.merge old value)) = value % 2 ^ x.width.bits := by
  refine Nat.eq_of_testBit_eq fun i => ?_
  rw [extract_eq, Width.truncate, Width.modulus_eq_two_pow, Nat.testBit_mod_two_pow,
    Nat.testBit_div_two_pow, Nat.testBit_mod_two_pow, testBit_merge, Nat.testBit_mod_two_pow]
  by_cases inside : i < x.width.bits
  · rw [decide_eq_true (show i + x.shift < w.bits by omega), if_pos (by omega),
      Nat.add_sub_cancel, Bool.true_and]
  · rw [decide_eq_false inside, Bool.false_and, Bool.false_and]

end Alias

/-! ## Changes to a register file -/

/-- A change to a register file, by a name that may be an alias. -/
inductive RegisterChange where
  | write (name : String) (value : Nat) (width : Width) (status : RegisterStatus)
  | undefine (name : String) (width : Width)

namespace RegisterFile

/-- The file after one change. -/
def change (f : RegisterFile) (c : Catalog) : RegisterChange → RegisterFile
  | .write name value width status => f.write c name value width status
  | .undefine name width => f.undefine c name width

/-- The file after changes, from an empty file on. -/
def after (c : Catalog) (changes : List RegisterChange) : RegisterFile :=
  changes.foldl (·.change c ·) ∅

/-- The bits that are read under a name, all zero if nothing is. -/
def contents (f : RegisterFile) (c : Catalog) (name : String) : Nat :=
  ((f.read c name).map RegisterValue.value).getD 0

/-- No alias has an entry, and every stored value is one of its stored width. -/
def Sound (f : RegisterFile) (c : Catalog) : Prop :=
  ∀ name v, f.get? name = some v → c.alias? name = none ∧ v.value < 2 ^ v.width.bits

variable {f : RegisterFile} {c : Catalog} {name other : String} {x y : Alias} {r : Register}

theorem value_ofNat_lt (value : Nat) (width : Width) (status : RegisterStatus) :
    (RegisterValue.ofNat value width status).value < 2 ^ width.bits :=
  width.modulus_eq_two_pow ▸ width.truncate_lt value

/-- An alias reads its bits of the entry of its parent, and the status of that entry. -/
theorem read_of_alias? (found : c.alias? name = some x) (f : RegisterFile) :
    f.read c name = (f.get? x.parent).map fun v => ⟨x.extract v.value, x.width, v.status⟩ := by
  rw [read, found]

/-- Writing an alias writes its register, at its declared width. -/
theorem write_of_alias? (found : c.alias? name = some x) (plain : c.alias? x.parent = none)
    (declared : c.widthOf x.parent = some r.width) (f : RegisterFile) (value : Nat)
    (width : Width) (status : RegisterStatus) :
    f.write c name value width status = f.insert x.parent
      (.ofNat (x.merge (f.contents c x.parent) value) r.width status) := by
  rw [contents, read_of_alias?_eq_none plain]
  simp only [write, found, declared, Option.getD_some]

/-- Marking an alias undefined marks its register, at its declared width. -/
theorem undefine_of_alias? (found : c.alias? name = some x)
    (declared : c.widthOf x.parent = some r.width) (f : RegisterFile) (width : Width) :
    f.undefine c name width = f.insert x.parent (.undefined (f.get? x.parent) r.width) := by
  simp only [undefine, found, declared, Option.getD_some]
  cases f.get? x.parent <;> rfl

/-! ## Sound files -/

/-- An entry of a name that is no alias keeps a register file sound if it fits its own width. -/
theorem Sound.insert (sound : f.Sound c) (plain : c.alias? name = none) {v : RegisterValue}
    (lt : v.value < 2 ^ v.width.bits) : Sound (SortedMap.insert f name v) c := by
  intro other u found
  rw [SortedMap.get?_insert] at found
  split at found
  · next same =>
    cases found
    exact ⟨same ▸ plain, lt⟩
  · exact sound other u found

/-- What is marked undefined keeps a value that fits its width. -/
theorem Sound.undefined_lt (sound : f.Sound c) (name : String) (width : Width) :
    (RegisterValue.undefined (f.get? name) width).value <
      2 ^ (RegisterValue.undefined (f.get? name) width).width.bits := by
  cases found : f.get? name with
  | none => exact value_ofNat_lt 0 width .undefined
  | some v => exact (sound name v found).2

/-- One change keeps entries away from aliases and inside their widths. -/
theorem Sound.change (nested : c.Nested) (sound : f.Sound c) (change : RegisterChange) :
    (f.change c change).Sound c := by
  cases change with
  | write name value width status =>
    show (f.write c name value width status).Sound c
    cases found : c.alias? name with
    | none =>
      rw [write_of_alias?_eq_none found]
      exact sound.insert found (value_ofNat_lt ..)
    | some x =>
      obtain ⟨r, -, declared, plain, -⟩ := nested.parent found
      rw [write_of_alias? found plain declared]
      exact sound.insert plain (value_ofNat_lt ..)
  | undefine name width =>
    show (f.undefine c name width).Sound c
    cases found : c.alias? name with
    | none =>
      rw [undefine_of_alias?_eq_none found]
      exact sound.insert found (sound.undefined_lt name width)
    | some x =>
      obtain ⟨r, -, declared, plain, -⟩ := nested.parent found
      rw [undefine_of_alias? found declared]
      exact sound.insert plain (sound.undefined_lt x.parent r.width)

/-- So do all changes, one after the other. -/
theorem sound_after (nested : c.Nested) (changes : List RegisterChange) :
    (after c changes).Sound c := by
  have all : ∀ f : RegisterFile, f.Sound c → (changes.foldl (·.change c ·) f).Sound c := by
    induction changes with
    | nil => exact fun f sound => sound
    | cons first rest ih => exact fun f sound => ih _ (sound.change nested first)
  exact all ∅ nofun

/-! ## What is read after a change through an alias -/

/-- An entry is not seen under names that stand for others. -/
theorem read_insert_elsewhere (ne : c.holder other ≠ name) (f : RegisterFile) (v : RegisterValue) :
    read (SortedMap.insert f name v) c other = f.read c other :=
  read_congr (SortedMap.get?_insert_of_ne _ _ ne)

/-- An entry is seen under its own name. -/
theorem read_insert_self (plain : c.alias? name = none) (f : RegisterFile) (v : RegisterValue) :
    read (SortedMap.insert f name v) c name = some v := by
  rw [read_of_alias?_eq_none plain, SortedMap.get?_insert_self]

/-- An alias of an entry shows its own bits of it. -/
theorem read_insert_alias (found : c.alias? other = some y) (f : RegisterFile) (v : RegisterValue) :
    read (SortedMap.insert f y.parent v) c other =
      some ⟨v.value / 2 ^ y.shift % 2 ^ y.width.bits, y.width, v.status⟩ := by
  rw [read_of_alias? found, SortedMap.get?_insert_self, ← Alias.extract_eq]
  rfl

/--
What is read after the alias `x` of the register `r` was written in the file `f`. The register holds
`merged`, which has the new bits where the alias is and the old ones everywhere else.
-/
structure Merges (c : Catalog) (x : Alias) (r : Register) (value : Nat) (status : RegisterStatus)
    (merged : Nat) (f f' : RegisterFile) : Prop where
  parent : f'.read c x.parent = some ⟨merged, r.width, status⟩
  inside : ∀ i < x.width.bits, merged.testBit (x.shift + i) = value.testBit i
  outside : ∀ i < r.width.bits, i < x.shift ∨ x.shift + x.width.bits ≤ i →
    merged.testBit i = (f.contents c x.parent).testBit i
  slice : ∀ {other y}, c.alias? other = some y → y.parent = x.parent → f'.read c other =
    some ⟨merged / 2 ^ y.shift % 2 ^ y.width.bits, y.width, status⟩
  elsewhere : ∀ {other}, c.holder other ≠ x.parent → f'.read c other = f.read c other

/-- What is read after an alias of the register `r` was marked undefined in the file `f`. -/
structure Forgets (c : Catalog) (r : Register) (parent : String) (f f' : RegisterFile) : Prop where
  kept : ∀ {v}, f.read c parent = some v → f'.read c parent = some v.undefine
  fresh : f.read c parent = none → f'.read c parent = some ⟨0, r.width, .undefined⟩
  slice : ∀ {other y}, c.alias? other = some y → y.parent = parent → f'.read c other = some
    ⟨f.contents c parent / 2 ^ y.shift % 2 ^ y.width.bits, y.width, .undefined⟩
  elsewhere : ∀ {other}, c.holder other ≠ parent → f'.read c other = f.read c other

/-- Writing an alias merges its bits into its register. -/
theorem merges_write (nested : c.Nested) (found : c.alias? name = some x)
    (registered : c.register? x.parent = some r) (f : RegisterFile) (value : Nat) (width : Width)
    (status : RegisterStatus) :
    Merges c x r value status (r.width.truncate (x.merge (f.contents c x.parent) value)) f
      (f.write c name value width status) := by
  obtain ⟨r', registered', declared, plain, room⟩ := nested.parent found
  obtain rfl : r = r' := Option.some.inj (registered.symm.trans registered')
  -- the width of the register cuts off nothing that the alias reaches
  have bit : ∀ i < r.width.bits,
      (r.width.truncate (x.merge (f.contents c x.parent) value)).testBit i =
      (x.merge (f.contents c x.parent) value).testBit i := by
    intro i lt
    rw [Width.truncate, Width.modulus_eq_two_pow, Nat.testBit_mod_two_pow, decide_eq_true lt,
      Bool.true_and]
  rw [write_of_alias? found plain declared]
  constructor
  · exact read_insert_self plain f _
  · intro i lt
    rw [bit _ (by omega), Alias.testBit_merge, if_pos (by omega), Nat.add_sub_cancel_left]
  · intro i lt out
    rw [bit i lt, Alias.testBit_merge, if_neg (by omega)]
  · intro other y there same
    rw [← same]
    exact read_insert_alias there f _
  · intro other ne
    exact read_insert_elsewhere ne f _

/-- An alias reads what was written to it, reduced to its width. -/
theorem read_write_alias (nested : c.Nested) (found : c.alias? name = some x) (f : RegisterFile)
    (value : Nat) (width : Width) (status : RegisterStatus) :
    (f.write c name value width status).read c name =
      some ⟨value % 2 ^ x.width.bits, x.width, status⟩ := by
  obtain ⟨r, -, declared, plain, room⟩ := nested.parent found
  rw [write_of_alias? found plain declared, read_of_alias? found, SortedMap.get?_insert_self,
    ← x.extract_merge (f.contents c x.parent) value room]
  rfl

/-- Marking an alias undefined marks its register, whose bits stay. -/
theorem forgets_undefine (nested : c.Nested) (found : c.alias? name = some x)
    (registered : c.register? x.parent = some r) (f : RegisterFile) (width : Width) :
    Forgets c r x.parent f (f.undefine c name width) := by
  obtain ⟨r', registered', declared, plain, -⟩ := nested.parent found
  obtain rfl : r = r' := Option.some.inj (registered.symm.trans registered')
  have zero : RegisterValue.ofNat 0 r.width .undefined = ⟨0, r.width, .undefined⟩ := by
    rw [RegisterValue.ofNat, Width.truncate_of_lt r.width.modulus_pos]
  -- a register that was never written counts as holding zero
  have stale : (RegisterValue.undefined (f.get? x.parent) r.width).value = f.contents c x.parent ∧
      (RegisterValue.undefined (f.get? x.parent) r.width).status = .undefined := by
    rw [contents, read_of_alias?_eq_none plain, RegisterValue.undefined, zero]
    cases f.get? x.parent <;> exact ⟨rfl, rfl⟩
  rw [undefine_of_alias? found declared]
  constructor
  · intro v there
    rw [read_of_alias?_eq_none plain] at there
    rw [read_insert_self plain, there]
    rfl
  · intro absent
    rw [read_of_alias?_eq_none plain] at absent
    rw [read_insert_self plain, absent, RegisterValue.undefined, zero]
    rfl
  · intro other y there same
    rw [← stale.1, ← stale.2, ← same]
    exact read_insert_alias there f _
  · intro other ne
    exact read_insert_elsewhere ne f _

end RegisterFile

/--
Whatever was written and marked undefined before, no alias has an entry and every stored value is
one of its stored width. Once an alias is then written, it reads the value reduced to its width, its
register has the declared width, the new bits where the alias is and its old bits elsewhere, every
alias of that register reads its bits of the result, and nothing else reads differently. Once an
alias is marked undefined, its register keeps its bits, every alias of it reads undefined, and
nothing else reads differently.
-/
theorem aliases_share_bits {c : Catalog} (nested : c.Nested) (changes : List RegisterChange) :
    (RegisterFile.after c changes).Sound c ∧
    ∀ (name : String) (x : Alias), c.alias? name = some x →
      ∃ r, c.register? x.parent = some r ∧
        (∀ (value : Nat) (width : Width) (status : RegisterStatus),
          ((RegisterFile.after c changes).write c name value width status).read c name =
            some ⟨value % 2 ^ x.width.bits, x.width, status⟩ ∧
          ∃ merged, RegisterFile.Merges c x r value status merged (.after c changes)
            ((RegisterFile.after c changes).write c name value width status)) ∧
        ∀ width : Width, RegisterFile.Forgets c r x.parent (.after c changes)
          ((RegisterFile.after c changes).undefine c name width) := by
  refine ⟨RegisterFile.sound_after nested changes, fun name x found => ?_⟩
  obtain ⟨r, registered, -⟩ := nested.inside found
  refine ⟨r, registered, fun value width status => ⟨?_, ?_⟩, fun width => ?_⟩
  · exact RegisterFile.read_write_alias nested found _ value width status
  · exact ⟨_, RegisterFile.merges_write nested found registered _ value width status⟩
  · exact RegisterFile.forgets_undefine nested found registered _ width

/-- A register with names for its low half and for both bytes of that half. -/
def dividedRegister : Catalog where
  registers := .ofList [("eax", ⟨"eax", .dword, .general⟩)]
  aliases := .ofList [("ah", ⟨"ah", "eax", 8, .byte⟩), ("al", ⟨"al", "eax", 0, .byte⟩),
    ("ax", ⟨"ax", "eax", 0, .word⟩)]

theorem nested_dividedRegister : dividedRegister.Nested := by
  have declared : ∃ c c',
      (Catalog.ofRegisters [⟨"eax", .dword, .general⟩]).addAlias ⟨"ax", "eax", 0, .word⟩ = .ok c ∧
      c.addAlias ⟨"al", "eax", 0, .byte⟩ = .ok c' ∧
      c'.addAlias ⟨"ah", "eax", 8, .byte⟩ = .ok dividedRegister := ⟨_, _, rfl, rfl, rfl⟩
  obtain ⟨c, c', first, second, third⟩ := declared
  exact (((Catalog.nested_ofRegisters _).addAlias first).addAlias second).addAlias third

/-- The high byte is written where the register is wider than declared and undefined. -/
theorem dividedRegister_shares_bits :
    let changes := [.write "eax" 0x912345678 .qword .defined, .undefine "al" .byte]
    let f := RegisterFile.after dividedRegister changes
    let f' := f.write dividedRegister "ah" 0x3AB .word .defined
    dividedRegister.Nested ∧ dividedRegister.alias? "ah" = some ⟨"ah", "eax", 8, .byte⟩ ∧
      f.read dividedRegister "eax" = some ⟨0x912345678, .qword, .undefined⟩ ∧
      f'.read dividedRegister "ah" = some ⟨0xAB, .byte, .defined⟩ ∧
      (∃ merged, f'.read dividedRegister "eax" = some ⟨merged, .dword, .defined⟩ ∧
        f'.read dividedRegister "ax" = some ⟨merged / 2 ^ 0 % 2 ^ 16, .word, .defined⟩) ∧
      f'.read dividedRegister "eax" = some ⟨0x1234AB78, .dword, .defined⟩ := by
  intro changes f f'
  have named : dividedRegister.alias? "ah" = some ⟨"ah", "eax", 8, .byte⟩ := rfl
  obtain ⟨-, each⟩ := aliases_share_bits nested_dividedRegister changes
  obtain ⟨r, registered, written, -⟩ := each "ah" _ named
  obtain ⟨reads, merged, merges⟩ := written 0x3AB .word .defined
  cases registered
  exact ⟨nested_dividedRegister, named, by decide, reads,
    ⟨merged, merges.parent, merges.slice (y := ⟨"ax", "eax", 0, .word⟩) rfl rfl⟩, by decide⟩

end RegisterTransfer
