import RegisterTransfer.Catalog
import RegisterTransfer.Temporary

/-!
# Register files

A register file stores the contents of registers by name. A register that was never written has no
entry, which is not the same as an entry marked undefined. Aliases have no entries of their own:
reading one reads bits of its parent, writing one merges bits into its parent.
-/

namespace RegisterTransfer

/-- Whether the contents of a register may be used. -/
inductive RegisterStatus where
  | defined
  | undefined
  deriving DecidableEq, Repr, Inhabited

/-- The contents of a register. An undefined register keeps its stale value. -/
structure RegisterValue where
  value : Nat
  width : Width
  status : RegisterStatus
  deriving DecidableEq, Repr, Inhabited

namespace RegisterValue

/-- The contents with the given value, reduced to the width. -/
def ofNat (value : Nat) (width : Width) (status : RegisterStatus) : RegisterValue :=
  ⟨width.truncate value, width, status⟩

/-- The same stale value, marked undefined. -/
def undefine (v : RegisterValue) : RegisterValue := { v with status := .undefined }

/-- Whether the value may be used. -/
def isDefined (v : RegisterValue) : Bool := v.status == .defined

end RegisterValue

/-- Register contents by name. -/
abbrev RegisterFile := SortedMap String RegisterValue

namespace RegisterFile

/-- The contents of a register, or of the bits of a register that an alias names. -/
def read (f : RegisterFile) (c : Catalog) (name : String) : Option RegisterValue :=
  match c.alias? name with
  | none => f.get? name
  | some x => (f.get? x.parent).map fun v => ⟨x.extract v.value, x.width, v.status⟩

/-- Writes a register, or the bits of a register that an alias names. -/
def write (f : RegisterFile) (c : Catalog) (name : String) (value : Nat) (width : Width)
    (status : RegisterStatus) : RegisterFile :=
  match c.alias? name with
  | none => f.insert name (.ofNat value width status)
  | some x =>
    let old := ((f.get? x.parent).map (·.value)).getD 0
    let parentWidth := (c.widthOf x.parent).getD width
    f.insert x.parent (.ofNat (x.merge old value) parentWidth status)

/--
Marks a register undefined, or the parent of an alias. A register without an entry gets a zero of
its declared width, or of the given width if it is not the parent of an alias.
-/
def undefine (f : RegisterFile) (c : Catalog) (name : String) (width : Width) : RegisterFile :=
  let (target, targetWidth) :=
    match c.alias? name with
    | none => (name, width)
    | some x => (x.parent, (c.widthOf x.parent).getD width)
  match f.get? target with
  | some v => f.insert target v.undefine
  | none => f.insert target (.ofNat 0 targetWidth .undefined)

/-- The names of the defined registers, in order. -/
def definedNames (f : RegisterFile) : List String :=
  (f.toList.filter fun e => e.2.isDefined).map (·.1)

/-- The names of the defined registers that are not temporaries, in order. -/
def definedNativeNames (f : RegisterFile) : List String :=
  f.definedNames.filter fun name => !isTemporary name

/-! ## What reads see of writes -/

/-- A name that is no alias reads its own entry. -/
theorem read_of_alias?_eq_none {c : Catalog} {name : String} (h : c.alias? name = none)
    (f : RegisterFile) : f.read c name = f.get? name := by
  simp only [read, h]

/-- A name that is no alias is written as its own entry, in the width that the write asks for. -/
theorem write_of_alias?_eq_none {c : Catalog} {name : String} (h : c.alias? name = none)
    (f : RegisterFile) (value : Nat) (width : Width) (status : RegisterStatus) :
    f.write c name value width status = f.insert name (.ofNat value width status) := by
  simp only [write, h]

/-- A register that is no alias holds what was written last, reduced to its width. -/
theorem read_write_self {c : Catalog} {name : String} (h : c.alias? name = none)
    (f : RegisterFile) (value : Nat) (width : Width) (status : RegisterStatus) :
    (f.write c name value width status).read c name = some (.ofNat value width status) := by
  rw [read_of_alias?_eq_none h, write_of_alias?_eq_none h, SortedMap.get?_insert_self]

/-- Writing a register that is no alias leaves every other such register alone. -/
theorem read_write_of_ne {c : Catalog} {name other : String} (h : c.alias? name = none)
    (ho : c.alias? other = none) (ne : other ≠ name) (f : RegisterFile) (value : Nat)
    (width : Width) (status : RegisterStatus) :
    (f.write c name value width status).read c other = f.read c other := by
  rw [read_of_alias?_eq_none ho, read_of_alias?_eq_none ho, write_of_alias?_eq_none h,
    SortedMap.get?_insert_of_ne _ _ ne]

end RegisterFile

end RegisterTransfer
