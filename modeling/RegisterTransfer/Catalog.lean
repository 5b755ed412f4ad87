import RegisterTransfer.SortedMap
import RegisterTransfer.Width

/-!
# Register catalogs

A catalog declares the registers of a processor and their aliases, each alias being a run of bits
of a wider register. `Catalog.addRegister` and `Catalog.addAlias` refuse whatever would make a name
ambiguous or an alias stick out of its parent; `Catalog.declare` is the call of either, which stops
where the end of an alias has no 32-bit number. A `Cpu` is a catalog with a program counter, which
it may write in a width of its own.
-/

namespace RegisterTransfer

/-- What a register is for. -/
inductive RegisterClass where
  | general
  /-- Single flag bits such as carry or overflow. -/
  | flag
  /-- Bits of a condition-register field. -/
  | condition
  /-- Link, count and program counter registers. -/
  | special
  deriving DecidableEq, Repr, Inhabited

/-- A declared register. -/
structure Register where
  name : String
  width : Width
  role : RegisterClass
  deriving DecidableEq, Repr, Inhabited

/-- A name for the bits from `shift` on, as many as `width` has, of the register `parent`. -/
structure Alias where
  name : String
  parent : String
  shift : Nat
  width : Width
  deriving DecidableEq, Repr, Inhabited

namespace Alias

/-- The named bits, in the place they have in the parent. -/
def parentMask (x : Alias) : Nat := x.width.mask <<< x.shift

/-- The value of the named bits in a value of the parent. -/
def extract (x : Alias) (parent : Nat) : Nat := x.width.truncate (parent >>> x.shift)

/-- A value of the parent with the named bits replaced and all other bits kept. -/
def merge (x : Alias) (parent value : Nat) : Nat :=
  let top := x.shift + x.width.bits
  (parent >>> top) <<< top + x.width.truncate value <<< x.shift + parent % (1 <<< x.shift)

end Alias

/-- Why a declaration is refused. -/
inductive CatalogError where
  | duplicate (name : String)
  | unknownParent (name parent : String)
  | aliasOutOfRange (name parent : String)
  deriving DecidableEq, Repr

/-- The wording of a catalog error. -/
def CatalogError.message : CatalogError → String
  | duplicate name => "Register " ++ name ++ " is already defined"
  | unknownParent name parent => "Alias " ++ name ++ " refers to unknown register " ++ parent
  | aliasOutOfRange name parent => "Alias " ++ name ++ " does not fit inside " ++ parent

/-- A call that declares a register, or an alias for bits of one. -/
inductive Declaration where
  | register (r : Register)
  | ofBits (x : Alias)
  deriving DecidableEq, Repr

/-- Declared registers and aliases by name. -/
structure Catalog where
  registers : SortedMap String Register
  aliases : SortedMap String Alias
  deriving DecidableEq

namespace Catalog

instance : EmptyCollection Catalog := ⟨⟨∅, ∅⟩⟩

instance : Inhabited Catalog := ⟨∅⟩

/-- The register declared under a name. -/
def register? (c : Catalog) (name : String) : Option Register := c.registers.get? name

/-- The alias declared under a name. -/
def alias? (c : Catalog) (name : String) : Option Alias := c.aliases.get? name

/-- Whether a name is taken, by a register or by an alias. -/
def contains (c : Catalog) (name : String) : Bool :=
  c.registers.contains name || c.aliases.contains name

/-- The declared width of a register or alias. -/
def widthOf (c : Catalog) (name : String) : Option Width :=
  match c.register? name with
  | some r => some r.width
  | none => (c.alias? name).map (·.width)

/-- Declares a register under a new name. -/
def addRegister (c : Catalog) (r : Register) : Except CatalogError Catalog :=
  if c.contains r.name then
    .error (.duplicate r.name)
  else
    .ok { c with registers := c.registers.insert r.name r }

/-- Declares an alias, under a new name, whose bits lie inside a declared register. -/
def addAlias (c : Catalog) (x : Alias) : Except CatalogError Catalog :=
  if c.contains x.name then
    .error (.duplicate x.name)
  else
    match c.register? x.parent with
    | none => .error (.unknownParent x.name x.parent)
    | some parent =>
      if x.shift + x.width.bits ≤ parent.width.bits then
        .ok { c with aliases := c.aliases.insert x.name x }
      else
        .error (.aliasOutOfRange x.name x.parent)

/--
Whether the check of an alias comes to a sum that has no value: shift and width are added as 32-bit
numbers, under a new name and once the parent is found.
-/
def overflows (c : Catalog) (x : Alias) : Bool :=
  !c.contains x.name && (c.register? x.parent).isSome && 0x100000000 ≤ x.shift + x.width.bits

/-- Makes a declaration. There is no answer where a sum overflows, for the program stops there. -/
def declare (c : Catalog) : Declaration → Option (Except CatalogError Catalog)
  | .register r => some (c.addRegister r)
  | .ofBits x => if c.overflows x then none else some (c.addAlias x)

/-- The catalog behind a declaration: the old one unless the declaration is accepted. -/
def after (c : Catalog) (d : Declaration) : Catalog :=
  match c.declare d with
  | some (.ok c') => c'
  | _ => c

/-- The catalog of a list of registers, a later one replacing an earlier one of the same name. -/
def ofRegisters (registers : List Register) : Catalog :=
  ⟨.ofList (registers.map fun r => (r.name, r)), ∅⟩

/-- The registers in the order of their names. -/
def toList (c : Catalog) : List Register := c.registers.values

/-- The registers of one class, in the order of their names. -/
def ofClass (c : Catalog) (role : RegisterClass) : List Register :=
  c.toList.filter (·.role = role)

/-- The number of registers, aliases not counted. -/
def size (c : Catalog) : Nat := c.registers.size

/-- Whether there are no registers. -/
def isEmpty (c : Catalog) : Bool := c.registers.isEmpty

end Catalog

/-- A processor, as far as lifting and execution need to know it. -/
structure Cpu where
  name : String
  catalog : Catalog
  /-- The register that holds the native address of the instruction being executed. -/
  programCounter : String
  /--
  The width in which the program counter is written. Unless a processor says otherwise it is the
  declared one, or 64 bits where none is declared.
  -/
  programCounterWidth : Width := (catalog.widthOf programCounter).getD .qword
  deriving DecidableEq

end RegisterTransfer
