import RegisterTransfer.Machine.Basic
import RegisterTransfer.Proofs.Names

/-!
# Registers of a plain processor

A processor is plain if its catalog has no aliases and its program counter is no temporary. Then every
name is a register of its own: a write changes what is read under its own name and nothing else.

> `register?_setRegister`, `register?_undefineRegister`: what is read after a write.
> `PowerPC.cpu_plain`: the PowerPC is plain.
-/

namespace RegisterTransfer

/-- No aliases, and a program counter that is no temporary. -/
structure Cpu.Plain (c : Cpu) : Prop where
  alias? : ∀ name, c.catalog.alias? name = none
  programCounter : isTemporary c.programCounter = false

/-- The PowerPC has no aliases, and its program counter is no temporary. -/
theorem PowerPC.cpu_plain : PowerPC.cpu.Plain :=
  ⟨PowerPC.alias?_cpu, PowerPC.isTemporary_programCounter⟩

/-- What a register holds once it is marked undefined at a width. -/
def RegisterValue.undefined (old : Option RegisterValue) (width : Width) : RegisterValue :=
  (old.map RegisterValue.undefine).getD (.ofNat 0 width .undefined)

/-- Marking a register that is no alias undefined changes its own entry and nothing else. -/
theorem RegisterFile.undefine_of_alias?_eq_none {c : Catalog} {name : String}
    (h : c.alias? name = none) (f : RegisterFile) (width : Width) :
    f.undefine c name width = f.insert name (.undefined (f.get? name) width) := by
  simp only [undefine, h]
  cases f.get? name <;> rfl

namespace Machine

variable {m : Machine}

theorem value?_congr {m m' : Machine} {name : String}
    (same : m'.register? name = m.register? name) : m'.value? name = m.value? name := by
  simp only [value?, same]

/-- An operand reads the same where the register that it may name does. -/
theorem source_congr {m m' : Machine} {o : Operand}
    (reads : m'.settings.undefinedReads = m.settings.undefinedReads)
    (value : ∀ name, o.kind = .register name → m'.value? name = m.value? name) (place : Address) :
    m'.source place o = m.source place o := by
  unfold source
  split
  · rfl
  · next name e => rw [value name e, reads]
  · rfl
  · rfl

/-- Without aliases every name reads its own entry. -/
theorem register?_eq_get? (plain : m.cpu.Plain) (name : String) :
    m.register? name = m.registers.get? name :=
  RegisterFile.read_of_alias?_eq_none (plain.alias? name) _

/-- A write changes what is read under its own name and nothing else. -/
theorem register?_setRegister (plain : m.cpu.Plain) (name other : String) (value : Nat)
    (width : Width) (status : RegisterStatus) :
    (m.setRegister name value width status).register? other =
      if other = name then some (.ofNat value width status) else m.register? other := by
  split
  · next e =>
    subst e
    exact RegisterFile.read_write_self (plain.alias? other) _ _ _ _
  · next ne =>
    exact RegisterFile.read_write_of_ne (plain.alias? name) (plain.alias? other) ne _ _ _ _

/-- Bringing the program counter up to date changes no other register. -/
theorem register?_syncProgramCounter (plain : m.cpu.Plain) {name : String}
    (ne : name ≠ m.cpu.programCounter) (native : Nat) :
    (m.syncProgramCounter native).register? name = m.register? name := by
  rw [syncProgramCounter, register?_setRegister plain, if_neg ne]

/-- The machine in which a register is marked undefined. -/
def undefineRegister (m : Machine) (name : String) (width : Width) : Machine :=
  { m with registers := m.registers.undefine m.cpu.catalog name width }

/-- Marking a register undefined changes what is read under its own name and nothing else. -/
theorem register?_undefineRegister (plain : m.cpu.Plain) (name other : String) (width : Width) :
    (m.undefineRegister name width).register? other =
      if other = name then some (.undefined (m.register? name) width)
      else m.register? other := by
  rw [register?_eq_get? (m := m.undefineRegister name width) plain, register?_eq_get? plain,
    register?_eq_get? plain, undefineRegister,
    RegisterFile.undefine_of_alias?_eq_none (plain.alias? name), SortedMap.get?_insert]

end Machine

end RegisterTransfer
