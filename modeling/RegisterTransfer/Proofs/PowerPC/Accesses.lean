import RegisterTransfer.Proofs.FlatMemory
import RegisterTransfer.Proofs.PowerPC.Alone
import RegisterTransfer.Proofs.PowerPC.Flags
import RegisterTransfer.Proofs.PowerPC.Grammar

/-!
# Loads and stores

What loads and stores do to registers and memory. The effective address is a 32-bit sum; from there
on addresses are those of the memory, so the bytes behind the last 32-bit address are further bytes
of an access and not the first ones of the address space. An update form moves its base last: what
it stores was read before.

> `runs_effective`: the effective address, where `%r0` stands for zero as a base only.
> `runs_access`: a load or a store of any kind, and the base that it moves.
> `lifted_access_transfers`: the run of any lifted load or store.
-/

namespace RegisterTransfer.PowerPC

open Script

/-! ## Loads and stores -/

/-- A load or a store. -/
inductive MemoryAccess where
  | lbz
  | lhz
  | lha
  | lwz
  | lwzu
  | lwzx
  | stb
  | sth
  | stw
  | stwu
  | stwx
  deriving DecidableEq, Repr

namespace MemoryAccess

/-- The spelling of an access. -/
def mnemonic : MemoryAccess → String
  | lbz => "lbz"
  | lhz => "lhz"
  | lha => "lha"
  | lwz => "lwz"
  | lwzu => "lwzu"
  | lwzx => "lwzx"
  | stb => "stb"
  | sth => "sth"
  | stw => "stw"
  | stwu => "stwu"
  | stwx => "stwx"

/-- Whether a register is loaded, or else stored. -/
def loads : MemoryAccess → Bool
  | lbz | lhz | lha | lwz | lwzu | lwzx => true
  | stb | sth | stw | stwu | stwx => false

/-- The width of the number in memory. -/
def width : MemoryAccess → Width
  | lbz | stb => .byte
  | lhz | lha | sth => .word
  | lwz | lwzu | lwzx | stw | stwu | stwx => .dword

/-- Whether a loaded number has a sign. -/
def signed : MemoryAccess → Bool
  | lha => true
  | _ => false

/-- How the effective address is written. -/
def addressing : MemoryAccess → Addressing
  | lbz | lhz | lha | lwz | stb | sth | stw => .displaced
  | lwzu | stwu => .updating
  | lwzx | stwx => .indexed

/-- The form that decodes an access. -/
def form (k : MemoryAccess) : Form :=
  if k.loads then .load k.width k.signed k.addressing else .store k.width k.addressing

/-- The operation that an access is decoded to. -/
def operation (k : MemoryAccess) (data : Gpr) (location : Location) : Operation :=
  if k.loads then .load k.width k.signed data location else .store k.width data location

/-- What a register holds behind the load of a number. -/
def extended (k : MemoryAccess) (v : Nat) : Nat :=
  if k.signed then registerWidth.ofInt (k.width.toSigned v) else v

/-- An access is registered with its form. -/
theorem registered (k : MemoryAccess) : (k.mnemonic, k.form) ∈ forms := by
  have listed : (k.mnemonic, k.form) ∈ memoryForms := by
    cases k <;> decide
  simp only [forms, List.mem_append, listed, or_true]

theorem width_le (k : MemoryAccess) : k.width.bits ≤ registerWidth.bits := by
  cases k <;> decide

/-- The machine behind an access at `ea`, the base apart; a store finds `v` in its register. -/
def effect (k : MemoryAccess) (data : Gpr) (ea v : Nat) (m : Machine) : Machine :=
  if k.loads then (m.loaded ea k.width).setGpr data (k.extended (m.memory.load ea k.width))
  else m.stored ea (k.width.truncate v) k.width

end MemoryAccess

/-- Moves a base to the effective address, if there is one to move. -/
def moveBase (ea : Nat) : Option Gpr → Machine → Machine
  | some r, m => m.setGpr r ea
  | none, m => m

/-! ## Scripts -/

section Scripts

variable {x : Expansion} {m : Machine} {o : Operand} {w : Width} {location : Location}
  {base : Option Gpr} {ea v : Nat} {data : Gpr}

/-- The effective address that a location stands for. -/
inductive Location.Denotes (m : Machine) (n : Nat) : Location → Nat → Prop
  | displaced {base displacement update b} (held : m.Holds n base.operand b) :
    Denotes m n (.displaced base displacement update) (registerWidth.ofInt (b + displacement))
  | indexed {base index b v} (held : m.Holds n base.operand b)
    (held' : m.Holds n (gprOperand index) v) :
    Denotes m n (.indexed base index) (registerWidth.truncate (b + v))

/-- An effective address fits a register. -/
theorem Location.Denotes.lt {n : Nat} (h : location.Denotes m n ea) :
    ea < registerWidth.modulus := by
  cases h with
  | displaced => exact Width.ofInt_lt _ _
  | indexed => exact Width.truncate_lt _ _

theorem Base.width_operand (base : Base) : base.operand.width = registerWidth := by
  cases base <;> rfl

/-- The effective address is the sum of the base and what is added to it. -/
theorem runs_effective (plain : m.cpu.Plain) (h : location.Denotes m x.taken ea) :
    location.effective.Runs x m (Computed x m registerWidth ea) := by
  have fits : ∀ (base : Base) {o : Operand}, o.width = registerWidth →
      Opcode.add.Fits base.operand.width o.width base.operand.width := by
    intro base o width
    rw [base.width_operand, width]
    exact Width.not_lt_max_self _
  cases h with
  | @displaced base displacement _ b held =>
    have sum := Runs.binary plain rfl (fits base rfl) held
      (Machine.holds_signed m x.taken displacement registerWidth) rfl
    rw [Width.truncate_oword_truncate, base.width_operand, Width.truncate_add_ofInt] at sum
    exact sum
  | @indexed base index b v held held' =>
    have sum := Runs.binary plain rfl (fits base rfl) held held' rfl
    rw [Width.truncate_oword_truncate, base.width_operand] at sum
    exact sum

/-- The base that a location moves, which is not `%r0`. -/
theorem updated_eq (mnemonic : String) (fits : location.moved? ≠ some .zero) :
    ∃ base : Option Gpr, location.moved? = base.map .register ∧
      location.updated mnemonic = pure base := by
  cases location with
  | indexed => exact ⟨none, rfl, rfl⟩
  | displaced base displacement update =>
    cases update with
    | false => exact ⟨none, rfl, rfl⟩
    | true =>
      cases base with
      | zero => exact absurd rfl fits
      | register r => exact ⟨some r, rfl, rfl⟩

/-- The register that a location moves receives the address, and nothing else changes. -/
theorem runs_writeBack (processor : m.cpu = cpu) (h : m.Holds x.taken o ea)
    (base : Option Gpr) :
    (writeBack o base).Runs x m fun _ => Leaves x (moveBase ea base m) := by
  cases base with
  | none => exact .pure ⟨Nat.le_refl _, .refl (plain_of_cpu processor) _⟩
  | some r => exact (runs_gpr processor r h).mono And.left

theorem keeps_moveBase {e : Machine} {n : Nat} (keeps : e.Keeps n m) (ea : Nat)
    (base : Option Gpr) : (moveBase ea base e).Keeps n (moveBase ea base m) := by
  cases base with
  | none => exact keeps
  | some r => exact keeps.setRegister _ _ _ _

/-- A loaded number, extended by its sign if it has one. -/
theorem runs_signExtendIf (plain : m.cpu.Plain) (signed : Bool) (h : m.Holds x.taken o v) :
    (signExtendIf signed o).Runs x m fun r X m' => Leaves x m X m' ∧
      m'.Holds X.taken r (if signed then registerWidth.ofInt (o.width.toSigned v) else v) := by
  cases signed with
  | true => exact (Runs.signExtend plain h _).mono fun result => ⟨result.toLeaves, result.holds⟩
  | false => exact .pure ⟨⟨Nat.le_refl _, .refl plain _⟩, h⟩

/-- The low bits of a register. -/
theorem runs_narrowed (plain : m.cpu.Plain) (h : m.Holds x.taken (gprOperand data) v)
    (le : w.bits ≤ registerWidth.bits) :
    (narrowed w (gprOperand data)).Runs x m (Settled x m w (w.truncate v)) := by
  unfold narrowed
  split
  · exact (Runs.computed plain (.copy h)).mono fun narrow => narrow.toSettled
  · next wide =>
    have same : w = registerWidth := by
      cases w <;> first | rfl | exact absurd le (by decide) | exact absurd (by decide) wide
    subst same
    have lt : v < registerWidth.modulus := h.lt
    rw [Width.truncate_of_lt lt]
    exact .pure ⟨⟨Nat.le_refl _, .refl plain _⟩, h, rfl⟩

/-- An address of 32 bits is unchanged at the 64 bits that an access takes. -/
theorem truncate_effective (lt : ea < registerWidth.modulus) : Width.qword.truncate ea = ea :=
  Width.truncate_of_lt (Nat.lt_of_lt_of_le lt (by decide))

/-- A load, and the base that it moves. -/
theorem runs_expandLoad (processor : m.cpu = cpu) (mnemonic : String) (signed : Bool)
    (address : location.Denotes m x.taken ea)
    (updated : location.updated mnemonic = pure base) (apart : base ≠ some data) :
    (expandLoad mnemonic w signed data location).Runs x m fun _ =>
      Leaves x (moveBase ea base ((m.loaded ea w).setGpr data
        (if signed then registerWidth.ofInt (w.toSigned (m.memory.load ea w))
          else m.memory.load ea w))) := by
  simp only [expandLoad, updated, pure_bind, refuseUpdateOf, if_neg apart]
  apply (runs_effective (plain_of_cpu processor) address).bind
  intro o X₁ m₁ sum
  have processor₁ : m₁.cpu = cpu := sum.keeps.cpu.trans processor
  apply Runs.loading sum.plain sum.holds
  intro loaded X₂ m₂ read
  rw [truncate_effective address.lt, Memory.truncate_load, sum.keeps.memory] at read
  have behind : Leaves x (m.loaded ea w) X₂ m₂ :=
    sum.toLeaves.through (·.loaded ea w) (·.loaded ea w) read.toLeaves
  have address₂ := read.toLeaves.holds (sum.holds.loaded ea w)
  apply (runs_signExtendIf read.plain signed read.holds).bind
  rw [read.width]
  intro value X₃ m₃ found
  obtain ⟨extended, held⟩ := found
  have processor₃ : m₃.cpu = cpu := extended.keeps.cpu.trans (read.keeps.cpu.trans processor₁)
  apply (runs_gpr processor₃ data held).bind
  intro _ X₄ m₄ found
  obtain ⟨set, -, keep⟩ := found
  have processor₄ : m₄.cpu = cpu := set.keeps.cpu.trans processor₃
  have address₄ := keep (extended.holds address₂) (sum.hidden.ne (isTemporary_gprName data))
  -- the base is moved behind the load
  apply (runs_writeBack processor₄ address₄ base).mono
  intro _ X₅ m₅ moved
  exact ((behind.trans extended).set set).through (moveBase ea base)
    (fun keeps => keeps_moveBase keeps ea base) moved

/-- A store, and the base that it moves. -/
theorem runs_expandStore (processor : m.cpu = cpu) (mnemonic : String)
    (le : w.bits ≤ registerWidth.bits) (address : location.Denotes m x.taken ea)
    (updated : location.updated mnemonic = pure base) (held : m.Holds x.taken (gprOperand data) v) :
    (expandStore mnemonic w data location).Runs x m fun _ =>
      Leaves x (moveBase ea base (m.stored ea (w.truncate v) w)) := by
  simp only [expandStore, updated, pure_bind]
  apply (runs_effective (plain_of_cpu processor) address).bind
  intro o X₁ m₁ sum
  apply (runs_narrowed sum.plain (sum.toLeaves.holds held) le).bind
  intro value X₂ m₂ narrow
  have address₂ := narrow.toLeaves.holds sum.holds
  have behind := sum.toLeaves.trans narrow.toLeaves
  have stores := runs_store narrow.plain narrow.holds address₂
  rw [truncate_effective address.lt, narrow.width] at stores
  apply stores.bind
  intro _ X₃ m₃ store
  have behind₃ : Leaves x (m.stored ea (w.truncate v) w) X₃ m₃ :=
    behind.through (·.stored ea (w.truncate v) w) (·.stored ea _ w) store
  have processor₃ : m₃.cpu = cpu := behind₃.keeps.cpu.trans processor
  have address₃ := store.holds (address₂.stored ea (w.truncate v) w)
  apply (runs_writeBack processor₃ address₃ base).mono
  intro _ X₄ m₄ moved
  exact behind₃.through (moveBase ea base) (fun keeps => keeps_moveBase keeps ea base) moved

/-- A load or a store of any kind, and the base that it moves. -/
theorem runs_access (k : MemoryAccess) (processor : m.cpu = cpu)
    (admissible : (k.operation data location).Admissible) (address : location.Denotes m x.taken ea)
    (held : k.loads = false → m.Holds x.taken (gprOperand data) v) (mnemonic : String)
    (native : Nat) :
    ∃ base : Option Gpr, location.moved? = base.map .register ∧ (k.loads → base ≠ some data) ∧
      ((k.operation data location).expand mnemonic native).Runs x m fun _ =>
        Leaves x (moveBase ea base (k.effect data ea v m)) := by
  unfold MemoryAccess.operation at admissible ⊢
  unfold MemoryAccess.effect
  cases loads : k.loads with
  | true =>
    rw [loads, if_pos rfl] at admissible
    obtain ⟨fits, apart⟩ := admissible
    obtain ⟨base, moves, updated⟩ := updated_eq mnemonic fits
    have other : base ≠ some data := fun same => apart (by rw [moves, same]; rfl)
    refine ⟨base, moves, fun _ => other, ?_⟩
    exact runs_expandLoad processor mnemonic k.signed address updated other
  | false =>
    rw [loads, if_neg Bool.false_ne_true] at admissible
    obtain ⟨base, moves, updated⟩ := updated_eq mnemonic admissible
    refine ⟨base, moves, nofun, ?_⟩
    exact runs_expandStore processor mnemonic k.width_le address updated (held loads)

end Scripts

/-! ## Outcomes -/

section Outcome

variable {m e m' : Machine} {k : MemoryAccess} {base : Option Gpr} {ea v n : Nat} {data : Gpr}
  {name : String}

/--
What an access to the bytes from `ea` on leaves behind. A load reads zeros where nothing was
written, and a store writes what its register held before, which may be the base that is moved.
-/
structure MemoryAccess.Outcome (k : MemoryAccess) (data : Gpr) (ea : Nat) (base : Option Gpr)
    (m m' : Machine) : Prop where
  loaded : k.loads → m'.register? (gprName data) =
    some ⟨k.extended (m.memory.numberAt ea k.width), .dword, .defined⟩
  read : k.loads → ∀ a, m'.memory.peek a =
    if ea ≤ a ∧ a < ea + k.width.bytes then some ((m.memory.peek a).getD 0) else m.memory.peek a
  stored : k.loads = false → ∃ v, m.value? (gprName data) = some v ∧ ∀ a, m'.memory.peek a =
    if ea ≤ a ∧ a < ea + k.width.bytes then
      some (UInt8.ofNat (v / 256 ^ m.memory.order.rank k.width.bytes (a - ea)))
    else m.memory.peek a
  moved : ∀ r, base = some r → m'.register? (gprName r) = some ⟨ea, .dword, .defined⟩
  order : m'.memory.order = m.memory.order
  others : ∀ name, (k.loads → name ≠ gprName data) → (∀ r, base = some r → name ≠ gprName r) →
    isTemporary name = false → name ≠ programCounter → m'.register? name = m.register? name

theorem memory_moveBase (ea : Nat) (base : Option Gpr) (m : Machine) :
    (moveBase ea base m).memory = m.memory := by
  cases base <;> rfl

theorem cpu_moveBase (ea : Nat) (base : Option Gpr) (m : Machine) :
    (moveBase ea base m).cpu = m.cpu := by
  cases base <;> rfl

/-- Moving a base changes that register only. -/
theorem register?_moveBase_of_ne (processor : m.cpu = cpu)
    (ne : ∀ r, base = some r → name ≠ gprName r) :
    (moveBase ea base m).register? name = m.register? name := by
  cases base with
  | none => rfl
  | some r => exact (Machine.register?_setGpr processor r ea name).trans (if_neg (ne r rfl))

theorem MemoryAccess.cpu_effect (k : MemoryAccess) (data : Gpr) (ea v : Nat) (m : Machine) :
    (k.effect data ea v m).cpu = m.cpu := by
  unfold effect
  split <;> rfl

/-- An access changes no register but the one that it loads into. -/
theorem MemoryAccess.register?_effect_of_ne (processor : m.cpu = cpu)
    (ne : k.loads → name ≠ gprName data) :
    (k.effect data ea v m).register? name = m.register? name := by
  unfold effect
  split
  · next loads =>
    have processor' : (m.loaded ea k.width).cpu = cpu := processor
    exact (Machine.register?_setGpr processor' data _ name).trans (if_neg (ne loads))
  · rfl

/-- What is loaded fits a register, with its sign or without. -/
theorem MemoryAccess.extended_lt (k : MemoryAccess) (ea : Nat) (memory : Memory) :
    k.extended (memory.load ea k.width) < registerWidth.modulus := by
  unfold extended
  split
  · exact Width.ofInt_lt _ _
  · have room := Nat.le_of_dvd registerWidth.modulus_pos (Width.modulus_dvd_of_le k.width_le)
    rw [← Memory.truncate_load]
    exact Nat.lt_of_lt_of_le (Width.truncate_lt _ _) room

/-- Behind an access everything is as it should be. -/
theorem MemoryAccess.outcome_effect (processor : m.cpu = cpu) (lt : ea < registerWidth.modulus)
    (apart : k.loads → base ≠ some data)
    (value : k.loads = false → m.value? (gprName data) = some v) :
    k.Outcome data ea base m (moveBase ea base (k.effect data ea (v % 2 ^ 32) m)) := by
  -- an effective address has 32 bits, so that the bytes from there on do not wrap around
  have room : ea + k.width.bytes ≤ 2 ^ 64 := by
    have small : k.width.bytes ≤ 16 := by cases k.width <;> decide
    have whole : registerWidth.modulus = 2 ^ 32 := rfl
    omega
  have processor' := (k.cpu_effect data ea (v % 2 ^ 32) m).trans processor
  have memory := memory_moveBase ea base (k.effect data ea (v % 2 ^ 32) m)
  have read : k.loads →
      (k.effect data ea (v % 2 ^ 32) m).memory = (m.memory.read ea k.width).2 := by
    intro loads
    rw [effect, if_pos loads]
    rfl
  have stored : k.loads = false →
      (k.effect data ea (v % 2 ^ 32) m).memory = m.memory.write ea v k.width := by
    intro stores
    have low : k.width.truncate (v % 2 ^ 32) = k.width.truncate v :=
      Nat.mod_mod_of_dvd v (Width.modulus_dvd_of_le k.width_le)
    rw [effect, stores, if_neg Bool.false_ne_true, low, ← Memory.write_truncate v]
    rfl
  -- the loaded register, the bytes of a load, those of a store, the base, the byte order, the rest
  refine ⟨?_, ?_, ?_, ?_, ?_, ?_⟩
  · intro loads
    have ne : ∀ r, base = some r → gprName data ≠ gprName r := by
      intro r moves same
      exact apart loads (moves.trans (congrArg some (Fin.ext (gprName_injective same)).symm))
    have processor'' : (m.loaded ea k.width).cpu = cpu := processor
    rw [register?_moveBase_of_ne processor' ne, effect, if_pos loads,
      Machine.register?_setGpr processor'', if_pos rfl, RegisterValue.ofNat,
      Width.truncate_of_lt (k.extended_lt ea m.memory), Memory.load_of_le room]
    rfl
  · intro loads a
    rw [memory, read loads]
    exact Memory.peek_read room a
  · intro stores
    refine ⟨v, value stores, fun a => ?_⟩
    rw [memory, stored stores]
    exact (Memory.write_of_le room v).2 a
  · intro r moves
    subst moves
    refine (Machine.register?_setGpr processor' r ea _).trans ?_
    rw [if_pos rfl, RegisterValue.ofNat, Width.truncate_of_lt lt]
    rfl
  · rw [memory]
    cases loads : k.loads with
    | true =>
      rw [read loads]
      exact Memory.order_foldl_touch _ _
    | false =>
      rw [stored loads]
      exact (Memory.write_of_le room v).1
  · intro name ne ne' _ _
    rw [register?_moveBase_of_ne processor' ne', register?_effect_of_ne processor ne]

/-- The outcome of an access survives a change of scratch registers. -/
theorem MemoryAccess.Outcome.keep (h : k.Outcome data ea base m e) (keeps : e.Keeps n m')
    (processor : e.cpu = cpu) : k.Outcome data ea base m m' := by
  have same : ∀ r : Gpr, m'.register? (gprName r) = e.register? (gprName r) := fun r =>
    keeps.register? (processor ▸ not_scratch_gpr r n)
  refine ⟨?_, ?_, ?_, ?_, ?_, ?_⟩
  · intro loads
    rw [same, h.loaded loads]
  · rw [keeps.memory]
    exact h.read
  · rw [keeps.memory]
    exact h.stored
  · intro r moves
    rw [same, h.moved r moves]
  · rw [keeps.memory, h.order]
  · intro name ne ne' native apart
    rw [keeps.register? (processor ▸ Cpu.not_scratch native apart n)]
    exact h.others name ne ne' native apart

end Outcome

/-! ## Decoding -/

section Decoding

variable {n : NativeInstruction} {m : Machine} {k : MemoryAccess} {addressing : Addressing}

/-- An access that is read has its data register first and its location behind it. -/
theorem MemoryAccess.decoded {operation : Operation}
    (h : k.form.decode cpu.catalog.widthOf n = .ok operation) :
    ∃ data location, gprAt cpu.catalog.widthOf n 0 = .ok data ∧
      locationAt cpu.catalog.widthOf n k.addressing = .ok location ∧
      operation = k.operation data location := by
  simp only [Form.decode, Except.bind_eq_ok] at h
  obtain ⟨_, -, h⟩ := h
  unfold form at h
  unfold MemoryAccess.operation
  split at h
  · next loads =>
    simp only [Form.read, Except.bind_eq_ok] at h
    obtain ⟨data, target, location, written, e⟩ := h
    cases e
    exact ⟨data, location, target, written, (if_pos loads).symm⟩
  · next stores =>
    simp only [Form.read, Except.bind_eq_ok] at h
    obtain ⟨data, source, location, written, e⟩ := h
    cases e
    exact ⟨data, location, source, written, (if_neg stores).symm⟩

/-- A base register stands for the number it holds, `%r0` for zero. -/
inductive StandsFor (m : Machine) : Gpr → Nat → Prop
  | zero : StandsFor m 0 0
  | register {r : Gpr} {v : Nat} (ne : r ≠ 0) (value : m.value? (gprName r) = some v) :
    StandsFor m r (v % 2 ^ 32)

/-- A register that stands for zero, or that has a value, can be read as a base. -/
theorem standsFor_of_defined (processor : m.cpu = cpu) {r : Gpr}
    (defined : r ≠ 0 → ∃ v, m.value? (gprName r) = some v) :
    ∃ b, StandsFor m r b ∧ ∀ j, m.begun.Holds j (Base.ofGpr r).operand b := by
  by_cases zero : r = 0
  · subst zero
    exact ⟨0, .zero, fun j => Machine.holds_integer m.begun j 0 registerWidth⟩
  · obtain ⟨v, value⟩ := defined zero
    have processor' : m.begun.cpu = cpu := processor
    rw [Base.ofGpr, if_neg zero]
    exact ⟨_, .register zero value, fun j => holds_gpr processor' r value⟩

/-- Where an access goes: the effective address, and the base that is moved there. -/
inductive Locates (n : NativeInstruction) (m : Machine) : Addressing → Nat → Option Gpr → Prop
  | displaced {name : String} {d : Int} {w : Option Width} {r : Gpr} {b : Nat}
    (written : operandAt cpu.catalog.widthOf n 1 = .ok (.memory (some name) none d w))
    (named : gpr? name = some r) (base : StandsFor m r b) :
    Locates n m .displaced (registerWidth.ofInt (b + d)) none
  | updating {name : String} {d : Int} {w : Option Width} {r : Gpr} {b : Nat}
    (written : operandAt cpu.catalog.widthOf n 1 = .ok (.memory (some name) none d w))
    (named : gpr? name = some r) (ne : r ≠ 0) (base : StandsFor m r b) :
    Locates n m .updating (registerWidth.ofInt (b + d)) (some r)
  | indexed {ra rb : Gpr} {b v : Nat} (first : gprAt cpu.catalog.widthOf n 1 = .ok ra)
    (second : gprAt cpu.catalog.widthOf n 2 = .ok rb) (base : StandsFor m ra b)
    (value : m.value? (gprName rb) = some v) :
    Locates n m .indexed ((b + v % 2 ^ 32) % 2 ^ 32) none

/-- The registers that make up an effective address. -/
inductive Addresses (n : NativeInstruction) : Addressing → Gpr → Prop
  | displaced {addressing : Addressing} {name : String} {d : Int} {w : Option Width} {r : Gpr}
    (kind : addressing ≠ .indexed)
    (written : operandAt cpu.catalog.widthOf n 1 = .ok (.memory (some name) none d w))
    (named : gpr? name = some r) (ne : r ≠ 0) : Addresses n addressing r
  | base {r : Gpr} (written : gprAt cpu.catalog.widthOf n 1 = .ok r) (ne : r ≠ 0) :
    Addresses n .indexed r
  | index {r : Gpr} (written : gprAt cpu.catalog.widthOf n 2 = .ok r) : Addresses n .indexed r

/-- A displaced location is read off an operand in memory with a base and no index. -/
theorem operand_of_displacedAt {update : Bool} {location : Location}
    (h : displacedAt cpu.catalog.widthOf n 1 update = .ok location) :
    ∃ name d w r, operandAt cpu.catalog.widthOf n 1 = .ok (.memory (some name) none d w) ∧
      gpr? name = some r ∧ location = .displaced (.ofGpr r) d update := by
  simp only [displacedAt, Except.bind_eq_ok] at h
  obtain ⟨resolved, written, h⟩ := h
  split at h
  · next name d w =>
    split at h
    · split at h
      · cases h
      · next r named =>
        cases h
        exact ⟨name, d, w, r, written, named, rfl⟩
    · cases h
  · cases h

/-- An update form that moves some register moves its base, which is not register 0. -/
theorem moved?_ofGpr {r : Gpr} {d : Int}
    (fits : (Location.displaced (.ofGpr r) d true).moved? ≠ some .zero) :
    r ≠ 0 ∧ (Location.displaced (.ofGpr r) d true).moved? = some (.register r) := by
  have ne : r ≠ 0 := fun zero => fits (by rw [zero]; rfl)
  exact ⟨ne, by rw [Base.ofGpr, if_neg ne]; rfl⟩

/-- Where the registers of its address are defined, an access goes where its location points. -/
theorem locates_of_locationAt {location : Location} (processor : m.cpu = cpu)
    (h : locationAt cpu.catalog.widthOf n addressing = .ok location)
    (fits : location.moved? ≠ some .zero)
    (defined : ∀ r, Addresses n addressing r → ∃ v, m.value? (gprName r) = some v) :
    ∃ ea base, Locates n m addressing ea base ∧ location.moved? = base.map .register ∧
      ∀ j, location.Denotes m.begun j ea := by
  cases addressing with
  | displaced =>
    obtain ⟨name, d, w, r, written, named, rfl⟩ := operand_of_displacedAt h
    obtain ⟨b, base, held⟩ := standsFor_of_defined processor fun ne =>
      defined r (.displaced nofun written named ne)
    exact ⟨_, none, .displaced written named base, rfl, fun j => .displaced (held j)⟩
  | updating =>
    obtain ⟨name, d, w, r, written, named, rfl⟩ := operand_of_displacedAt h
    obtain ⟨ne, moves⟩ := moved?_ofGpr fits
    obtain ⟨b, base, held⟩ := standsFor_of_defined processor fun ne =>
      defined r (.displaced nofun written named ne)
    exact ⟨_, some r, .updating written named ne base, moves, fun j => .displaced (held j)⟩
  | indexed =>
    simp only [locationAt, baseAt, Except.bind_eq_ok] at h
    obtain ⟨_, ⟨ra, first, e⟩, rb, second, e'⟩ := h
    cases e
    cases e'
    obtain ⟨b, base, held⟩ := standsFor_of_defined processor fun ne => defined ra (.base first ne)
    obtain ⟨v, value⟩ := defined rb (.index second)
    have processor' : m.begun.cpu = cpu := processor
    exact ⟨_, none, .indexed first second base value, rfl, fun j =>
      .indexed (held j) (holds_gpr processor' rb value)⟩

end Decoding

/-! ## Runs -/

/--
The run of a lifted load or store ends well, having accessed the bytes at its effective address and
moved its base there if it is an update form; everything else is as it was.
-/
theorem lifted_access_transfers (k : MemoryAccess) {n : NativeInstruction}
    (named : n.mnemonic = k.mnemonic) {p : Program} (lifted : lift [n] = .ok p) {m : Machine}
    (processor : m.cpu = cpu) (limit : m.settings.stepLimit = none)
    (sources : ∀ r, Addresses n k.addressing r ∨
      k.loads = false ∧ gprAt cpu.catalog.widthOf n 0 = .ok r →
        ∃ v, m.value? (gprName r) = some v) :
    ∃ data ea base turns, gprAt cpu.catalog.widthOf n 0 = .ok data ∧
      Locates n m k.addressing ea base ∧
      (m.interpret .silent p turns (.ofNative n.address) ()).progress = .finished ∧
      k.Outcome data ea base m
        (m.interpret .silent p turns (.ofNative n.address) ()).machine := by
  obtain ⟨count, operation, X, code, expands, run⟩ := interpret_expanded lifted
  have admissible := expands.admissible
  obtain ⟨form, registered, decodes⟩ := expands.decoded
  obtain rfl := form_unique (named ▸ registered) k.registered
  obtain ⟨data, location, target, written, rfl⟩ := MemoryAccess.decoded decodes
  have fits : location.moved? ≠ some .zero := by
    unfold MemoryAccess.operation at admissible
    split at admissible
    · exact admissible.1
    · exact admissible
  obtain ⟨ea, base, locates, moves, denotes⟩ :=
    locates_of_locationAt processor written fits fun r found => sources r (.inl found)
  -- a load finds nothing in its register
  obtain ⟨v, value⟩ : ∃ v, k.loads = false → m.value? (gprName data) = some v := by
    cases loads : k.loads with
    | true => exact ⟨0, nofun⟩
    | false =>
      obtain ⟨v, value⟩ := sources data (.inr ⟨loads, target⟩)
      exact ⟨v, fun _ => value⟩
  have processor' : m.begun.cpu = cpu := processor
  obtain ⟨base', moves', apart, effect⟩ := runs_access (x := blank count n) k processor' admissible
    (denotes _) (fun stores => holds_gpr processor' data (value stores)) n.mnemonic n.address
  obtain rfl : base = base' :=
    Option.map_injective (fun _ _ => Base.register.inj) (moves.symm.trans moves')
  obtain ⟨turns, ends, keeps⟩ := run limit effect
  have outcome := (MemoryAccess.outcome_effect processor' (denotes 0).lt apart value).keep keeps
    ((cpu_moveBase ..).trans ((k.cpu_effect ..).trans processor'))
  exact ⟨data, ea, base, turns, target, locates, ends, outcome.loaded, outcome.read,
    outcome.stored, outcome.moved, outcome.order, outcome.others⟩

/-- A store of a register below the address that it holds, where the register then points. -/
def pushInPlace : NativeInstruction :=
  ⟨0x100, "stwu", [.sized .dword (.register "%r3"), .displaced (-4) "%r3"]⟩

/-- A machine with 2 in `%r3`. -/
def beforePush : Machine := (Machine.start {} cpu).setGpr 3 2

/--
The effective address wraps around at 32 bits and the bytes from there on do not. The old number is
stored.
-/
theorem pushInPlace_transfers :
    ∃ p, lift [pushInPlace] = .ok p ∧ ∃ turns,
      let run := beforePush.interpret .silent p turns (.ofNative 0x100) ()
      run.progress = .finished ∧
        run.machine.register? (gprName 3) = some ⟨0xFFFFFFFE, .dword, .defined⟩ ∧
        run.machine.memory.peek 0xFFFFFFFE = some 0 ∧
        run.machine.memory.peek 0x100000001 = some 2 ∧ run.machine.memory.peek 1 = none := by
  let k : MemoryAccess := .stwu
  have expands :
      Expands 0 pushInPlace (.store .dword 3 (.displaced (.register 3) (-4) true)) _ _ :=
    ⟨⟨_, k.registered, rfl⟩, rfl, rfl⟩
  obtain ⟨p, lifted, -⟩ := expands.lift_alone
  have source : gprAt cpu.catalog.widthOf pushInPlace 0 = .ok 3 := rfl
  have address : operandAt cpu.catalog.widthOf pushInPlace 1 =
    .ok (.memory (some "%r3") none (-4) none) := rfl
  have base : gpr? "%r3" = some 3 := rfl
  have two : beforePush.value? (gprName 3) = some 2 := rfl
  have sources : ∀ r, Addresses pushInPlace .updating r ∨
      k.loads = false ∧ gprAt cpu.catalog.widthOf pushInPlace 0 = .ok r →
        ∃ v, beforePush.value? (gprName r) = some v := by
    intro r found
    rcases found with ⟨-, written, named, -⟩ | ⟨-, written⟩
    · obtain ⟨⟨⟩, -⟩ := ResolvedOperand.memory.inj (Except.ok.inj (address.symm.trans written))
      obtain rfl := Option.some.inj (base.symm.trans named)
      exact ⟨_, two⟩
    · obtain rfl := Except.ok.inj (source.symm.trans written)
      exact ⟨_, two⟩
  obtain ⟨data, ea, moved, turns, source', locates, ends, outcome⟩ :=
    lifted_access_transfers k rfl lifted (m := beforePush) rfl rfl sources
  -- what the theorem finds written is what is written here
  obtain rfl := Except.ok.inj (source.symm.trans source')
  have locates : Locates pushInPlace beforePush .updating ea moved := locates
  obtain _ | ⟨written, named, -, stands⟩ | _ := locates
  obtain ⟨⟨⟩, -, rfl, -⟩ := ResolvedOperand.memory.inj (Except.ok.inj (address.symm.trans written))
  obtain rfl := Option.some.inj (base.symm.trans named)
  obtain _ | ⟨-, value⟩ := stands
  obtain rfl := Option.some.inj (two.symm.trans value)
  have wrapped : registerWidth.ofInt ((2 % 2 ^ 32 : Nat) + -4) = 0xFFFFFFFE := by decide
  obtain ⟨v, value', bytes⟩ := outcome.stored rfl
  obtain rfl := Option.some.inj (two.symm.trans value')
  rw [wrapped] at outcome bytes
  have order : beforePush.memory.order = .big := rfl
  rw [order] at bytes
  have untouched : beforePush.memory.peek 1 = none := rfl
  refine ⟨p, lifted, turns, ends, outcome.moved 3 rfl, ?_, ?_, ?_⟩
  · exact (bytes 0xFFFFFFFE).trans (by decide)
  · exact (bytes 0x100000001).trans (by decide)
  · exact (bytes 1).trans ((if_neg (by decide)).trans untouched)

end RegisterTransfer.PowerPC
