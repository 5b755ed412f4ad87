import RegisterTransfer.Proofs.FlatMemory
import RegisterTransfer.Proofs.Plans

/-!
# What a step leaves alone

Under any catalog, names and register file entries are two things: an alias has no entry of its own,
so that a write to one name changes what is read under others. What a completed step may change is
therefore said of entries: that of the program counter and, for some opcodes only, that of the third
operand. Memory changes under stores, and under loads only in which bytes are stored at all.

> `Machine.does_of_execute`: the effects that a completed instruction has, with the opcode that has
> them.
> `RegisterFile.get?_write`, `RegisterFile.get?_undefine`: which entry an effect changes.
> `Memory.write_peek`, `Memory.read_peek`: which bytes an access changes.
> `step_frame`: what a completed step of a run leaves alone.
-/

namespace RegisterTransfer

/-! ## Entries of the register file -/

/-- The entry of the register file that a name stands for. -/
def Catalog.holder (c : Catalog) (name : String) : String :=
  match c.alias? name with
  | none => name
  | some x => x.parent

namespace RegisterFile

/-- A write sets the entry that the name stands for. -/
theorem write_eq_insert (f : RegisterFile) (c : Catalog) (name : String) (value : Nat)
    (width : Width) (status : RegisterStatus) :
    ∃ v, f.write c name value width status = f.insert (c.holder name) v := by
  unfold Catalog.holder write
  cases c.alias? name <;> exact ⟨_, rfl⟩

/-- Making a name undefined marks the entry that it stands for, or sets it to a zero marked so. -/
theorem undefine_eq_insert (f : RegisterFile) (c : Catalog) (name : String) (width : Width) :
    ∃ w, f.undefine c name width =
      f.insert (c.holder name) (.undefined (f.get? (c.holder name)) w) := by
  unfold Catalog.holder undefine
  cases c.alias? name with
  | none =>
    dsimp only
    cases f.get? name <;> exact ⟨width, rfl⟩
  | some x =>
    dsimp only
    cases f.get? x.parent <;> exact ⟨(c.widthOf x.parent).getD width, rfl⟩

/-- What is read under a name depends on the entry that it stands for. -/
theorem read_congr {f g : RegisterFile} {c : Catalog} {name : String}
    (same : g.get? (c.holder name) = f.get? (c.holder name)) :
    g.read c name = f.read c name := by
  unfold Catalog.holder at same
  unfold read
  cases x : c.alias? name with
  | none =>
    rw [x] at same
    exact same
  | some x' =>
    rw [x] at same
    dsimp only at same ⊢
    rw [same]

end RegisterFile

/-! ## Bytes of an access -/

/-- The byte is one of those that an access from `a` on touches, around the end of memory. -/
def Touched (a : Nat) (w : Width) (x : Nat) : Prop := ∃ k < w.bytes, x = (a + k) % 2 ^ 64

namespace Memory

/-- The addresses of an access are those that it touches. -/
theorem mem_window_iff {a : Nat} {w : Width} {x : Nat} : x ∈ window a w ↔ Touched a w x := by
  simp only [window, Touched, List.mem_map, List.mem_range, eq_comm]
  rfl

/-- An access touches as many bytes as its width has. -/
theorem eq_of_touched {a : Nat} {w : Width} {j k : Nat} (hj : j < w.bytes) (hk : k < w.bytes)
    (same : (a + j) % 2 ^ 64 = (a + k) % 2 ^ 64) : j = k := by
  have small : w.bytes ≤ 16 := by cases w <;> decide
  omega

/-- A write stores the bytes of a number, the order of bytes being that of the memory. -/
theorem write_peek (m : Memory) (a value : Nat) (w : Width) :
    (m.write a value w).order = m.order ∧
      (∀ k < w.bytes, (m.write a value w).peek ((a + k) % 2 ^ 64) =
        some (UInt8.ofNat (value / 256 ^ m.order.rank w.bytes k))) ∧
      ∀ x, ¬ Touched a w x → (m.write a value w).peek x = m.peek x := by
  have written : m.write a value w = ((List.range w.bytes).map fun k =>
      ((a + k) % 2 ^ 64, UInt8.ofNat (value / 256 ^ m.order.rank w.bytes k))).foldl
        (fun m e => m.poke e.1 e.2) m := by
    rw [write, window, ByteOrder.encode_eq_map, List.zip_map']
    rfl
  obtain ⟨order, stored, kept⟩ := m.peek_foldl_poke (fun k => (a + k) % 2 ^ 64)
    (fun k => UInt8.ofNat (value / 256 ^ m.order.rank w.bytes k))
    fun j hj k hk => eq_of_touched hj hk
  rw [written]
  exact ⟨order, stored, fun x outside => kept x fun k below e => outside ⟨k, below, e⟩⟩

/-- A read stores zeros where nothing is stored yet. -/
theorem read_peek (m : Memory) (a : Nat) (w : Width) :
    (m.read a w).2.order = m.order ∧
      (∀ x, Touched a w x → (m.read a w).2.peek x = some ((m.peek x).getD 0)) ∧
      ∀ x, ¬ Touched a w x → (m.read a w).2.peek x = m.peek x := by
  simp only [read, order_foldl_touch, peek_foldl_touch]
  exact ⟨trivial, fun x inside => if_pos (mem_window_iff.2 inside),
    fun x outside => if_neg (mt mem_window_iff.1 outside)⟩

end Memory

/-! ## Effects of a completed instruction -/

/-- The effects that an instruction has if it is completed. -/
inductive Instruction.Does (i : Instruction) (m : Machine) : List Effect → Prop
  | write {name v} (writes : i.opcode.writesRegister) (other : i.opcode ≠ .ldm)
    (destination : i.op3.kind = .register name) : Does i m [.write name v i.op3.width]
  | load {name a v} (opcode : i.opcode = .ldm) (address : m.source i.address i.op1 = .ok a)
    (destination : i.op3.kind = .register name) :
    Does i m [.load (Width.qword.truncate a) i.op3.width, .write name v i.op3.width]
  | store {a v} (opcode : i.opcode = .stm) (value : m.source i.address i.op1 = .ok v)
    (address : m.source i.address i.op3 = .ok a) :
    Does i m [.store (Width.qword.truncate a) v i.op1.width]
  | undefine {name} (opcode : i.opcode = .undef) (destination : i.op3.kind = .register name) :
    Does i m [.undefine name i.op3.width]
  | nothing (opcode : i.opcode = .jcc ∨ i.opcode = .nop ∨ i.opcode = .unkn ∨ i.opcode = .halt) :
    Does i m []

namespace Machine

variable {m m' : Machine} {p : Program} {i : Instruction} {flow : Flow}

/-- A plan that goes by a value only succeeds if there is one. -/
theorem ok_of_after {α : Type} {x : Except (Fault Address) α} {next : α → Plan}
    (h : (Plan.after x next).result = .ok flow) :
    ∃ v, x = .ok v ∧ Plan.after x next = next v := by
  cases x with
  | error f => cases h
  | ok v => exact ⟨v, rfl, rfl⟩

/-- A value that is delivered is written to the destination, and that is all. -/
theorem effects_of_deliver {v : Nat} (h : (i.deliver v).result = .ok flow) :
    ∃ name, i.op3.kind = .register name ∧ (i.deliver v).effects = [.write name v i.op3.width] := by
  obtain ⟨name, destination, same⟩ := ok_of_after h
  exact ⟨name, kind_of_destination destination, congrArg Plan.effects same⟩

/-- An instruction that delivers a value it has found writes it, and that is all. -/
theorem does_of_deliver (writes : i.opcode.writesRegister) (other : i.opcode ≠ .ldm) {v : Nat}
    (h : (i.deliver v).result = .ok flow) : i.Does m (i.deliver v).effects := by
  obtain ⟨name, destination, effects⟩ := effects_of_deliver h
  rw [effects]
  exact .write writes other destination

/-- The effects that a plan has which does not fail. -/
theorem does_of_plan (h : (m.plan p i).result = .ok flow) : i.Does m (m.plan p i).effects := by
  revert h
  unfold plan
  cases opcode : i.opcode with
  | add | sub | mul | div | mod | bsh | and | or | xor | bisz | str =>
    intro h
    obtain ⟨v, -, same⟩ := ok_of_after h
    rw [same] at h ⊢
    exact does_of_deliver (by rw [opcode]; rfl) (by rw [opcode]; nofun) h
  | jcc =>
    intro h
    obtain ⟨flow', -, same⟩ := ok_of_after h
    rw [same]
    exact .nothing (.inl opcode)
  | ldm =>
    intro h
    obtain ⟨a, address, same⟩ := ok_of_after h
    rw [same] at h ⊢
    obtain ⟨name, destination, effects⟩ := effects_of_deliver h
    rw [fetch, effects]
    exact .load opcode address destination
  | stm =>
    intro h
    obtain ⟨v, value, same⟩ := ok_of_after h
    rw [same] at h ⊢
    obtain ⟨a, address, same'⟩ := ok_of_after h
    rw [same']
    exact .store opcode value address
  | undef =>
    intro h
    obtain ⟨name, destination, same⟩ := ok_of_after h
    rw [same]
    exact .undefine opcode (kind_of_destination destination)
  | nop | halt => exact fun _ => .nothing (by simp [opcode])
  | unkn =>
    intro _
    dsimp only
    cases m.settings.unknownOpcodes <;> exact .nothing (by simp [opcode])

/-- The effects of a completed instruction. -/
theorem does_of_execute (executed : m.execute p i = (.ok flow, m')) :
    ∃ effects, i.Does m effects ∧ m' = effects.foldl enact m := by
  rw [execute_eq_plan] at executed
  exact ⟨_, does_of_plan (congrArg Prod.fst executed), (congrArg Prod.snd executed).symm⟩

end Machine

/-! ## What a completed step may change -/

/-- The entry is that of the register in the third operand, which the instruction gives a value or
makes undefined. -/
def Instruction.Aims (i : Instruction) (c : Catalog) (key : String) : Prop :=
  ∃ name, i.Changes name ∧ c.holder name = key

/--
What a completed step may change of a machine. The instruction is performed by the machine whose
program counter is up to date.
-/
structure StepFrame (m : Machine) (native : Nat) (i : Instruction) (m' : Machine) : Prop where
  setup : m.SameSetup m'
  /-- At most two entries of the register file change. -/
  entries : ∀ key, m'.registers.get? key ≠ m.registers.get? key →
    key = m.cpu.catalog.holder m.cpu.programCounter ∨ i.Aims m.cpu.catalog key
  names : ∀ name, m.cpu.catalog.holder name ≠ m.cpu.catalog.holder m.cpu.programCounter →
    ¬ i.Aims m.cpu.catalog (m.cpu.catalog.holder name) → m'.register? name = m.register? name
  synced : ∀ key, key ≠ m.cpu.catalog.holder m.cpu.programCounter →
    (m.syncProgramCounter native).registers.get? key = m.registers.get? key
  /-- What becomes undefined keeps its value and its width, or is a new zero. -/
  undefined : i.opcode = .undef → ∃ name, i.op3.kind = .register name ∧
    ∃ w, m'.registers.get? (m.cpu.catalog.holder name) =
      some (match (m.syncProgramCounter native).registers.get? (m.cpu.catalog.holder name) with
        | some v => ⟨v.value, v.width, .undefined⟩
        | none => ⟨0, w, .undefined⟩)
  memory : i.opcode ≠ .ldm → i.opcode ≠ .stm → m'.memory = m.memory
  /-- A load only stores zeros, where no byte is stored yet. -/
  loads : i.opcode = .ldm → ∃ a, (m.syncProgramCounter native).source i.address i.op1 = .ok a ∧
    m'.memory.order = m.memory.order ∧
    (∀ x, Touched a i.op3.width x → m'.memory.peek x = some ((m.memory.peek x).getD 0)) ∧
    ∀ x, ¬ Touched a i.op3.width x → m'.memory.peek x = m.memory.peek x
  stores : i.opcode = .stm → ∃ v a,
    (m.syncProgramCounter native).source i.address i.op1 = .ok v ∧
    (m.syncProgramCounter native).source i.address i.op3 = .ok a ∧
    m'.memory.order = m.memory.order ∧
    (∀ k < i.op1.width.bytes, m'.memory.peek ((a + k) % 2 ^ 64) =
      some (UInt8.ofNat (v / 256 ^ m.memory.order.rank i.op1.width.bytes k))) ∧
    ∀ x, ¬ Touched a i.op1.width x → m'.memory.peek x = m.memory.peek x
  reads : m'.counters.reads = m.counters.reads + if i.opcode = .ldm then 1 else 0
  writes : m'.counters.writes = m.counters.writes + if i.opcode = .stm then 1 else 0

/-- Addresses count modulo the size of the address space. -/
theorem truncate_qword_add (a k : Nat) : (Width.qword.truncate a + k) % 2 ^ 64 = (a + k) % 2 ^ 64 :=
  Nat.mod_add_mod a (2 ^ 64) k

/-- An access touches the same bytes whether or not its address was wrapped around first. -/
theorem touched_truncate {a : Nat} {w : Width} {x : Nat} :
    Touched (Width.qword.truncate a) w x ↔ Touched a w x := by
  simp only [Touched, truncate_qword_add]

namespace Machine

variable {m : Machine} {i : Instruction} {effects : List Effect} {key : String}

/-- A write changes the entry of the register that holds the name, and no other. -/
theorem get?_setRegister {name : String} (ne : key ≠ m.cpu.catalog.holder name) (v : Nat)
    (w : Width) (status : RegisterStatus) :
    (m.setRegister name v w status).registers.get? key = m.registers.get? key := by
  obtain ⟨r, inserted⟩ := m.registers.write_eq_insert m.cpu.catalog name v w status
  rw [setRegister, inserted]
  exact SortedMap.get?_insert_of_ne _ _ ne

/-- Marking undefined changes the entry of the register that holds the name, and no other. -/
theorem get?_undefineRegister {name : String} (ne : key ≠ m.cpu.catalog.holder name) (w : Width) :
    (m.undefineRegister name w).registers.get? key = m.registers.get? key := by
  obtain ⟨w', inserted⟩ := m.registers.undefine_eq_insert m.cpu.catalog name w
  rw [undefineRegister, inserted]
  exact SortedMap.get?_insert_of_ne _ _ ne

end Machine

namespace Instruction.Does

variable {m : Machine} {i : Instruction} {effects : List Effect}

/-- Effects change the entry that the instruction aims at, and no other. -/
theorem get?_eq (h : i.Does m effects) {key : String} (kept : ¬ i.Aims m.cpu.catalog key) :
    (effects.foldl Machine.enact m).registers.get? key = m.registers.get? key := by
  have ne : ∀ {name}, i.opcode.writesRegister ∨ i.opcode = .undef → i.op3.kind = .register name →
      key ≠ m.cpu.catalog.holder name :=
    fun changes destination e => kept ⟨_, ⟨changes, destination⟩, e.symm⟩
  cases h with
  | write writes _ destination => exact Machine.get?_setRegister (ne (.inl writes) destination) ..
  | load opcode _ destination =>
    exact Machine.get?_setRegister (m := m.loaded _ _)
      (ne (.inl (by rw [opcode]; rfl)) destination) ..
  | undefine opcode destination => exact Machine.get?_undefineRegister (ne (.inr opcode) destination) _
  | store | nothing => rfl

/-- A register that is marked undefined keeps its value, and is a new zero if it had none. -/
theorem undefined (h : i.Does m effects) (opcode : i.opcode = .undef) :
    ∃ name, i.op3.kind = .register name ∧
      ∃ w, (effects.foldl Machine.enact m).registers.get? (m.cpu.catalog.holder name) =
        some (.undefined (m.registers.get? (m.cpu.catalog.holder name)) w) := by
  cases h with
  | @undefine name _ destination =>
    obtain ⟨w, inserted⟩ := m.registers.undefine_eq_insert m.cpu.catalog name i.op3.width
    refine ⟨name, destination, w, ?_⟩
    show (m.registers.undefine m.cpu.catalog name i.op3.width).get? _ = _
    rw [inserted]
    exact SortedMap.get?_insert_self ..
  | write writes =>
    rw [opcode] at writes
    cases writes
  | load other | store other =>
    rw [opcode] at other
    cases other
  | nothing other => simp [opcode] at other

/-- Only loads and stores change memory. -/
theorem memory_eq (h : i.Does m effects) (noLoad : i.opcode ≠ .ldm) (noStore : i.opcode ≠ .stm) :
    (effects.foldl Machine.enact m).memory = m.memory := by
  cases h with
  | load opcode => exact absurd opcode noLoad
  | store opcode => exact absurd opcode noStore
  | write | undefine | nothing => rfl

/-- What a load does to memory is to read it at the address in its first operand. -/
theorem loads (h : i.Does m effects) (opcode : i.opcode = .ldm) :
    ∃ a, m.source i.address i.op1 = .ok a ∧ (effects.foldl Machine.enact m).memory =
      (m.memory.read (Width.qword.truncate a) i.op3.width).2 := by
  cases h with
  | @load _ a _ _ address => exact ⟨a, address, rfl⟩
  | write _ other => exact absurd opcode other
  | store other | undefine other =>
    rw [opcode] at other
    cases other
  | nothing other => simp [opcode] at other

/-- What a store does to memory is to write its first operand at the address in its third. -/
theorem stores (h : i.Does m effects) (opcode : i.opcode = .stm) :
    ∃ v a, m.source i.address i.op1 = .ok v ∧ m.source i.address i.op3 = .ok a ∧
      (effects.foldl Machine.enact m).memory =
        m.memory.write (Width.qword.truncate a) v i.op1.width := by
  cases h with
  | @store a v _ value address => exact ⟨v, a, value, address, rfl⟩
  | write writes =>
    rw [opcode] at writes
    cases writes
  | load other | undefine other =>
    rw [opcode] at other
    cases other
  | nothing other => simp [opcode] at other

/-- Loads count one read, stores one write, and nothing else counts either. -/
theorem counters (h : i.Does m effects) :
    (effects.foldl Machine.enact m).counters.reads =
        m.counters.reads + (if i.opcode = .ldm then 1 else 0) ∧
      (effects.foldl Machine.enact m).counters.writes =
        m.counters.writes + if i.opcode = .stm then 1 else 0 := by
  cases h with
  | write writes other =>
    have noStore : i.opcode ≠ .stm := by
      intro opcode
      rw [opcode] at writes
      cases writes
    rw [if_neg other, if_neg noStore]
    exact ⟨rfl, rfl⟩
  | load opcode | store opcode | undefine opcode =>
    rw [opcode]
    exact ⟨rfl, rfl⟩
  | nothing opcode =>
    rcases opcode with opcode | opcode | opcode | opcode <;> rw [opcode] <;> exact ⟨rfl, rfl⟩

end Instruction.Does

/-! ## Steps of a run -/

/-- A step that does not fail completes its instruction, and counts it. -/
theorem Run.completed_of_step {σ : Type} {o : Observer σ} {p : Program} {r : Run σ} {pc : Address}
    {i : Instruction} (running : r.progress = .running pc) (found : p.get? pc = some i)
    (sound : ∀ f, (r.step o p).progress ≠ .failed f) :
    ∃ flow m executed jumps,
      (r.machine.syncProgramCounter pc.native).execute p i = (.ok flow, m) ∧
        (r.step o p).machine =
          { m with counters := ⟨executed, jumps, m.counters.reads, m.counters.writes⟩ } := by
  have effect := Run.steps o p r
  generalize r.step o p = r' at effect sound
  cases effect with
  | ended atEnd => simp [isOver, running] at atEnd
  | off running' nothing =>
    rw [running] at running'
    cases running'
    rw [found] at nothing
    cases nothing
  | stopped | failed => exact absurd rfl (sound _)
  | fell running' found' executed | exhausted running' found' executed
  | jumped running' found' executed | halted running' found' executed =>
    rw [running] at running'
    cases running'
    rw [found] at found'
    cases found'
    exact ⟨_, _, _, _, executed, rfl⟩

/--
A completed step changes the entry of the program counter, and that of the third operand only under
opcodes that write or undefine a register. Memory changes under stores, and under loads only where no
byte was stored; accesses count one each. All else is as it was.
-/
theorem step_frame {σ : Type} (o : Observer σ) (p : Program) (r : Run σ) {pc : Address}
    {i : Instruction} (running : r.progress = .running pc) (found : p.get? pc = some i)
    (sound : ∀ f, (r.step o p).progress ≠ .failed f) :
    StepFrame r.machine pc.native i (r.step o p).machine := by
  obtain ⟨flow, m', e, j, executed, after⟩ := Run.completed_of_step running found sound
  obtain ⟨effects, does, rfl⟩ := Machine.does_of_execute executed
  have synced : ∀ key, key ≠ r.machine.cpu.catalog.holder r.machine.cpu.programCounter →
      (r.machine.syncProgramCounter pc.native).registers.get? key = r.machine.registers.get? key :=
    fun key ne => Machine.get?_setRegister ne _ _ _
  have setup := Run.step_setup o p r
  have kept : ∀ key, key ≠ r.machine.cpu.catalog.holder r.machine.cpu.programCounter →
      ¬ i.Aims r.machine.cpu.catalog key →
        (r.step o p).machine.registers.get? key = r.machine.registers.get? key := by
    intro key ne away
    rw [after]
    exact (does.get?_eq away).trans (synced key ne)
  exact {
    setup
    synced
    entries := fun key changed => by
      by_contra other
      rw [not_or] at other
      exact changed (kept key other.1 other.2)
    names := fun name ne away => by
      rw [Machine.register?, Machine.register?, setup.cpu]
      exact RegisterFile.read_congr (kept _ ne away)
    undefined := fun opcode => by
      obtain ⟨name, destination, w, marked⟩ := does.undefined opcode
      refine ⟨name, destination, w, ?_⟩
      rw [after]
      refine marked.trans (congrArg some ?_)
      show RegisterValue.undefined
        ((r.machine.syncProgramCounter pc.native).registers.get? (r.machine.cpu.catalog.holder name))
          w = _
      cases (r.machine.syncProgramCounter pc.native).registers.get?
        (r.machine.cpu.catalog.holder name) with
      | none => cases w <;> rfl
      | some v => rfl
    memory := fun noLoad noStore => by
      rw [after]
      exact does.memory_eq noLoad noStore
    loads := fun opcode => by
      obtain ⟨a, address, memory⟩ := does.loads opcode
      obtain ⟨order, stored, rest⟩ :=
        r.machine.memory.read_peek (Width.qword.truncate a) i.op3.width
      have memory : (r.step o p).machine.memory =
          (r.machine.memory.read (Width.qword.truncate a) i.op3.width).2 := by
        rw [after]
        exact memory
      simp only [touched_truncate] at stored rest
      rw [memory]
      exact ⟨a, address, order, stored, rest⟩
    stores := fun opcode => by
      obtain ⟨v, a, value, address, memory⟩ := does.stores opcode
      obtain ⟨order, stored, rest⟩ :=
        r.machine.memory.write_peek (Width.qword.truncate a) v i.op1.width
      have memory : (r.step o p).machine.memory =
          r.machine.memory.write (Width.qword.truncate a) v i.op1.width := by
        rw [after]
        exact memory
      simp only [touched_truncate, truncate_qword_add] at stored rest
      rw [memory]
      exact ⟨v, a, value, address, order, stored, rest⟩
    reads := by
      rw [after]
      exact does.counters.1
    writes := by
      rw [after]
      exact does.counters.2 }

/-- A processor with an accumulator, whose low byte has a name of its own. -/
def accumulatorCpu : Except CatalogError Cpu := do
  let c ← (∅ : Catalog).addRegister ⟨"acc", .dword, .general⟩
  let c ← c.addRegister ⟨"pc", .dword, .special⟩
  let c ← c.addAlias ⟨"low", "acc", 0, .byte⟩
  return { name := "accumulator", catalog := c, programCounter := "pc" }

/-- Forgets the low byte of the accumulator. -/
def forgetLow : Instruction :=
  ⟨⟨0x100, 0⟩, .undef, .absent, .absent, .register "low" .byte, none⟩

/-- The whole accumulator becomes undefined and keeps its value; a register without an entry gets
none. -/
theorem forgetLow_frame :
    ∃ cpu p, accumulatorCpu = .ok cpu ∧ Program.ofList [forgetLow] = .ok p ∧
      let m := (Machine.start {} cpu).setRegister "acc" 0x1234 .dword .defined
      let r := Run.step .silent p ⟨m, (), .running ⟨0x100, 0⟩⟩
      r.machine.registers.get? "acc" = some ⟨0x1234, .dword, .undefined⟩ ∧
        r.machine.register? "index" = m.register? "index" ∧ r.machine.memory = m.memory := by
  obtain ⟨p, program⟩ := Program.ofList_isOk (l := [forgetLow]) (by simp)
  obtain ⟨cpu, declared, plain, low, apart, pc⟩ : ∃ cpu, accumulatorCpu = .ok cpu ∧
      cpu.catalog.alias? "acc" = none ∧ cpu.catalog.holder "low" = "acc" ∧
      cpu.catalog.holder "index" = "index" ∧
      cpu.catalog.holder cpu.programCounter = "pc" := ⟨_, rfl, rfl, rfl, rfl, rfl⟩
  refine ⟨cpu, p, declared, program, ?_⟩
  intro m r
  have found : p.get? ⟨0x100, 0⟩ = some forgetLow :=
    ((Program.ofList_eq_ok program).2 _ _).2 ⟨List.mem_singleton_self _, rfl⟩
  have turn : r = Run.consult .silent p ⟨0x100, 0⟩ forgetLow m () :=
    Run.turn_consult (o := .silent) (m := m) (w := ()) found rfl
  have sound : ∀ f, r.progress ≠ .failed f := by
    rw [turn]
    exact Run.follow_ne_failed p _ _ _ .next
  have frame := step_frame .silent p ⟨m, (), .running ⟨0x100, 0⟩⟩ rfl found sound
  have counter : m.cpu.catalog.holder m.cpu.programCounter = "pc" := pc
  refine ⟨?_, frame.names "index" ?_ ?_, frame.memory nofun nofun⟩
  · obtain ⟨name, destination, w, marked⟩ := frame.undefined rfl
    cases destination
    have before : m.registers.get? "acc" = some ⟨0x1234, .dword, .defined⟩ :=
      (RegisterFile.read_of_alias?_eq_none plain m.registers).symm.trans
        (RegisterFile.read_write_self plain _ _ _ _)
    have same := frame.synced "acc" (by rw [counter]; decide)
    have entry : m.cpu.catalog.holder "low" = "acc" := low
    rw [entry, same] at marked
    exact marked.trans (by rw [before])
  · rw [counter]
    exact fun e => absurd (apart.symm.trans e) (by decide)
  · rintro ⟨name, ⟨_, destination⟩, e⟩
    cases destination
    exact absurd (low.symm.trans (e.trans apart)) (by decide)

end RegisterTransfer
