import RegisterTransfer.Proofs.Effects
import RegisterTransfer.Proofs.Plans

/-!
# Independence

What an instruction does depends on no register but those it reads. So where every temporary is
written before it is read, two runs that begin with nothing but different temporaries differ in
nothing but temporaries, at every turn.

> `Machine.AgreesOn.execute`: an instruction does the same to machines that agree on what it reads.
> `Program.Tiled.independent`: runs do not depend on what temporaries held.
-/

namespace RegisterTransfer

/-- The temporaries that an instruction may read are in a set. -/
def Instruction.ReadsIn (i : Instruction) (S : String → Prop) : Prop :=
  ∀ {name w}, i.Reads name w → isTemporary name → S name

namespace Machine

/-! ## Machines that agree -/

/-- Two machines that agree on everything but temporaries, and on the registers of a set. -/
structure AgreesOn (S : String → Prop) (m m' : Machine) : Prop extends m.SameNative m' where
  plain : m.cpu.Plain
  counters : m'.counters = m.counters
  known : ∀ {name}, S name → m'.register? name = m.register? name

namespace AgreesOn

variable {S T : String → Prop} {m m' : Machine} {i : Instruction}

theorem plain' (h : m.AgreesOn S m') : m'.cpu.Plain := h.cpu ▸ h.plain

/-- Agreement on some registers is agreement on fewer of them. -/
theorem mono (h : m.AgreesOn S m') (fewer : ∀ {name}, T name → S name) : m.AgreesOn T m' :=
  { h with known := fun mem => h.known (fewer mem) }

/-- What is a register of the processor, or in the set, is the same. -/
theorem register?_eq (h : m.AgreesOn S m') {name : String} (mem : isTemporary name → S name) :
    m'.register? name = m.register? name := by
  cases temporary : isTemporary name with
  | false => exact h.register? temporary
  | true => exact h.known (mem temporary)

theorem counted (h : m.AgreesOn S m') : m.counted.AgreesOn S m'.counted :=
  ⟨⟨h.settings, h.cpu, h.memory, h.register?⟩, h.plain, by simp [Machine.counted, h.counters],
    h.known⟩

theorem jumped (h : m.AgreesOn S m') : m.jumped.AgreesOn S m'.jumped :=
  ⟨⟨h.settings, h.cpu, h.memory, h.register?⟩, h.plain, by simp [Machine.jumped, h.counters],
    h.known⟩

theorem loaded (h : m.AgreesOn S m') (a : Nat) (w : Width) :
    (m.loaded a w).AgreesOn S (m'.loaded a w) :=
  ⟨⟨h.settings, h.cpu, by simp only [Machine.loaded, h.memory], h.register?⟩, h.plain,
    by simp [Machine.loaded, h.counters], h.known⟩

theorem stored (h : m.AgreesOn S m') (a v : Nat) (w : Width) :
    (m.stored a v w).AgreesOn S (m'.stored a v w) :=
  ⟨⟨h.settings, h.cpu, by simp only [Machine.stored, h.memory], h.register?⟩, h.plain,
    by simp [Machine.stored, h.counters], h.known⟩

/-- Writing the same register, which is then the same. -/
theorem setRegister (h : m.AgreesOn S m') (name : String) (v : Nat) (w : Width)
    (status : RegisterStatus) :
    (m.setRegister name v w status).AgreesOn (fun other => other = name ∨ S other)
      (m'.setRegister name v w status) where
  settings := h.settings
  cpu := h.cpu
  memory := h.memory
  plain := h.plain
  counters := h.counters
  register? {other} native := by
    rw [register?_setRegister h.plain', register?_setRegister h.plain, h.register? native]
  known {other} mem := by
    rw [register?_setRegister h.plain', register?_setRegister h.plain]
    split
    · rfl
    · next ne => exact h.known (mem.resolve_left ne)

/-- Both program counters become the same, whatever they were. -/
theorem syncProgramCounter (h : m.AgreesOn S m') (native : Nat) :
    (m.syncProgramCounter native).AgreesOn S (m'.syncProgramCounter native) := by
  unfold Machine.syncProgramCounter
  rw [h.cpu]
  exact (h.setRegister ..).mono .inr

/-- Making the same register undefined. -/
theorem undefineRegister (h : m.AgreesOn S m') {name : String} (w : Width)
    (mem : isTemporary name → S name) :
    (m.undefineRegister name w).AgreesOn S (m'.undefineRegister name w) where
  settings := h.settings
  cpu := h.cpu
  memory := h.memory
  plain := h.plain
  counters := h.counters
  register? {other} native := by
    rw [register?_undefineRegister h.plain', register?_undefineRegister h.plain,
      h.register? native, h.register?_eq mem]
  known {other} mem' := by
    rw [register?_undefineRegister h.plain', register?_undefineRegister h.plain, h.known mem',
      h.register?_eq mem]

/-! ## Operands -/

/-- An operand that names nothing unknown reads the same. -/
theorem source (h : m.AgreesOn S m') {o : Operand}
    (mem : ∀ {name}, o.kind = .register name → isTemporary name → S name) (place : Address) :
    m'.source place o = m.source place o :=
  source_congr (congrArg _ h.settings) (fun _ e => value?_congr (h.register?_eq (mem e))) place

/-- What an instruction reads is the same. -/
theorem sources (h : m.AgreesOn S m') (reads : i.ReadsIn S) : m.SourcesAgree m' i :=
  fun slot used => h.source (fun kind => reads ⟨slot, used, Operand.eq_register kind⟩) i.address

/-! ## Instructions -/

/-- Two results of an instruction: the same, and whatever it wrote is the same too. -/
structure Alike (S : String → Prop) (i : Instruction)
    (r r' : Except (Fault Address) Flow × Machine) : Prop where
  flow : r'.1 = r.1
  agree : r.2.AgreesOn S r'.2
  wrote : ∀ {flow}, r.1 = .ok flow → ∀ {name w}, i.Writes name w →
    r'.2.register? name = r.2.register? name

/-- Machines that agree are left in agreement by the same fault. -/
theorem alike_error (h : m.AgreesOn S m') (f : Fault Address) :
    Alike S i (.error f, m) (.error f, m') :=
  ⟨rfl, h, nofun⟩

/-- An instruction that writes no register leaves nothing to compare but the machines. -/
theorem alike_idle (h : m.AgreesOn S m') (idle : ¬ i.opcode.writesRegister)
    (r : Except (Fault Address) Flow) : Alike S i (r, m) (r, m') :=
  ⟨rfl, h, fun _ _ _ writes => absurd writes.1 idle⟩

/-- A value written on both sides makes the register that receives it agree. -/
theorem alike_assign (h : m.AgreesOn S m') (v : Nat) :
    Alike S i (m.assign i v) (m'.assign i v) := by
  unfold Machine.assign
  cases destination : i.destination with
  | error f => exact h.alike_error f
  | ok name =>
    have written := h.setRegister name v i.op3.width .defined
    refine ⟨rfl, written.mono .inr, fun _ other w writes => written.known (.inl ?_)⟩
    have kind := kind_of_destination destination
    rw [writes.2] at kind
    cases kind
    rfl

/-- The same result is written on both sides, or none is. -/
theorem alike_assignResult (h : m.AgreesOn S m') (r : Except (Fault Address) Nat) :
    Alike S i (m.assignResult i r) (m'.assignResult i r) := by
  cases r with
  | error f => exact h.alike_error f
  | ok v => exact h.alike_assign v

/-- Loads from the same address find the same number. -/
theorem alike_loadFrom (h : m.AgreesOn S m') (reads : i.ReadsIn S) (load : i.opcode = .ldm) :
    Alike S i (m.loadFrom i) (m'.loadFrom i) := by
  have same := (h.sources reads).first (by rw [load]; rfl)
  cases address : m.source i.address i.op1 with
  | error f =>
    simp only [Machine.loadFrom, same, address]
    exact h.alike_error f
  | ok a =>
    rw [loadFrom_eq address, loadFrom_eq (same.trans address), h.memory]
    exact (h.loaded _ _).alike_assign _

/-- Stores of the same number to the same address leave the same memory. -/
theorem alike_storeTo (h : m.AgreesOn S m') (reads : i.ReadsIn S) (store : i.opcode = .stm) :
    Alike S i (m.proceed (m.storeTo i)) (m'.proceed (m'.storeTo i)) := by
  have value := (h.sources reads).first (by rw [store]; rfl)
  have address := (h.sources reads).third (by rw [store]; rfl)
  unfold Machine.storeTo
  rw [value, address]
  cases m.source i.address i.op1 with
  | error f => exact h.alike_error f
  | ok v =>
    cases m.source i.address i.op3 with
    | error f => exact h.alike_error f
    | ok a => exact (h.stored _ v i.op1.width).alike_idle (by rw [store]; decide) _

/--
A register that becomes undefined keeps its old value, so it has to agree if it is a temporary.
-/
theorem alike_makeUndefined (h : m.AgreesOn S m') (undefines : i.opcode = .undef)
    (native : ∀ {name}, i.op3.kind = .register name → isTemporary name → S name) :
    Alike S i (m.proceed (m.makeUndefined i)) (m'.proceed (m'.makeUndefined i)) := by
  unfold Machine.makeUndefined
  cases destination : i.destination with
  | error f => exact h.alike_error f
  | ok name =>
    have agree := h.undefineRegister i.op3.width (native (kind_of_destination destination))
    exact agree.alike_idle (by rw [undefines]; decide) _

/-- An instruction does the same to machines that agree on what it reads. -/
theorem execute (h : m.AgreesOn S m') (reads : i.ReadsIn S)
    (native : ∀ {name}, i.opcode = .undef → i.op3.kind = .register name → isTemporary name →
      S name) (p : Program) :
    Alike S i (m.execute p i) (m'.execute p i) := by
  have sources := h.sources reads
  unfold Machine.execute
  cases opcode : i.opcode with
  | add | sub | mul | div | mod | bsh | and | or | xor =>
    dsimp only
    rw [sources.combine (by rw [opcode]; rfl)]
    exact h.alike_assignResult _
  | bisz | str =>
    dsimp only
    rw [sources.first (by rw [opcode]; rfl)]
    exact h.alike_assignResult _
  | jcc =>
    dsimp only
    rw [sources.branch opcode]
    exact h.alike_idle (by rw [opcode]; decide) _
  | ldm => exact h.alike_loadFrom reads opcode
  | stm => exact h.alike_storeTo reads opcode
  | undef => exact h.alike_makeUndefined opcode (native opcode)
  | nop | halt => exact h.alike_idle (by rw [opcode]; decide) _
  | unkn =>
    dsimp only
    rw [h.settings]
    split
    · exact h.alike_error _
    · exact h.alike_idle (by rw [opcode]; decide) _

end AgreesOn

end Machine

/-! ## Runs -/

/-- Two runs at the same point whose machines agree. -/
structure Run.AgreesOn {σ : Type} (S : String → Prop) (r r' : Run σ) : Prop where
  progress : r'.progress = r.progress
  watch : r'.watch = r.watch
  machine : r.machine.AgreesOn S r'.machine

namespace Run.AgreesOn

variable {σ : Type} {o : Observer σ} {p : Program} {S : String → Prop} {r r' : Run σ}
  {pc : Address} {i : Instruction}

/-- Runs that agree on some registers agree on fewer of them. -/
theorem mono {T : String → Prop} (h : r.AgreesOn S r') (fewer : ∀ {name}, T name → S name) :
    r.AgreesOn T r' :=
  ⟨h.progress, h.watch, h.machine.mono fewer⟩

/-- Both runs follow the same flow. -/
theorem follow {m m' : Machine} (h : m.AgreesOn S m') (w : σ) (flow : Flow) :
    (Run.follow p pc m w flow).AgreesOn S (Run.follow p pc m' w flow) := by
  cases flow with
  | halt => exact ⟨rfl, rfl, h⟩
  | jump t => exact ⟨rfl, rfl, h.jumped⟩
  | next =>
    unfold Run.follow
    dsimp only
    split <;> exact ⟨rfl, rfl, h⟩

/-- Both observers are told the same at the end. -/
theorem conclude (h : r.AgreesOn S r') : (r.conclude o).AgreesOn S (r'.conclude o) := by
  have ended : r'.isOver = r.isOver := by simp only [Run.isOver, h.progress]
  unfold Run.conclude
  rw [ended]
  split
  · exact ⟨h.progress, by rw [h.machine.counters, h.watch], h.machine⟩
  · exact h

/-- What an instruction wrote in both runs, if they went on, is the same. -/
theorem perform {m m' : Machine} (h : m.AgreesOn S m') (reads : i.ReadsIn S)
    (native : ∀ {name}, i.opcode = .undef → i.op3.kind = .register name → isTemporary name →
      S name) (w : σ) :
    ∃ T : String → Prop, (Run.perform p pc i m w).AgreesOn T (Run.perform p pc i m' w) ∧
      (∀ {name}, S name → T name) ∧
      ∀ {pc'}, (Run.perform p pc i m w).progress = .running pc' →
        ∀ {name v}, i.Writes name v → T name := by
  have alike := (h.syncProgramCounter pc.native).execute reads native p
  unfold Run.perform
  cases left : (m.syncProgramCounter pc.native).execute p i with
  | mk result k =>
    cases right : (m'.syncProgramCounter pc.native).execute p i with
    | mk result' k' =>
      rw [left, right] at alike
      obtain ⟨flow, agree, wrote⟩ := alike
      dsimp only at flow agree
      subst flow
      cases result' with
      | error f => exact ⟨S, ⟨rfl, rfl, agree⟩, fun mem => mem, nofun⟩
      | ok flow =>
        -- behind the instruction, what it wrote is known to be the same on both sides
        let T := fun name => S name ∨ ∃ v, i.Writes name v
        have more : k.AgreesOn T k' := { agree with
          known := fun mem => mem.elim (fun mem => agree.known mem) fun ⟨_, writes⟩ =>
            wrote rfl writes }
        exact ⟨T, follow more.counted w flow, .inl, fun _ _ v writes => .inr ⟨v, writes⟩⟩

/-- A turn from an instruction that reads nothing unknown. -/
theorem step (h : r.AgreesOn S r') (running : r.progress = .running pc)
    (found : p.get? pc = some i) (reads : i.ReadsIn S)
    (native : ∀ {name}, i.opcode = .undef → i.op3.kind = .register name → isTemporary name →
      S name) :
    ∃ T : String → Prop, (r.step o p).AgreesOn T (r'.step o p) ∧ (∀ {name}, S name → T name) ∧
      ∀ {pc'}, (r.step o p).progress = .running pc' → ∀ {name v}, i.Writes name v → T name := by
  unfold Run.step
  rw [h.progress, running]
  unfold Run.turn
  dsimp only
  rw [found, h.watch, h.machine.settings, h.machine.counters]
  dsimp only
  split
  · exact ⟨S, ⟨rfl, rfl, h.machine⟩, fun mem => mem, nofun⟩
  · split
    · exact ⟨S, ⟨rfl, rfl, h.machine⟩, fun mem => mem, nofun⟩
    · exact perform h.machine reads native _

/-- A turn of runs that are over, or off the program. -/
theorem step_off (h : r.AgreesOn S r')
    (off : ∀ {pc}, r.progress = .running pc → p.get? pc = none) :
    (r.step o p).AgreesOn S (r'.step o p) := by
  unfold Run.step
  rw [h.progress]
  cases running : r.progress with
  | running pc =>
    unfold Run.turn
    dsimp only
    rw [off running]
    exact ⟨rfl, h.watch, h.machine⟩
  | finished | failed => exact h

end Run.AgreesOn

namespace Program.Tiled

variable {p : Program} {C : List Instruction → Prop} {σ : Type} {o : Observer σ} {r r' : Run σ}
  {native : Nat}

/-- The registers that were written at the offsets visited. -/
def Written (code : List Instruction) (visited : List Nat) (name : String) : Prop :=
  ∃ j ∈ visited, ∃ i w, code[j]? = some i ∧ i.Writes name w

/-- Code whose temporaries are read where they are written, and undefined nowhere. -/
structure SelfContained (code : List Instruction) : Prop where
  dominated : Dominated code
  defined : ∀ {i name}, i ∈ code → i.opcode = .undef → i.op3.kind = .register name →
    isTemporary name = false

/-- Runs that differ in temporaries only go on differing in temporaries only. -/
theorem independent (tiled : p.Tiled SelfContained) (alike : r.AgreesOn (fun _ => False) r')
    (start : r.progress = .running (.ofNative native)) (n : Nat) :
    (Run.advance o p n r).AgreesOn (fun _ => False) (Run.advance o p n r') := by
  -- at every turn the runs also agree on what was written since control entered its code
  suffices everywhere : ∃ S : String → Prop,
      (Run.advance o p n r).AgreesOn S (Run.advance o p n r') ∧
      ∀ {pc}, (Run.advance o p n r).progress = .running pc → p.contains pc →
        ∃ code visited, Visit p SelfContained code visited pc ∧
          ∀ {name}, Written code visited name → S name by
    obtain ⟨S, agree, -⟩ := everywhere
    exact agree.mono nofun
  induction n with
  | zero =>
    refine ⟨fun _ => False, alike, fun {pc} running there => ?_⟩
    have e : r.progress = .running pc := running
    rw [start] at e
    cases e
    obtain ⟨code, visit⟩ := tiled.enter native there
    refine ⟨code, [], visit, fun written => ?_⟩
    obtain ⟨j, mem, -⟩ := written
    cases mem
  | succ n ih =>
    rw [← Run.step_advance, ← Run.step_advance]
    obtain ⟨S, agree, inside⟩ := ih
    by_cases there : ∃ pc, (Run.advance o p n r).progress = .running pc ∧ p.contains pc
    · obtain ⟨pc, running, there⟩ := there
      obtain ⟨code, visited, visit, known⟩ := inside running there
      obtain ⟨i, found⟩ := SortedMap.contains_iff.1 there
      have at_pc : code[pc.offset]? = some i := visit.get?.symm.trans found
      have reads : i.ReadsIn S := by
        intro name w reads temporary
        obtain ⟨j, mem, i', at_j, writes⟩ :=
          visit.tile.dominated visit.path at_pc temporary reads
        exact known ⟨j, mem, i', w, at_j, writes⟩
      obtain ⟨T, agree', more, wrote⟩ := agree.step (o := o) running found reads
        fun {name} undefines named temporary => by
          rw [visit.tile.defined (List.mem_of_getElem? at_pc) undefines named] at temporary
          cases temporary
      refine ⟨T, agree', fun {pc'} next _ => ?_⟩
      rcases tiled.onward visit running next with ⟨-, along⟩ | ⟨code', anew⟩
      · refine ⟨code, pc.offset :: visited, along, fun {name} written => ?_⟩
        obtain ⟨j, mem, i', w, at_j, writes⟩ := written
        rcases List.mem_cons.1 mem with rfl | mem
        · rw [at_pc] at at_j
          cases at_j
          exact wrote next writes
        · exact more (known ⟨j, mem, i', w, at_j, writes⟩)
      · refine ⟨code', [], anew, fun written => ?_⟩
        obtain ⟨j, mem, -⟩ := written
        cases mem
    · refine ⟨S, agree.step_off fun {pc} running => ?_, fun {pc'} next => ?_⟩
      · cases found : p.get? pc with
        | none => rfl
        | some i => exact absurd ⟨pc, running, SortedMap.contains_iff.2 ⟨i, found⟩⟩ there
      · obtain ⟨pc, running⟩ := Run.running_of_step next
        exact absurd ⟨pc, running, (Run.contains_of_step running next).1⟩ there

end Program.Tiled

end RegisterTransfer
