import RegisterTransfer.Proofs.Journey

/-!
# What instructions and turns can do

The effects of one instruction and of one turn of a run, each said once. Nothing here looks at the
opcode again: what holds of every effect holds of every instruction.

> `Machine.executes`: the effects of an instruction.
> `Machine.Executes.register?_eq`: whatever it does not change stays.
> `Run.steps`: the effects of a turn, under any observer.
> `Run.turns`: a turn executes one instruction, or nothing.
> `failed_instruction_is_atomic`: an instruction that fails has done nothing, unless it is a load that
> strands.
-/

namespace RegisterTransfer

/-! ## Effects of an instruction -/

/-- A load without a register to load to. -/
def Instruction.Stranded (i : Instruction) : Prop := i.opcode = .ldm ∧ i.op3.register? = none

instance (i : Instruction) : Decidable i.Stranded := inferInstanceAs (Decidable (_ ∧ _))

/-- The instruction may change the contents of a register. -/
def Instruction.Changes (i : Instruction) (name : String) : Prop :=
  (i.opcode.writesRegister ∨ i.opcode = .undef) ∧ i.op3.kind = .register name

/-- Where control goes after an instruction, and the machine it leaves. -/
inductive Machine.Executes (m : Machine) (p : Program) (i : Instruction) :
    Except (Fault Address) Flow → Machine → Prop
  | refused {f} : Executes m p i (.error f) m
  | stranded {a} (nowhere : i.Stranded) (address : m.source i.address i.op1 = .ok a) :
    Executes m p i (.error (.invalidOperand i.address (.noDestination .ldm)))
      (m.loaded (Width.qword.truncate a) i.op3.width)
  | wrote {name v m'} (writes : i.opcode.writesRegister) (destination : i.op3.kind = .register name)
    (found : m.outcome i = .ok (v, m')) :
    Executes m p i (.ok .next) (m'.setRegister name v i.op3.width .defined)
  | stored {a v} (store : i.opcode = .stm) :
    Executes m p i (.ok .next) (m.stored a v i.op1.width)
  | undefined {name} (undefines : i.opcode = .undef) (destination : i.op3.kind = .register name) :
    Executes m p i (.ok .next) (m.undefineRegister name i.op3.width)
  | passed (idle : i.opcode = .jcc ∨ i.opcode = .nop ∨ i.opcode = .unkn) :
    Executes m p i (.ok .next) m
  | jumped {t} (jump : i.opcode = .jcc) (taken : m.route i = .ok (some t)) (mapped : p.contains t) :
    Executes m p i (.ok (.jump t)) m
  | halted (halt : i.opcode = .halt) : Executes m p i (.ok .halt) m

namespace Machine

variable {m m' : Machine} {p : Program} {i : Instruction}

/-- A destination is the register in the third operand. -/
theorem kind_of_destination {name : String} (h : i.destination = .ok name) :
    i.op3.kind = .register name := by
  unfold Instruction.destination Operand.register? at h
  cases kind : i.op3.kind with
  | register other =>
    rw [kind] at h
    cases h
    rfl
  | absent | integer v | address t =>
    rw [kind] at h
    cases h

theorem register?_of_destination {f : Fault Address} (h : i.destination = .error f) :
    i.op3.register? = none ∧ f = .invalidOperand i.address (.noDestination i.opcode) := by
  unfold Instruction.destination at h
  split at h
  · cases h
  · next nowhere =>
    cases h
    exact ⟨nowhere, rfl⟩

/-- An instruction that computes its value before it looks for its destination. -/
theorem executes_assignResult {r : Except (Fault Address) Nat} (writes : i.opcode.writesRegister)
    (found : ∀ v, r = .ok v → m.outcome i = .ok (v, m)) :
    m.Executes p i (m.assignResult i r).1 (m.assignResult i r).2 := by
  cases r with
  | error f => exact .refused
  | ok v =>
    unfold assignResult assign
    cases destination : i.destination with
    | error f => exact .refused
    | ok name => exact .wrote writes (kind_of_destination destination) (found v rfl)

/-- A load reads memory before it finds whether it has a destination. -/
theorem executes_loadFrom (load : i.opcode = .ldm) :
    m.Executes p i (m.loadFrom i).1 (m.loadFrom i).2 := by
  cases address : m.source i.address i.op1 with
  | error f =>
    unfold loadFrom
    rw [address]
    exact .refused
  | ok a =>
    rw [loadFrom_eq address, assign]
    cases destination : i.destination with
    | error f =>
      obtain ⟨nowhere, rfl⟩ := register?_of_destination destination
      rw [load]
      exact .stranded ⟨load, nowhere⟩ address
    | ok name =>
      refine .wrote (by rw [load]; rfl) (kind_of_destination destination) ?_
      simp only [outcome, load, address]
      rfl

/-- A store changes memory once both of its operands are read. -/
theorem executes_storeTo (store : i.opcode = .stm) :
    m.Executes p i (m.proceed (m.storeTo i)).1 (m.proceed (m.storeTo i)).2 := by
  unfold storeTo
  cases m.source i.address i.op1 with
  | error f => exact .refused
  | ok v =>
    cases m.source i.address i.op3 with
    | error f => exact .refused
    | ok a => exact .stored store

theorem executes_makeUndefined (undefines : i.opcode = .undef) :
    m.Executes p i (m.proceed (m.makeUndefined i)).1 (m.proceed (m.makeUndefined i)).2 := by
  unfold makeUndefined
  cases destination : i.destination with
  | error f => exact .refused
  | ok name => exact .undefined undefines (kind_of_destination destination)

theorem executes_branch (jump : i.opcode = .jcc) : m.Executes p i (m.branch p i) m := by
  rw [branch_eq]
  cases taken : m.route i with
  | error f => exact .refused
  | ok target =>
    cases target with
    | none => exact .passed (.inl jump)
    | some t =>
      dsimp only
      split
      · next mapped => exact .jumped jump taken mapped
      · exact .refused

/-- The effects of an instruction. -/
theorem executes (m : Machine) (p : Program) (i : Instruction) :
    m.Executes p i (m.execute p i).1 (m.execute p i).2 := by
  have combined : i.opcode.writesRegister → m.outcome i = (m.combine i).map (·, m) →
      m.Executes p i (m.assignResult i (m.combine i)).1 (m.assignResult i (m.combine i)).2 := by
    intro writes outcome
    refine executes_assignResult writes fun v found => ?_
    rw [outcome, found]
    rfl
  unfold execute
  cases opcode : i.opcode with
  | add | sub | mul | div | mod | bsh | and | or | xor =>
    exact combined (by rw [opcode]; rfl) (by rw [outcome, opcode])
  | bisz =>
    refine executes_assignResult (by rw [opcode]; rfl) fun v found => ?_
    rw [outcome, opcode]
    cases read : m.source i.address i.op1 with
    | error f =>
      rw [read] at found
      cases found
    | ok u =>
      rw [read] at found
      cases found
      rfl
  | str =>
    refine executes_assignResult (by rw [opcode]; rfl) fun v found => ?_
    rw [outcome, opcode, found]
    rfl
  | jcc => exact executes_branch opcode
  | ldm => exact executes_loadFrom opcode
  | stm => exact executes_storeTo opcode
  | undef => exact executes_makeUndefined opcode
  | nop => exact .passed (.inr (.inl opcode))
  | unkn =>
    dsimp only
    split
    · exact .refused
    · exact .passed (.inr (.inr opcode))
  | halt => exact .halted opcode

/-- A mapped result comes from a result. -/
theorem ok_of_map {ε α β : Type} {r : Except ε α} {f : α → β} {b : β} (h : r.map f = .ok b) :
    ∃ a, r = .ok a ∧ f a = b := by
  cases r with
  | error e => cases h
  | ok a =>
    cases h
    exact ⟨a, rfl, rfl⟩

/-- An instruction that has a value leaves the registers alone until it writes it. -/
theorem registers_of_outcome {v : Nat} (found : m.outcome i = .ok (v, m')) :
    m'.registers = m.registers ∧ m'.cpu = m.cpu := by
  unfold outcome at found
  split at found
  all_goals
    obtain ⟨u, -, same⟩ := ok_of_map found
    cases same
    exact ⟨rfl, rfl⟩

/-- No instruction changes the processor. -/
theorem Executes.cpu {result : Except (Fault Address) Flow} (h : m.Executes p i result m') :
    m'.cpu = m.cpu := by
  cases h with
  | wrote _ _ found => exact (registers_of_outcome found).2
  | refused | stranded | stored | undefined | passed | jumped | halted => rfl

/-- A failing instruction changes no register. -/
theorem Executes.register?_of_error {f : Fault Address} (h : m.Executes p i (.error f) m')
    (name : String) : m'.register? name = m.register? name := by
  cases h <;> rfl

/-- What an instruction writes is its outcome, and control goes on to the next instruction. -/
theorem Executes.value?_written {flow : Flow} (h : m.Executes p i (.ok flow) m')
    (plain : m.cpu.Plain) (writes : i.opcode.writesRegister) {name : String}
    (target : i.op3.kind = .register name) :
    flow = .next ∧ ∃ v k, m.outcome i = .ok (v, k) ∧
      m'.value? name = some (i.op3.width.truncate v) := by
  cases h with
  | @wrote other v k _ destination found =>
    rw [target] at destination
    cases destination
    have plain' : k.cpu.Plain := (registers_of_outcome found).2 ▸ plain
    refine ⟨rfl, v, k, found, ?_⟩
    simp only [value?, register?_setRegister plain', if_true]
    rfl
  | stored opcode | undefined opcode | jumped opcode | halted opcode =>
    rw [opcode] at writes
    cases writes
  | passed opcode => rcases opcode with opcode | opcode | opcode <;> rw [opcode] at writes <;> cases writes

/-- What an instruction does not change keeps its contents. -/
theorem Executes.register?_eq {result : Except (Fault Address) Flow} (h : m.Executes p i result m')
    (plain : m.cpu.Plain) {name : String} (kept : ¬ i.Changes name) :
    m'.register? name = m.register? name := by
  cases h with
  | @wrote other v k writes destination found =>
    obtain ⟨registers, processor⟩ := registers_of_outcome found
    have ne : name ≠ other := fun same => kept ⟨.inl writes, same ▸ destination⟩
    rw [register?_setRegister (processor ▸ plain), if_neg ne]
    simp only [register?, registers, processor]
  | @undefined other undefines destination =>
    have ne : name ≠ other := fun same => kept ⟨.inr undefines, same ▸ destination⟩
    rw [register?_undefineRegister plain, if_neg ne]
  | refused | stranded | stored | passed | jumped | halted => rfl

end Machine

/-! ## Effects of a turn -/

/-- What one more turn does to a run. -/
inductive Run.Steps {σ : Type} (p : Program) (r : Run σ) : Run σ → Prop
  | ended (h : r.isOver) : Steps p r r
  | off {pc} (running : r.progress = .running pc) (nothing : p.get? pc = none) :
    Steps p r ⟨r.machine, r.watch, .finished⟩
  /-- The step limit or the observer stopped the run before the instruction. -/
  | stopped {pc i f w} (running : r.progress = .running pc) (found : p.get? pc = some i) :
    Steps p r ⟨r.machine, w, .failed f⟩
  | failed {pc i f m w} (running : r.progress = .running pc) (found : p.get? pc = some i)
    (executed : (r.machine.syncProgramCounter pc.native).execute p i = (.error f, m)) :
    Steps p r ⟨m, w, .failed f⟩
  | fell {pc i next m w} (running : r.progress = .running pc) (found : p.get? pc = some i)
    (executed : (r.machine.syncProgramCounter pc.native).execute p i = (.ok .next, m))
    (onward : p.next? pc = some next) : Steps p r ⟨m.counted, w, .running next⟩
  | exhausted {pc i m w} (running : r.progress = .running pc) (found : p.get? pc = some i)
    (executed : (r.machine.syncProgramCounter pc.native).execute p i = (.ok .next, m))
    (last : p.next? pc = none) : Steps p r ⟨m.counted, w, .finished⟩
  | jumped {pc i t m w} (running : r.progress = .running pc) (found : p.get? pc = some i)
    (executed : (r.machine.syncProgramCounter pc.native).execute p i = (.ok (.jump t), m)) :
    Steps p r ⟨m.counted.jumped, w, .running t⟩
  | halted {pc i m w} (running : r.progress = .running pc) (found : p.get? pc = some i)
    (executed : (r.machine.syncProgramCounter pc.native).execute p i = (.ok .halt, m)) :
    Steps p r ⟨m.counted, w, .finished⟩

namespace Run

variable {σ : Type}

/-- Performing the instruction at the program counter is one way for a run to take a turn. -/
theorem steps_perform {p : Program} {r : Run σ} {pc : Address} {i : Instruction}
    (running : r.progress = .running pc) (found : p.get? pc = some i) (w : σ) :
    Steps p r (perform p pc i r.machine w) := by
  unfold perform
  cases executed : (r.machine.syncProgramCounter pc.native).execute p i with
  | mk result m =>
    cases result with
    | error f => exact .failed running found executed
    | ok flow =>
      cases flow with
      | halt => exact .halted running found executed
      | jump t => exact .jumped running found executed
      | next =>
        dsimp only
        unfold follow
        dsimp only
        split
        · next next onward => exact .fell running found executed onward
        · next last => exact .exhausted running found executed last

/-- The effects of a turn. -/
theorem steps (o : Observer σ) (p : Program) (r : Run σ) : Steps p r (r.step o p) := by
  unfold step
  split
  · next pc running =>
    unfold turn
    split
    · next nothing => exact .off running nothing
    · next i found =>
      split
      · exact .stopped running found
      · split
        · exact .stopped running found
        · exact steps_perform running found _
  · next ended =>
    refine .ended ?_
    unfold isOver
    split
    · next running => exact absurd running (ended _)
    · rfl

/-- What a turn does, as far as the instruction it executes is concerned. -/
inductive Turns (p : Program) (r : Run σ) : Run σ → Prop
  | ended (h : r.isOver) : Turns p r r
  | off {pc} (running : r.progress = .running pc) (nothing : p.get? pc = none) :
    Turns p r ⟨r.machine, r.watch, .finished⟩
  | stopped {pc i f w} (running : r.progress = .running pc) (found : p.get? pc = some i) :
    Turns p r ⟨r.machine, w, .failed f⟩
  | failed {pc i f m w} (running : r.progress = .running pc) (found : p.get? pc = some i)
    (executes : (r.machine.syncProgramCounter pc.native).Executes p i (.error f) m) :
    Turns p r ⟨m, w, .failed f⟩
  | went {pc i flow m w} (running : r.progress = .running pc) (found : p.get? pc = some i)
    (executes : (r.machine.syncProgramCounter pc.native).Executes p i (.ok flow) m) :
    Turns p r (follow p pc m.counted w flow)

/-- Every turn of a run is one of the kinds above. -/
theorem turns (o : Observer σ) (p : Program) (r : Run σ) : Turns p r (r.step o p) := by
  have executes : ∀ {pc : Address} {i result m},
      (r.machine.syncProgramCounter pc.native).execute p i = (result, m) →
        (r.machine.syncProgramCounter pc.native).Executes p i result m := by
    intro pc i result m executed
    have effect := (r.machine.syncProgramCounter pc.native).executes p i
    rwa [executed] at effect
  have effect := steps o p r
  generalize r.step o p = r' at effect
  cases effect with
  | ended h => exact .ended h
  | off running nothing => exact .off running nothing
  | stopped running found => exact .stopped running found
  | failed running found executed => exact .failed running found (executes executed)
  | @fell pc i next m w running found executed onward =>
    have there : follow p pc m.counted w .next = ⟨m.counted, w, .running next⟩ := by
      simp only [follow, onward]
    exact there ▸ .went running found (executes executed)
  | @exhausted pc i m w running found executed last =>
    have there : follow p pc m.counted w .next = ⟨m.counted, w, .finished⟩ := by
      simp only [follow, last]
    exact there ▸ .went running found (executes executed)
  | @jumped pc i t m w running found executed =>
    have there : follow p pc m.counted w (.jump t) = ⟨m.counted.jumped, w, .running t⟩ := rfl
    exact there ▸ .went running found (executes executed)
  | @halted pc i m w running found executed =>
    have there : follow p pc m.counted w .halt = ⟨m.counted, w, .finished⟩ := rfl
    exact there ▸ .went running found (executes executed)

/-- Where control goes after an instruction is no matter to the registers. -/
theorem register?_follow (p : Program) (pc : Address) (m : Machine) (w : σ) (flow : Flow)
    (name : String) : (follow p pc m w flow).machine.register? name = m.register? name := by
  cases flow with
  | halt | jump t => rfl
  | next =>
    unfold follow
    dsimp only
    split <;> rfl

/-- Where an instruction was completed the turn does not fail. -/
theorem follow_ne_failed (p : Program) (pc : Address) (m : Machine) (w : σ) (flow : Flow)
    (f : Fault Address) : (follow p pc m w flow).progress ≠ .failed f := by
  cases flow with
  | halt | jump t => exact nofun
  | next =>
    unfold follow
    dsimp only
    split <;> exact nofun

/-- A turn changes neither the settings nor the processor. -/
theorem step_setup (o : Observer σ) (p : Program) (r : Run σ) :
    r.machine.SameSetup (r.step o p).machine := by
  have setup : ∀ {native : Nat} {i result m},
      (r.machine.syncProgramCounter native).execute p i = (result, m) → r.machine.SameSetup m := by
    intro native i result m executed
    have kept := (r.machine.syncProgramCounter native).execute_setup p i
    rw [executed] at kept
    exact (r.machine.syncProgramCounter_setup native).trans kept
  have effect := steps o p r
  generalize r.step o p = r' at effect
  cases effect with
  | ended | off | stopped => exact .refl _
  | failed _ _ executed => exact setup executed
  | fell _ _ executed | exhausted _ _ executed | jumped _ _ executed | halted _ _ executed =>
    exact ⟨(setup executed).settings, (setup executed).cpu⟩

/-- Runs keep their settings and stay on their processor. -/
theorem advance_setup (o : Observer σ) (p : Program) (turns : Nat) (r : Run σ) :
    r.machine.SameSetup (advance o p turns r).machine := by
  induction turns generalizing r with
  | zero => exact .refl _
  | succ turns ih =>
    rw [advance_succ]
    exact (step_setup o p r).trans (ih _)

end Run

/-! ## Failure -/

namespace Machine

variable {m m' : Machine} {p : Program} {i : Instruction} {f : Fault Address}

/-- A load that finds its address, and only then that it has no destination. -/
def Strands (m : Machine) (i : Instruction) : Prop :=
  i.Stranded ∧ ∃ a, m.source i.address i.op1 = .ok a

/-- A load that finds its address has an effect: it is counted. -/
theorem loaded_ne (m : Machine) (a : Nat) (w : Width) : m.loaded a w ≠ m := by
  intro same
  have reads : m.counters.reads + 1 = m.counters.reads :=
    congrArg (fun m => m.counters.reads) same
  omega

/-- A load that strands has read the memory. -/
theorem execute_of_stranded {a : Nat} (nowhere : i.Stranded)
    (address : m.source i.address i.op1 = .ok a) :
    m.execute p i = (.error (.invalidOperand i.address (.noDestination .ldm)),
      m.loaded (Width.qword.truncate a) i.op3.width) := by
  obtain ⟨load, nowhere⟩ := nowhere
  have destination : i.destination = .error (.invalidOperand i.address (.noDestination .ldm)) := by
    unfold Instruction.destination
    rw [nowhere, load]
  unfold execute
  rw [load]
  dsimp only
  rw [loadFrom_eq address, assign, destination]

/-- A failing instruction that does not strand leaves the machine as it was. -/
theorem eq_of_not_strands (fails : m.execute p i = (.error f, m')) (safe : ¬ m.Strands i) :
    m' = m := by
  have effect := m.executes p i
  rw [fails] at effect
  cases effect with
  | refused => rfl
  | stranded nowhere address => exact absurd ⟨nowhere, _, address⟩ safe

end Machine

/-- A turn whose instruction fails leaves the machine as the instruction does, or never gets to it. -/
theorem Run.machine_of_failing {σ : Type} {p : Program} {r : Run σ} {pc : Address}
    {i : Instruction} {f : Fault Address} {m' : Machine} (o : Observer σ)
    (running : r.progress = .running pc) (found : p.get? pc = some i)
    (fails : (r.machine.syncProgramCounter pc.native).execute p i = (.error f, m')) :
    (r.step o p).machine = r.machine ∨ (r.step o p).machine = m' := by
  -- there is one instruction at the address, so that the turn meets no other
  have failing : ∀ {pc' : Address} {i' : Instruction}, r.progress = .running pc' →
      p.get? pc' = some i' →
        (r.machine.syncProgramCounter pc'.native).execute p i' = (.error f, m') := by
    intro pc' i' running' found'
    rw [running] at running'
    cases running'
    rw [found] at found'
    cases found'
    exact fails
  have effect := Run.steps o p r
  generalize r.step o p = r' at effect ⊢
  cases effect with
  | ended | off | stopped => exact .inl rfl
  | failed running' found' executed =>
    rw [failing running' found'] at executed
    cases executed
    exact .inr rfl
  | fell running' found' executed | exhausted running' found' executed
  | jumped running' found' executed | halted running' found' executed =>
    rw [failing running' found'] at executed
    cases executed

/--
An instruction that fails leaves the machine as it was exactly if it is no load to nowhere: by the
time such a load finds that it has no destination, it has touched the memory and counted the read. A
turn that executes a failing instruction has brought the program counter up to date before, and does
no more than the instruction does.
-/
theorem failed_instruction_is_atomic {m m' : Machine} {p : Program} {i : Instruction}
    {f : Fault Address} (fails : m.execute p i = (.error f, m')) :
    (m' = m ↔ ¬ m.Strands i) ∧
    (∀ a, i.Stranded → m.source i.address i.op1 = .ok a →
      m' = m.loaded (Width.qword.truncate a) i.op3.width) ∧
    ∀ {σ : Type} (o : Observer σ) {r : Run σ} {pc : Address}, r.progress = .running pc →
      p.get? pc = some i → r.machine.syncProgramCounter pc.native = m →
        (r.step o p).machine = r.machine ∨ (r.step o p).machine = m' := by
  have loads : ∀ a, i.Stranded → m.source i.address i.op1 = .ok a →
      m' = m.loaded (Width.qword.truncate a) i.op3.width := by
    intro a nowhere address
    rw [Machine.execute_of_stranded nowhere address] at fails
    cases fails
    rfl
  refine ⟨⟨fun same strands => ?_, Machine.eq_of_not_strands fails⟩, loads, ?_⟩
  · obtain ⟨nowhere, a, address⟩ := strands
    exact m.loaded_ne _ _ ((loads a nowhere address).symm.trans same)
  · intro σ o r pc running found synced
    exact Run.machine_of_failing o running found (synced.symm ▸ fails)

/-- A division by zero, which fails and changes nothing. -/
def divisionByZero : Instruction :=
  ⟨⟨0x100, 0⟩, .div, .integer 7 .dword, .integer 0 .dword, .register "%r3" .dword, none⟩

/-- The divisor is checked before anything is written. -/
theorem divisionByZero_is_atomic :
    ∃ m', (Machine.start {} PowerPC.cpu).execute ∅ divisionByZero =
      (.error (.divisionByZero ⟨0x100, 0⟩), m') ∧ m' = Machine.start {} PowerPC.cpu := by
  have fails : (Machine.start {} PowerPC.cpu).execute ∅ divisionByZero =
      (.error (.divisionByZero ⟨0x100, 0⟩), Machine.start {} PowerPC.cpu) := rfl
  exact ⟨_, fails, (failed_instruction_is_atomic fails).1.2 fun strands =>
    absurd strands.1 (by decide)⟩

/-- A load of four bytes with a number for its destination. -/
def strandedLoad : Instruction :=
  ⟨⟨0, 0⟩, .ldm, .integer 16 .qword, .absent, .integer 5 .dword, none⟩

/-- A load to nowhere fails, but four bytes of memory are touched and a read is counted. -/
theorem strandedLoad_leaves_traces :
    ∃ m', (Machine.start {} PowerPC.cpu).execute ∅ strandedLoad =
        (.error (.invalidOperand ⟨0, 0⟩ (.noDestination .ldm)), m') ∧
      (Machine.start {} PowerPC.cpu).memory.size = 0 ∧ m'.memory.size = 4 ∧
      (Machine.start {} PowerPC.cpu).counters.reads = 0 ∧ m'.counters.reads = 1 :=
  ⟨_, rfl, rfl, by decide, rfl, rfl⟩

end RegisterTransfer
