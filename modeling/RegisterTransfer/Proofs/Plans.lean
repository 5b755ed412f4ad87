import RegisterTransfer.Proofs.ControlPaths

/-!
# Plans

An instruction first decides where control goes and what is to be done to the machine, and then it
is done. Deciding only reads: the operands, the memory, and what the settings say of unknown
instructions. What is done is a list of effects of four kinds, and an effect decides nothing.

So two machines that differ where an instruction does not look plan the same, and whatever every
effect preserves is preserved by every instruction.

> `Machine.execute_eq_plan`: an instruction does what it plans.
> `Machine.plan_congr`: a plan depends on the operands that are read, on memory and on one setting.
> `Run.turn_off`, `Run.turn_spent`, `Run.turn_consult`: the three ways a turn begins.
-/

namespace RegisterTransfer

/-- A change that an instruction makes to a machine. -/
inductive Effect where
  | write (name : String) (value : Nat) (width : Width)
  | undefine (name : String) (width : Width)
  | load (a : Nat) (width : Width)
  | store (a value : Nat) (width : Width)

/-- Where an instruction sends control, and what it does to the machine. -/
structure Plan where
  result : Except (Fault Address) Flow
  effects : List Effect

namespace Plan

/-- To fail with the machine as it is. -/
def fail (f : Fault Address) : Plan := ⟨.error f, []⟩

/-- To do something and go on. -/
def go (effects : List Effect) : Plan := ⟨.ok .next, effects⟩

/-- To go by a value, if there is one. -/
def after {α : Type} (x : Except (Fault Address) α) (next : α → Plan) : Plan :=
  match x with
  | .error f => fail f
  | .ok a => next a

end Plan

/-- To give the destination a value. -/
def Instruction.deliver (i : Instruction) (value : Nat) : Plan :=
  .after i.destination fun name => .go [.write name value i.op3.width]

namespace Machine

/-- The machine after an effect. -/
def enact (m : Machine) : Effect → Machine
  | .write name value width => m.setRegister name value width .defined
  | .undefine name width => m.undefineRegister name width
  | .load a width => m.loaded a width
  | .store a value width => m.stored a value width

/-- To read memory and deliver what was found. The read counts even where this cannot be delivered. -/
def fetch (m : Machine) (i : Instruction) (a : Nat) : Plan :=
  let plan := i.deliver (m.memory.load a i.op3.width)
  ⟨plan.result, .load a i.op3.width :: plan.effects⟩

/-- What an instruction decides. -/
def plan (m : Machine) (p : Program) (i : Instruction) : Plan :=
  match i.opcode with
  | .add | .sub | .mul | .div | .mod | .bsh | .and | .or | .xor => .after (m.combine i) i.deliver
  | .bisz => .after (m.source i.address i.op1) fun v => i.deliver (if v = 0 then 1 else 0)
  | .str => .after (m.source i.address i.op1) i.deliver
  | .jcc => .after (m.branch p i) fun flow => ⟨.ok flow, []⟩
  | .ldm => .after (m.source i.address i.op1) fun a => m.fetch i (Width.qword.truncate a)
  | .stm =>
    .after (m.source i.address i.op1) fun v =>
      .after (m.source i.address i.op3) fun a =>
        .go [.store (Width.qword.truncate a) v i.op1.width]
  | .undef => .after i.destination fun name => .go [.undefine name i.op3.width]
  | .nop => .go []
  | .unkn =>
    match m.settings.unknownOpcodes with
    | .fail => .fail (.unsupportedOpcode i.opcode.mnemonic i.address)
    | .skip => .go []
  | .halt => ⟨.ok .halt, []⟩

/-! ## Instructions do what they plan -/

/-- What a plan comes to on a machine. -/
def realize (m : Machine) (plan : Plan) : Except (Fault Address) Flow × Machine :=
  (plan.result, plan.effects.foldl enact m)

variable {m m' : Machine} {p : Program} {i : Instruction}

/-- To write a value is to realize a plan with one effect. -/
theorem assign_eq (m : Machine) (i : Instruction) (v : Nat) :
    m.assign i v = m.realize (i.deliver v) := by
  unfold assign Instruction.deliver
  cases i.destination with
  | error f => rfl
  | ok name => rfl

/-- A result that is not there is a plan to fail. -/
theorem assignResult_eq (m : Machine) (i : Instruction) (x : Except (Fault Address) Nat) :
    m.assignResult i x = m.realize (.after x i.deliver) := by
  cases x with
  | error f => rfl
  | ok v => exact m.assign_eq i v

/-- A load reads its address, and then fetches what is there. -/
theorem loadFrom_eq_fetch (m : Machine) (i : Instruction) :
    m.loadFrom i = m.realize
      (.after (m.source i.address i.op1) fun a => m.fetch i (Width.qword.truncate a)) := by
  cases address : m.source i.address i.op1 with
  | error f =>
    rw [loadFrom, address]
    rfl
  | ok a =>
    rw [loadFrom_eq address, assign_eq]
    rfl

/-- An instruction does what it plans. -/
theorem execute_eq_plan (m : Machine) (p : Program) (i : Instruction) :
    m.execute p i = m.realize (m.plan p i) := by
  unfold execute plan
  cases opcode : i.opcode with
  | add | sub | mul | div | mod | bsh | and | or | xor | str => exact assignResult_eq ..
  | bisz =>
    refine (assignResult_eq ..).trans ?_
    cases m.source i.address i.op1 <;> rfl
  | jcc =>
    dsimp only
    cases m.branch p i <;> rfl
  | ldm => exact m.loadFrom_eq_fetch i
  | stm =>
    dsimp only [storeTo]
    cases m.source i.address i.op1 with
    | error f => rfl
    | ok v => cases m.source i.address i.op3 <;> rfl
  | undef =>
    dsimp only [makeUndefined]
    cases i.destination <;> rfl
  | nop | halt => rfl
  | unkn =>
    dsimp only
    cases m.settings.unknownOpcodes <;> rfl

/-! ## Plans of machines that look alike -/

/-- The operands that an instruction reads have the same values. -/
def SourcesAgree (m m' : Machine) (i : Instruction) : Prop :=
  ∀ slot, i.opcode.reads slot →
    m'.source i.address (i.operand slot) = m.source i.address (i.operand slot)

namespace SourcesAgree

theorem first (h : m.SourcesAgree m' i) (reads : i.opcode.reads .first) :
    m'.source i.address i.op1 = m.source i.address i.op1 := h .first reads

theorem third (h : m.SourcesAgree m' i) (reads : i.opcode.reads .third) :
    m'.source i.address i.op3 = m.source i.address i.op3 := h .third reads

/-- Sources that agree combine alike. -/
theorem combine (h : m.SourcesAgree m' i) (two : i.opcode.combines) :
    m'.combine i = m.combine i := by
  have first : m'.source i.address i.op1 = m.source i.address i.op1 := by
    refine h.first ?_
    cases opcode : i.opcode <;> first | rfl | (rw [opcode] at two; cases two)
  have second : m'.source i.address i.op2 = m.source i.address i.op2 := h .second two
  rw [Machine.combine, Machine.combine, first, second]

/-- A jump whose condition and target agree goes the same way. -/
theorem branch (h : m.SourcesAgree m' i) (jump : i.opcode = .jcc) (p : Program) :
    m'.branch p i = m.branch p i := by
  have condition := h.first (by rw [jump]; rfl)
  have number := h.third (by rw [jump]; rfl)
  have target : m'.target i.address i.op3 = m.target i.address i.op3 := by
    unfold target
    rw [number]
  rw [Machine.branch, Machine.branch, condition, target]

end SourcesAgree

/-- Machines that an instruction cannot tell apart get the same plan. -/
theorem plan_congr (sources : m.SourcesAgree m' i) (memory : m'.memory = m.memory)
    (unknown : m'.settings.unknownOpcodes = m.settings.unknownOpcodes) (p : Program) :
    m'.plan p i = m.plan p i := by
  unfold plan
  cases opcode : i.opcode with
  | add | sub | mul | div | mod | bsh | and | or | xor =>
    dsimp only
    rw [sources.combine (by rw [opcode]; rfl)]
  | bisz | str =>
    dsimp only
    rw [sources.first (by rw [opcode]; rfl)]
  | jcc =>
    dsimp only
    rw [sources.branch opcode]
  | ldm =>
    dsimp only [fetch]
    rw [sources.first (by rw [opcode]; rfl), memory]
  | stm =>
    dsimp only
    rw [sources.first (by rw [opcode]; rfl), sources.third (by rw [opcode]; rfl)]
  | unkn =>
    dsimp only
    rw [unknown]
  | undef | nop | halt => rfl

/-! ## The parts of a turn -/

/-- The step limit of a machine, if it is used up. -/
def spent? (m : Machine) : Option Nat :=
  m.settings.stepLimit.filter (· ≤ m.counters.executed)

end Machine

namespace Run

variable {σ : Type} {o : Observer σ} {p : Program} {pc : Address} {i : Instruction} {m : Machine}
  {w : σ}

/-- Asks the observer, and performs the instruction unless it is refused. -/
def consult (o : Observer σ) (p : Program) (pc : Address) (i : Instruction) (m : Machine) (w : σ) :
    Run σ :=
  match o.next i w with
  | (.error f, watch) => ⟨m, watch, .failed f⟩
  | (.ok (), watch) => perform p pc i m watch

/-- Off the program a run is over. -/
theorem turn_off (nothing : p.get? pc = none) : turn o p pc m w = ⟨m, w, .finished⟩ := by
  rw [turn, nothing]

/-- At the step limit a run fails before the observer is asked. -/
theorem turn_spent (found : p.get? pc = some i) {limit : Nat} (spent : m.spent? = some limit) :
    turn o p pc m w = ⟨m, w, .failed (.stepLimitExceeded limit)⟩ := by
  unfold Machine.spent? at spent
  rw [turn, found]
  dsimp only
  rw [spent]

/-- A turn that is within the step limit asks the observer. -/
theorem turn_consult (found : p.get? pc = some i) (free : m.spent? = none) :
    turn o p pc m w = consult o p pc i m w := by
  unfold Machine.spent? at free
  rw [turn, found]
  dsimp only
  rw [free]
  rfl

end Run

end RegisterTransfer
