import RegisterTransfer.Lifting.Script
import RegisterTransfer.Machine.Run
import RegisterTransfer.Proofs.Registers

/-!
# Journeys

What a script does when its expansion is executed, said on the script itself. A journey is a machine
on its way through the expansion of one native instruction: it performs the instructions as they are
written, skips everything after a jump until the label is bound, and ends when control leaves the
expansion or a fault arises. Whether a jump out of the expansion finds an instruction is not the
journey's business, so no program is mentioned.

> `Script.walk_bind`: the journey through a sequence goes through its parts in turn.
> `Machine.branch_eq`: a jump is its route, checked against the program.
> `Machine.execute_of_ne_jcc`: every other instruction ignores the program.
-/

namespace RegisterTransfer

/-! ## Jumps without a program -/

namespace Machine

/-- Where a conditional jump leads, if it is taken; whether anything is there is not asked. -/
def route (m : Machine) (i : Instruction) : Except (Fault Address) (Option Address) := do
  let condition ← m.source i.address i.op1
  if condition = 0 then
    return none
  return some (← m.target i.address i.op3)

/-- The same machine with one more executed instruction. -/
def counted (m : Machine) : Machine :=
  { m with counters.executed := m.counters.executed + 1 }

/-- The same machine with one more jump taken. -/
def jumped (m : Machine) : Machine := { m with counters.jumps := m.counters.jumps + 1 }

/-- The machine that has read memory. -/
def loaded (m : Machine) (a : Nat) (w : Width) : Machine :=
  { m with memory := (m.memory.read a w).2, counters.reads := m.counters.reads + 1 }

/-- The machine that has written memory. -/
def stored (m : Machine) (a value : Nat) (w : Width) : Machine :=
  { m with memory := m.memory.write a value w, counters.writes := m.counters.writes + 1 }

/-- A jump is its route, checked against the program. -/
theorem branch_eq (m : Machine) (p : Program) (i : Instruction) :
    m.branch p i =
      match m.route i with
      | .error f => .error f
      | .ok none => .ok .next
      | .ok (some t) => if p.contains t then .ok (.jump t) else .error (.unmappedTarget i.address t) := by
  unfold branch route
  cases m.source i.address i.op1 with
  | error f => rfl
  | ok condition =>
    simp only [bind, Except.bind]
    split
    · rfl
    · cases m.target i.address i.op3 with
      | error f => rfl
      | ok t => rfl

/-- Only jumps look at the program. -/
theorem execute_of_ne_jcc {i : Instruction} (h : i.opcode ≠ .jcc) (m : Machine) (p q : Program) :
    m.execute p i = m.execute q i := by
  unfold execute
  split <;> first | rfl | exact absurd ‹_› h

/-- A jump decides where control goes and changes nothing. -/
theorem execute_of_jcc {i : Instruction} (h : i.opcode = .jcc) (m : Machine) (p : Program) :
    m.execute p i = (m.branch p i, m) := by
  rw [execute, h]

/-- The comment of an instruction has no effect. -/
theorem execute_comment (m : Machine) (p : Program) (i : Instruction) (comment : Option String) :
    m.execute p { i with comment } = m.execute p i := rfl

end Machine

/-! ## What never changes -/

/-- Two machines for the same processor under the same settings. -/
structure Machine.SameSetup (m m' : Machine) : Prop where
  settings : m'.settings = m.settings
  cpu : m'.cpu = m.cpu

namespace Machine

variable {m m' : Machine}

theorem SameSetup.refl (m : Machine) : m.SameSetup m := ⟨rfl, rfl⟩

theorem SameSetup.trans {m'' : Machine} (h : m.SameSetup m') (h' : m'.SameSetup m'') :
    m.SameSetup m'' :=
  ⟨h'.settings.trans h.settings, h'.cpu.trans h.cpu⟩

theorem syncProgramCounter_setup (m : Machine) (native : Nat) :
    m.SameSetup (m.syncProgramCounter native) :=
  ⟨rfl, rfl⟩

theorem assign_setup (m : Machine) (i : Instruction) (v : Nat) :
    m.SameSetup (m.assign i v).2 := by
  unfold assign
  split <;> exact ⟨rfl, rfl⟩

theorem assignResult_setup (m : Machine) (i : Instruction) (r : Except (Fault Address) Nat) :
    m.SameSetup (m.assignResult i r).2 := by
  cases r with
  | error f => exact .refl m
  | ok v => exact m.assign_setup i v

/-- A load touches the memory and is counted before it assigns the number found. -/
theorem loadFrom_eq {i : Instruction} {a : Nat} (h : m.source i.address i.op1 = .ok a) :
    m.loadFrom i = (m.loaded (Width.qword.truncate a) i.op3.width).assign i
      (m.memory.load (Width.qword.truncate a) i.op3.width) := by
  simp only [loadFrom, h]
  rfl

theorem loadFrom_setup (m : Machine) (i : Instruction) : m.SameSetup (m.loadFrom i).2 := by
  cases h : m.source i.address i.op1 with
  | error f => simpa only [loadFrom, h] using SameSetup.refl m
  | ok a =>
    rw [loadFrom_eq h]
    refine .trans ?_ (assign_setup _ i _)
    exact ⟨rfl, rfl⟩

theorem storeTo_setup {i : Instruction} (h : m.storeTo i = .ok m') : m.SameSetup m' := by
  unfold storeTo at h
  cases hv : m.source i.address i.op1 with
  | error f => simp [hv, bind, Except.bind] at h
  | ok v =>
    cases ha : m.source i.address i.op3 with
    | error f => simp [hv, ha, bind, Except.bind] at h
    | ok a =>
      simp only [hv, ha, bind, Except.bind, pure, Except.pure, Except.ok.injEq] at h
      subst h
      exact ⟨rfl, rfl⟩

theorem makeUndefined_setup {i : Instruction} (h : m.makeUndefined i = .ok m') :
    m.SameSetup m' := by
  unfold makeUndefined at h
  cases hd : i.destination with
  | error f => simp [hd, bind, Except.bind] at h
  | ok name =>
    simp only [hd, bind, Except.bind, pure, Except.pure, Except.ok.injEq] at h
    subst h
    exact ⟨rfl, rfl⟩

theorem proceed_setup {r : Except (Fault Address) Machine}
    (h : ∀ m', r = .ok m' → m.SameSetup m') : m.SameSetup (m.proceed r).2 := by
  cases r with
  | error f => exact .refl m
  | ok m' => exact h m' rfl

/-- No instruction changes the settings or the processor. -/
theorem execute_setup (m : Machine) (p : Program) (i : Instruction) :
    m.SameSetup (m.execute p i).2 := by
  unfold execute
  cases i.opcode with
  | ldm => exact m.loadFrom_setup i
  | stm => exact proceed_setup fun _ => storeTo_setup
  | undef => exact proceed_setup fun _ => makeUndefined_setup
  | unkn => dsimp only; split <;> exact .refl m
  | jcc | nop | halt => exact .refl m
  | add | sub | mul | div | mod | bsh | and | or | xor | bisz | str =>
    exact m.assignResult_setup i _

end Machine
/-! ## Results -/

/--
What an instruction that writes a register has for it: the value, and the machine that is about to
be written.
-/
def Machine.outcome (m : Machine) (i : Instruction) : Except (Fault Address) (Nat × Machine) :=
  match i.opcode with
  | .bisz => (m.source i.address i.op1).map fun v => (if v = 0 then 1 else 0, m)
  | .str => (m.source i.address i.op1).map (·, m)
  | .ldm => (m.source i.address i.op1).map fun a =>
    (m.memory.load (Width.qword.truncate a) i.op3.width,
      m.loaded (Width.qword.truncate a) i.op3.width)
  | _ => (m.combine i).map (·, m)

/-- A register in the third operand is the destination. -/
theorem destination_eq {i : Instruction} {name : String} (h : i.op3.kind = .register name) :
    i.destination = .ok name := by
  simp only [Instruction.destination, Operand.register?, h]

/-! ## Journeys through an expansion -/

/-- How a journey goes on. -/
inductive Stance where
  | going
  /-- Behind a jump, until the label is bound. -/
  | seeking (label : Label)
  | halted
  /-- Control left the expansion by the jump at `place`. -/
  | left (place target : Address)
  | failed (fault : Fault Address)
  deriving DecidableEq, Repr

/-- A machine on its way through an expansion. -/
structure Journey where
  machine : Machine
  stance : Stance

namespace Journey

/-- A machine at the start of an expansion. -/
def start (m : Machine) : Journey := ⟨m, .going⟩

/-- What one instruction does to a machine whose program counter is up to date. -/
def after (m : Machine) (i : Instruction) : Journey :=
  if i.opcode = .jcc then
    match m.route i with
    | .error f => ⟨m, .failed f⟩
    | .ok none => ⟨m.counted, .going⟩
    | .ok (some t) => ⟨m, .left i.address t⟩
  else
    match m.execute ∅ i with
    | (.error f, m) => ⟨m, .failed f⟩
    | (.ok .halt, m) => ⟨m.counted, .halted⟩
    | (.ok _, m) => ⟨m.counted, .going⟩

/-- Performs an instruction, unless the journey is past it. -/
def perform (g : Journey) (i : Instruction) : Journey :=
  match g.stance with
  | .going => after (g.machine.syncProgramCounter i.address.native) i
  | _ => g

/-- Jumps to a label if the condition is not zero, unless the journey is past the jump. -/
def jumpIf (g : Journey) (place : Address) (condition : Operand) (label : Label) : Journey :=
  match g.stance with
  | .going =>
    let m := g.machine.syncProgramCounter place.native
    match m.source place condition with
    | .error f => ⟨m, .failed f⟩
    | .ok v => if v = 0 then ⟨m.counted, .going⟩ else ⟨m.counted.jumped, .seeking label⟩
  | _ => g

/-- Arrives where a label is bound. -/
def reach (g : Journey) (label : Label) : Journey :=
  if g.stance = .seeking label then start g.machine else g

/-- A journey that is not going on performs nothing. -/
theorem perform_of_ne_going {g : Journey} (h : g.stance ≠ .going) (i : Instruction) :
    g.perform i = g := by
  unfold perform
  split
  · next e => exact absurd e h
  · rfl

/-- A journey that is not going on takes no jump. -/
theorem jumpIf_of_ne_going {g : Journey} (h : g.stance ≠ .going) (place : Address)
    (condition : Operand) (label : Label) : g.jumpIf place condition label = g := by
  unfold jumpIf
  split
  · next e => exact absurd e h
  · rfl

/-- A label that a journey does not seek is passed by. -/
theorem reach_of_ne {g : Journey} {label : Label} (h : g.stance ≠ .seeking label) :
    g.reach label = g :=
  if_neg h

/-! ### What each kind of instruction does -/

section After

variable {m : Machine} {i : Instruction}

/-- An instruction that writes a register gives it its outcome. -/
theorem after_outcome (name : String) (h : i.opcode.writesRegister) (dest : i.op3.kind = .register name) :
    after m i =
      match m.outcome i with
      | .error f => ⟨m, .failed f⟩
      | .ok (v, m') => ⟨(m'.setRegister name v i.op3.width .defined).counted, .going⟩ := by
  have assigned : ∀ r : Except (Fault Address) Nat,
      (match m.assignResult i r with
        | (.error f, m) => (⟨m, .failed f⟩ : Journey)
        | (.ok .halt, m) => ⟨m.counted, .halted⟩
        | (.ok _, m) => ⟨m.counted, .going⟩) =
      match r.map (·, m) with
      | .error f => ⟨m, .failed f⟩
      | .ok (v, m') => ⟨(m'.setRegister name v i.op3.width .defined).counted, .going⟩ := by
    intro r
    cases r with
    | error f => rfl
    | ok v => simp only [Machine.assignResult, Machine.assign, destination_eq dest, Except.map]
  unfold after Machine.outcome Machine.execute
  cases e : i.opcode with
  | add | sub | mul | div | mod | bsh | and | or | xor => exact assigned _
  | bisz =>
    refine (assigned _).trans ?_
    cases m.source i.address i.op1 <;> rfl
  | str => exact assigned _
  | ldm =>
    cases hs : m.source i.address i.op1 with
    | error f => simp [Machine.loadFrom, hs, Except.map]
    | ok a => simp [Machine.loadFrom_eq hs, Machine.assign, destination_eq dest, Except.map]
  | jcc | stm | nop | undef | unkn | halt => rw [e] at h; cases h

/-- A store reads the number, then the address, and fails at the first that cannot be read. -/
theorem after_stm (h : i.opcode = .stm) :
    after m i =
      match m.source i.address i.op1 with
      | .error f => ⟨m, .failed f⟩
      | .ok v =>
        match m.source i.address i.op3 with
        | .error f => ⟨m, .failed f⟩
        | .ok a => ⟨(m.stored (Width.qword.truncate a) v i.op1.width).counted, .going⟩ := by
  have opened : m.execute ∅ i = m.proceed (m.storeTo i) := by rw [Machine.execute, h]
  rw [after, if_neg (by rw [h]; simp), opened, Machine.storeTo]
  cases m.source i.address i.op1 with
  | error f => rfl
  | ok v =>
    cases m.source i.address i.op3 with
    | error f => rfl
    | ok a => rfl

/-- An undefined register is marked as such, and the journey goes on. -/
theorem after_undef (name : String) (h : i.opcode = .undef) (dest : i.op3.kind = .register name) :
    after m i = ⟨(m.undefineRegister name i.op3.width).counted, .going⟩ := by
  have opened : m.execute ∅ i = m.proceed (m.makeUndefined i) := by rw [Machine.execute, h]
  rw [after, if_neg (by rw [h]; simp), opened, Machine.makeUndefined, destination_eq dest]
  rfl

theorem after_nop (h : i.opcode = .nop) : after m i = ⟨m.counted, .going⟩ := by
  have opened : m.execute ∅ i = (.ok .next, m) := by rw [Machine.execute, h]
  rw [after, if_neg (by rw [h]; simp), opened]

/-- A jump decides by its route, and fails where the route cannot be found. -/
theorem after_jcc (h : i.opcode = .jcc) :
    after m i =
      match m.route i with
      | .error f => ⟨m, .failed f⟩
      | .ok none => ⟨m.counted, .going⟩
      | .ok (some t) => ⟨m, .left i.address t⟩ :=
  if_pos h

end After

/-- No instruction changes the settings or the processor of a journey. -/
theorem after_setup (m : Machine) (i : Instruction) : m.SameSetup (after m i).machine := by
  unfold after
  split
  · split <;> exact ⟨rfl, rfl⟩
  · have h := m.execute_setup ∅ i
    split <;> next e => rw [e] at h; exact ⟨h.settings, h.cpu⟩

theorem perform_setup (g : Journey) (i : Instruction) :
    g.machine.SameSetup (g.perform i).machine := by
  unfold perform
  split
  · exact (g.machine.syncProgramCounter_setup _).trans (after_setup _ i)
  · exact .refl _

theorem jumpIf_setup (g : Journey) (place : Address) (condition : Operand) (label : Label) :
    g.machine.SameSetup (g.jumpIf place condition label).machine := by
  unfold jumpIf
  split
  · dsimp only
    split
    · exact ⟨rfl, rfl⟩
    · split <;> exact ⟨rfl, rfl⟩
  · exact .refl _

theorem reach_setup (g : Journey) (label : Label) :
    g.machine.SameSetup (g.reach label).machine := by
  unfold reach
  split <;> exact ⟨rfl, rfl⟩

end Journey

/-! ## Journeys through a script -/

/-- The address that the next instruction of an expansion gets. -/
def Expansion.here (x : Expansion) : Address := ⟨x.native, x.size⟩

namespace Script

variable {α β : Type}

/-- The journey through what a script writes from the end of an expansion on. -/
def walk : Script α → Expansion → Journey → Journey
  | done _, _, g => g
  | fail _, _, g => g
  | allocate width next, x, g => (next (x.temporary width).1).walk (x.temporary width).2 g
  | write opcode op1 op2 op3 next, x, g =>
    next.walk (x.emit opcode op1 op2 op3) (g.perform ⟨x.here, opcode, op1, op2, op3, none⟩)
  | create next, x, g => (next x.newLabel.1).walk x.newLabel.2 g
  | attach label next, x, g => next.walk (x.bind label) (g.reach label)
  | leave condition label next, x, g =>
    next.walk (x.jumpIf condition label) (g.jumpIf x.here condition label)

/-- The journey through a sequence goes through its first part and then through its second. -/
theorem walk_bind (s : Script α) (f : α → Script β) (x : Expansion) (g : Journey) :
    (s >>= f).walk x g =
      match s.run x with
      | (.ok a, x') => (f a).walk x' (s.walk x g)
      | (.error _, _) => s.walk x g := by
  show (s.andThen f).walk x g = _
  induction s generalizing x g with
  | done | fail => rfl
  | allocate _ _ ih | create _ ih => simp only [andThen, walk, run, ih]
  | write _ _ _ _ _ ih | attach _ _ ih | leave _ _ _ ih => simp only [andThen, walk, run, ih]

/-- A journey changes neither the settings nor the processor. -/
theorem walk_setup (s : Script α) (x : Expansion) (g : Journey) :
    g.machine.SameSetup (s.walk x g).machine := by
  induction s generalizing x g with
  | done | fail => exact .refl _
  | allocate width next ih => exact ih _ _ g
  | write opcode op1 op2 op3 next ih => exact (g.perform_setup _).trans (ih _ _)
  | create next ih => exact ih _ _ g
  | attach label next ih => exact (g.reach_setup label).trans (ih _ _)
  | leave condition label next ih => exact (g.jumpIf_setup _ _ _).trans (ih _ _)

@[simp] theorem walk_emit (opcode : Opcode) (op1 op2 op3 : Operand) (x : Expansion)
    (g : Journey) :
    (emit opcode op1 op2 op3).walk x g = g.perform ⟨x.here, opcode, op1, op2, op3, none⟩ := rfl

@[simp] theorem walk_jumpIf (c : Operand) (l : Label) (x : Expansion) (g : Journey) :
    (jumpIf c l).walk x g = g.jumpIf x.here c l := rfl

end Script

end RegisterTransfer
