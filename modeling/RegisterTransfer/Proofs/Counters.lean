import Mathlib.Data.Fintype.EquivFin
import RegisterTransfer.Proofs.EmittedCode

/-!
# Program counters as operands

Every instruction finds the program counter at its native address, so an instruction that reads it
reads that address, whatever was there before. What is known of scripts says nothing of the program
counter, which may change at any time. But a script that does not write it cannot tell its own
processor, with the program counter up to date, from one that counts in a register that the script
does not know; and there the old program counter is a register like any other.

> `Machine.after_countingIn`: an instruction has the same effect wherever the processor counts.
> `Journey.respects_besides`: journeys on the two processors stay in step.
> `Script.Calculates.interpret_of_runs`: what is known of a script on the one processor, for a run of
> its code on the other.
-/

namespace RegisterTransfer

/-- The same machine, with its processor counting in another register. -/
def Machine.countingIn (m : Machine) (name : String) : Machine :=
  { m with cpu.programCounter := name }

namespace Machine

variable {m : Machine} {name : String} {p : Program} {i : Instruction}

theorem source_countingIn (place : Address) (o : Operand) :
    (m.countingIn name).source place o = m.source place o := rfl

/-- A write does not depend on which register the processor counts in. -/
theorem assignResult_countingIn (r : Except (Fault Address) Nat) :
    (m.countingIn name).assignResult i r =
      ((m.assignResult i r).1, (m.assignResult i r).2.countingIn name) := by
  cases r with
  | error f => rfl
  | ok v =>
    rw [assignResult, assignResult, assign, assign]
    cases i.destination <;> rfl

/-- An instruction has the same effect wherever the processor counts. -/
theorem execute_countingIn (m : Machine) (name : String) (p : Program) (i : Instruction) :
    (m.countingIn name).execute p i =
      ((m.execute p i).1, (m.execute p i).2.countingIn name) := by
  unfold execute
  cases i.opcode with
  | add | sub | mul | div | mod | bsh | and | or | xor | bisz | str => exact assignResult_countingIn _
  | jcc | nop | halt => rfl
  | unkn =>
    dsimp only [countingIn]
    split <;> rfl
  | ldm =>
    cases address : m.source i.address i.op1 with
    | error f =>
      have address' : (m.countingIn name).source i.address i.op1 = .error f := address
      simp only [loadFrom, address, address']
    | ok a =>
      have address' : (m.countingIn name).source i.address i.op1 = .ok a := address
      dsimp only
      rw [loadFrom_eq address, loadFrom_eq address', assign, assign]
      cases i.destination <;> rfl
  | stm =>
    dsimp only
    rw [storeTo, storeTo, source_countingIn, source_countingIn]
    cases m.source i.address i.op1 with
    | error f => rfl
    | ok v => cases m.source i.address i.op3 <;> rfl
  | undef =>
    dsimp only
    rw [makeUndefined, makeUndefined]
    cases i.destination <;> rfl

/-- Where the program counter is up to date, bringing it up to date changes nothing. -/
theorem agreesBut_sync {native : Nat} (plain : m.cpu.Plain)
    (current : m.register? m.cpu.programCounter =
      some (.ofNat native m.cpu.programCounterWidth .defined)) (name : String) :
    (m.syncProgramCounter native).AgreesBut name m where
  plain := plain
  settings := rfl
  cpu := rfl
  memory := rfl
  register? {other} _ := by
    rw [syncProgramCounter, register?_setRegister plain]
    split
    · next same => rw [same, current]
    · rfl

end Machine

/-- The same journey, with the processor counting in another register. -/
def Journey.countingIn (g : Journey) (name : String) : Journey :=
  ⟨g.machine.countingIn name, g.stance⟩

/-- An instruction whose machine is up to date does not depend on which register counts. -/
theorem Machine.after_countingIn (m : Machine) (name : String) (i : Instruction) :
    Journey.after (m.countingIn name) i = (Journey.after m i).countingIn name := by
  unfold Journey.after
  split
  · rw [show (m.countingIn name).route i = m.route i from rfl]
    cases m.route i with
    | error f => rfl
    | ok taken => cases taken <;> rfl
  · rw [m.execute_countingIn name]
    cases m.execute ∅ i with
    | mk result m' =>
      cases result with
      | error f => rfl
      | ok flow => cases flow <;> rfl

/-! ## Two processors in step -/

namespace Journey

/--
The second journey is that of a processor that counts in `name`, and the program counter of the first
is a register like any other there, which is up to date.
-/
structure Besides (c : Cpu) (native : Nat) (name : String) (g g' : Journey) : Prop where
  processor : g.machine.cpu = c
  stance : g'.stance = g.stance
  machine : ∃ m, g'.machine = m.countingIn name ∧
    (g.machine.syncProgramCounter native).AgreesBut name m

variable {c : Cpu} {native : Nat} {name : String}

/-- The instructions that two such journeys may perform. -/
def Unaware (c : Cpu) (name : String) (d : Draft) : Prop :=
  ¬ d.Mentions name ∧ ¬ d.Changes c.programCounter ∧ d.Plain

/-- Instructions that are unaware of both program counters keep such journeys together. -/
theorem respects_besides (plain : c.Plain) :
    Respects (Unaware c name) native (Besides c native name) where
  performs {opcode a b o place g g'} unaware here h := by
    obtain ⟨processor, stance, m, same, agrees⟩ := h
    subst here
    unfold perform
    rw [stance]
    split
    · -- the second processor writes its own counter, in which the machines may differ
      let i : Instruction := ⟨place, opcode, a, b, o, none⟩
      let e := g.machine.syncProgramCounter place.native
      have counts := Machine.agreesBut_setRegister agrees.plain' name place.native
        (m.countingIn name).cpu.programCounterWidth .defined
      have alike := agreeBut_after (i := i) (agrees.trans counts) fun slot _ => by
        refine (agrees.trans counts).source (fun kind => unaware.1 ?_) _
        cases slot with
        | first => exact .inl kind
        | second => exact .inr (.inl kind)
        | third => exact .inr (.inr kind)
      have counted := Machine.after_countingIn (m.setRegister name place.native
        (m.countingIn name).cpu.programCounterWidth .defined) name i
      have current : (after e i).machine.register? c.programCounter =
          some (.ofNat place.native c.programCounterWidth .defined) := by
        have kept : ¬ i.Changes c.programCounter := unaware.2.1
        rw [register?_after agrees.plain kept, Machine.syncProgramCounter,
          Machine.register?_setRegister (processor ▸ plain), processor, if_pos rfl]
      have setup : (after e i).machine.cpu = c := (after_setup e i).cpu.trans processor
      rw [same]
      refine ⟨setup, (congrArg Journey.stance counted).trans alike.stance, _,
        congrArg Journey.machine counted, ?_⟩
      exact (Machine.agreesBut_sync (setup ▸ plain) (setup ▸ current) name).trans alike.machine
    · next ne =>
      exact ⟨processor, stance, m, same, agrees⟩
  jumps unaware := by cases unaware.2.2
  reaches {label g g'} h := by
    obtain ⟨m, same, agrees⟩ := h.machine
    unfold reach
    rw [h.stance]
    split
    · exact ⟨h.processor, rfl, m, same, agrees⟩
    · exact h

end Journey

/-! ## Operands as instructions read them -/

/-- A temporary is no register of the processor. -/
theorem Operand.kind_temporary_ne {name : String} (native : isTemporary name = false) (k : Nat)
    (w : Width) : (Operand.register (temporaryName k) w).kind ≠ .register name := by
  intro named
  exact ne_temporaryName native k (OperandKind.register.inj named).symm

/-- The operands that do not name a register of the processor. -/
theorem Operand.common_unnamed {name : String} (native : isTemporary name = false) :
    Operand.Common (·.kind ≠ .register name) where
  absent := nofun
  number number := by
    rw [number]
    nofun
  temporary := kind_temporary_ne native

namespace Machine

variable {m m' f : Machine} {x X : Expansion} {o : Operand} {v n : Nat} {name : String}

/-- What can be read can be read from everywhere. -/
theorem source_of_ok {place : Address} (read : m.source place o = .ok v) (place' : Address) :
    m.source place' o = .ok v := by
  unfold source at read ⊢
  split at read
  · exact read
  · split at read
    · exact read
    · split at read
      · cases read
      · exact read
  · cases read
  · cases read

/--
The next instruction of an expansion reads an operand as a value, and the operand is no temporary
that is still to be taken.
-/
structure Supplies (m : Machine) (x : Expansion) (o : Operand) (v : Nat) : Prop where
  source : (m.syncProgramCounter x.native).source x.here o = .ok v
  free : ∀ k, x.taken ≤ k → o.kind ≠ .register (temporaryName k)

/-- The program counter is read as the native address that is being expanded. -/
theorem supplies_programCounter (plain : m.cpu.Plain) (x : Expansion) (w : Width) :
    m.Supplies x (.register m.cpu.programCounter w)
      (w.truncate (m.cpu.programCounterWidth.truncate x.native)) where
  source := by
    have value : (m.syncProgramCounter x.native).value? m.cpu.programCounter =
        some (m.cpu.programCounterWidth.truncate x.native) := by
      simp only [value?, syncProgramCounter, register?_setRegister plain, if_true]
      rfl
    simp only [source, Operand.register, value]
  free k _ named := ne_temporaryName plain.programCounter k (OperandKind.register.inj named)

/-- Other registers of the processor are read as what is in them. -/
theorem supplies_register (plain : m.cpu.Plain) (native : isTemporary name = false)
    (ne : name ≠ m.cpu.programCounter) (value : m.value? name = some v) (x : Expansion)
    (w : Width) : m.Supplies x (.register name w) (w.truncate v) where
  source := by
    have kept := (value?_congr (register?_syncProgramCounter plain ne x.native)).trans value
    simp only [source, Operand.register, kept]
  free k _ named := ne_temporaryName native k (OperandKind.register.inj named)

/-- A literal supplies its truncated value, whatever the machine holds. -/
theorem supplies_integer (m : Machine) (x : Expansion) (v : Nat) (w : Width) :
    m.Supplies x (.integer v w) (w.truncate v) :=
  ⟨congrArg Except.ok (w.truncate_truncate v), fun _ _ => nofun⟩

/-- The operand holds its value where the processor counts in another register. -/
theorem Supplies.holds (h : m.Supplies x o v) (ne : o.kind ≠ .register name) :
    ((m.begun.syncProgramCounter x.native).countingIn name).Holds x.taken o v := by
  refine ⟨fun place => source_of_ok h.source place, fun {other} named scratch => ?_⟩
  rcases scratch with counts | ⟨k, above, same⟩
  · have counts : other = name := counts
    exact ne (counts ▸ named)
  · exact h.free k above (same ▸ named)

/-- What holds where the processor counts in another register is what instructions read. -/
theorem Holds.supplies (h : (m'.countingIn name).Holds X.taken o v)
    (agrees : (f.syncProgramCounter X.native).AgreesBut name m') : f.Supplies X o v where
  source := by
    have ne : o.kind ≠ .register name := fun named => h.settled named (.inl rfl)
    rw [← agrees.source ne]
    exact h.source X.here
  free k above named := h.settled named (.inr ⟨k, above, rfl⟩)

/-- Behind code that changes scratch registers only, the next instruction reads the same value. -/
theorem Supplies.behind (h : m.Supplies x o v) (ne : o.kind ≠ .register name)
    (leaves : Leaves x ((m.begun.syncProgramCounter x.native).countingIn name) X
      (m'.countingIn name))
    (agrees : (f.syncProgramCounter X.native).AgreesBut name m') : f.Supplies X o v :=
  (leaves.holds (h.holds ne)).supplies agrees

end Machine

/-! ## Runs -/

/--
The machine runs what was written behind an expansion to its end. Nothing but the program counter and
the temporaries that were taken has changed then.
-/
structure Machine.Completes (m : Machine) (x X : Expansion) (f : Machine) : Prop where
  finished : ∃ p turns, Program.ofList (x.codeBehind X) = .ok p ∧
    m.interpret .silent p turns x.here () = ⟨f, (), .finished⟩
  cpu : f.cpu = m.cpu
  memory : f.memory = m.memory
  register? : ∀ {name}, name ≠ m.cpu.programCounter →
    (∀ k, x.taken ≤ k → k < X.taken → name ≠ temporaryName k) → f.register? name = m.register? name

namespace Script.Calculates

variable {α : Type} {s : Script α} {pending : Option Operand} {R : α → Prop} {x : Expansion}
  {m : Machine} {name : String} {Q : α → Expansion → Machine → Prop}

/-- A calculation is not aware of a register that its operands do not name. -/
theorem unaware (h : s.Calculates pending) (each : s.Each (·.Confined (·.kind ≠ .register name)) R)
    {c : Cpu} (plain : c.Plain) (other : ∀ o, pending = some o → o.kind ≠ .register c.programCounter) :
    s.Each (Journey.Unaware c name) fun _ => True := by
  induction s generalizing pending with
  | done => trivial
  | allocate w next ih =>
    refine fun k => ih _ (h.2 k) (each k) fun o same => ?_
    cases same
    exact Operand.kind_temporary_ne plain.programCounter k w
  | write opcode a b c next ih =>
    refine ⟨⟨each.1.apart fun ne => ne, ?_, trivial⟩, ih h.2.2 each.2 nofun⟩
    exact fun changes => other c h.2.1 changes.2
  | fail | create | attach | leave => cases h

/--
A calculation that names no register `name`: what is known of it where the processor counts in that
register is so behind a run of its code, but for the register.
-/
theorem interpret_of_runs (h : s.Calculates none)
    (each : s.Each (·.Confined (·.kind ≠ .register name)) R) (plain : m.cpu.Plain)
    (unlimited : m.settings.stepLimit = none)
    (runs : s.Runs x ((m.begun.syncProgramCounter x.native).countingIn name) Q)
    (leaves : ∀ {a X m'}, Q a X m' →
      Leaves x ((m.begun.syncProgramCounter x.native).countingIn name) X m') :
    ∃ a X f m', s.run x = (.ok a, X) ∧ m.Completes x X f ∧
      (f.syncProgramCounter X.native).AgreesBut name m' ∧ Q a X (m'.countingIn name) := by
  obtain ⟨a, X, ran, going, known⟩ := runs
  have start : Journey.Besides m.cpu x.native name (.start m.begun)
      (.start ((m.begun.syncProgramCounter x.native).countingIn name)) :=
    ⟨rfl, rfl, m.begun.syncProgramCounter x.native, rfl, plain, rfl, rfl, rfl, fun _ => rfl⟩
  have besides := (h.unaware each plain nofun).walk (Journey.respects_besides plain) start
  obtain ⟨m', same, agrees⟩ := besides.machine
  have went : (s.walk x (.start m.begun)).stance = .going := besides.stance.symm.trans going
  have native : X.native = x.native := (h.extends_of_run ran).native
  rw [same] at known
  refine ⟨a, X, _, m', ran, ⟨h.interpret ran unlimited went, besides.processor, ?_, ?_⟩,
    native ▸ agrees, known⟩
  · exact agrees.memory.symm.trans (leaves known).keeps.memory
  · intro other ne apart
    have kept := h.register?_walk (x := x) (g := .start m.begun) plain ne
      (by rw [ran]; exact apart) nofun
    exact kept

end Script.Calculates

/-- There is a register that none of some operands names. -/
theorem exists_unnamed (operands : List Operand) :
    ∃ name, isTemporary name = false ∧ ∀ o ∈ operands, o.kind ≠ .register name := by
  obtain ⟨n, unlike⟩ :=
    Infinite.exists_notMem_finset (operands.filterMap (·.register?.map String.length)).toFinset
  have length : (String.ofList (List.replicate n '.')).length = n := by simp
  refine ⟨String.ofList (List.replicate n '.'), ?_, fun o mem named => ?_⟩
  · cases n with
    | zero => rfl
    | succ n =>
      have letters : (String.ofList (List.replicate (n + 1) '.')).toList =
          '.' :: List.replicate n '.' := by
        rw [String.toList_ofList, List.replicate_succ]
      exact isTemporary_of_head letters (by decide)
  · refine unlike (List.mem_toFinset.2 (List.mem_filterMap.2 ⟨o, mem, ?_⟩))
    rw [Operand.register?, named]
    exact congrArg some length

end RegisterTransfer
