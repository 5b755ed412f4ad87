import RegisterTransfer.Proofs.Plans

/-!
# Stale values

A register that is marked undefined keeps a value and a width, which nothing may look at. Two
register files match if they differ in such stale contents only. A machine whose processor has no
aliases does the same on matching register files and leaves matching ones behind, so what is stale
never comes to light. With aliases this would fail: a write to some bits of an undefined register
defines all of it.

> `Machine.Matches.execute`: one instruction on matching machines.
> `Run.Matches.advance`: a whole run of them.
> `stale_values_never_leak`: what two such runs have in common.
-/

namespace RegisterTransfer

/-! ## Registers that differ in stale contents only -/

/-- Contents that are the same, or both of no use. -/
inductive RegisterValue.Matches : RegisterValue → RegisterValue → Prop
  | same (v : RegisterValue) : Matches v v
  | stale {v v' : RegisterValue} (h : v.status = .undefined) (h' : v'.status = .undefined) :
    Matches v v'

/-- Register files with the same registers, of which those that are defined hold the same. -/
def RegisterFile.Matches (f f' : RegisterFile) : Prop :=
  ∀ name, Option.Rel RegisterValue.Matches (f.get? name) (f'.get? name)

namespace RegisterFile

/-- The defined registers alone, whose names are `definedNames`. -/
def defined (f : RegisterFile) : RegisterFile :=
  ⟨f.toList.filter fun e => e.2.isDefined, f.increasing.filter _⟩

/-- Among the defined registers a name finds what it found before, if that is defined. -/
theorem get?_defined (f : RegisterFile) (name : String) :
    f.defined.get? name = (f.get? name).filter (·.isDefined) := by
  ext v
  rw [← SortedMap.mem_toList_iff, Option.filter_eq_some_iff, ← SortedMap.mem_toList_iff, defined,
    List.mem_filter]

namespace Matches

variable {f f' : RegisterFile}

/-- What is of use is the same. -/
theorem filter_get? (h : f.Matches f') (name : String) :
    (f'.get? name).filter (·.isDefined) = (f.get? name).filter (·.isDefined) := by
  have entry := h name
  generalize f.get? name = x, f'.get? name = x' at entry ⊢
  cases entry with
  | none => rfl
  | some both =>
    cases both with
    | same => rfl
    | stale unused unused' =>
      simp only [Option.filter_some, RegisterValue.isDefined, unused, unused']
      rfl

/-- Register files that match have the same defined registers. -/
theorem defined_eq (h : f.Matches f') : f'.defined = f.defined := by
  apply SortedMap.ext_get?
  intro name
  rw [get?_defined, get?_defined, h.filter_get?]

/-- An entry replaced in both. -/
theorem insert (h : f.Matches f') (name : String) {v v' : RegisterValue} (both : v.Matches v') :
    RegisterFile.Matches (SortedMap.insert f name v) (SortedMap.insert f' name v') := by
  intro other
  rw [SortedMap.get?_insert, SortedMap.get?_insert]
  split
  · exact .some both
  · exact h other

/-- What is made undefined was of use in both or in none. -/
theorem undefined (h : f.Matches f') (name : String) (width : Width) :
    (RegisterValue.undefined (f.get? name) width).Matches
      (RegisterValue.undefined (f'.get? name) width) := by
  have entry := h name
  generalize f.get? name = x, f'.get? name = x' at entry ⊢
  cases entry with
  | none => exact .same _
  | some both => exact .stale rfl rfl

end Matches

end RegisterFile

/-! ## Machines -/

/-- Machines without aliases that differ in stale contents only. -/
structure Machine.Matches (m m' : Machine) : Prop where
  aliasFree : ∀ name, m.cpu.catalog.alias? name = none
  settings : m'.settings = m.settings
  cpu : m'.cpu = m.cpu
  memory : m'.memory = m.memory
  counters : m'.counters = m.counters
  registers : m.registers.Matches m'.registers

namespace Machine.Matches

variable {m m' : Machine}

theorem aliasFree' (h : m.Matches m') (name : String) : m'.cpu.catalog.alias? name = none := by
  rw [h.cpu]
  exact h.aliasFree name

/-- The values of registers are the same. -/
theorem value? (h : m.Matches m') (name : String) : m'.value? name = m.value? name := by
  rw [Machine.value?, Machine.value?, Machine.register?, Machine.register?,
    RegisterFile.read_of_alias?_eq_none (h.aliasFree' name),
    RegisterFile.read_of_alias?_eq_none (h.aliasFree name), h.registers.filter_get?]

theorem setRegister (h : m.Matches m') (name : String) (value : Nat) (width : Width)
    (status : RegisterStatus) :
    (m.setRegister name value width status).Matches
      (m'.setRegister name value width status) := by
  have written := h.registers.insert name (.same (.ofNat value width status))
  unfold Machine.setRegister
  rw [RegisterFile.write_of_alias?_eq_none (h.aliasFree name),
    RegisterFile.write_of_alias?_eq_none (h.aliasFree' name)]
  exact { h with registers := written }

/-- What becomes undefined may differ in its value, and matches all the same. -/
theorem undefineRegister (h : m.Matches m') (name : String) (width : Width) :
    (m.undefineRegister name width).Matches (m'.undefineRegister name width) := by
  -- the new stale values may differ, as the old ones did
  have written := h.registers.insert name (h.registers.undefined name width)
  unfold Machine.undefineRegister
  rw [RegisterFile.undefine_of_alias?_eq_none (h.aliasFree name),
    RegisterFile.undefine_of_alias?_eq_none (h.aliasFree' name)]
  exact { h with registers := written }

theorem syncProgramCounter (h : m.Matches m') (native : Nat) :
    (m.syncProgramCounter native).Matches (m'.syncProgramCounter native) := by
  unfold Machine.syncProgramCounter
  rw [h.cpu]
  exact h.setRegister ..

theorem counted (h : m.Matches m') : m.counted.Matches m'.counted :=
  { h with counters := by simp only [Machine.counted, h.counters] }

theorem jumped (h : m.Matches m') : m.jumped.Matches m'.jumped :=
  { h with counters := by simp only [Machine.jumped, h.counters] }

/-- Every effect keeps machines matching. -/
theorem enact (h : m.Matches m') (effect : Effect) :
    (m.enact effect).Matches (m'.enact effect) := by
  cases effect with
  | write name value width => exact h.setRegister ..
  | undefine name width => exact h.undefineRegister ..
  | load a width =>
    exact { h with
      memory := by simp only [Machine.enact, Machine.loaded, h.memory]
      counters := by simp only [Machine.enact, Machine.loaded, h.counters] }
  | store a value width =>
    exact { h with
      memory := by simp only [Machine.enact, Machine.stored, h.memory]
      counters := by simp only [Machine.enact, Machine.stored, h.counters] }

/-- An instruction does the same on matching machines, and leaves matching ones behind. -/
theorem execute (h : m.Matches m') (p : Program) (i : Instruction) :
    (m'.execute p i).1 = (m.execute p i).1 ∧ (m.execute p i).2.Matches (m'.execute p i).2 := by
  -- nothing that is read is stale, so the plan is the same
  have sources : m.SourcesAgree m' i := fun slot _ =>
    source_congr (congrArg _ h.settings) (fun name _ => h.value? name) i.address
  have unknown : m'.settings.unknownOpcodes = m.settings.unknownOpcodes := by rw [h.settings]
  rw [execute_eq_plan, execute_eq_plan, plan_congr sources h.memory unknown p]
  exact ⟨rfl, List.foldl_rel h fun effect _ _ _ matching => matching.enact effect⟩

end Machine.Matches

/-! ## Runs -/

/-- Runs at the same point whose machines match. -/
structure Run.Matches {σ : Type} (r r' : Run σ) : Prop where
  progress : r'.progress = r.progress
  watch : r'.watch = r.watch
  machine : r.machine.Matches r'.machine

namespace Run.Matches

variable {σ : Type} {o : Observer σ} {p : Program} {r r' : Run σ} {m m' : Machine} {pc : Address}

theorem follow (h : m.Matches m') (w : σ) (flow : Flow) :
    (Run.follow p pc m w flow).Matches (Run.follow p pc m' w flow) := by
  cases flow with
  | halt => exact ⟨rfl, rfl, h⟩
  | jump target => exact ⟨rfl, rfl, h.jumped⟩
  | next =>
    unfold Run.follow
    dsimp only
    split <;> exact ⟨rfl, rfl, h⟩

theorem perform (h : m.Matches m') (i : Instruction) (w : σ) :
    (Run.perform p pc i m w).Matches (Run.perform p pc i m' w) := by
  have executed := (h.syncProgramCounter pc.native).execute p i
  unfold Run.perform
  generalize (m.syncProgramCounter pc.native).execute p i = x,
    (m'.syncProgramCounter pc.native).execute p i = x' at executed ⊢
  obtain ⟨result, k⟩ := x
  obtain ⟨result', k'⟩ := x'
  obtain ⟨same, matching⟩ := executed
  dsimp only at same matching
  subst same
  cases result' with
  | error f => exact ⟨rfl, rfl, matching⟩
  | ok flow => exact follow matching.counted w flow

/-- A turn of matching runs. -/
theorem turn (h : m.Matches m') (w : σ) :
    (Run.turn o p pc m w).Matches (Run.turn o p pc m' w) := by
  have spent : m'.spent? = m.spent? := by
    rw [Machine.spent?, h.settings, h.counters, Machine.spent?]
  cases found : p.get? pc with
  | none =>
    rw [turn_off found, turn_off found]
    exact ⟨rfl, rfl, h⟩
  | some i =>
    cases limit : m.spent? with
    | some limit' =>
      rw [turn_spent found limit, turn_spent found (spent.trans limit)]
      exact ⟨rfl, rfl, h⟩
    | none =>
      rw [turn_consult found limit, turn_consult found (spent.trans limit), consult, consult]
      split
      · exact ⟨rfl, rfl, h⟩
      · exact perform h i _

/-- Runs that match take turns that match. -/
theorem step (h : r.Matches r') : (r.step o p).Matches (r'.step o p) := by
  unfold Run.step
  rw [h.progress, h.watch]
  split
  · exact turn h.machine _
  · exact h

/-- Runs that match still match after any number of turns. -/
theorem advance (h : r.Matches r') (turns : Nat) :
    (Run.advance o p turns r).Matches (Run.advance o p turns r') := by
  induction turns with
  | zero => exact h
  | succ turns ih =>
    rw [← step_advance, ← step_advance]
    exact ih.step

theorem conclude (h : r.Matches r') : (r.conclude o).Matches (r'.conclude o) := by
  have ended : r'.isOver = r.isOver := by rw [isOver, isOver, h.progress]
  unfold Run.conclude
  rw [ended, h.watch, h.machine.counters]
  split
  · exact ⟨h.progress, rfl, h.machine⟩
  · exact h

end Run.Matches

/--
Stale values never leak. Take a processor without aliases and two machines of it that differ at most
in the values and widths of undefined registers. Then, however many turns they make, a run of the
one stands where the run of the other does, with the same observer, the same memory and the same
counters, and the same registers are defined and hold the same.
-/
theorem stale_values_never_leak {σ : Type} (o : Observer σ) (p : Program) {m m' : Machine}
    (aliasFree : ∀ name, m.cpu.catalog.alias? name = none) (settings : m'.settings = m.settings)
    (cpu : m'.cpu = m.cpu) (memory : m'.memory = m.memory)
    (registers : m.registers.Matches m'.registers) (turns : Nat) (entry : Address) (w : σ) :
    let r := m.interpret o p turns entry w
    let r' := m'.interpret o p turns entry w
    r'.progress = r.progress ∧ r'.watch = r.watch ∧ r'.machine.memory = r.machine.memory ∧
      r'.machine.counters = r.machine.counters ∧
      r'.machine.registers.defined = r.machine.registers.defined ∧
      r.machine.registers.Matches r'.machine.registers := by
  intro r r'
  have start : (Run.begin o entry m w).Matches (Run.begin o entry m' w) :=
    ⟨rfl, rfl, aliasFree, settings, cpu, memory, rfl, registers⟩
  have ends : r.Matches r' := (start.advance turns).conclude
  exact ⟨ends.progress, ends.watch, ends.machine.memory, ends.machine.counters,
    ends.machine.registers.defined_eq, ends.machine.registers⟩

/-- A PowerPC that lets undefined registers read as zero, with a stale value in `%r3`. -/
def afterUndefined (value : Nat) (width : Width) : Machine :=
  { Machine.start { undefinedReads := .zero } PowerPC.cpu with
    registers := SortedMap.insert ∅ "%r3" ⟨value, width, .undefined⟩ }

/-- A store of the undefined register. -/
def staleStore : Instruction :=
  ⟨⟨0x100, 0⟩, .stm, .register "%r3" .dword, .absent, .integer 16 .qword, none⟩

/-- Memory does not tell what was in the undefined register that was stored there. -/
theorem staleStore_never_leaks :
    ∃ p, Program.ofList [staleStore] = .ok p ∧ afterUndefined 7 .byte ≠ afterUndefined 9 .dword ∧
      let r := (afterUndefined 7 .byte).interpret .silent p 1 ⟨0x100, 0⟩ ()
      let r' := (afterUndefined 9 .dword).interpret .silent p 1 ⟨0x100, 0⟩ ()
      r'.progress = r.progress ∧ r'.machine.memory = r.machine.memory := by
  obtain ⟨p, program⟩ := Program.ofList_isOk (l := [staleStore]) (by simp)
  have apart : afterUndefined 7 .byte ≠ afterUndefined 9 .dword := by
    intro same
    have entry := congrArg (fun m => m.registers.get? "%r3") same
    simp [afterUndefined] at entry
  have empty : RegisterFile.Matches ∅ ∅ := fun _ => .none
  have stale : RegisterValue.Matches ⟨7, .byte, .undefined⟩ ⟨9, .dword, .undefined⟩ :=
    .stale rfl rfl
  have registers : (afterUndefined 7 .byte).registers.Matches
      (afterUndefined 9 .dword).registers := empty.insert "%r3" stale
  have settings : (afterUndefined 9 .dword).settings = (afterUndefined 7 .byte).settings := rfl
  obtain ⟨progress, -, memory, -⟩ := stale_values_never_leak .silent p PowerPC.alias?_cpu settings
    rfl rfl registers 1 ⟨0x100, 0⟩ ()
  exact ⟨p, program, apart, progress, memory⟩

end RegisterTransfer
