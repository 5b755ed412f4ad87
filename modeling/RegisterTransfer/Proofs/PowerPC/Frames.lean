import RegisterTransfer.Proofs.PowerPC.Alone
import RegisterTransfer.Proofs.PowerPC.Footprints

/-!
# Frames of native steps

What a native step leaves alone and what it does not depend on. Temporaries and the program counter
never matter. Whether control may go elsewhere, and whether a branch register is written or used at
all, can be told from the operation that the native instruction means.

> `nativeStep_of_alike`: a step is that of the instruction alone, from any machine that is alike.
> `step_falls`: an instruction that does not branch falls through or fails.
> `register?_of_step`: a branch register that is not written is kept.
> `step_of_unused`: a branch register that is not used makes no difference.
-/

namespace RegisterTransfer

/-! ## Machines that are alike -/

namespace Machine

/--
Two machines that agree on everything but counters, temporaries, the program counter, and perhaps
some other registers.
-/
structure Alike (hidden : List String) (m m' : Machine) : Prop where
  settings : m'.settings = m.settings
  cpu : m'.cpu = m.cpu
  memory : m'.memory = m.memory
  register? : ∀ {name}, isTemporary name = false → name ≠ m.cpu.programCounter → name ∉ hidden →
    m'.register? name = m.register? name

namespace Alike

variable {hidden more : List String} {m m' m'' : Machine} {name : String}

theorem refl (hidden : List String) (m : Machine) : m.Alike hidden m :=
  ⟨rfl, rfl, rfl, fun _ _ _ => rfl⟩

theorem symm (h : m.Alike hidden m') : m'.Alike hidden m :=
  ⟨h.settings.symm, h.cpu.symm, h.memory.symm, fun native ne settled =>
    (h.register? native (h.cpu ▸ ne) settled).symm⟩

theorem trans (h : m.Alike hidden m') (h' : m'.Alike hidden m'') : m.Alike hidden m'' :=
  ⟨h'.settings.trans h.settings, h'.cpu.trans h.cpu, h'.memory.trans h.memory,
    fun native ne settled => (h'.register? native (h.cpu ▸ ne) settled).trans
      (h.register? native ne settled)⟩

theorem of_subset (h : m.Alike hidden m') (sub : hidden ⊆ more) : m.Alike more m' :=
  { h with register? := fun native ne settled =>
      h.register? native ne fun mem => settled (sub mem) }

theorem of_keeps {n : Nat} (h : m.Keeps n m') : m.Alike hidden m' :=
  ⟨h.settings, h.cpu, h.memory, fun native ne _ => h.register? (Cpu.not_scratch native ne n)⟩

theorem of_sameNative (h : m.SameNative m') : m.Alike hidden m' :=
  ⟨h.settings, h.cpu, h.memory, fun native _ _ => h.register? native⟩

theorem of_agreesBut (h : m.AgreesBut name m') : m.Alike [name] m' :=
  ⟨h.settings, h.cpu, h.memory, fun _ _ settled =>
    h.register? fun same => settled (List.mem_singleton.2 same)⟩

/-- A register of the processor that is not hidden has the same value on both sides. -/
theorem value? (h : m.Alike hidden m') (native : isTemporary name = false)
    (ne : name ≠ m.cpu.programCounter) (settled : name ∉ hidden) : m'.value? name = m.value? name :=
  value?_congr (h.register? native ne settled)

/-- Writing the same to a register that may differ. -/
theorem setRegister (h : m.Alike (name :: hidden) m') (plain : m.cpu.Plain) (v : Nat) (w : Width)
    (status : RegisterStatus) :
    (m.setRegister name v w status).Alike hidden (m'.setRegister name v w status) where
  settings := h.settings
  cpu := h.cpu
  memory := h.memory
  register? {other} native ne settled := by
    rw [register?_setRegister (h.cpu ▸ plain), register?_setRegister plain]
    split
    · rfl
    · next apart =>
      refine h.register? native ne fun mem => ?_
      rcases List.mem_cons.1 mem with same | mem
      · exact apart same
      · exact settled mem

/-- At one native address, machines that are alike differ in temporaries only. -/
theorem sync (h : m.Alike [] m') (plain : m.cpu.Plain) (native : Nat) :
    (m.syncProgramCounter native).SameNative (m'.syncProgramCounter native) where
  settings := h.settings
  cpu := h.cpu
  memory := h.memory
  register? {name} hname := by
    unfold syncProgramCounter
    rw [register?_setRegister (h.cpu ▸ plain), register?_setRegister plain, h.cpu]
    split
    · rfl
    · next ne => exact h.register? hname ne List.not_mem_nil

end Alike

/-- Bringing the program counter up to date twice is as good as once. -/
theorem syncProgramCounter_idem {m : Machine} (plain : m.cpu.Plain) (native : Nat) :
    (m.syncProgramCounter native).syncProgramCounter native = m.syncProgramCounter native := by
  have unaliased := plain.alias? m.cpu.programCounter
  have twice : ∀ v : RegisterValue, (m.registers.insert m.cpu.programCounter v).insert
      m.cpu.programCounter v = m.registers.insert m.cpu.programCounter v := by
    intro v
    refine SortedMap.ext_get? fun name => ?_
    rw [SortedMap.get?_insert, SortedMap.get?_insert]
    split <;> rfl
  simp only [syncProgramCounter, setRegister, RegisterFile.write_of_alias?_eq_none unaliased, twice]

end Machine

/-- A run is its machine and how far it has come. -/
theorem Run.eq_of_progress {r : Run Unit} {progress : Progress} (h : r.progress = progress) :
    r = ⟨r.machine, (), progress⟩ := by
  rw [← h]

/-- A run that is about to execute an instruction has not looked at the program counter. -/
theorem Run.nativeStep_sync {p : Program} {m : Machine} {native : Nat} {r : Run Unit}
    (plain : m.cpu.Plain) (limit : m.settings.stepLimit = none)
    (inside : p.contains (.ofNative native)) :
    NativeStep p ⟨m.syncProgramCounter native, (), .running (.ofNative native)⟩ r ↔
      NativeStep p ⟨m, (), .running (.ofNative native)⟩ r := by
  obtain ⟨i, found⟩ := SortedMap.contains_iff.1 inside
  have same : (⟨m.syncProgramCounter native, (), .running (.ofNative native)⟩ : Run Unit).step
      .silent p = (⟨m, (), .running (.ofNative native)⟩ : Run Unit).step .silent p := by
    have opened : ∀ e : Machine, e.settings.stepLimit = none →
        (⟨e, (), .running (.ofNative native)⟩ : Run Unit).step .silent p =
          perform p (.ofNative native) i e () := by
      intro e limit
      simp only [step, turn, Program.get?, found, limit, Option.filter_none, Observer.silent]
    rw [opened (m.syncProgramCounter native) limit, opened m limit, perform, perform,
      show (Address.ofNative native).native = native from rfl,
      Machine.syncProgramCounter_idem plain]
  rw [NativeStep, NativeStep, same]

/-! ## Behind a journey -/

namespace Journey

variable {p : Program} {pc : Address} {g g' : Journey} {name : String}

/-- Looking up where control goes is no matter to the registers. -/
theorem register?_settle (p : Program) (pc : Address) (g : Journey) (name : String) :
    (g.settle p pc).machine.register? name = g.machine.register? name := by
  unfold settle
  split
  · exact Run.register?_follow p pc g.machine () .next name
  · exact Run.register?_follow p pc g.machine () .next name
  · rfl
  · split <;> rfl
  · rfl

/-- Journeys that have come equally far go on alike. -/
theorem AgreeBut.settle (h : AgreeBut name g g') (p : Program) (pc : Address) :
    (g'.settle p pc).progress = (g.settle p pc).progress ∧
      (g.settle p pc).machine.AgreesBut name (g'.settle p pc).machine := by
  unfold Journey.settle
  rw [h.stance]
  cases g.stance with
  | going | seeking =>
    unfold Run.follow
    dsimp only
    cases p.next? pc <;> exact ⟨rfl, h.machine⟩
  | halted | failed => exact ⟨rfl, h.machine⟩
  | left place t =>
    dsimp only
    split
    · exact ⟨rfl, h.machine.counted.jumped⟩
    · exact ⟨rfl, h.machine⟩

end Journey

namespace PowerPC

/-! ## Branch registers -/

theorem BranchRegister.ne_programCounter (b : BranchRegister) : b.name ≠ programCounter := by
  cases b <;> decide

theorem not_scratch_branch (b : BranchRegister) (k : Nat) : ¬ cpu.Scratch k b.name :=
  Cpu.not_scratch (isTemporary_branchRegister b) b.ne_programCounter k

/-- A defined branch register is held. -/
theorem holds_branch {m : Machine} (processor : m.cpu = cpu) (b : BranchRegister) {v k : Nat}
    (value : m.value? b.name = some v) : m.Holds k b.operand (v % 2 ^ 32) :=
  Machine.holds_register value (processor ▸ not_scratch_branch b k) registerWidth

/-- An address that fits into a register is found again in it. -/
theorem truncate_target {t : Nat} (lt : t < registerWidth.modulus) :
    Width.qword.truncate (registerWidth.truncate t) = t := by
  rw [Width.truncate_of_lt lt, Width.truncate_of_lt (Nat.lt_of_lt_of_le lt (by decide))]

/-! ## What an instruction means -/

/-- The operation that a native instruction stands for. -/
def Means (n : NativeInstruction) (operation : Operation) : Prop :=
  ∃ form, (n.mnemonic, form) ∈ forms ∧ form.decode cpu.catalog.widthOf n = .ok operation

/-- An instruction means one operation at most. -/
theorem Means.unique {n : NativeInstruction} {operation operation' : Operation}
    (h : Means n operation) (h' : Means n operation') : operation = operation' := by
  obtain ⟨form, registered, decoded⟩ := h
  obtain ⟨form', registered', decoded'⟩ := h'
  obtain rfl := form_unique registered registered'
  exact Except.ok.inj (decoded.symm.trans decoded')

/-- The native step of an instruction leads where the script of what it means leads. -/
theorem nativeStep_of_means {block : List NativeInstruction} {p : Program}
    (lifted : lift block = .ok p) {n : NativeInstruction} (mem : n ∈ block)
    {operation : Operation} (means : Means n operation) :
    ∃ count, ∀ {m e : Machine} {q : Progress}, m.settings.stepLimit = none →
      ((operation.expand n.mnemonic n.address).Leads (blank count n) (.start m) fun _ X g =>
        g.stance.progress p n.address = q ∧ Leaves (blank count n) e X g.machine) →
      ∃ r, Run.NativeStep p ⟨m, (), .running (.ofNative n.address)⟩ r ∧
        r.progress = q ∧ e.Keeps count r.machine := by
  obtain ⟨count, found, X, code, expands, leads⟩ := nativeStep_of_leads lifted mem
  obtain rfl := Means.unique expands.decoded means
  exact ⟨count, leads⟩

/-- Control may go elsewhere. -/
def Branches (n : NativeInstruction) : Prop := ∃ operation, Means n operation ∧ operation.branches

/-- A branch register is written. -/
def Writes (r : BranchRegister) (n : NativeInstruction) : Prop :=
  ∃ operation, Means n operation ∧ operation.writes r

/-- A branch register is read. -/
def Reads (r : BranchRegister) (n : NativeInstruction) : Prop :=
  ∃ operation, Means n operation ∧ operation.reads r

namespace Expands

variable {count : Nat} {n : NativeInstruction} {operation : Operation} {X : Expansion}
  {code : List Instruction}

/-- Whatever an instruction means, its expansion keeps to the footprint of that. -/
theorem footprint (h : Expands count n operation X code) :
    (operation.expand n.mnemonic n.address).Each operation.Footprint fun _ => True := by
  obtain ⟨form, registered, decoded⟩ := h.decoded
  exact Operation.footprint (Operation.bitwise_of_decode (bitwise_of_mem_forms _ registered) decoded)
    n.mnemonic n.address

/-- Whole journeys preserve what every instruction preserves. -/
theorem journey_respects (h : Expands count n operation X code) {R : Journey → Journey → Prop}
    (respects : Journey.Respects operation.Footprint n.address R) {m m' : Machine}
    (start : R (.start m) (.start m')) :
    R (journey count n operation X m) (journey count n operation X m') := by
  have idle : operation.Footprint (.plain .nop .absent .absent .absent) :=
    Operation.footprint_plain nofun Operation.takes_absent Operation.takes_absent
      Operation.takes_absent (.inr fun _ => nofun)
  have respects' : Journey.Respects operation.Footprint (blank count n).native R := respects
  have respects'' : Journey.Respects operation.Footprint X.native R := h.native ▸ respects
  exact respects''.conclude idle (h.footprint.walk respects' start)

/-- The journey through an operation that does not branch stays inside. -/
theorem journey_inside (h : Expands count n operation X code) (stays : operation.branches = false)
    (m : Machine) : (journey count n operation X m).Inside := by
  have respects := (Journey.respects_inside n.address).mono fun {d} (f : operation.Footprint d) =>
    f.stays stays
  have start : (Journey.start m).Inside := fun _ _ => nofun
  exact @journey_respects _ _ _ _ _ h _ respects m m start

/-- What no instruction changes is kept, the program counter at the native address. -/
theorem journey_has (h : Expands count n operation X code) {m : Machine} (processor : m.cpu = cpu)
    {name : String} (kept : ∀ {d}, operation.Footprint d → ¬ d.Changes name)
    (counter : name = programCounter → m.register? name =
      some (.ofNat n.address cpu.programCounterWidth .defined)) :
    (journey count n operation X m).machine.register? name = m.register? name := by
  have respects := (Journey.respects_has cpu_plain counter).mono kept
  have start : (Journey.start m).Has cpu name (m.register? name) := ⟨processor, rfl⟩
  have ends : (journey count n operation X m).Has cpu name (m.register? name) :=
    @journey_respects _ _ _ _ _ h _ respects m m start
  exact ends.contents

/-- A branch register that is not used makes no difference. -/
theorem journey_agrees (h : Expands count n operation X code) {r : BranchRegister}
    (unused : operation.uses r = false) {m m' : Machine} (agree : m.AgreesBut r.name m') :
    (journey count n operation X m).AgreeBut r.name (journey count n operation X m') := by
  have respects := (Journey.respects_agreeBut r.name n.address).mono
    fun {d} (f : operation.Footprint d) => f.mentioned r unused
  exact h.journey_respects respects ⟨rfl, agree⟩

end Expands

/-! ## Native steps -/

section Steps

variable {block : List NativeInstruction} {p : Program} {n : NativeInstruction} {m m' : Machine}
  {r r' : Run Unit} {b : BranchRegister}

/-- A native step changes neither the settings nor the processor. -/
theorem setup_of_nativeStep (step : Run.NativeStep p r r') : r.machine.SameSetup r'.machine := by
  obtain ⟨turns, there⟩ := step.advance
  have more := Run.advance_setup .silent p (turns + 1) r
  rwa [Run.advance_succ, there] at more

/-- A native step is the journey through the expansion. -/
theorem Laid.step_eq (laid : Laid block p) (mem : n ∈ block)
    (limit : m.settings.stepLimit = none) :
    ∃ count operation X code, Expands count n operation X code ∧ Placed p n.address code ∧
      Run.NativeStep p ⟨m, (), .running (.ofNative n.address)⟩
        ((Expands.journey count n operation X m).settle p ⟨n.address, code.length - 1⟩) := by
  obtain ⟨count, operation, X, code, expands, placed⟩ := laid.placed n mem
  exact ⟨count, operation, X, code, expands, placed, expands.nativeStep placed laid.grounded limit⟩

/--
An instruction that does not branch goes on behind its code, unless it fails at the read of an
undefined register or at a division.
-/
theorem step_falls (laid : Laid block p) (mem : n ∈ block) (processor : m.cpu = cpu)
    (limit : m.settings.stepLimit = none) (stays : ¬ Branches n)
    (step : Run.NativeStep p ⟨m, (), .running (.ofNative n.address)⟩ r) :
    r.progress = Progress.within p n.address .finished ∨
      ∃ f operation, r.progress = .failed f ∧ Means n operation ∧
        f.Mild m.settings operation.Divides := by
  obtain ⟨count, operation, X, code, expands, placed, step'⟩ := laid.step_eq mem limit
  obtain rfl := Run.Reaches.unique step step'
  have setup := Expands.journey_setup count n operation X m
  have plain := plain_of_cpu (setup.cpu.trans processor)
  rw [(placed.settle_progress laid.grounded _ plain 0).1]
  have stays' : operation.branches = false := by
    rw [← Bool.not_eq_true]
    exact fun branches => stays ⟨operation, expands.decoded, branches⟩
  have inside := expands.journey_inside stays' m
  obtain ⟨alive, mild⟩ := expands.journey_mild (plain_of_cpu processor)
  cases stance : (Expands.journey count n operation X m).stance with
  | going | seeking => exact .inl rfl
  | halted => exact absurd stance alive
  | left place t => exact absurd stance (inside place t)
  | failed f => exact .inr ⟨f, operation, rfl, expands.decoded, mild stance⟩

/-- A branch register that is not written is kept. -/
theorem register?_of_step (laid : Laid block p) (mem : n ∈ block) (processor : m.cpu = cpu)
    (limit : m.settings.stepLimit = none) (kept : ¬ Writes b n)
    (step : Run.NativeStep p ⟨m, (), .running (.ofNative n.address)⟩ r) :
    r.machine.register? b.name = m.register? b.name := by
  obtain ⟨count, operation, X, code, expands, -, step'⟩ := laid.step_eq mem limit
  obtain rfl := Run.Reaches.unique step step'
  have kept' : operation.writes b = false := by
    rw [← Bool.not_eq_true]
    exact fun writes => kept ⟨operation, expands.decoded, writes⟩
  rw [Journey.register?_settle]
  exact expands.journey_has processor (fun f => f.written b kept') fun same =>
    absurd same b.ne_programCounter

/-- The program counter is left at the native address. -/
theorem counter_of_step (laid : Laid block p) (mem : n ∈ block) (processor : m.cpu = cpu)
    (limit : m.settings.stepLimit = none)
    (step : Run.NativeStep p ⟨m, (), .running (.ofNative n.address)⟩ r) :
    r.machine.register? programCounter =
      some (.ofNat n.address cpu.programCounterWidth .defined) := by
  have plain := plain_of_cpu processor
  have processor' : (m.syncProgramCounter n.address).cpu = cpu := processor
  have counter : (m.syncProgramCounter n.address).register? programCounter =
      some (.ofNat n.address cpu.programCounterWidth .defined) := by
    have name : m.cpu.programCounter = programCounter := processor ▸ rfl
    rw [Machine.syncProgramCounter, Machine.register?_setRegister plain, if_pos name.symm, processor]
  have limit' : (m.syncProgramCounter n.address).settings.stepLimit = none := limit
  obtain ⟨count, operation, X, code, expands, -, step'⟩ := laid.step_eq mem limit'
  obtain rfl := Run.Reaches.unique step
    ((Run.nativeStep_sync plain limit (laid.contains mem)).1 step')
  rw [Journey.register?_settle, ← counter]
  exact expands.journey_has processor' (fun f changes => f.counter changes.mentions) fun _ => counter

/-- A branch register that is neither read nor written makes no difference. -/
theorem step_of_agreesBut (laid : Laid block p) (mem : n ∈ block)
    (limit : m.settings.stepLimit = none) (unread : ¬ Reads b n) (kept : ¬ Writes b n)
    (agree : m.AgreesBut b.name m')
    (step : Run.NativeStep p ⟨m, (), .running (.ofNative n.address)⟩ r) :
    ∃ r', Run.NativeStep p ⟨m', (), .running (.ofNative n.address)⟩ r' ∧
      r'.progress = r.progress ∧ r.machine.AgreesBut b.name r'.machine := by
  obtain ⟨count, operation, X, code, expands, placed, step'⟩ := laid.step_eq mem limit
  obtain rfl := Run.Reaches.unique step step'
  have unused : operation.uses b = false := by
    rw [Operation.uses, Bool.or_eq_false_iff, ← Bool.not_eq_true, ← Bool.not_eq_true]
    exact ⟨fun reads => unread ⟨operation, expands.decoded, reads⟩,
      fun writes => kept ⟨operation, expands.decoded, writes⟩⟩
  obtain ⟨progress, agrees⟩ := (expands.journey_agrees unused agree).settle p
    ⟨n.address, code.length - 1⟩
  have limit' : m'.settings.stepLimit = none := agree.settings ▸ limit
  exact ⟨_, expands.nativeStep placed laid.grounded limit', progress, agrees⟩

/-! ## One instruction by itself -/

/-- The instruction takes a machine somewhere in a program of its own. -/
def Alone (n : NativeInstruction) (m : Machine) (r : Run Unit) : Prop :=
  ∃ q, lift [n] = .ok q ∧ Run.NativeStep q ⟨m, (), .running (.ofNative n.address)⟩ r

/-- A native instruction by itself has one outcome at most. -/
theorem Alone.unique (h : Alone n m r) (h' : Alone n m r') : r = r' := by
  obtain ⟨q, lifted, step⟩ := h
  obtain ⟨q', lifted', step'⟩ := h'
  rw [lifted] at lifted'
  cases lifted'
  exact Run.Reaches.unique step step'

theorem Alone.setup (h : Alone n m r) : m.SameSetup r.machine := by
  obtain ⟨q, -, step⟩ := h
  exact setup_of_nativeStep step

/-- Behind a native instruction the program counter holds its address. -/
theorem Alone.counter (h : Alone n m r) (processor : m.cpu = cpu)
    (limit : m.settings.stepLimit = none) : r.machine.register? programCounter =
      some (.ofNat n.address cpu.programCounterWidth .defined) := by
  obtain ⟨q, lifted, step⟩ := h
  exact counter_of_step (laid_of_lift lifted) (List.mem_singleton_self n) processor limit step

/-- The step of an instruction in a program is its step alone, from any machine that is alike. -/
theorem nativeStep_of_alike (laid : Laid block p) (mem : n ∈ block) (processor : m.cpu = cpu)
    (limit : m.settings.stepLimit = none) (alike : m.Alike [] m') :
    ∃ r r', Alone n m r ∧ Run.NativeStep p ⟨m', (), .running (.ofNative n.address)⟩ r' ∧
      r.machine.SameNative r'.machine ∧ r'.progress = r.progress.within p n.address := by
  have plain := plain_of_cpu processor
  obtain ⟨q, lifted, r, r', alone, step, same, progress, -⟩ :=
    nativeStep_of_laid laid mem (m := m.syncProgramCounter n.address)
      (alike.sync plain n.address) processor limit
  have inside := (laid_of_lift lifted).contains (List.mem_singleton_self n)
  refine ⟨r, r', ⟨q, lifted, (Run.nativeStep_sync plain limit inside).1 alone⟩, ?_, same, progress⟩
  exact (Run.nativeStep_sync (alike.cpu ▸ plain) (alike.settings ▸ limit)
    (laid.contains mem)).1 step

/-- Behind its only instruction a program is over. -/
theorem within_alone {q : Program} (lifted : lift [n] = .ok q) :
    Progress.within q n.address .finished = .finished := by
  have nothing : q.nativeAbove? n.address = none := by
    rw [Program.nativeAbove?_eq_none_iff]
    intro a there
    obtain ⟨other, mem, address⟩ := (laid_of_lift lifted).covered there
    exact Nat.le_of_eq (by rw [← address, List.mem_singleton.1 mem])
  simp only [Progress.within, nothing]

/-! ## Machines that make no difference -/

/-- Machines that are alike go on alike. -/
theorem step_of_alike (laid : Laid block p) (mem : n ∈ block) (processor : m.cpu = cpu)
    (limit : m.settings.stepLimit = none) (alike : m.Alike [] m')
    (step : Run.NativeStep p ⟨m, (), .running (.ofNative n.address)⟩ r) :
    ∃ r', Run.NativeStep p ⟨m', (), .running (.ofNative n.address)⟩ r' ∧
      r'.progress = r.progress ∧ r.machine.Alike [] r'.machine := by
  obtain ⟨e, r₁, alone, step₁, same, progress⟩ :=
    nativeStep_of_alike laid mem processor limit (.refl [] m)
  obtain ⟨e', r', alone', step', same', progress'⟩ :=
    nativeStep_of_alike laid mem processor limit alike
  obtain rfl := Alone.unique alone alone'
  obtain rfl := Run.Reaches.unique step₁ step
  exact ⟨r', step', progress'.trans progress.symm,
    (Machine.Alike.of_sameNative same).symm.trans (.of_sameNative same')⟩

/-- Machines go on alike that are alike but for a branch register that is not used. -/
theorem step_of_unused (laid : Laid block p) (mem : n ∈ block) (processor : m.cpu = cpu)
    (limit : m.settings.stepLimit = none) (unread : ¬ Reads b n) (kept : ¬ Writes b n)
    (alike : m.Alike [b.name] m')
    (step : Run.NativeStep p ⟨m, (), .running (.ofNative n.address)⟩ r) :
    ∃ r', Run.NativeStep p ⟨m', (), .running (.ofNative n.address)⟩ r' ∧
      r'.progress = r.progress ∧ r.machine.Alike [b.name] r'.machine := by
  have plain := plain_of_cpu processor
  -- by way of two machines in which the register has been set to the same
  have left := Machine.agreesBut_setRegister plain b.name 0 registerWidth .defined
  have right := (Machine.agreesBut_setRegister (alike.cpu ▸ plain) b.name 0 registerWidth
    .defined).symm
  have between := alike.setRegister plain 0 registerWidth .defined
  have processor' : (m.setRegister b.name 0 registerWidth .defined).cpu = cpu := processor
  obtain ⟨r₁, step₁, progress₁, agree₁⟩ := step_of_agreesBut laid mem limit unread kept left step
  obtain ⟨r₂, step₂, progress₂, alike₂⟩ := step_of_alike laid mem processor' limit between step₁
  obtain ⟨r₃, step₃, progress₃, agree₃⟩ :=
    step_of_agreesBut laid mem (alike.settings ▸ limit) unread kept right step₂
  refine ⟨r₃, step₃, (progress₃.trans progress₂).trans progress₁, ?_⟩
  exact ((Machine.Alike.of_agreesBut agree₁).trans (alike₂.of_subset (List.nil_subset _))).trans
    (.of_agreesBut agree₃)

end Steps

/-! ## Paths -/

/-- The native instructions that a run visits, in order, and where it comes to. -/
inductive Travels (block : List NativeInstruction) (p : Program) :
    List NativeInstruction → Run Unit → Run Unit → Prop
  | stay (r : Run Unit) : Travels block p [] r r
  | go {n rest m r r'} (mem : n ∈ block)
    (step : Run.NativeStep p ⟨m, (), .running (.ofNative n.address)⟩ r)
    (onward : Travels block p rest r r') :
    Travels block p (n :: rest) ⟨m, (), .running (.ofNative n.address)⟩ r'

section Paths

variable {block visited visited' : List NativeInstruction} {p : Program} {r r' r'' s : Run Unit}
  {b : BranchRegister}

namespace Travels

/-- Paths one behind the other are one path. -/
theorem append (h : Travels block p visited r r') (h' : Travels block p visited' r' r'') :
    Travels block p (visited ++ visited') r r'' := by
  induction h with
  | stay => exact h'
  | go mem step _ ih => exact .go mem step (ih h')

/-- What is visited is in the block. -/
theorem inside (h : Travels block p visited r r') : ∀ n ∈ visited, n ∈ block := by
  induction h with
  | stay => exact fun _ mem => absurd mem List.not_mem_nil
  | go mem _ _ ih => exact List.forall_mem_cons.2 ⟨mem, ih⟩

/-- Where a path comes to, the run comes to. -/
theorem advance (h : Travels block p visited r r') :
    ∃ turns, Run.advance .silent p turns r = r' := by
  induction h with
  | stay r => exact ⟨0, rfl⟩
  | go mem step _ ih =>
    obtain ⟨first, there⟩ := step.advance
    obtain ⟨rest, arrived⟩ := ih
    exact ⟨(first + 1) + rest, by rw [Run.advance_add, Run.advance_succ, there, arrived]⟩

/-- A run from the beginning of a path comes to its end. -/
theorem interpret {m : Machine} {entry : Address}
    (h : Travels block p visited ⟨m.begun, (), .running entry⟩ r) :
    ∃ turns, m.interpret .silent p turns entry () = r := by
  obtain ⟨turns, there⟩ := h.advance
  exact ⟨turns, by rw [Machine.interpret, Run.conclude_silent]; exact there⟩

theorem setup (h : Travels block p visited r r') : r.machine.SameSetup r'.machine := by
  induction h with
  | stay => exact .refl _
  | go mem step _ ih => exact (setup_of_nativeStep step).trans ih

/-- A branch register is kept on a path that does not write it. -/
theorem register? (h : Travels block p visited r r') (laid : Laid block p)
    (processor : r.machine.cpu = cpu) (limit : r.machine.settings.stepLimit = none)
    (kept : ∀ n ∈ visited, ¬ Writes b n) :
    r'.machine.register? b.name = r.machine.register? b.name := by
  induction h with
  | stay => rfl
  | go mem step _ ih =>
    have setup := setup_of_nativeStep step
    have here := register?_of_step laid mem processor limit (kept _ (List.mem_cons_self ..)) step
    rw [ih (setup.cpu.trans processor) (setup.settings ▸ limit) fun n mem =>
      kept n (List.mem_cons_of_mem _ mem), here]

/-- A path that goes on alike, step by step, leads from a run that is alike to one that is. -/
theorem transport {hidden : List String} (h : Travels block p visited r r')
    (each : ∀ n ∈ visited, ∀ {m m' : Machine} {e : Run Unit}, m.cpu = cpu →
      m.settings.stepLimit = none → m.Alike hidden m' →
      Run.NativeStep p ⟨m, (), .running (.ofNative n.address)⟩ e →
      ∃ e', Run.NativeStep p ⟨m', (), .running (.ofNative n.address)⟩ e' ∧
        e'.progress = e.progress ∧ e.machine.Alike hidden e'.machine)
    (processor : r.machine.cpu = cpu) (limit : r.machine.settings.stepLimit = none)
    (progress : s.progress = r.progress) (alike : r.machine.Alike hidden s.machine) :
    ∃ s', Travels block p visited s s' ∧ s'.progress = r'.progress ∧
      r'.machine.Alike hidden s'.machine := by
  induction h generalizing s with
  | stay r => exact ⟨s, .stay s, progress, alike⟩
  | @go n rest m r r' mem step _ ih =>
    have setup := setup_of_nativeStep step
    have start : s = ⟨s.machine, (), .running (.ofNative n.address)⟩ := Run.eq_of_progress progress
    obtain ⟨e, step', progress', alike'⟩ :=
      each n (List.mem_cons_self ..) processor limit alike step
    obtain ⟨s', onward, ends, alike''⟩ := ih (fun n mem => each n (List.mem_cons_of_mem _ mem))
      (setup.cpu.trans processor) (setup.settings ▸ limit) progress' alike'
    exact ⟨s', start ▸ .go mem step' onward, ends, alike''⟩

end Travels

end Paths

end PowerPC

end RegisterTransfer
