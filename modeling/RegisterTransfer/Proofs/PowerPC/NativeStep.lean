import Mathlib.Logic.Relation
import RegisterTransfer.Proofs.PowerPC.Translation

/-!
# Native steps

A run of a lifted program is a sequence of native steps, each from the start of one native
instruction to the next. Every step is that of the instruction lifted by itself, run from the same
registers and memory: what the program adds is only where control goes on, which is the least native
address above when the code runs off its end, and the target when it jumps to one that the program
has. Neither the order of the block nor what temporaries hold makes a difference.

> `nativeStep_of_laid`: one step of the program is one step of the instruction alone.
> `lifted_run_is_lone_steps`: a whole run is the iteration of such steps.
-/

namespace RegisterTransfer

/-! ## Where control goes on -/

/-- The least native address of a program above the given one. -/
def Program.nativeAbove? (p : Program) (native : Nat) : Option Nat :=
  ((p.toList.map (·.address.native)).filter (native < ·)).min?

/--
How a run of a program goes on where the instruction at `native`, alone in a program of its own,
ended in a certain way. Only the end of the code and a jump that found nothing are looked up.
-/
def Progress.within (p : Program) (native : Nat) : Progress → Progress
  | .finished =>
    match p.nativeAbove? native with
    | some next => .running (.ofNative next)
    | none => .finished
  | .failed (.unmappedTarget place target) =>
    if p.contains target then .running target else .failed (.unmappedTarget place target)
  | progress => progress

/-- The native addresses of a program are those it has instructions at. -/
theorem Program.mem_natives_iff {p : Program} {native : Nat} :
    native ∈ p.toList.map (·.address.native) ↔ ∃ a, p.contains a ∧ a.native = native := by
  constructor
  · intro mem
    obtain ⟨i, hi, rfl⟩ := List.mem_map.1 mem
    obtain ⟨⟨a, j⟩, entry, rfl⟩ := List.mem_map.1 hi
    have got : p.code.get? a = some j := SortedMap.mem_toList_iff.1 entry
    exact ⟨a, SortedMap.contains_iff.2 ⟨j, got⟩, by rw [p.keyed got]⟩
  · intro found
    obtain ⟨a, there, rfl⟩ := found
    obtain ⟨i, got⟩ := SortedMap.contains_iff.1 there
    refine List.mem_map.2 ⟨i, ?_, by rw [p.keyed got]⟩
    exact List.mem_map.2 ⟨(a, i), SortedMap.mem_toList_iff.2 got, rfl⟩

/-- The native address above another one is the least that is greater. -/
theorem Program.nativeAbove?_eq_some_iff {p : Program} {native next : Nat} :
    p.nativeAbove? native = some next ↔
      (∃ a, p.contains a ∧ a.native = next) ∧ native < next ∧
        ∀ a, p.contains a → native < a.native → next ≤ a.native := by
  rw [nativeAbove?, List.min?_eq_some_iff]
  simp only [List.mem_filter, decide_eq_true_eq, mem_natives_iff]
  constructor
  · intro found
    obtain ⟨⟨there, above⟩, least⟩ := found
    exact ⟨there, above, fun a ha lt => least a.native ⟨⟨a, ha, rfl⟩, lt⟩⟩
  · intro found
    obtain ⟨there, above, least⟩ := found
    refine ⟨⟨there, above⟩, ?_⟩
    intro _ found
    obtain ⟨⟨a, ha, rfl⟩, lt⟩ := found
    exact least a ha lt

/-- No native address is above the last one of a program. -/
theorem Program.nativeAbove?_eq_none_iff {p : Program} {native : Nat} :
    p.nativeAbove? native = none ↔ ∀ a, p.contains a → a.native ≤ native := by
  rw [nativeAbove?, List.min?_eq_none_iff, List.filter_eq_nil_iff]
  simp only [decide_eq_true_eq, mem_natives_iff, Nat.not_lt]
  constructor
  · intro h a ha
    exact h a.native ⟨a, ha, rfl⟩
  · intro h _ found
    obtain ⟨a, ha, rfl⟩ := found
    exact h a ha

/-- Off the end of placed code, control goes on at the least native address above. -/
theorem Placed.follow_last {p : Program} {native : Nat} {code : List Instruction}
    (placed : Placed p native code) (grounded : p.Grounded) (m : Machine) :
    Run.follow p ⟨native, code.length - 1⟩ m () .next =
      ⟨m, (), Progress.within p native .finished⟩ := by
  unfold Run.follow
  cases next : p.next? ⟨native, code.length - 1⟩ with
  | some q =>
    obtain ⟨start, above, least⟩ := placed.next?_last grounded next
    have there := (SortedMap.next?_eq_some_iff.1 next).1
    have found : p.nativeAbove? native = some q.native :=
      Program.nativeAbove?_eq_some_iff.2 ⟨⟨q, there, rfl⟩, above, least⟩
    simp only [Progress.within, found, ← start]
  | none =>
    have nothing : p.nativeAbove? native = none := by
      refine Program.nativeAbove?_eq_none_iff.2 fun a there => ?_
      by_cases above : native < a.native
      · exact absurd (Address.compare_eq_lt_iff.2 (.inl above))
          (SortedMap.next?_eq_none_iff.1 next a there)
      · omega
    simp only [Progress.within, nothing]

/-! ## The same journey in two programs -/

section Settled

variable {division : Prop} {d : Nat} {Γ : Scope} {p q : Program} {native : Nat}
  {code code' : List Instruction} {g g' : Journey}

/--
Twin journeys through one code alone and in a program end in the same way, but for where the program
goes on.
-/
theorem Journey.Twins.settle_within (twins : g.Twins division d Γ g')
    (alone : Placed q native code) (only : ∀ {a}, q.contains a → a.native = native)
    (placed : Placed p native code') (grounded : p.Grounded) (grounded' : q.Grounded)
    (length : code.length = code'.length) :
    (g.settle q ⟨native, code.length - 1⟩).machine.SameNative
        (g'.settle p ⟨native, code'.length - 1⟩).machine ∧
      (g'.settle p ⟨native, code'.length - 1⟩).progress =
        (g.settle q ⟨native, code.length - 1⟩).progress.within p native := by
  have same := twins.machine.toSameNative
  have nothing_above : q.nativeAbove? native = none :=
    Program.nativeAbove?_eq_none_iff.2 fun a there => Nat.le_of_eq (only there)
  unfold settle
  rw [twins.stance]
  cases stance : g.stance with
  | going | seeking =>
    dsimp only
    rw [alone.follow_last grounded', placed.follow_last grounded]
    refine ⟨same, ?_⟩
    simp only [Progress.within, nothing_above]
  | halted => exact absurd stance twins.alive
  | left place t =>
    dsimp only
    -- the target is in the code itself, elsewhere in the program, or nowhere
    by_cases inside : q.contains t
    · have at_native := only inside
      have there : p.contains t := by
        have here : t = ⟨native, t.offset⟩ := by rw [← at_native]
        rw [here] at inside ⊢
        exact placed.contains_iff.2 (length ▸ alone.contains_iff.1 inside)
      rw [if_pos inside, if_pos there]
      exact ⟨⟨same.settings, same.cpu, same.memory, same.register?⟩, rfl⟩
    · rw [if_neg inside]
      by_cases there : p.contains t
      · rw [if_pos there]
        exact ⟨⟨same.settings, same.cpu, same.memory, same.register?⟩,
          by simp only [Progress.within, there, if_true]⟩
      · rw [if_neg there]
        exact ⟨same, by simp [Progress.within, there]⟩
  | failed f =>
    refine ⟨same, ?_⟩
    cases twins.mild stance <;> rfl

end Settled

namespace PowerPC

/-! ## One instruction by itself -/

/-- A block of one instruction is lifted if a block with it is. -/
theorem Expands.lift_alone {n : NativeInstruction} {operation : Operation} {X : Expansion}
    {code : List Instruction} (h : Expands 0 n operation X code) :
    ∃ q, lift [n] = .ok q ∧ Placed q n.address code := by
  have consecutive := h.consecutive h.written
  have block : (registry.translateBlock environment [n]).1 = .ok code := by
    rw [Registry.translateBlock_singleton]
    exact translate_eq_ok_iff.2 ⟨operation, X, h⟩
  obtain ⟨q, assembled⟩ := Program.ofList_isOk consecutive.nodup
  refine ⟨q, ?_, ?_⟩
  · rw [lift, block]
    dsimp only
    rw [assembled]
    rfl
  · have flat : Program.ofList [code].flatten = .ok q := by rwa [List.flatten_singleton]
    refine consecutive.placed flat (fun other mem => ?_) (List.mem_singleton_self _)
    rw [List.mem_singleton.1 mem]
    exact ⟨n.address, consecutive⟩

/-- The step of an instruction alone is the step of what has its meaning in a program. -/
theorem nativeStep_of_respells {block : List NativeInstruction} {p : Program} (laid : Laid block p)
    {n n' : NativeInstruction} (mem : n' ∈ block)
    (other : ∀ {count operation X code}, Expands count n' operation X code →
      Respells n n' operation)
    {m m' : Machine} (same : m.SameNative m') (processor : m.cpu = cpu)
    (limit : m.settings.stepLimit = none) :
    ∃ q, lift [n] = .ok q ∧ ∃ r r',
      Run.NativeStep q ⟨m, (), .running (.ofNative n.address)⟩ r ∧
      Run.NativeStep p ⟨m', (), .running (.ofNative n'.address)⟩ r' ∧
      r.machine.SameNative r'.machine ∧ r'.progress = r.progress.within p n'.address ∧
      m.SameSetup r.machine ∧ ∀ {t}, r'.progress = .running t → p.contains t := by
  obtain ⟨count, operation, X', code', expands, placed⟩ := laid.placed n' mem
  have expands : Expands (0 + count) n' operation X' code' := by rwa [Nat.zero_add]
  have respells := other expands
  -- alone, what has the same meaning takes its temporaries from zero on
  obtain ⟨X, code, alone, length, -, twins⟩ := expands.respell respells
  obtain ⟨q, lifted, placed_alone⟩ := alone.lift_alone
  have laid_alone := laid_of_lift lifted
  have only : ∀ {a}, q.contains a → a.native = n'.address := by
    intro a there
    obtain ⟨other, mem, address⟩ := laid_alone.covered there
    rw [← address, List.mem_singleton.1 mem, respells.address]
  have plain : m.cpu.Plain := processor ▸ cpu_plain
  obtain ⟨Γ, twins⟩ := twins same plain
  have settled := twins.settle_within (respells.address ▸ placed_alone) only placed laid.grounded
    laid_alone.grounded length
  have limit' : m'.settings.stepLimit = none := same.settings ▸ limit
  have step := alone.nativeStep placed_alone laid_alone.grounded limit
  rw [← respells.address] at step
  exact ⟨q, lifted, _, _, respells.address ▸ step,
    expands.nativeStep placed laid.grounded limit', settled.1, settled.2,
    (Expands.journey_setup ..).trans (Journey.settle_setup ..), Journey.contains_of_settle⟩

/-- The step of the instruction alone is its step in the program. -/
theorem nativeStep_of_laid {block : List NativeInstruction} {p : Program} (laid : Laid block p)
    {n : NativeInstruction} (mem : n ∈ block) {m m' : Machine} (same : m.SameNative m')
    (processor : m.cpu = cpu) (limit : m.settings.stepLimit = none) :
    ∃ q, lift [n] = .ok q ∧ ∃ r r',
      Run.NativeStep q ⟨m, (), .running (.ofNative n.address)⟩ r ∧
      Run.NativeStep p ⟨m', (), .running (.ofNative n.address)⟩ r' ∧
      r.machine.SameNative r'.machine ∧ r'.progress = r.progress.within p n.address ∧
      m.SameSetup r.machine ∧ ∀ {t}, r'.progress = .running t → p.contains t :=
  nativeStep_of_respells laid mem (fun expands => ⟨rfl, expands.decoded, rfl⟩) same processor limit

/-! ## The order of a block -/

/-- The code of every instruction of the block begins at its native address. -/
theorem Laid.contains {block : List NativeInstruction} {p : Program} (laid : Laid block p)
    {n : NativeInstruction} (mem : n ∈ block) : p.contains (.ofNative n.address) := by
  obtain ⟨_, _, _, _, -, placed⟩ := laid.placed n mem
  exact placed.contains_iff.2 placed.length_pos

/-- The instruction of the block whose address is the least one above. -/
theorem Laid.nativeAbove?_eq_some {block : List NativeInstruction} {p : Program}
    (laid : Laid block p) {n : NativeInstruction} (mem : n ∈ block) {native : Nat}
    (above : native < n.address)
    (least : ∀ other ∈ block, native < other.address → n.address ≤ other.address) :
    p.nativeAbove? native = some n.address := by
  refine Program.nativeAbove?_eq_some_iff.2 ⟨⟨_, laid.contains mem, rfl⟩, above, ?_⟩
  intro a there lt
  obtain ⟨other, mem', address⟩ := laid.covered there
  rw [← address] at lt ⊢
  exact least other mem' lt

/-! ## Whole runs -/

/-- One instruction of a block, executed by itself and then resumed in the program. -/
def LoneStep (block : List NativeInstruction) (p : Program) (r r' : Run Unit) : Prop :=
  ∃ n ∈ block, r.progress = .running (.ofNative n.address) ∧ ∃ q s, lift [n] = .ok q ∧
    Run.NativeStep q r s ∧ r' = ⟨s.machine, (), s.progress.within p n.address⟩

/-- Two runs that have come equally far, on machines that agree on all but temporaries. -/
structure Matches (r r' : Run Unit) : Prop where
  machine : r.machine.SameNative r'.machine
  progress : r'.progress = r.progress

/-- A run for the processor, without a step limit, that is over or at an instruction of the block. -/
structure Ready (block : List NativeInstruction) (r : Run Unit) : Prop where
  processor : r.machine.cpu = cpu
  limit : r.machine.settings.stepLimit = none
  mapped : ∀ {t}, r.progress = .running t → ∃ n ∈ block, t = .ofNative n.address

section Iterated

variable {block : List NativeInstruction} {p : Program} {r r' s : Run Unit}

/-- An instruction of the block that is about to run can take its step by itself. -/
theorem exists_loneStep (laid : Laid block p) (ready : Ready block r) {t : Address}
    (running : r.progress = .running t) : ∃ s, LoneStep block p r s := by
  obtain ⟨n, mem, rfl⟩ := ready.mapped running
  obtain ⟨q, lifted, s, -, step, -⟩ :=
    nativeStep_of_laid laid mem (.refl r.machine) ready.processor ready.limit
  have same : r = ⟨r.machine, (), .running (.ofNative n.address)⟩ := by rw [← running]
  exact ⟨_, n, mem, running, q, s, lifted, same ▸ step, rfl⟩

/-- The program does what the instruction does alone. -/
theorem LoneStep.matches (laid : Laid block p) (ready : Ready block r) (alike : Matches r r')
    (step : LoneStep block p r s) :
    ∃ s', Run.NativeStep p r' s' ∧ Matches s s' ∧ Ready block s := by
  obtain ⟨n, mem, running, q, e, lifted, alone, rfl⟩ := step
  obtain ⟨q', lifted', e', s', alone', inside, same, progress, setup, mapped⟩ :=
    nativeStep_of_laid laid mem alike.machine ready.processor ready.limit
  rw [lifted] at lifted'
  cases lifted'
  have at_r : r = ⟨r.machine, (), .running (.ofNative n.address)⟩ := by rw [← running]
  have at_r' : r' = ⟨r'.machine, (), .running (.ofNative n.address)⟩ := by
    rw [← running, ← alike.progress]
  rw [at_r] at alone
  have ends := Run.Reaches.unique alone alone'
  subst ends
  refine ⟨s', at_r' ▸ inside, ⟨same, progress⟩, ?_⟩
  refine ⟨setup.cpu.trans ready.processor, setup.settings ▸ ready.limit, fun {t} running => ?_⟩
  have running : s'.progress = .running t := progress.trans running
  obtain ⟨n', mem', address⟩ := laid.covered (mapped running)
  refine ⟨n', mem', ?_⟩
  rcases inside.atBoundary with ended | ⟨native, start⟩
  · simp [Run.isOver, running] at ended
  · rw [running] at start
    cases start
    rw [address]
    rfl

/-- Whatever boundary the program comes to, the instructions by themselves come to it too. -/
theorem lone_of_boundary (laid : Laid block p) (ready : Ready block r) (alike : Matches r r')
    {turns : Nat} (boundary : (Run.advance .silent p turns r').AtBoundary) :
    ∃ s, Relation.ReflTransGen (LoneStep block p) r s ∧
      Matches s (Run.advance .silent p turns r') := by
  -- on the turns left: a native step takes at least one
  induction turns using Nat.strongRecOn generalizing r r' with
  | _ turns ih =>
    cases running : r.progress with
    | running t =>
      cases turns with
      | zero => exact ⟨r, .refl, alike⟩
      | succ turns =>
        obtain ⟨s, step⟩ := exists_loneStep laid ready running
        obtain ⟨s', inside, alike', ready'⟩ := step.matches laid ready alike
        rw [Run.advance_succ] at boundary ⊢
        obtain ⟨k, le, same⟩ := Run.Reaches.advance_of_atBoundary inside boundary
        rw [same] at boundary ⊢
        obtain ⟨e, path, alike'⟩ := ih k (Nat.lt_succ_of_le le) ready' alike' boundary
        exact ⟨e, .head step path, alike'⟩
    | finished | failed =>
      have ended : r'.isOver := by simp [Run.isOver, alike.progress, running]
      rw [Run.advance_of_isOver ended]
      exact ⟨r, .refl, alike⟩

/-- Wherever the instructions by themselves come to, the program comes to it too. -/
theorem boundary_of_lone (laid : Laid block p) (ready : Ready block r) (alike : Matches r r')
    (start : r'.AtBoundary) (path : Relation.ReflTransGen (LoneStep block p) r s) :
    ∃ turns, (Run.advance .silent p turns r').AtBoundary ∧
      Matches s (Run.advance .silent p turns r') ∧ Ready block s := by
  induction path with
  | refl => exact ⟨0, start, alike, ready⟩
  | tail _ step ih =>
    obtain ⟨turns, -, alike, ready⟩ := ih
    obtain ⟨s', inside, alike', ready'⟩ := step.matches laid ready alike
    obtain ⟨k, there⟩ := inside.advance
    have same : Run.advance .silent p (turns + (k + 1)) r' = s' := by
      rw [Run.advance_add, Run.advance_succ, there]
    exact ⟨turns + (k + 1), same ▸ inside.atBoundary, same ▸ alike', ready'⟩

end Iterated

/-- A loop that counts in `%r3`, its instructions out of order. -/
def countingLoop : List NativeInstruction :=
  [⟨0x104, "b", [.immediate 0x100]⟩,
    ⟨0x100, "addi", [.sized .dword (.register "%r3"), .sized .dword (.register "%r3"),
      .immediate 1]⟩]

theorem expands_countingLoop :
    ∀ n ∈ countingLoop, ∃ operation X code, Expands 0 n operation X code := by
  intro n mem
  simp only [countingLoop, List.mem_cons, List.not_mem_nil, or_false] at mem
  rcases mem with rfl | rfl
  · exact ⟨.branch false 0x100, _, _, ⟨.branch false, by simp [forms, controlForms], rfl⟩, rfl, rfl⟩
  · exact ⟨.sum {} 3 (.register 3) (.constant 1), _, _,
      ⟨.sum {} .immediate false true, by simp [forms, sumForms], rfl⟩, rfl, rfl⟩

/--
From the start of an instruction, a lifted program does to the registers and to memory what the
instruction does alone, whatever temporaries hold, and goes on accordingly; and the boundaries that a
whole run comes to are those that the instructions come to alone, one after the other.
-/
theorem lifted_run_is_lone_steps {block : List NativeInstruction} {p : Program}
    (lifted : lift block = .ok p) :
    ∀ n ∈ block, ∀ m m' : Machine, m.SameNative m' → m.cpu = cpu → m.settings.stepLimit = none →
      (∃ q, lift [n] = .ok q ∧ ∃ r r',
        Run.NativeStep q ⟨m, (), .running (.ofNative n.address)⟩ r ∧
        Run.NativeStep p ⟨m', (), .running (.ofNative n.address)⟩ r' ∧
        r.machine.SameNative r'.machine ∧ r'.progress = r.progress.within p n.address) ∧
      (∀ turns, (Run.advance .silent p turns ⟨m', (), .running (.ofNative n.address)⟩).AtBoundary →
        ∃ s, Relation.ReflTransGen (LoneStep block p) ⟨m, (), .running (.ofNative n.address)⟩ s ∧
          Matches s (Run.advance .silent p turns ⟨m', (), .running (.ofNative n.address)⟩)) ∧
      ∀ s, Relation.ReflTransGen (LoneStep block p) ⟨m, (), .running (.ofNative n.address)⟩ s →
        ∃ turns,
          (Run.advance .silent p turns ⟨m', (), .running (.ofNative n.address)⟩).AtBoundary ∧
          Matches s (Run.advance .silent p turns ⟨m', (), .running (.ofNative n.address)⟩) := by
  intro n mem m m' same processor limit
  have laid := laid_of_lift lifted
  have ready : Ready block ⟨m, (), .running (.ofNative n.address)⟩ :=
    ⟨processor, limit, fun e => ⟨n, mem, by cases e; rfl⟩⟩
  have alike : Matches ⟨m, (), .running (.ofNative n.address)⟩
      ⟨m', (), .running (.ofNative n.address)⟩ := ⟨same, rfl⟩
  refine ⟨?_, fun turns => lone_of_boundary laid ready alike, fun s path => ?_⟩
  · obtain ⟨q, lifted, r, r', alone, inside, same, progress, -⟩ :=
      nativeStep_of_laid laid mem same processor limit
    exact ⟨q, lifted, r, r', alone, inside, same, progress⟩
  · have start : (⟨m', (), .running (.ofNative n.address)⟩ : Run Unit).AtBoundary :=
      .inr ⟨n.address, rfl⟩
    obtain ⟨turns, boundary, alike, -⟩ := boundary_of_lone laid ready alike start path
    exact ⟨turns, boundary, alike⟩

/-- The counting loop from a machine with nothing in it. -/
theorem countingLoop_is_lone_steps :
    ∃ p, lift countingLoop = .ok p ∧ ∀ turns,
      (Run.advance .silent p turns
        ⟨.start {} cpu, (), .running (.ofNative 0x104)⟩).AtBoundary →
      ∃ s, Relation.ReflTransGen (LoneStep countingLoop p)
          ⟨.start {} cpu, (), .running (.ofNative 0x104)⟩ s ∧
        Matches s (Run.advance .silent p turns
          ⟨.start {} cpu, (), .running (.ofNative 0x104)⟩) := by
  obtain ⟨p, lifted⟩ := lift_isOk expands_countingLoop (by decide)
  refine ⟨p, lifted, fun turns => ?_⟩
  exact (lifted_run_is_lone_steps lifted _ (List.mem_cons_self ..) _ _ (.refl _) rfl rfl).2.1 turns

end PowerPC

end RegisterTransfer
