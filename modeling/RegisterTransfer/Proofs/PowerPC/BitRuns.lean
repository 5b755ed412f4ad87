import RegisterTransfer.Proofs.PowerPC.NativeStep
import RegisterTransfer.Proofs.PowerPC.Pairs

/-!
# Bits along runs

What the codes of lifted programs say of every run. A run that begins with 0 or 1 in every bit that
is defined goes on so. The summary flag collects the overflow flag: between the instructions of a
pair it is one write behind, and everywhere else it is what it was at the start, or'ed with whatever
was written to the overflow flag since.

> `bits_stay_bits`: every bit that is defined holds 0 or 1 after every turn.
> `Collects.step`: a turn that writes the overflow flag owes it to the summary flag.
> `summary_collects_overflow`: the summary flag stays defined, stays set, and is the union of the
> overflows at every boundary.
-/

namespace RegisterTransfer

/-! ## Values written -/

namespace Run

variable {σ : Type}

/-- The value that the next turn gives a register, if its instruction writes it and does not fail. -/
def gives? (o : Observer σ) (p : Program) (name : String) (r : Run σ) : Option Nat :=
  match r.progress with
  | .running pc =>
    match p.get? pc with
    | some i =>
      if i.opcode.writesRegister ∧ i.op3.register? = some name then
        match (r.step o p).progress with
        | .failed _ => none
        | _ => (r.step o p).machine.value? name
      else
        none
    | none => none
  | _ => none

/-- The values that a register is given in the first turns of a run, in order. -/
def given (o : Observer σ) (p : Program) (name : String) (turns : Nat) (r : Run σ) : List Nat :=
  (List.range turns).filterMap fun k => (advance o p k r).gives? o p name

/-- One more turn adds what the last instruction gives, if it gives anything. -/
theorem given_succ (o : Observer σ) (p : Program) (name : String) (turns : Nat) (r : Run σ) :
    r.given o p name (turns + 1) =
      r.given o p name turns ++ ((advance o p turns r).gives? o p name).toList :=
  filterMap_range_succ ..

/-- A run that is over gives nothing. -/
theorem gives?_of_isOver {o : Observer σ} {p : Program} {name : String} {r : Run σ}
    (h : r.isOver) : r.gives? o p name = none := by
  unfold isOver at h
  unfold gives?
  cases progress : r.progress with
  | running =>
    rw [progress] at h
    cases h
  | _ => rfl

/-- An instruction that does not change a register gives it nothing. -/
theorem gives?_of_not_changes {o : Observer σ} {p : Program} {name : String} {r : Run σ}
    {pc : Address} {i : Instruction} (running : r.progress = .running pc)
    (found : p.get? pc = some i) (kept : ¬ i.Changes name) : r.gives? o p name = none := by
  unfold gives?
  rw [running]
  dsimp only
  rw [found]
  refine if_neg fun writes => kept ⟨.inl writes.1, ?_⟩
  have named := writes.2
  unfold Operand.register? at named
  split at named
  · next kind =>
    cases named
    exact kind
  · cases named

/-- What an instruction gives a register is what the register then holds. -/
theorem gives?_of_writes {o : Observer σ} {p : Program} {name : String} {r : Run σ}
    {pc : Address} {i : Instruction} (running : r.progress = .running pc)
    (found : p.get? pc = some i) (writes : i.opcode.writesRegister)
    (target : i.op3.kind = .register name) (went : ∀ f, (r.step o p).progress ≠ .failed f) :
    r.gives? o p name = (r.step o p).machine.value? name := by
  have named : i.op3.register? = some name := by
    unfold Operand.register?
    rw [target]
  unfold gives?
  rw [running]
  dsimp only
  rw [found]
  dsimp only
  rw [if_pos ⟨writes, named⟩]
  split
  · next f failed => exact absurd failed (went f)
  · rfl

/-- Where there is no instruction, nothing is given. -/
theorem gives?_of_nothing {o : Observer σ} {p : Program} {name : String} {r : Run σ}
    {pc : Address} (running : r.progress = .running pc) (nothing : p.get? pc = none) :
    r.gives? o p name = none := by
  unfold gives?
  rw [running]
  dsimp only
  rw [nothing]

end Run

namespace PowerPC

/-! ## Bits -/

/--
Whatever program is lifted and however it is run, under any observer and any settings: if at the start
every bit of the exception register and of the condition register that is defined holds 0 or 1, every
such bit does so after any number of turns, also where the run fails later.
-/
theorem bits_stay_bits {block : List NativeInstruction} {p : Program} (lifted : lift block = .ok p)
    {σ : Type} (o : Observer σ) {m : Machine} (watch : σ) (native : Nat) (processor : m.cpu = cpu)
    (bits : ∀ {name v}, BitRegister name → m.value? name = some v → v = 0 ∨ v = 1) (turns : Nat)
    {name : String} {v : Nat} (bit : BitRegister name)
    (value : (m.interpret o p turns (.ofNative native) watch).machine.value? name = some v) :
    v = 0 ∨ v = 1 := by
  -- a turn writes the program counter before anything else, and that has no limit
  have free : bitLimits true m.cpu.programCounter = none := by
    rw [processor]
    exact bitLimits_eq_none not_bitRegister_programCounter true
  have start : ∀ {name}, isTemporary name = false →
      (Run.begin o (.ofNative native) m watch).machine.Within (bitLimits true) name := by
    intro name _ l v limit value
    obtain ⟨rfl, -, bit⟩ := eq_one_of_bitLimits limit
    rcases bits bit value with rfl | rfl
    · exact Nat.zero_le 1
    · exact Nat.le_refl 1
  have within := ((laid_of_lift lifted).tidy true).within (o := o) And.left
    (processor ▸ cpu_plain) free rfl start turns
  rw [Machine.interpret, Run.machine_conclude] at value
  have le := within.native bit.native 1 v (if_pos ⟨rfl, bit⟩) value
  omega

/-- A sum with a carry in and a carry out. -/
def extendedSum : NativeInstruction :=
  ⟨0x100, "adde", [.sized .dword (.register "%r3"), .sized .dword (.register "%r4"),
    .sized .dword (.register "%r5")]⟩

/-- All ones, nothing, and a carry that is set. -/
def beforeExtendedSum : Machine :=
  ((Machine.start {} cpu).setGpr 4 (2 ^ 32 - 1) |>.setGpr 5 0).setStatus .carry 1

/-- With a carry set, bits stay bits throughout the sum. -/
theorem extendedSum_keeps_bits :
    ∃ p, lift [extendedSum] = .ok p ∧ beforeExtendedSum.value? carryFlag = some 1 ∧
      ∀ {turns name v}, BitRegister name →
        (beforeExtendedSum.interpret .silent p turns (.ofNative 0x100) ()).machine.value? name =
          some v → v = 0 ∨ v = 1 := by
  have mem : (extendedSum.mnemonic,
      Form.sum { carryIn := .flag, writesCarry := true } .register false false) ∈ forms := by
    simp [forms, sumForms, sums, carrying, overflowing, recording, extendedSum]
  have expands : Expands 0 extendedSum
      (.sum { carryIn := .flag, writesCarry := true } 3 (.register 4) (.register 5)) _ _ :=
    ⟨⟨_, mem, rfl⟩, rfl, rfl⟩
  obtain ⟨p, lifted, -⟩ := expands.lift_alone
  have bits : ∀ {name v}, BitRegister name → beforeExtendedSum.value? name = some v →
      v = 0 ∨ v = 1 := by
    intro name v bit value
    have apart : ∀ r : Gpr, name ≠ gprName r := fun r same => not_bitRegister_gpr r (same ▸ bit)
    by_cases carry : name = StatusBit.carry.name
    · subst carry
      cases value
      exact .inr rfl
    · simp only [beforeExtendedSum, Machine.value?] at value
      rw [Machine.register?_setStatus rfl, if_neg carry, Machine.register?_setGpr rfl,
        if_neg (apart 5), Machine.register?_setGpr rfl, if_neg (apart 4)] at value
      cases value
  exact ⟨p, lifted, rfl, fun {turns name v} bit value =>
    bits_stay_bits lifted .silent () 0x100 rfl bits turns bit value⟩

/-! ## The summary flag -/

section Summary

variable {σ : Type} {o : Observer σ} {p : Program} {r : Run σ} {total : Nat}

/-- Tidy code with limits for its temporaries, where the bits have no limits. -/
def Loose (T : String → Option Nat) (code : List Instruction) : Prop :=
  Limits (bitLimits false) T code ∧ Tidy T code

/-- Control is between the parts of a pair. -/
def Owes (p : Program) (r : Run σ) : Prop :=
  ∃ pc i, r.progress = .running pc ∧ p.get? pc = some i ∧ Merges i

/-- Between the parts of a pair, the second part is the instruction to come. -/
theorem Owes.at (h : Owes p r) {pc : Address} (running : r.progress = .running pc) :
    ∃ i, p.get? pc = some i ∧ Merges i := by
  obtain ⟨pc', i, running', found, merges⟩ := h
  rw [running] at running'
  cases running'
  exact ⟨i, found, merges⟩

/--
The summary flag is a bit, and it is `total`, except between the parts of a pair, where the overflow
flag is still missing, and in a run that has failed, perhaps there.
-/
structure Collects (p : Program) (total : Nat) (r : Run σ) : Prop where
  bit : ∃ s ≤ 1, r.machine.value? summaryFlag = some s
  settled : (∀ f, r.progress ≠ .failed f) → ¬ Owes p r →
    r.machine.value? summaryFlag = some total
  owing : Owes p r → ∃ s v, s ≤ 1 ∧ v ≤ 1 ∧ r.machine.value? summaryFlag = some s ∧
    r.machine.value? overflowFlag = some v ∧ s ||| v = total

/-- Outside of pairs the summary flag of a run that goes on is the total. -/
theorem Collects.settled_of_running (h : Collects p total r) {pc : Address}
    (running : r.progress = .running pc) (even : ¬ Owes p r) :
    r.machine.value? summaryFlag = some total := by
  refine h.settled (fun f failed => ?_) even
  rw [running] at failed
  cases failed

/-- Nothing more is asked of a run that has failed. -/
theorem Collects.failed {m : Machine} {w : σ} {f : Fault Address}
    (bit : ∃ s ≤ 1, m.value? summaryFlag = some s) (total : Nat) :
    Collects p total ⟨m, w, .failed f⟩ :=
  ⟨bit, fun running => absurd rfl (running f), fun ⟨_, _, running, _⟩ => nomatch running⟩

/-- Only the first part of a pair leads to the second. -/
theorem not_owes_step (tiled : p.Tiled fun code => ∃ T, Loose T code) {T : String → Option Nat}
    {code : List Instruction} {visited : List Nat} {pc : Address} {i : Instruction}
    (visit : Visit p (fun code => ∃ T, Loose T code) code visited pc) (tidy : Tidy T code)
    (running : r.progress = .running pc) (at_pc : code[pc.offset]? = some i) (other : ¬ Raises T i) :
    ¬ Owes p (r.step o p) := by
  intro owes
  obtain ⟨pc', j, next, found, merges⟩ := owes
  rcases tiled.onward visit running next with ⟨-, along⟩ | ⟨code', anew⟩
  -- inside the code the edge says where control comes from, and no code starts with a second part
  · obtain ⟨i', at_pc', raises⟩ := tidy.arrival along.path.edge (along.get?.symm.trans found) merges
    rw [at_pc] at at_pc'
    cases at_pc'
    exact other raises
  · obtain ⟨T', -, tidy'⟩ := anew.tile
    have first := anew.get?.symm.trans found
    rw [anew.path.eq_zero] at first
    exact tidy'.start first merges

/-- A register other than the program counter, which an instruction does not change. -/
theorem value?_executed {m m' : Machine} {native : Nat} {i : Instruction}
    {result : Except (Fault Address) Flow} (plain : m.cpu.Plain)
    (executes : (m.syncProgramCounter native).Executes p i result m') {name : String}
    (kept : ¬ i.Changes name) (ne : name ≠ m.cpu.programCounter) :
    m'.value? name = m.value? name := by
  refine Machine.value?_congr ((executes.register?_eq plain kept).trans ?_)
  exact Machine.register?_syncProgramCounter plain ne native

/-- The disjunction of two bits is a bit. -/
theorem or_le_one {u v : Nat} (hu : u ≤ 1) (hv : v ≤ 1) : u ||| v ≤ 1 := by
  have bits : u < 2 ^ 1 ∧ v < 2 ^ 1 := by omega
  exact Nat.le_of_lt_succ (Nat.or_lt_two_pow bits.1 bits.2)

/-- The second part of a pair computes the union of the two flags. -/
theorem outcome_of_merges {m k : Machine} {i : Instruction} (merges : Merges i) {s v u : Nat}
    (bit : s ≤ 1) (bit' : v ≤ 1) (summary : m.value? summaryFlag = some s)
    (overflow : m.value? overflowFlag = some v) (found : m.outcome i = .ok (u, k)) :
    u = s ||| v := by
  have two : i.opcode.combines := by rw [merges.opcode]; rfl
  rw [outcome_of_combines two] at found
  obtain ⟨c, combined, same⟩ := Machine.ok_of_map found
  cases same
  obtain ⟨a, b, first, second, computed⟩ := Machine.sources_of_combine combined
  simp only [merges.first, Machine.source, flagOperand, Operand.register, summary] at first
  simp only [merges.second, Machine.source, flagOperand, Operand.register, overflow] at second
  rw [merges.opcode] at computed
  cases first
  cases second
  cases computed
  rw [Width.truncate_of_le_one _ bit, Width.truncate_of_le_one _ bit']

/-- A turn that goes well, from an instruction inside tidy code. -/
structure Went (o : Observer σ) (p : Program) (r : Run σ) (T : String → Option Nat)
    (code : List Instruction) (pc : Address) (i : Instruction) (flow : Flow) (m : Machine) : Prop where
  running : r.progress = .running pc
  found : p.get? pc = some i
  executes : (r.machine.syncProgramCounter pc.native).Executes p i (.ok flow) m
  turned : ∃ w, r.step o p = Run.follow p pc m.counted w flow
  placed : Placed p pc.native code
  onward : ¬ Raises T i → ¬ Owes p (r.step o p)

namespace Went

variable {T : String → Option Nat} {code : List Instruction} {pc : Address} {i : Instruction}
  {flow : Flow} {m : Machine}

theorem value? (h : Went o p r T code pc i flow m) (name : String) :
    (r.step o p).machine.value? name = m.value? name := by
  obtain ⟨w, turned⟩ := h.turned
  rw [turned]
  exact Machine.value?_congr (Run.register?_follow ..)

/-- A turn that goes well does not leave the run failed. -/
theorem ne_failed (h : Went o p r T code pc i flow m) (f : Fault Address) :
    (r.step o p).progress ≠ .failed f := by
  obtain ⟨w, turned⟩ := h.turned
  rw [turned]
  exact Run.follow_ne_failed p pc m.counted w flow f

/-- A turn that goes well keeps the registers that its instruction does not change. -/
theorem kept (h : Went o p r T code pc i flow m) (processor : r.machine.cpu = cpu) {name : String}
    (kept : ¬ i.Changes name) (ne : name ≠ programCounter) :
    (r.step o p).machine.value? name = r.machine.value? name := by
  rw [h.value?]
  exact value?_executed (processor ▸ cpu_plain) h.executes kept (processor ▸ ne)

/-- Owing or not, as the instruction at hand says. -/
theorem owes_iff (h : Went o p r T code pc i flow m) : Owes p r ↔ Merges i := by
  constructor
  · intro owes
    obtain ⟨i', found, merges⟩ := owes.at h.running
    rw [h.found] at found
    cases found
    exact merges
  · exact fun merges => ⟨pc, i, h.running, h.found, merges⟩

/-- A lawful instruction touches neither flag. -/
theorem lawful (h : Went o p r T code pc i flow m) (processor : r.machine.cpu = cpu)
    (collects : Collects p total r) (lawful : Lawful T i) :
    r.gives? o p overflowFlag = none ∧ Collects p total (r.step o p) ∧
      (r.step o p).machine.value? summaryFlag = r.machine.value? summaryFlag := by
  have same := h.kept processor lawful.summary (by decide)
  have even : ¬ Owes p r := fun owes => lawful.summary (h.owes_iff.1 owes).changes
  have quiet := h.onward fun raises => lawful.overflow raises.changes
  refine ⟨Run.gives?_of_not_changes h.running h.found lawful.overflow, ⟨?_, ?_, ?_⟩, same⟩
  · rw [same]
    exact collects.bit
  · intro _ _
    rw [same]
    exact collects.settled_of_running h.running even
  · exact fun owes => absurd owes quiet

/-- The first part of a pair sets the overflow flag, and leads to the second part. -/
theorem raises (h : Went o p r T code pc i flow m) (processor : r.machine.cpu = cpu)
    (collects : Collects p total r) (raises : Raises T i) {j : Instruction}
    (next : code[pc.offset + 1]? = some j) (merges : Merges j)
    (le : ∀ {v k}, (r.machine.syncProgramCounter pc.native).outcome i = .ok (v, k) →
      i.op3.width.truncate v ≤ 1) :
    ∃ v, r.gives? o p overflowFlag = some v ∧ Collects p (total ||| v) (r.step o p) ∧
      (r.step o p).machine.value? summaryFlag = r.machine.value? summaryFlag := by
  have plain : r.machine.cpu.Plain := processor ▸ cpu_plain
  have target : i.op3.kind = .register overflowFlag := congrArg Operand.kind raises.target
  have writes : i.opcode.writesRegister := by rw [raises.opcode]; rfl
  have apart : ¬ i.Changes summaryFlag := fun changes =>
    absurd (OperandKind.register.inj (changes.2.symm.trans target)) (by decide)
  have same := h.kept processor apart (by decide)
  obtain ⟨flows, v, k, outcome, value⟩ := h.executes.value?_written plain writes target
  rw [← h.value?] at value
  have even : ¬ Owes p r := fun owes => raises.not_merges (h.owes_iff.1 owes)
  have settled := collects.settled_of_running h.running even
  -- a move does not jump, so the instruction behind it is next
  have owes : Owes p (r.step o p) := by
    have inside := (List.getElem?_eq_some_iff.1 next).1
    have onward : p.next? pc = some ⟨pc.native, pc.offset + 1⟩ := h.placed.next?_inside inside
    obtain ⟨w, turned⟩ := h.turned
    refine ⟨⟨pc.native, pc.offset + 1⟩, j, ?_, (h.placed.get? _).trans next, merges⟩
    rw [turned, flows]
    simp only [Run.follow, onward]
  refine ⟨i.op3.width.truncate v, ?_, ⟨?_, fun _ quiet => absurd owes quiet, fun _ => ?_⟩, same⟩
  · rw [Run.gives?_of_writes h.running h.found writes target h.ne_failed, value]
  · rw [same]
    exact collects.bit
  · obtain ⟨s, bit, summary⟩ := collects.bit
    rw [settled] at summary
    cases summary
    exact ⟨total, _, bit, le outcome, same.trans settled, value, rfl⟩

/-- The second part of a pair settles what the first one owes. -/
theorem merges (h : Went o p r T code pc i flow m) (processor : r.machine.cpu = cpu)
    (collects : Collects p total r) (merges : Merges i) :
    r.gives? o p overflowFlag = none ∧ Collects p total (r.step o p) ∧
      ∃ s, r.machine.value? summaryFlag = some s ∧ s ≤ total ∧
        (r.step o p).machine.value? summaryFlag = some total := by
  have plain : r.machine.cpu.Plain := processor ▸ cpu_plain
  have target : i.op3.kind = .register summaryFlag := congrArg Operand.kind merges.target
  have writes : i.opcode.writesRegister := by rw [merges.opcode]; rfl
  obtain ⟨s, v, bit, bit', summary, overflow, rfl⟩ := collects.owing (h.owes_iff.2 merges)
  obtain ⟨-, u, k, outcome, value⟩ := h.executes.value?_written plain writes target
  -- the instruction sees the flags as the turn before left them
  have synced : ∀ {name}, name ≠ programCounter →
      (r.machine.syncProgramCounter pc.native).value? name = r.machine.value? name := by
    intro name ne
    exact Machine.value?_congr (Machine.register?_syncProgramCounter plain (processor ▸ ne) _)
  have union := outcome_of_merges merges bit bit' ((synced (by decide)).trans summary)
    ((synced (by decide)).trans overflow) outcome
  have le := or_le_one bit bit'
  rw [union, Width.truncate_of_le_one _ le, ← h.value?] at value
  have quiet := h.onward fun raises => raises.not_merges merges
  have apart : ¬ i.Changes overflowFlag := fun changes =>
    absurd (OperandKind.register.inj (changes.2.symm.trans target)) (by decide)
  exact ⟨Run.gives?_of_not_changes h.running h.found apart,
    ⟨⟨_, le, value⟩, fun _ _ => value, fun owes => absurd owes quiet⟩, s, summary, Nat.left_le_or,
    value⟩

end Went

/-- One turn: what is written to the overflow flag is collected, and the summary flag stays set. -/
theorem Collects.step (h : Collects p total r) (processor : r.machine.cpu = cpu)
    (tiled : p.Tiled fun code => ∃ T, Loose T code) (within : r.Within p (bitLimits false) Loose) :
    Collects p ((r.gives? o p overflowFlag).toList.foldl (· ||| ·) total) (r.step o p) ∧
      ∃ s s', r.machine.value? summaryFlag = some s ∧
        (r.step o p).machine.value? summaryFlag = some s' ∧ s ≤ s' := by
  have plain : r.machine.cpu.Plain := processor ▸ cpu_plain
  obtain ⟨s, bit, summary⟩ := h.bit
  have effect := Run.turns o p r
  generalize turned : r.step o p = r' at effect
  cases effect with
  | ended halted =>
    rw [Run.gives?_of_isOver halted]
    exact ⟨h, s, s, summary, summary, Nat.le_refl s⟩
  | @off pc running nothing =>
    have settled : r.machine.value? summaryFlag = some total := by
      refine h.settled_of_running running fun owes => ?_
      obtain ⟨i, found, -⟩ := owes.at running
      rw [nothing] at found
      cases found
    rw [Run.gives?_of_nothing running nothing]
    refine ⟨⟨h.bit, fun _ _ => settled, fun owes => ?_⟩, s, s, summary, summary, Nat.le_refl s⟩
    obtain ⟨pc', i, running', -⟩ := owes
    cases running'
  | stopped => exact ⟨.failed h.bit _, s, s, summary, summary, Nat.le_refl s⟩
  | @failed pc i f m w running found executes =>
    have same : m.value? summaryFlag = r.machine.value? summaryFlag := by
      have ne : summaryFlag ≠ r.machine.cpu.programCounter := by
        rw [processor]
        decide
      exact Machine.value?_congr ((executes.register?_of_error summaryFlag).trans
        (Machine.register?_syncProgramCounter plain ne _))
    have summary' := same.trans summary
    exact ⟨.failed ⟨s, bit, summary'⟩ _, s, s, summary, summary', Nat.le_refl s⟩
  | @went pc i flow m w running found executes =>
    have synced := within.sync And.left pc.native
    obtain ⟨code, visited, T, visit, here, written⟩ :=
      synced.inside running (SortedMap.contains_iff.2 ⟨i, found⟩)
    have at_pc : code[pc.offset]? = some i := visit.get?.symm.trans found
    have went : Went o p r T code pc i flow m :=
      ⟨running, found, executes, ⟨w, turned⟩, visit.placed,
        not_owes_step tiled visit here.2 running at_pc⟩
    rw [← turned]
    -- the three kinds of instruction in tidy code
    rcases here.2.each at_pc with lawful | ⟨raises, j, next, merges⟩ | merges
    · obtain ⟨nothing, collects, same⟩ := went.lawful processor h lawful
      rw [nothing]
      exact ⟨collects, s, s, summary, same.trans summary, Nat.le_refl s⟩
    · have le : ∀ {v k}, (r.machine.syncProgramCounter pc.native).outcome i = .ok (v, k) →
          i.op3.width.truncate v ≤ 1 := by
        intro v k outcome
        refine Nat.le_trans (Machine.outcome_le outcome (by rw [raises.opcode]; rfl)
          (here.1.reads_within synced.native written visit.path at_pc)) ?_
        rw [Instruction.ceiling, raises.opcode]
        exact Nat.le_trans (Nat.min_le_left _ _) raises.flag
      obtain ⟨v, gives, collects, same⟩ := went.raises processor h raises next merges le
      rw [gives]
      exact ⟨collects, s, s, summary, same.trans summary, Nat.le_refl s⟩
    · obtain ⟨nothing, collects, s', summary', le, value⟩ := went.merges processor h merges
      rw [nothing]
      exact ⟨collects, s', total, summary', value, le⟩

/-- No code begins with the second part of a pair. -/
theorem not_owes_start (tiled : p.Tiled fun code => ∃ T, Loose T code) {a : Nat}
    (start : r.progress = .running (.ofNative a)) : ¬ Owes p r := by
  intro owes
  obtain ⟨i, found, merges⟩ := owes.at start
  obtain ⟨code, visit⟩ := tiled.enter a (SortedMap.contains_iff.2 ⟨i, found⟩)
  obtain ⟨T, -, tidy⟩ := visit.tile
  exact tidy.start (visit.get?.symm.trans found) merges

/-- What a run is known to be after any number of turns. -/
theorem Collects.advance {s : Nat} (h : Collects p s r) (processor : r.machine.cpu = cpu)
    (tiled : p.Tiled fun code => ∃ T, Loose T code)
    (within : ∀ turns, (Run.advance o p turns r).Within p (bitLimits false) Loose) (turns : Nat) :
    Collects p ((r.given o p overflowFlag turns).foldl (· ||| ·) s) (Run.advance o p turns r) := by
  induction turns with
  | zero => exact h
  | succ turns ih =>
    rw [← Run.step_advance, Run.given_succ, List.foldl_append]
    exact (ih.step ((Run.advance_setup ..).cpu.trans processor) tiled (within turns)).1

/-- The summary flag never decreases. -/
theorem Collects.grows {s t : Nat} (h : Collects p s r) (processor : r.machine.cpu = cpu)
    (tiled : p.Tiled fun code => ∃ T, Loose T code)
    (within : ∀ turns, (Run.advance o p turns r).Within p (bitLimits false) Loose) {turns : Nat}
    (value : (Run.advance o p turns r).machine.value? summaryFlag = some t) (more : Nat) :
    ∃ t', (Run.advance o p (turns + more) r).machine.value? summaryFlag = some t' ∧ t ≤ t' := by
  induction more with
  | zero => exact ⟨t, value, Nat.le_refl t⟩
  | succ more ih =>
    obtain ⟨u, before, le⟩ := ih
    have collects := h.advance (o := o) processor tiled within (turns + more)
    obtain ⟨-, v, v', before', value', le'⟩ :=
      collects.step (o := o) ((Run.advance_setup ..).cpu.trans processor) tiled (within (turns + more))
    rw [before] at before'
    cases before'
    rw [Run.step_advance] at value'
    exact ⟨v', value', Nat.le_trans le le'⟩

end Summary

/--
Sticky overflow. Whatever program is lifted and however it is run, under any observer and any
settings: if the summary flag is defined and a bit at the start, it is so after any number of turns,
and it never goes back. Where the run has finished or is about to enter an instruction, the summary
flag is what it was at the start, or'ed with every value written to the overflow flag since.
-/
theorem summary_collects_overflow {block : List NativeInstruction} {p : Program}
    (lifted : lift block = .ok p) {σ : Type} (o : Observer σ) {m : Machine} (watch : σ)
    (native : Nat) (processor : m.cpu = cpu) {s : Nat} (summary : m.value? summaryFlag = some s)
    (bit : s = 0 ∨ s = 1) (turns : Nat) :
    let run := fun turns => m.interpret o p turns (.ofNative native) watch
    ∃ s', (run turns).machine.value? summaryFlag = some s' ∧ (s' = 0 ∨ s' = 1) ∧
      (s' = 1 → ∀ more, (run (turns + more)).machine.value? summaryFlag = some 1) ∧
      ((run turns).progress = .finished ∨ (∃ a, (run turns).progress = .running (.ofNative a)) →
        s' = ((Run.begin o (.ofNative native) m watch).given o p overflowFlag turns).foldl
          (· ||| ·) s) := by
  intro run
  have tiled : p.Tiled fun code => ∃ T, Loose T code := (laid_of_lift lifted).tidy false
  have plain : m.cpu.Plain := processor ▸ cpu_plain
  have within := tiled.within (o := o) (r := Run.begin o (.ofNative native) m watch) And.left plain
    rfl rfl fun _ _ _ limit => absurd (eq_one_of_bitLimits limit).2.1 Bool.false_ne_true
  have le : s ≤ 1 := by omega
  have start : Collects p s (Run.begin o (.ofNative native) m watch) :=
    ⟨⟨s, le, summary⟩, fun _ _ => summary, fun owes => absurd owes (not_owes_start tiled rfl)⟩
  have collects := start.advance (o := o) processor tiled within turns
  obtain ⟨s', bit', value⟩ := collects.bit
  simp only [run, Machine.interpret, Run.machine_conclude, Run.progress_conclude]
  refine ⟨s', value, by omega, fun set more => ?_, fun boundary => ?_⟩
  -- a flag that is set can only grow, and stays a bit
  · obtain ⟨t, value', le'⟩ := start.grows processor tiled within value more
    obtain ⟨t', bit'', value''⟩ := (start.advance (o := o) processor tiled within (turns + more)).bit
    rw [value'] at value''
    cases value''
    rw [value', show t = 1 by omega]
  -- at a boundary nothing is owed
  · rcases boundary with finished | ⟨a, running⟩
    · have settled := collects.settled (by simp [finished]) fun owes => by
        obtain ⟨pc, i, running, -⟩ := owes
        rw [finished] at running
        cases running
      rw [value] at settled
      exact Option.some.inj settled
    · have settled := collects.settled (by simp [running]) (not_owes_start tiled running)
      rw [value] at settled
      exact Option.some.inj settled

/-- A signed division that may overflow. -/
def checkedQuotient : NativeInstruction :=
  ⟨0x100, "divwo", [.sized .dword (.register "%r3"), .sized .dword (.register "%r4"),
    .sized .dword (.register "%r5")]⟩

/-- A machine in which the summary flag is set. -/
def afterOverflow : Machine :=
  ((Machine.start {} cpu).setGpr 4 6 |>.setGpr 5 3).setStatus .summary 1

/-- A division without overflow clears the overflow flag, but the summary flag stays set. -/
theorem checkedQuotient_keeps_summary :
    ∃ p, lift [checkedQuotient] = .ok p ∧ ∀ turns,
      (afterOverflow.interpret .silent p turns (.ofNative 0x100) ()).machine.value? summaryFlag =
        some 1 := by
  have mem : (checkedQuotient.mnemonic, Form.divide true true false) ∈ forms := by
    simp [forms, productForms, overflowing, recording, checkedQuotient]
  have expands : Expands 0 checkedQuotient (.divide true 3 4 5 true false) _ _ :=
    ⟨⟨_, mem, rfl⟩, rfl, rfl⟩
  obtain ⟨p, lifted, -⟩ := expands.lift_alone
  refine ⟨p, lifted, fun turns => ?_⟩
  obtain ⟨s, value, -, stays, -⟩ := summary_collects_overflow lifted .silent () 0x100
    (m := afterOverflow) rfl (s := 1) rfl (.inr rfl) 0
  have start : (afterOverflow.interpret .silent p 0 (.ofNative 0x100) ()).machine.value?
      summaryFlag = some 1 := rfl
  rw [start] at value
  cases value
  have stayed := stays rfl turns
  rwa [Nat.zero_add] at stayed

end PowerPC

end RegisterTransfer
