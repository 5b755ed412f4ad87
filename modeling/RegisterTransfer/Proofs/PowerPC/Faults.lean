import RegisterTransfer.Proofs.Lacking
import RegisterTransfer.Proofs.PowerPC.Divisions
import RegisterTransfer.Proofs.Waivers

/-!
# Faults of lifted programs

How a run of a lifted program can fail: at a read of a register of the processor that was never
written, where the settings refuse that, at a jump out of the program, or at the step limit. Its
widths always fit, its operands are of the right kind, every opcode is known, and no division meets
a zero, since the code tests for it before.

> `stance_divide`: where undefined registers read as zero, a division always gets to its end.
> `expected_of_nativeStep`: the faults of one native step.
> `lifted_run_faults`: the faults of a whole run.
-/

namespace RegisterTransfer

/-- The faults that a run of lifted code can end in. -/
inductive Fault.Expected (s : MachineSettings) : Fault Address → Prop
  | undefinedRead {name place} (mode : s.undefinedReads = .fail)
    (native : isTemporary name = false) : Expected s (.undefinedRead name place)
  | unmappedTarget {place target} : Expected s (.unmappedTarget place target)
  | stepLimitExceeded {limit} (h : s.stepLimit = some limit) :
    Expected s (.stepLimitExceeded limit)

/-- Where undefined registers read as zero, every register can be read. -/
theorem Machine.exists_holds {m : Machine} (mode : m.settings.undefinedReads = .zero) {n : Nat}
    {name : String} (settled : ¬ m.cpu.Scratch n name) (w : Width) :
    ∃ v, m.Holds n (.register name w) v := by
  rcases m.holds_or_lacks name w with ⟨v, held⟩ | lacks
  · exact ⟨v, held settled⟩
  · exact absurd (mode.symm.trans lacks.mode) nofun

namespace PowerPC

section Steps

variable {block : List NativeInstruction} {p : Program} {n : NativeInstruction} {m : Machine}
  {r : Run Unit} {f : Fault Address}

/-- The journey through a division gets to its end. -/
theorem stance_divide (processor : m.cpu = cpu) (mode : m.settings.undefinedReads = .zero)
    {count : Nat} {signed overflow record : Bool} {rd ra rb : Gpr} {X : Expansion}
    {code : List Instruction}
    (h : Expands count n (.divide signed rd ra rb overflow record) X code) :
    (Expands.journey count n (.divide signed rd ra rb overflow record) X m).stance = .going := by
  have readable : ∀ r : Gpr, ∃ v, m.Holds (blank count n).taken (gprOperand r) v := fun r =>
    Machine.exists_holds mode (processor ▸ not_scratch_gpr r count) registerWidth
  obtain ⟨a, first⟩ := readable ra
  obtain ⟨b, second⟩ := readable rb
  obtain ⟨so, summary⟩ : ∃ so, m.Holds (blank count n).taken StatusBit.summary.operand so :=
    Machine.exists_holds mode (processor ▸ not_scratch_status .summary count) flagWidth
  obtain ⟨_, Y, ran, going, effect⟩ :=
    runs_expandDivide processor signed rd overflow record first second fun _ => summary
  rw [show (expandDivide signed rd ra rb overflow record).run (blank count n) = (.ok (), X) from
    h.ran] at ran
  cases ran
  exact (X.conclude_keeps _ effect.plain count).1.trans going

/-- A step fails as its journey does, or at a jump that finds nothing. -/
theorem failed_of_settle {g : Journey} {pc : Address}
    (h : (g.settle p pc).progress = .failed f) :
    g.stance = .failed f ∨ ∃ place target, f = .unmappedTarget place target := by
  have falling : (Run.follow p pc g.machine () .next).progress ≠ .failed f := by
    unfold Run.follow
    dsimp only
    split <;> exact nofun
  unfold Journey.settle at h
  split at h
  · exact absurd h falling
  · exact absurd h falling
  · cases h
  · split at h
    · cases h
    · cases h
      exact .inr ⟨_, _, rfl⟩
  · next stance =>
    cases h
    exact .inl stance

/-- The faults of one step, where the tests of a division may still meet an undefined register. -/
theorem expected_of_nativeStep (laid : Laid block p) (mem : n ∈ block) (processor : m.cpu = cpu)
    (limit : m.settings.stepLimit = none)
    (step : Run.NativeStep p ⟨m, (), .running (.ofNative n.address)⟩ r)
    (failed : r.progress = .failed f) :
    f.Expected m.settings ∨
      m.settings.undefinedReads = .fail ∧ ∃ place, f = .divisionByZero place := by
  obtain ⟨count, operation, X', code', expands, placed⟩ := laid.placed n mem
  have same := Run.Reaches.unique step (expands.nativeStep placed laid.grounded limit)
  rw [same] at failed
  rcases failed_of_settle failed with stance' | ⟨place, target, rfl⟩
  · have mild := (expands.journey_mild (plain_of_cpu processor)).2 stance'
    cases mild with
    | undefinedRead mode native => exact .inl (.undefinedRead mode native)
    | divisionByZero divides =>
      -- where undefined registers read as zero the tests keep the division from being reached
      cases mode : m.settings.undefinedReads with
      | fail => exact .inr ⟨rfl, _, rfl⟩
      | zero =>
        cases operation with
        | divide =>
          rw [stance_divide processor mode expands] at stance'
          cases stance'
        | _ => cases divides
  · exact .inl .unmappedTarget

/-- The lookup of where control goes on adds no fault. -/
theorem failed_of_within {native : Nat} {progress : Progress}
    (h : progress.within p native = .failed f) : progress = .failed f := by
  unfold Progress.within at h
  split at h
  · split at h <;> cases h
  · split at h
    · cases h
    · exact h
  · exact h

/-- Without a step limit, a fault of a whole run is one of its last native step. -/
theorem expected_of_advance (laid : Laid block p) (processor : m.cpu = cpu)
    (limit : m.settings.stepLimit = none) {start turns : Nat}
    (failed : (Run.advance .silent p turns ⟨m, (), .running (.ofNative start)⟩).progress =
      .failed f) :
    f.Expected m.settings ∨
      m.settings.undefinedReads = .fail ∧ ∃ place, f = .divisionByZero place := by
  let r : Run Unit := ⟨m, (), .running (.ofNative start)⟩
  by_cases inside : p.contains (.ofNative start)
  · obtain ⟨n₀, mem₀, address⟩ := laid.covered inside
    have ready : Ready block r :=
      ⟨processor, limit, fun e => ⟨n₀, mem₀, by cases e; rw [address]; rfl⟩⟩
    have alike : Matches r r := ⟨.refl m, rfl⟩
    have ended : (Run.advance .silent p turns r).AtBoundary := .inl (by rw [Run.isOver, failed])
    obtain ⟨s, path, behind⟩ := lone_of_boundary laid ready alike ended
    rcases path.cases_tail with rfl | ⟨b, before, n, mem, running, q, e, lifted, step, rfl⟩
    · have progress := behind.progress
      rw [failed] at progress
      cases progress
    · -- before the last step the settings are those of the start
      have first : r.AtBoundary := .inr ⟨start, rfl⟩
      obtain ⟨turns', -, matched, ready'⟩ := boundary_of_lone laid ready alike first before
      have settings : b.machine.settings = m.settings := by
        rw [← matched.machine.settings]
        exact (Run.advance_setup .silent p turns' r).settings
      have here : b = ⟨b.machine, (), .running (.ofNative n.address)⟩ := by rw [← running]
      have failed' := failed_of_within (behind.progress.symm.trans failed)
      rw [← settings]
      rw [here] at step
      exact expected_of_nativeStep (laid_of_lift lifted) (List.mem_singleton_self n)
        ready'.processor ready'.limit step failed'
  · -- a run that starts outside the program is over at once
    have nothing : p.get? (.ofNative start) = none := by
      cases there : p.get? (.ofNative start) with
      | none => rfl
      | some i => exact absurd (SortedMap.contains_iff.2 ⟨i, there⟩) inside
    have stops : r.step .silent p = ⟨m, (), .finished⟩ := by
      simp only [r, Run.step, Run.turn, nothing]
    cases turns with
    | zero => cases failed
    | succ turns =>
      rw [Run.advance_succ, stops, Run.advance_of_isOver (by rfl)] at failed
      cases failed

end Steps

/--
A run of a lifted program, from any address and any machine and under any settings, fails only at
the read of an undefined register of the processor, at a jump that leaves the program, or at the step
limit.
-/
theorem lifted_run_faults {block : List NativeInstruction} {p : Program}
    (lifted : lift block = .ok p) {m : Machine} (processor : m.cpu = cpu) {start turns : Nat}
    {f : Fault Address}
    (failed : (m.interpret .silent p turns (.ofNative start) ()).progress = .failed f) :
    f.Expected m.settings := by
  have laid := laid_of_lift lifted
  let r : Run Unit := ⟨m.begun, (), .running (.ofNative start)⟩
  have failed : (Run.advance .silent p turns r).progress = .failed f := by
    rw [Machine.interpret, Run.conclude] at failed
    split at failed
    · exact failed
    · exact failed
  let unlimited : MachineSettings := { m.settings with stepLimit := none }
  have tolerates : r.machine.settings.Tolerates unlimited := ⟨.inl rfl, .inl rfl, .inr rfl⟩
  rcases Run.failed_under tolerates failed with failed' | tolerated
  · rcases expected_of_advance laid (m := m.begun.under unlimited) processor rfl failed' with
      expected | ⟨-, place, rfl⟩
    · cases expected with
      | undefinedRead mode native => exact .undefinedRead mode native
      | unmappedTarget => exact .unmappedTarget
      | stepLimitExceeded none => cases none
    · -- the division would have happened with undefined registers read as zero, too
      let lenient : MachineSettings := { unlimited with undefinedReads := .zero }
      have tolerates' : r.machine.settings.Tolerates lenient := ⟨.inr rfl, .inl rfl, .inr rfl⟩
      rcases Run.failed_under tolerates' failed with failed' | tolerated
      · rcases expected_of_advance laid (m := m.begun.under lenient) processor rfl failed' with
          expected | ⟨mode, -⟩
        · cases expected
        · cases mode
      · cases tolerated
  · -- of what the two settings are about they differ in the step limit only
    cases tolerated with
    | undefinedRead changed | unsupportedOpcode changed => exact absurd rfl changed
    | stepLimit h => exact .stepLimitExceeded h

/-- A move from a register that is never written. -/
def moveOfNothing : NativeInstruction :=
  ⟨0x100, "mr", [.sized .dword (.register "%r3"), .sized .dword (.register "%r4")]⟩

/-- An empty machine fails at the move, and as expected. -/
theorem moveOfNothing_faults :
    ∃ p, lift [moveOfNothing] = .ok p ∧
      ((Machine.start {} cpu).interpret .silent p 1 (.ofNative 0x100) ()).progress =
        .failed (.undefinedRead "%r4" ⟨0x100, 0⟩) ∧
      (Fault.undefinedRead "%r4" ⟨0x100, 0⟩).Expected {} := by
  have mem : (moveOfNothing.mnemonic, Form.move false false) ∈ forms := by
    simp [forms, logicForms, recording, moveOfNothing]
  have expands : Expands 0 moveOfNothing (.move false 3 4 false) _ _ := ⟨⟨_, mem, rfl⟩, rfl, rfl⟩
  obtain ⟨p, lifted, placed⟩ := expands.lift_alone
  have first := placed.get? 0
  have failed : ((Machine.start {} cpu).interpret .silent p 1 (.ofNative 0x100) ()).progress =
      .failed (.undefinedRead "%r4" ⟨0x100, 0⟩) := by
    have turn : Run.turn .silent p (.ofNative 0x100) (Machine.start {} cpu).begun () =
        ⟨(Machine.start {} cpu).begun.syncProgramCounter 0x100, (),
          .failed (.undefinedRead "%r4" ⟨0x100, 0⟩)⟩ := by
      unfold Run.turn
      rw [show p.get? (.ofNative 0x100) = _ from first]
      rfl
    have advanced : Run.advance .silent p 1 (Run.begin .silent (.ofNative 0x100)
        (Machine.start {} cpu) ()) = _ := turn
    rw [Machine.interpret, advanced]
    rfl
  exact ⟨p, lifted, failed, lifted_run_faults lifted rfl failed⟩

end PowerPC

end RegisterTransfer
