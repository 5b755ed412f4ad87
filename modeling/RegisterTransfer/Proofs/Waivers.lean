import RegisterTransfer.Proofs.Plans

/-!
# Runs under other settings

Settings may refuse what others let pass: a read of an undefined register, an instruction without
known meaning, and a turn beyond the step limit. Under settings that tolerate more, a run goes on
exactly as before until it meets a fault that they tolerate.

> `Machine.execute_under`: one instruction under settings that tolerate more.
> `Run.advance_tolerates`, `Run.failed_under`: a whole run under settings that tolerate more.
> `leniency_only_removes_faults`: the same of the two ways to be lenient, with the state of the run
> before it fails.
-/

namespace RegisterTransfer

/--
The second settings tolerate whatever the first ones do: they may let undefined registers read as
zero, skip unknown instructions and drop the step limit.
-/
structure MachineSettings.Tolerates (s s' : MachineSettings) : Prop where
  undefinedReads : s'.undefinedReads = s.undefinedReads ∨ s'.undefinedReads = .zero
  unknownOpcodes : s'.unknownOpcodes = s.unknownOpcodes ∨ s'.unknownOpcodes = .skip
  stepLimit : s'.stepLimit = s.stepLimit ∨ s'.stepLimit = none

/-- A fault under the first settings that cannot arise under the second ones. -/
inductive Fault.Tolerated (s s' : MachineSettings) : Fault Address → Prop
  | undefinedRead {name place} (changed : s'.undefinedReads ≠ s.undefinedReads) :
    Tolerated s s' (.undefinedRead name place)
  | unsupportedOpcode {mnemonic place} (changed : s'.unknownOpcodes ≠ s.unknownOpcodes) :
    Tolerated s s' (.unsupportedOpcode mnemonic place)
  | stepLimit {limit} (h : s.stepLimit = some limit) (changed : s'.stepLimit ≠ s.stepLimit) :
    Tolerated s s' (.stepLimitExceeded limit)

/-- What comes out under two settings: the same, but for a fault that is tolerated. -/
def Eased (s s' : MachineSettings) {α : Type} (fail : Fault Address → α) (x x' : α) : Prop :=
  x' = x ∨ ∃ f, x = fail f ∧ f.Tolerated s s'

namespace Eased

variable {s s' : MachineSettings} {α β : Type} {x x' : Except (Fault Address) α}

theorem refl (fail : Fault Address → α) (x : α) : Eased s s' fail x x := .inl rfl

/-- A sequence is eased if its parts are: a tolerated fault in the first ends the first run only. -/
theorem bind {f f' : α → Except (Fault Address) β} (h : Eased s s' .error x x')
    (next : ∀ a, Eased s s' .error (f a) (f' a)) : Eased s s' .error (x >>= f) (x' >>= f') := by
  rcases h with rfl | ⟨f, rfl, tolerated⟩
  · cases x' with
    | error f => exact .inl rfl
    | ok a => exact next a
  · exact .inr ⟨f, rfl, tolerated⟩

/--
A plan that depends on a result is eased if the result is, and so is every plan that may follow.
-/
theorem after {f f' : α → Plan} (h : Eased s s' .error x x')
    (next : ∀ a, Eased s s' Plan.fail (f a) (f' a)) :
    Eased s s' Plan.fail (.after x f) (.after x' f') := by
  rcases h with rfl | ⟨f, rfl, tolerated⟩
  · cases x' with
    | error f => exact .inl rfl
    | ok a => exact next a
  · exact .inr ⟨f, rfl, tolerated⟩

end Eased

namespace Machine

/-! ## One instruction -/

/-- The same machine under other settings. -/
def under (m : Machine) (s : MachineSettings) : Machine := { m with settings := s }

/-- Effects do not depend on the settings. -/
theorem foldl_enact_under (effects : List Effect) (m : Machine) (s : MachineSettings) :
    effects.foldl enact (m.under s) = (effects.foldl enact m).under s := by
  induction effects generalizing m with
  | nil => rfl
  | cons effect rest ih =>
    have one : (m.under s).enact effect = (m.enact effect).under s := by cases effect <;> rfl
    rw [List.foldl_cons, List.foldl_cons, one, ih]

variable {m : Machine} {s' : MachineSettings}

/-- An operand reads the same, unless it is an undefined register that reads as zero now. -/
theorem source_under (tolerates : m.settings.Tolerates s') (place : Address) (o : Operand) :
    Eased m.settings s' .error (m.source place o) ((m.under s').source place o) := by
  have same : ∀ name, (m.under s').value? name = m.value? name := fun _ => rfl
  unfold source
  split
  · exact .refl ..
  · next name _ =>
    rw [same]
    split
    · exact .refl ..
    · by_cases changed : s'.undefinedReads = m.settings.undefinedReads
      · rw [show (m.under s').settings.undefinedReads = m.settings.undefinedReads from changed]
        exact .refl ..
      · -- the settings differ here, so the first ones are the strict ones
        have zero := tolerates.undefinedReads.resolve_left changed
        cases mode : m.settings.undefinedReads with
        | fail => exact .inr ⟨_, rfl, .undefinedRead changed⟩
        | zero => exact absurd (zero.trans mode.symm) changed
  · exact .refl ..
  · exact .refl ..

/-- A jump finds the same target, unless it depends on an undefined register. -/
theorem target_under (tolerates : m.settings.Tolerates s') (place : Address) (o : Operand) :
    Eased m.settings s' .error (m.target place o) ((m.under s').target place o) := by
  unfold target
  split
  · exact .refl ..
  · exact .refl ..
  · exact (source_under tolerates place o).bind fun _ => .refl ..
  · exact (source_under tolerates place o).bind fun _ => .refl ..

/-- Two sources combine alike, unless one of them is an undefined register. -/
theorem combine_under (tolerates : m.settings.Tolerates s') (i : Instruction) :
    Eased m.settings s' .error (m.combine i) ((m.under s').combine i) := by
  apply (Eased.refl .error i.checkWidths).bind
  intro _
  apply (source_under tolerates i.address i.op1).bind
  intro a
  apply (source_under tolerates i.address i.op2).bind
  intro b
  exact .refl ..

/-- A jump goes the same way, unless its condition or its target is an undefined register. -/
theorem branch_under (tolerates : m.settings.Tolerates s') (p : Program) (i : Instruction) :
    Eased m.settings s' .error (m.branch p i) ((m.under s').branch p i) := by
  apply (source_under tolerates i.address i.op1).bind
  intro condition
  split
  · exact .refl ..
  · apply (target_under tolerates i.address i.op3).bind
    intro t
    exact .refl ..

/-- Under settings that tolerate more an instruction has the same plan, unless it plans to fail. -/
theorem plan_under (tolerates : m.settings.Tolerates s') (p : Program) (i : Instruction) :
    Eased m.settings s' Plan.fail (m.plan p i) ((m.under s').plan p i) := by
  have first := source_under tolerates i.address i.op1
  unfold plan
  cases i.opcode with
  | add | sub | mul | div | mod | bsh | and | or | xor =>
    exact (combine_under tolerates i).after fun _ => .refl ..
  | bisz | str | ldm => exact first.after fun _ => .refl ..
  | jcc => exact (branch_under tolerates p i).after fun _ => .refl ..
  | stm =>
    refine first.after fun v => ?_
    exact (source_under tolerates i.address i.op3).after fun _ => .refl ..
  | undef | nop | halt => exact .refl ..
  | unkn =>
    by_cases changed : s'.unknownOpcodes = m.settings.unknownOpcodes
    · rw [show (m.under s').settings.unknownOpcodes = m.settings.unknownOpcodes from changed]
      exact .refl ..
    · have skip := tolerates.unknownOpcodes.resolve_left changed
      cases mode : m.settings.unknownOpcodes with
      | fail => exact .inr ⟨_, rfl, .unsupportedOpcode changed⟩
      | skip => exact absurd (skip.trans mode.symm) changed

/--
Under settings that tolerate more an instruction does the same, unless it meets a fault that they
tolerate before it has done anything.
-/
theorem execute_under (tolerates : m.settings.Tolerates s') (p : Program) (i : Instruction) :
    (m.under s').execute p i = ((m.execute p i).1, (m.execute p i).2.under s') ∨
      ∃ f, m.execute p i = (.error f, m) ∧ f.Tolerated m.settings s' := by
  rw [execute_eq_plan, execute_eq_plan]
  rcases plan_under tolerates p i with same | ⟨f, e, tolerated⟩
  · rw [same, realize, realize, foldl_enact_under]
    exact .inl rfl
  · rw [e]
    exact .inr ⟨f, rfl, tolerated⟩

/-- Settings that tolerate more may drop the step limit. -/
theorem spent?_under (tolerates : m.settings.Tolerates s') :
    (m.under s').spent? = m.spent? ∨
      (m.under s').spent? = none ∧ s'.stepLimit ≠ m.settings.stepLimit := by
  by_cases changed : s'.stepLimit = m.settings.stepLimit
  · exact .inl (by rw [spent?, under, changed]; rfl)
  · refine .inr ⟨?_, changed⟩
    rw [spent?, under, tolerates.stepLimit.resolve_left changed]
    rfl

end Machine

namespace Run

/-! ## Runs -/

variable {σ : Type} {o : Observer σ} {r : Run σ} {s s' : MachineSettings}

/-- The same run under other settings. -/
def under (r : Run σ) (s : MachineSettings) : Run σ := { r with machine := r.machine.under s }

/-- Runs under two settings: the same, but for a fault that is tolerated. -/
def EasedRun (s s' : MachineSettings) (r r' : Run σ) : Prop :=
  r' = r.under s' ∨ ∃ f, r.progress = .failed f ∧ f.Tolerated s s'

theorem follow_under (p : Program) (pc : Address) (m : Machine) (w : σ) (s : MachineSettings)
    (flow : Flow) : follow p pc (m.under s) w flow = (follow p pc m w flow).under s := by
  cases flow with
  | halt | jump => rfl
  | next =>
    unfold follow
    dsimp only
    split <;> rfl

/-- Where an instruction does the same under other settings, so does its part of the turn. -/
theorem perform_of_execute_under {m : Machine} {p : Program} {pc : Address} {i : Instruction}
    (same : ((m.syncProgramCounter pc.native).under s').execute p i =
      (((m.syncProgramCounter pc.native).execute p i).1,
        ((m.syncProgramCounter pc.native).execute p i).2.under s')) (w : σ) :
    perform p pc i (m.under s') w = (perform p pc i m w).under s' := by
  unfold perform
  rw [show (m.under s').syncProgramCounter pc.native =
    (m.syncProgramCounter pc.native).under s' from rfl, same]
  cases (m.syncProgramCounter pc.native).execute p i with
  | mk result m' =>
    cases result with
    | error f => rfl
    | ok flow => exact follow_under p pc m'.counted w s' flow

/-- To perform an instruction is the same, unless it meets a tolerated fault. -/
theorem perform_under {m : Machine} (tolerates : m.settings.Tolerates s') (p : Program)
    (pc : Address) (i : Instruction) (w : σ) :
    EasedRun m.settings s' (perform p pc i m w) (perform p pc i (m.under s') w) := by
  rcases Machine.execute_under (m := m.syncProgramCounter pc.native) tolerates p i with
    same | ⟨f, e, tolerated⟩
  · exact .inl (perform_of_execute_under same w)
  · refine .inr ⟨f, ?_, tolerated⟩
    rw [perform, e]

/-- The observer is asked the same, and the instruction comes out the same or is tolerated. -/
theorem consult_under {m : Machine} (tolerates : m.settings.Tolerates s') (p : Program)
    (pc : Address) (i : Instruction) (w : σ) :
    EasedRun m.settings s' (consult o p pc i m w) (consult o p pc i (m.under s') w) := by
  unfold consult
  split
  · exact .inl rfl
  · exact perform_under tolerates p pc i _

/-- One turn under settings that tolerate more. -/
theorem turn_under (p : Program) (pc : Address) {m : Machine} (w : σ)
    (tolerates : m.settings.Tolerates s') :
    EasedRun m.settings s' (turn o p pc m w) (turn o p pc (m.under s') w) := by
  cases found : p.get? pc with
  | none =>
    rw [turn_off found, turn_off found]
    exact .inl rfl
  | some i =>
    rcases m.spent?_under tolerates with same | ⟨free, changed⟩
    · cases spent : m.spent? with
      | some limit =>
        rw [turn_spent found spent, turn_spent found (same.trans spent)]
        exact .inl rfl
      | none =>
        rw [turn_consult found spent, turn_consult found (same.trans spent)]
        exact consult_under tolerates p pc i w
    · rw [turn_consult found free]
      cases spent : m.spent? with
      | some limit =>
        rw [turn_spent found spent]
        exact .inr ⟨_, rfl, .stepLimit (Option.filter_eq_some_iff.1 spent).1 changed⟩
      | none =>
        rw [turn_consult found spent]
        exact consult_under tolerates p pc i w

/-- One more turn is the same, unless it meets a tolerated fault. -/
theorem step_under (p : Program) (tolerates : r.machine.settings.Tolerates s') :
    EasedRun r.machine.settings s' (r.step o p) ((r.under s').step o p) := by
  unfold step
  rw [show (r.under s').progress = r.progress from rfl]
  split
  · exact turn_under p _ _ tolerates
  · exact .inl rfl

/-- A whole run under settings that tolerate more goes on alike until it meets a tolerated fault. -/
theorem advance_tolerates (p : Program) (tolerates : r.machine.settings.Tolerates s')
    (turns : Nat) :
    EasedRun r.machine.settings s' (advance o p turns r) (advance o p turns (r.under s')) := by
  induction turns generalizing r with
  | zero => exact .inl rfl
  | succ turns ih =>
    have setup := step_setup o p r
    rw [advance_succ, advance_succ]
    rcases step_under (o := o) p tolerates with same | ⟨f, failed, tolerated⟩
    · rw [same, ← setup.settings]
      exact ih (setup.settings ▸ tolerates)
    · -- the fault ends the run
      have ended : (r.step o p).isOver := by rw [isOver, failed]
      rw [advance_of_isOver ended]
      exact .inr ⟨f, failed, tolerated⟩

/-- A run that fails does so under settings that tolerate more, unless they tolerate its fault. -/
theorem failed_under {p : Program} (tolerates : r.machine.settings.Tolerates s') {turns : Nat}
    {f : Fault Address} (failed : (advance o p turns r).progress = .failed f) :
    (advance o p turns (r.under s')).progress = .failed f ∨ f.Tolerated r.machine.settings s' := by
  rcases advance_tolerates p tolerates turns with same | ⟨f', failed', tolerated⟩
  · left
    rw [same]
    exact failed
  · rw [failed] at failed'
    cases failed'
    exact .inr tolerated

end Run

/-! ## Two ways to be lenient -/

/-- What settings may be lenient about. -/
inductive Leniency where
  | undefinedReads
  | unknownOpcodes
  deriving DecidableEq, Repr

/-- The settings with a leniency: undefined registers read as zero, or unknown opcodes are skipped. -/
def Leniency.relax (l : Leniency) (s : MachineSettings) : MachineSettings :=
  match l with
  | undefinedReads => { s with undefinedReads := .zero }
  | unknownOpcodes => { s with unknownOpcodes := .skip }

/-- The faults that a leniency is about. -/
def Leniency.forgives : Leniency → Fault Address → Bool
  | undefinedReads, .undefinedRead .. => true
  | unknownOpcodes, .unsupportedOpcode .. => true
  | _, _ => false

/-- Relaxed settings tolerate more in one respect and are the same in all others. -/
theorem Leniency.tolerates (l : Leniency) (s : MachineSettings) : s.Tolerates (l.relax s) := by
  cases l with
  | undefinedReads => exact ⟨.inr rfl, .inl rfl, .inl rfl⟩
  | unknownOpcodes => exact ⟨.inl rfl, .inr rfl, .inl rfl⟩

/-- Nothing but what a leniency is about is tolerated because of it. -/
theorem Leniency.forgives_of_tolerated {l : Leniency} {s : MachineSettings} {f : Fault Address}
    (h : f.Tolerated s (l.relax s)) : l.forgives f := by
  cases l with
  | undefinedReads =>
    cases h with
    | undefinedRead => rfl
    | unsupportedOpcode changed | stepLimit _ changed => exact absurd rfl changed
  | unknownOpcodes =>
    cases h with
    | unsupportedOpcode => rfl
    | undefinedRead changed | stepLimit _ changed => exact absurd rfl changed

/-- The end of a run is told under any settings. -/
theorem Run.conclude_under {σ : Type} (o : Observer σ) (r : Run σ) (s : MachineSettings) :
    (r.under s).conclude o = (r.conclude o).under s := by
  unfold conclude
  rw [show (r.under s).isOver = r.isOver from rfl]
  split <;> rfl

/--
Leniency only removes faults. Whatever the program, the observer, the processor and the machine: as
long as a run has not failed of what the leniency is about, the lenient run is the same turn by
turn, and ends the same. If it does fail so, the lenient run is the same turn by turn up to the turn
that fails.
-/
theorem leniency_only_removes_faults {σ : Type} (l : Leniency) (o : Observer σ) (p : Program)
    (turns : Nat) (entry : Address) (m : Machine) (w : σ) :
    let strict n := m.interpret o p n entry w
    let lenient n := (m.under (l.relax m.settings)).interpret o p n entry w
    ((∀ f, (strict turns).progress = .failed f → l.forgives f = false) →
      ∀ n ≤ turns, lenient n = (strict n).under (l.relax m.settings)) ∧
    (∀ f, (strict turns).progress = .failed f → l.forgives f →
      ∃ last < turns, (∃ pc, (strict last).progress = .running pc) ∧
        strict (last + 1) = strict turns ∧
        ∀ n ≤ last, lenient n = (strict n).under (l.relax m.settings)) := by
  intro strict lenient
  -- as long as the run has not failed of what is forgiven
  have alike : ∀ n, (∀ f, (strict n).progress = .failed f → l.forgives f = false) →
      lenient n = (strict n).under (l.relax m.settings) := by
    intro n unforgiven
    have tolerates : (Run.begin o entry m w).machine.settings.Tolerates (l.relax m.settings) :=
      l.tolerates m.settings
    rcases Run.advance_tolerates (o := o) p tolerates n with same | ⟨f, failed, tolerated⟩
    · exact (congrArg (·.conclude o) same).trans (Run.conclude_under ..)
    · have forgiven := Leniency.forgives_of_tolerated tolerated
      rw [unforgiven f ((Run.progress_conclude ..).trans failed)] at forgiven
      cases forgiven
  -- a run that has failed stays as it is
  have atEnd : ∀ {n f}, (strict n).progress = .failed f →
      (Run.advance o p n (Run.begin o entry m w)).isOver := by
    intro n f failed
    have ended := (Run.progress_conclude ..).symm.trans failed
    rw [Run.isOver, ended]
  have stays : ∀ {n k f}, n ≤ k → (strict n).progress = .failed f → strict k = strict n := by
    intro n k f le failed
    exact congrArg (·.conclude o) (Run.advance_of_le le (atEnd failed))
  refine ⟨fun unforgiven n le => alike n fun f failed => ?_, fun f failed forgiven => ?_⟩
  · exact unforgiven f (by rw [stays le failed, failed])
  · obtain ⟨last, before, ⟨pc, running⟩, same⟩ := Run.exists_last_turn rfl (atEnd failed)
    have running : (strict last).progress = .running pc := (Run.progress_conclude ..).trans running
    refine ⟨last, before, ⟨pc, running⟩, congrArg (·.conclude o) same, fun n le => ?_⟩
    refine alike n fun f' failed' => ?_
    rw [stays le failed', failed'] at running
    cases running

end RegisterTransfer
