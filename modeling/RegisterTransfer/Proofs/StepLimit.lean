import RegisterTransfer.Proofs.Itinerary
import RegisterTransfer.Proofs.Waivers

/-!
# Step limits

A step limit cuts a run off and does nothing else. A turn completes one instruction, so a run that
is going on has completed as many instructions as it has made turns. Up to the limit the limited run
is the unlimited one, and then it fails where the unlimited run stands.

> `Run.step_below`, `Run.step_spent`: a turn below the limit, and at the limit.
> `Run.paced_advance`: how many instructions a run has completed after some turns.
> `step_limit_cuts_run`: what becomes of a run under a limit.
-/

namespace RegisterTransfer

/-- The same settings with another step limit, or with none. -/
def MachineSettings.limited (s : MachineSettings) (limit : Option Nat) : MachineSettings :=
  { s with stepLimit := limit }

/-- An instruction does not look at the step limit. -/
theorem Machine.execute_limited {m : Machine} {s' : MachineSettings}
    (free : m.settings = s'.limited none) (p : Program) (i : Instruction) :
    (m.under s').execute p i = ((m.execute p i).1, (m.execute p i).2.under s') := by
  have reads : s'.undefinedReads = m.settings.undefinedReads := by rw [free]; rfl
  have unknown : s'.unknownOpcodes = m.settings.unknownOpcodes := by rw [free]; rfl
  have sources : m.SourcesAgree (m.under s') i := by
    intro slot _
    refine source_congr ?_ (fun _ _ => ?_) i.address
    · exact reads
    · rfl
  rw [execute_eq_plan, execute_eq_plan, plan_congr sources rfl unknown, realize, realize,
    foldl_enact_under]

namespace Run

variable {σ : Type} {o : Observer σ} {p : Program} {pc : Address} {r : Run σ} {limit n : Nat}
  {s' : MachineSettings}

/-! ## A turn below the limit, and at the limit -/

/-- The observer does not see the step limit, and neither does the instruction. -/
theorem consult_limited {m : Machine} (free : m.settings = s'.limited none) (i : Instruction)
    (w : σ) : consult o p pc i (m.under s') w = (consult o p pc i m w).under s' := by
  unfold consult
  split
  · rfl
  · have same := Machine.execute_limited (m := m.syncProgramCounter pc.native) free p i
    exact perform_of_execute_under same _

/-- Below the limit a turn is the same as without a limit. -/
theorem step_below (free : r.machine.settings = s'.limited none)
    (limited : s'.stepLimit = some limit)
    (below : ∀ {pc}, r.progress = .running pc → p.contains pc →
      r.machine.counters.executed < limit) :
    (r.under s').step o p = (r.step o p).under s' := by
  unfold step
  rw [show (r.under s').progress = r.progress from rfl]
  cases running : r.progress with
  | finished | failed => rfl
  | running pc =>
    show turn o p pc (r.machine.under s') r.watch = _
    dsimp only
    cases found : p.get? pc with
    | none =>
      rw [turn_off found, turn_off found]
      rfl
    | some i =>
      have lt := below running (SortedMap.contains_iff.2 ⟨i, found⟩)
      -- neither of the two limits stops the turn
      have unspent : r.machine.spent? = none := by
        rw [Machine.spent?, free]
        rfl
      have unspent' : (r.machine.under s').spent? = none := by
        rw [Machine.spent?, Machine.under, limited, Option.filter_some, if_neg]
        simpa using lt
      rw [turn_consult found unspent, turn_consult found unspent', consult_limited free]

/-- At the limit a run fails as it stands. -/
theorem step_spent (limited : s'.stepLimit = some limit) (running : r.progress = .running pc)
    (there : p.contains pc) (reached : limit ≤ r.machine.counters.executed) :
    (r.under s').step o p =
      ⟨r.machine.under s', r.watch, .failed (.stepLimitExceeded limit)⟩ := by
  obtain ⟨i, found⟩ := SortedMap.contains_iff.1 there
  have spent : (r.machine.under s').spent? = some limit := by
    rw [Machine.spent?, Machine.under, limited, Option.filter_some, if_pos]
    simpa using reached
  rw [step, show (r.under s').progress = .running pc from running]
  exact turn_spent found spent

/-- The turns of a run below the limit are the same as without a limit. -/
theorem advance_below (free : r.machine.settings = s'.limited none)
    (limited : s'.stepLimit = some limit)
    (below : ∀ k < n, ∀ {pc}, (advance o p k r).progress = .running pc → p.contains pc →
      (advance o p k r).machine.counters.executed < limit) :
    advance o p n (r.under s') = (advance o p n r).under s' := by
  induction n with
  | zero => rfl
  | succ n ih =>
    have free' : (advance o p n r).machine.settings = s'.limited none :=
      (advance_setup _ p n r).settings.trans free
    rw [← step_advance, ← step_advance, ih fun k lt => below k (Nat.lt_succ_of_lt lt)]
    exact step_below free' limited (below n (Nat.lt_succ_self n))

/-! ## How far a run comes -/

/-- A run that finished after at most so many instructions, or failed after fewer. -/
inductive EndsWithin (limit : Nat) (r : Run σ) : Prop
  | finished (h : r.progress = .finished) (le : r.machine.counters.executed ≤ limit)
  | failed {f} (h : r.progress = .failed f) (lt : r.machine.counters.executed < limit)

/-- A run that ended within a limit is over. -/
theorem EndsWithin.isOver (h : r.EndsWithin limit) : r.isOver := by
  cases h with
  | finished h | failed h => rw [Run.isOver, h]

/-- A turn that leaves a run going on has completed an instruction. -/
theorem executed_of_step (next : (r.step o p).progress = .running pc) :
    (r.step o p).machine.counters.executed = r.machine.counters.executed + 1 := by
  obtain ⟨pc', running⟩ := running_of_step next
  have pass := r.passes o p
  generalize r.stop? p = stop, r.step o p = r' at pass next ⊢
  cases pass with
  | ended atEnd =>
    rw [isOver, running] at atEnd
    cases atEnd
  | off | limited | broke => cases next
  | @went s flow w m _ _ result executed =>
    rw [(Tours.counters_follow s.instruction.address m w result).1, executed]

/-- A run that is going on has completed as many instructions as it has made turns. -/
theorem executed_of_running (start : r.machine.counters.executed = 0)
    (running : (advance o p n r).progress = .running pc) :
    (advance o p n r).machine.counters.executed = n := by
  induction n generalizing pc with
  | zero => exact start
  | succ n ih =>
    rw [← step_advance] at running ⊢
    obtain ⟨pc', before⟩ := running_of_step running
    rw [executed_of_step running, ih before]

/-- After a completed instruction a run fails no more. -/
theorem finished_of_follow {m : Machine} {w : σ} {flow : Flow}
    (atEnd : (follow p pc m w flow).isOver) :
    (follow p pc m w flow).progress = .finished := by
  cases flow with
  | halt => rfl
  | jump => cases atEnd
  | next =>
    unfold follow at atEnd ⊢
    dsimp only at atEnd ⊢
    split at atEnd
    · cases atEnd
    · rfl

/-- A last turn ends within a limit if the run was below it, or was off the program by then. -/
theorem endsWithin_step_iff (free : r.machine.settings.stepLimit = none)
    (running : r.progress = .running pc) (atEnd : (r.step o p).isOver) :
    (r.step o p).EndsWithin limit ↔
      r.machine.counters.executed ≤ limit ∧
        (p.contains pc → r.machine.counters.executed < limit) := by
  have pass := r.passes o p
  generalize r.stop? p = stop, r.step o p = r' at pass atEnd ⊢
  cases pass with
  | ended atEnd =>
    rw [isOver, running] at atEnd
    cases atEnd
  | off running' nothing =>
    rw [running] at running'
    cases running'
    have outside := Program.get?_eq_none_iff.1 nothing
    refine ⟨fun ends => ?_, fun below => .finished rfl below.1⟩
    cases ends with
    | finished _ le => exact ⟨le, fun there => absurd there outside⟩
    | failed h => cases h
  | limited _ _ spent =>
    rw [Machine.spent?, free] at spent
    cases spent
  | broke running' found _ executed =>
    rw [running] at running'
    cases running'
    rw [← executed]
    refine ⟨fun ends => ?_, fun below => .failed rfl (below.2 ?_)⟩
    · cases ends with
      | finished h => cases h
      | failed _ lt => exact ⟨lt.le, fun _ => lt⟩
    · exact SortedMap.contains_iff.2 ⟨_, found⟩
  | @went s flow w m running' found result executed =>
    rw [running] at running'
    cases running'
    have more := (Tours.counters_follow s.instruction.address m w result).1
    rw [executed] at more
    refine ⟨fun ends => ?_, fun below => .finished (finished_of_follow atEnd) ?_⟩
    · cases ends with
      | finished _ le | failed _ lt => omega
    · rw [more]
      exact below.2 (SortedMap.contains_iff.2 ⟨_, found⟩)

variable {entry : Address} {turns : Nat}

/-- A run that ends within a limit takes at most one turn more, and was below the limit before. -/
theorem EndsWithin.last_turn (ends : (advance o p n r).EndsWithin limit)
    (free : r.machine.settings.stepLimit = none) (zero : r.machine.counters.executed = 0)
    (start : r.progress = .running entry) :
    ∃ last ≤ limit, advance o p (last + 1) r = advance o p n r ∧
      ∀ k < last + 1, ∀ {pc}, (advance o p k r).progress = .running pc → p.contains pc →
        (advance o p k r).machine.counters.executed < limit := by
  obtain ⟨last, -, ⟨at_end, at_last⟩, same⟩ := exists_last_turn start ends.isOver
  have free' : (advance o p last r).machine.settings.stepLimit = none := by
    rw [(advance_setup _ p last r).settings, free]
  rw [← same, ← step_advance] at ends
  obtain ⟨le, below⟩ := (endsWithin_step_iff free' at_last ends.isOver).1 ends
  rw [executed_of_running zero at_last] at le below
  -- each turn before the last one has completed fewer instructions than the last one found
  refine ⟨last, le, same, fun k before pc running there => ?_⟩
  rw [executed_of_running zero running]
  rcases Nat.lt_succ_iff_lt_or_eq.1 before with earlier | rfl
  · exact Nat.lt_of_lt_of_le earlier le
  · rw [at_last] at running
    cases running
    exact below there

/-- A run that ends within a limit is the same under it. -/
theorem advance_within (free : r.machine.settings = s'.limited none)
    (limited : s'.stepLimit = some limit) (zero : r.machine.counters.executed = 0)
    (start : r.progress = .running entry) (enough : limit < turns)
    (ends : (advance o p n r).EndsWithin limit) :
    advance o p turns (r.under s') = (advance o p n r).under s' := by
  have unlimited : r.machine.settings.stepLimit = none := by
    rw [free]
    rfl
  obtain ⟨last, le, same, below⟩ := ends.last_turn unlimited zero start
  have alike := advance_below free limited below
  rw [same] at alike
  have atEnd : (advance o p (last + 1) (r.under s')).isOver := by
    rw [alike]
    exact ends.isOver
  rw [advance_of_le (Nat.succ_le_of_lt (Nat.lt_of_le_of_lt le enough)) atEnd, alike]

/-- A run that does not end within a limit is in the program after as many turns. -/
theorem running_at_limit (free : r.machine.settings.stepLimit = none)
    (zero : r.machine.counters.executed = 0) (start : r.progress = .running entry)
    (never : ∀ n, ¬ (advance o p n r).EndsWithin limit) :
    ∃ pc, (advance o p limit r).progress = .running pc ∧ p.contains pc := by
  have free' : ∀ k, (advance o p k r).machine.settings.stepLimit = none := by
    intro k
    rw [(advance_setup _ p k r).settings, free]
  -- a turn that ends the run here would end it within the limit
  have lasts : ∀ {k pc}, (advance o p k r).progress = .running pc → k ≤ limit →
      (p.contains pc → k < limit) → ¬ (advance o p (k + 1) r).isOver := by
    intro k pc running le below atEnd
    rw [← step_advance] at atEnd
    refine never (k + 1) ?_
    rw [← step_advance, endsWithin_step_iff (free' k) running atEnd,
      executed_of_running zero running]
    exact ⟨le, below⟩
  have going : ¬ (advance o p limit r).isOver := by
    intro atEnd
    obtain ⟨last, before, ⟨pc, running⟩, same⟩ := exists_last_turn start atEnd
    exact lasts running before.le (fun _ => before) (same ▸ atEnd)
  cases running : (advance o p limit r).progress with
  | finished | failed => exact absurd (by rw [isOver, running]) going
  | running pc =>
    -- off the program one more turn would finish, with nothing more completed
    refine ⟨pc, rfl, ?_⟩
    by_contra outside
    refine lasts running le_rfl (fun there => absurd there outside) ?_
    rw [← step_advance, step, running]
    dsimp only
    rw [turn_off (Program.get?_eq_none_iff.2 outside), isOver]

/-- A run that does not end within a limit fails of it, as it stands when it has come so far. -/
theorem advance_limited (free : r.machine.settings = s'.limited none)
    (limited : s'.stepLimit = some limit) (zero : r.machine.counters.executed = 0)
    (enough : limit < turns) (running : (advance o p limit r).progress = .running pc)
    (there : p.contains pc) :
    advance o p turns (r.under s') =
      ⟨(advance o p limit r).machine.under s', (advance o p limit r).watch,
        .failed (.stepLimitExceeded limit)⟩ := by
  have below : ∀ k < limit, ∀ {pc}, (advance o p k r).progress = .running pc → p.contains pc →
      (advance o p k r).machine.counters.executed < limit := by
    intro k lt pc running _
    rw [executed_of_running zero running]
    exact lt
  have cut : advance o p (limit + 1) (r.under s') =
      ⟨(advance o p limit r).machine.under s', (advance o p limit r).watch,
        .failed (.stepLimitExceeded limit)⟩ := by
    rw [← step_advance, advance_below free limited below]
    exact step_spent limited running there (executed_of_running zero running).ge
  rw [advance_of_le enough (by rw [cut, isOver]), cut]

/-- The end of a run that is going on is not told. -/
theorem conclude_of_running (running : r.progress = .running pc) : r.conclude o = r := by
  rw [conclude, isOver, running]
  rfl

/-- Whether a run ends within a limit does not depend on whether its end was told. -/
theorem endsWithin_conclude : (r.conclude o).EndsWithin limit ↔ r.EndsWithin limit := by
  refine ⟨fun ends => ?_, fun ends => ?_⟩
  · cases ends with
    | finished h le => exact .finished (by simpa using h) (by simpa using le)
    | failed h lt => exact .failed (by simpa using h) (by simpa using lt)
  · cases ends with
    | finished h le => exact .finished (by simpa using h) (by simpa using le)
    | failed h lt => exact .failed (by simpa using h) (by simpa using lt)

end Run

/--
A step limit cuts a run off and does nothing else. A run under a limit is over after one turn more
than the limit. If the run without a limit finishes after at most so many instructions, or fails
after fewer, the limited run is the same. Otherwise the run without a limit is still going on, in
the program, when it has completed so many instructions, and there the limited run fails of the
limit: with the same machine, and with an observer that has been told of nothing more but the end.
-/
theorem step_limit_cuts_run {σ : Type} (o : Observer σ) (p : Program) (m : Machine)
    (entry : Address) (w : σ) {limit turns : Nat} (enough : limit < turns) :
    let free n := (m.under (m.settings.limited none)).interpret o p n entry w
    let limited := m.settings.limited (some limit)
    let r := (m.under limited).interpret o p turns entry w
    r.isOver ∧
      (∀ n, (free n).EndsWithin limit → r = (free n).under limited) ∧
      ((∀ n, ¬ (free n).EndsWithin limit) →
        (∃ pc, (free limit).progress = .running pc ∧ p.contains pc) ∧
          (free limit).machine.counters.executed = limit ∧
          r = ⟨(free limit).machine.under limited,
            o.finish (free limit).machine.counters (free limit).watch,
            .failed (.stepLimitExceeded limit)⟩) := by
  intro free limited r
  let start := Run.begin o entry (m.under (m.settings.limited none)) w
  have unlimited : start.machine.settings = limited.limited none := rfl
  have short : ∀ n, (free n).EndsWithin limit → r = (free n).under limited := by
    intro n ends
    have alike := Run.advance_within unlimited rfl rfl rfl enough (Run.endsWithin_conclude.1 ends)
    exact (congrArg (·.conclude o) alike).trans (Run.conclude_under ..)
  have long : (∀ n, ¬ (free n).EndsWithin limit) →
      (∃ pc, (free limit).progress = .running pc ∧ p.contains pc) ∧
        (free limit).machine.counters.executed = limit ∧
        r = ⟨(free limit).machine.under limited,
          o.finish (free limit).machine.counters (free limit).watch,
          .failed (.stepLimitExceeded limit)⟩ := by
    intro never
    obtain ⟨pc, running, there⟩ := Run.running_at_limit (r := start) rfl rfl rfl fun n ends =>
      never n (Run.endsWithin_conclude.2 ends)
    have going : free limit = Run.advance o p limit start := Run.conclude_of_running running
    have cut := Run.advance_limited unlimited rfl rfl enough running there
    rw [going]
    refine ⟨⟨pc, running, there⟩, Run.executed_of_running rfl running, ?_⟩
    exact congrArg (·.conclude o) cut
  refine ⟨?_, short, long⟩
  -- over in either case, whether the run without a limit ends within it or not
  by_cases ends : ∃ n, (free n).EndsWithin limit
  · obtain ⟨n, ends⟩ := ends
    rw [short n ends]
    exact ends.isOver
  · rw [(long (not_exists.1 ends)).2.2]
    rfl

/-- A jump to itself that is always taken. -/
def endlessLoop : Instruction :=
  ⟨⟨0x100, 0⟩, .jcc, .integer 1 .byte, .absent, .address ⟨0x100, 0⟩, none⟩

/-- An endless loop goes on from where it is to where it is. -/
theorem step_endlessLoop {p : Program} (found : p.get? ⟨0x100, 0⟩ = some endlessLoop) {r : Run Unit}
    (free : r.machine.settings.stepLimit = none) (running : r.progress = .running ⟨0x100, 0⟩) :
    (r.step .silent p).progress = .running ⟨0x100, 0⟩ := by
  have there : p.contains ⟨0x100, 0⟩ := SortedMap.contains_iff.2 ⟨_, found⟩
  have unspent : r.machine.spent? = none := by
    rw [Machine.spent?, free]
    rfl
  have taken : ∀ m : Machine, m.execute p endlessLoop = (.ok (.jump ⟨0x100, 0⟩), m) := by
    intro m
    have jump : m.branch p endlessLoop = if p.contains ⟨0x100, 0⟩ then .ok (.jump ⟨0x100, 0⟩)
        else .error (.unmappedTarget ⟨0x100, 0⟩ ⟨0x100, 0⟩) := rfl
    rw [Machine.execute_of_jcc rfl, jump, if_pos there]
  rw [Run.step, running]
  dsimp only
  rw [Run.turn_consult found unspent]
  show (Run.perform p ⟨0x100, 0⟩ endlessLoop r.machine r.watch).progress = _
  rw [Run.perform, taken]
  rfl

/-- An endless loop is cut off at the limit, and has completed that many instructions by then. -/
theorem endlessLoop_is_cut :
    ∃ p, Program.ofList [endlessLoop] = .ok p ∧
      let m := Machine.start { stepLimit := some 1000 } PowerPC.cpu
      let r := m.interpret .silent p 1001 ⟨0x100, 0⟩ ()
      r.progress = .failed (.stepLimitExceeded 1000) ∧ r.machine.counters.executed = 1000 := by
  obtain ⟨p, program⟩ := Program.ofList_isOk (l := [endlessLoop]) (by simp)
  have found : p.get? ⟨0x100, 0⟩ = some endlessLoop :=
    ((Program.ofList_eq_ok program).2 _ _).2 ⟨List.mem_singleton_self _, rfl⟩
  let m := Machine.start { stepLimit := some 1000 } PowerPC.cpu
  let start := Run.begin .silent ⟨0x100, 0⟩ (m.under (m.settings.limited none)) ()
  have endless : ∀ n, (Run.advance .silent p n start).progress = .running ⟨0x100, 0⟩ := by
    intro n
    induction n with
    | zero => rfl
    | succ n ih =>
      have free : (Run.advance .silent p n start).machine.settings.stepLimit = none := by
        rw [(Run.advance_setup _ p n start).settings]
        rfl
      rw [← Run.step_advance]
      exact step_endlessLoop found free ih
  have enough : 1000 < 1001 := by decide
  obtain ⟨-, -, long⟩ := step_limit_cuts_run .silent p m ⟨0x100, 0⟩ () enough
  obtain ⟨-, executed, cut⟩ := long fun n ends => by
    have atEnd := (Run.endsWithin_conclude.1 ends).isOver
    rw [Run.isOver, endless] at atEnd
    cases atEnd
  refine ⟨p, program, ?_, ?_⟩
  · exact congrArg Run.progress cut
  · exact (congrArg (·.machine.counters.executed) cut).trans executed

end RegisterTransfer
