import RegisterTransfer.Machine.Basic

/-!
# Runs

A run repeats one turn: fetch the instruction at the current address, check the step limit, tell the
observer, bring the program counter up to date, execute, and find the next address. A run ends
where no instruction is left, at a `halt`, or at the first fault. `Run.advance` makes a bounded
number of turns and stops early when the run has ended, so more turns never change a finished run.
-/

namespace RegisterTransfer

/--
An observer of runs with its own state. `next` is asked before each instruction has any effect and
may refuse it with a fault.
-/
structure Observer (σ : Type) where
  start : Address → σ → σ
  next : Instruction → σ → Except (Fault Address) Unit × σ
  finish : Counters → σ → σ

/-- The observer that lets everything pass. -/
def Observer.silent : Observer Unit := ⟨fun _ s => s, fun _ s => (.ok (), s), fun _ s => s⟩

/-- How far a run has come. -/
inductive Progress where
  | running (pc : Address)
  | finished
  | failed (fault : Fault Address)
  deriving DecidableEq, Repr

/-- A machine in the middle of a run, with the state of the observer. -/
structure Run (σ : Type) where
  machine : Machine
  watch : σ
  progress : Progress

namespace Run

variable {σ : Type}

/-- Whether the run has ended. -/
def isOver (r : Run σ) : Bool :=
  match r.progress with
  | .running _ => false
  | _ => true

/-- Where a run stands after an instruction at `pc` that went well. -/
def follow (p : Program) (pc : Address) (m : Machine) (watch : σ) : Flow → Run σ
  | .halt => ⟨m, watch, .finished⟩
  | .jump target =>
    ⟨{ m with counters.jumps := m.counters.jumps + 1 }, watch, .running target⟩
  | .next =>
    match p.next? pc with
    | some pc' => ⟨m, watch, .running pc'⟩
    | none => ⟨m, watch, .finished⟩

/-- Executes the instruction that was fetched at `pc`. -/
def perform (p : Program) (pc : Address) (i : Instruction) (m : Machine) (watch : σ) : Run σ :=
  match (m.syncProgramCounter pc.native).execute p i with
  | (.error f, m) => ⟨m, watch, .failed f⟩
  | (.ok flow, m) =>
    follow p pc { m with counters.executed := m.counters.executed + 1 } watch flow

/-- One turn of a run at `pc`. -/
def turn (o : Observer σ) (p : Program) (pc : Address) (m : Machine) (watch : σ) : Run σ :=
  match p.get? pc with
  | none => ⟨m, watch, .finished⟩
  | some i =>
    match m.settings.stepLimit.filter (· ≤ m.counters.executed) with
    | some limit => ⟨m, watch, .failed (.stepLimitExceeded limit)⟩
    | none =>
      match o.next i watch with
      | (.error f, watch) => ⟨m, watch, .failed f⟩
      | (.ok (), watch) => perform p pc i m watch

/-- Makes at most `n` turns, fewer if the run ends before. -/
def advance (o : Observer σ) (p : Program) : Nat → Run σ → Run σ
  | 0, r => r
  | n + 1, r =>
    match r.progress with
    | .running pc => advance o p n (turn o p pc r.machine r.watch)
    | _ => r

/-- One more turn, or the same run if it is over. -/
def step (o : Observer σ) (p : Program) (r : Run σ) : Run σ :=
  match r.progress with
  | .running pc => turn o p pc r.machine r.watch
  | _ => r

/-- A run that is over takes no more steps. -/
theorem step_of_isOver {r : Run σ} (h : r.isOver) (o : Observer σ) (p : Program) :
    r.step o p = r := by
  unfold step
  split
  · next hp => simp [isOver, hp] at h
  · rfl

/-- A run that is over stays as it is, however many turns it is given. -/
theorem advance_of_isOver {r : Run σ} (h : r.isOver) (o : Observer σ) (p : Program) (n : Nat) :
    advance o p n r = r := by
  cases n with
  | zero => rfl
  | succ n =>
    unfold advance
    split
    · next hp => simp [isOver, hp] at h
    · rfl

/-- Turns are made one after the other. -/
theorem advance_succ (o : Observer σ) (p : Program) (n : Nat) (r : Run σ) :
    advance o p (n + 1) r = advance o p n (r.step o p) := by
  by_cases h : r.isOver
  · rw [step_of_isOver h, advance_of_isOver h, advance_of_isOver h]
  · cases hp : r.progress with
    | running pc => simp only [advance, step, hp]
    | finished => simp [isOver, hp] at h
    | failed f => simp [isOver, hp] at h

/-- A number of turns may be split anywhere. -/
theorem advance_add (o : Observer σ) (p : Program) (m n : Nat) (r : Run σ) :
    advance o p (m + n) r = advance o p n (advance o p m r) := by
  induction m generalizing r with
  | zero => rw [Nat.zero_add]; rfl
  | succ m ih => rw [Nat.succ_add, advance_succ, ih, ← advance_succ]

/-- More turns never change a run that is over. -/
theorem advance_eq_of_isOver {o : Observer σ} {p : Program} {n : Nat} {r : Run σ}
    (h : (advance o p n r).isOver) (k : Nat) : advance o p (n + k) r = advance o p n r := by
  rw [advance_add, advance_of_isOver h]

/-- A run about to fetch its first instruction, with the counters back at zero. -/
def begin (o : Observer σ) (entry : Address) (m : Machine) (watch : σ) : Run σ :=
  ⟨{ m with counters := {} }, o.start entry watch, .running entry⟩

/-- Tells the observer that a run is over; an unfinished run is left as it is. -/
def conclude (o : Observer σ) (r : Run σ) : Run σ :=
  if r.isOver then { r with watch := o.finish r.machine.counters r.watch } else r

end Run

/-- Runs a program from `entry` for at most `turns` turns. -/
def Machine.interpret {σ : Type} (o : Observer σ) (p : Program) (turns : Nat) (entry : Address)
    (m : Machine) (watch : σ) : Run σ :=
  (Run.advance o p turns (Run.begin o entry m watch)).conclude o

end RegisterTransfer
