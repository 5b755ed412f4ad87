import Mathlib.Algebra.Group.Nat.Defs
import Mathlib.Data.List.Chain
import RegisterTransfer.Proofs.Plans

/-!
# Itineraries

The itinerary of a run lists the stops it makes: the instructions it announces to the observer, each
with the machine that is to perform it. Stop by stop it goes along the edges of the program's
control graph, which are the fall to the least address above and the jump that is taken. How far a
run has come, and how it ended, is read off its itinerary.

> `Run.passes`: a turn makes a stop, or none.
> `Run.Tours.step`: a turn carries the itinerary on along an edge.
> `run_follows_control_graph`: what a whole run tells its observer, what it counts and when it ends
> well.
-/

namespace RegisterTransfer

/-! ## The control graph -/

/-- A look-up fails where the program has no instruction. -/
theorem Program.get?_eq_none_iff {p : Program} {a : Address} :
    p.get? a = none ↔ ¬ p.contains a := by
  rw [contains, SortedMap.contains_iff, get?]
  cases p.code.get? a <;> simp

/-- The least address of a program above a given one. -/
structure Program.Above (p : Program) (a b : Address) : Prop where
  there : p.contains b
  above : compare a b = .lt
  least : ∀ {c}, p.contains c → compare a c = .lt → c = b ∨ compare b c = .lt

/-- The successor of an address is the least address above it. -/
theorem Program.next?_eq_some_iff {p : Program} {a b : Address} :
    p.next? a = some b ↔ p.Above a b := by
  refine SortedMap.next?_eq_some_iff.trans ⟨fun h => ?_, fun h => ?_⟩
  · exact ⟨h.1, h.2.1, fun there above => h.2.2 _ there above⟩
  · exact ⟨h.there, h.above, fun _ there above => h.least there above⟩

/-- The last address of a program, or one above all of it. -/
def Program.Last (p : Program) (a : Address) : Prop :=
  ∀ b, p.contains b → compare a b ≠ .lt

/-- Only the last address, or one above it, has no successor. -/
theorem Program.next?_eq_none_iff {p : Program} {a : Address} : p.next? a = none ↔ p.Last a :=
  SortedMap.next?_eq_none_iff

/--
An instruction that a run comes to, with the machine that is to perform it, whose program counter is
up to date, and with the state of the observer.
-/
structure Stop (σ : Type) where
  instruction : Instruction
  machine : Machine
  watch : σ

namespace Stop

variable {σ : Type}

/-- Whether the instruction is a jump whose condition does not read as zero. -/
def jumps (s : Stop σ) : Bool :=
  s.instruction.opcode == .jcc &&
    match s.machine.source s.instruction.address s.instruction.op1 with
    | .ok v => v != 0
    | .error _ => false

/--
Where the third operand sends a jump: to the address that it holds, or to offset zero of the native
address that it reads as.
-/
inductive Targets (s : Stop σ) : Address → Prop
  | address {t} (holds : s.instruction.op3.kind = .address t) : Targets s t
  | native {v} (reads : s.machine.source s.instruction.address s.instruction.op3 = .ok v) :
    Targets s ⟨v % 2 ^ 64, 0⟩

/-- The instruction neither halts nor jumps. -/
def Falls (s : Stop σ) : Prop := s.instruction.opcode ≠ .halt ∧ s.jumps = false

/-- The edges of the control graph that control may take at a stop. -/
inductive Leads (p : Program) (s : Stop σ) : Address → Prop
  | fall {a} (falls : s.Falls) (next : p.Above s.instruction.address a) : Leads p s a
  | jump {a} (jumps : s.jumps) (target : s.Targets a) (there : p.contains a) : Leads p s a

/-- Control ends at a stop: the instruction halts, or falls from the last address. -/
inductive Ends (p : Program) (s : Stop σ) : Prop
  | halt (halts : s.instruction.opcode = .halt)
  | fall (falls : s.Falls) (last : p.Last s.instruction.address)

/-- What comes of a stop. The observer may refuse it, and the instruction may fail. -/
def result (o : Observer σ) (p : Program) (s : Stop σ) : Except (Fault Address) Flow := do
  (o.next s.instruction s.watch).1
  (s.machine.execute p s.instruction).1

/-- Whether the instruction is completed. -/
def completes (o : Observer σ) (p : Program) (s : Stop σ) : Bool := (s.result o p).isOk

variable {o : Observer σ} {p : Program} {s : Stop σ} {a : Address}

/-- Nothing but a conditional jump jumps. -/
theorem opcode_of_jumps (h : s.jumps) : s.instruction.opcode = .jcc := by
  simp only [jumps, Bool.and_eq_true, beq_iff_eq] at h
  exact h.1

/-- Control is led to addresses of the program only. -/
theorem Leads.contains (h : s.Leads p a) : p.contains a := by
  cases h with
  | fall _ next => exact next.there
  | jump _ _ there => exact there

/-- Control does not go on where it ends. -/
theorem Leads.not_ends (h : s.Leads p a) : ¬ s.Ends p := by
  intro ends
  cases h with
  | fall falls next =>
    cases ends with
    | halt halts => exact falls.1 halts
    | fall _ last => exact last _ next.there next.above
  | jump jumps =>
    cases ends with
    | halt halts =>
      rw [opcode_of_jumps jumps] at halts
      cases halts
    | fall falls _ => exact absurd jumps (by simp [falls.2])

/-- A jump is taken to its target. -/
theorem targets_of_target {t : Address}
    (found : s.machine.target s.instruction.address s.instruction.op3 = .ok t) : s.Targets t := by
  have number : ∀ {x : Except (Fault Address) Nat},
      s.machine.source s.instruction.address s.instruction.op3 = x →
        (do return .ofNative (Width.qword.truncate (← x))) = Except.ok t → s.Targets t := by
    intro x reads found
    cases x with
    | error f => cases found
    | ok v =>
      cases found
      exact .native reads
  unfold Machine.target at found
  cases kind : s.instruction.op3.kind with
  | address t' =>
    rw [kind] at found
    cases found
    exact .address kind
  | absent =>
    rw [kind] at found
    cases found
  | integer | register =>
    rw [kind] at found
    exact number rfl found

/-- A jump that is completed goes to its target in the program, or control falls. -/
theorem flow_of_branch {flow : Flow} (jump : s.instruction.opcode = .jcc)
    (goes : s.machine.branch p s.instruction = .ok flow) :
    (flow = .next ∧ s.Falls) ∨ ∃ t, flow = .jump t ∧ s.jumps ∧ s.Targets t ∧ p.contains t := by
  unfold Machine.branch at goes
  cases condition : s.machine.source s.instruction.address s.instruction.op1 with
  | error f =>
    rw [condition] at goes
    cases goes
  | ok v =>
    -- the condition that the stop reads is the one that the branch goes by
    have taken : s.jumps = (v != 0) := by
      simp only [jumps, jump, condition, beq_self_eq_true, Bool.true_and]
    rw [condition] at goes
    dsimp only [bind, Except.bind] at goes
    split at goes
    · next zero =>
      cases goes
      exact .inl ⟨rfl, by rw [jump]; decide, by rw [taken, zero]; rfl⟩
    · next nonzero =>
      cases target : s.machine.target s.instruction.address s.instruction.op3 with
      | error f =>
        rw [target] at goes
        cases goes
      | ok t =>
        rw [target] at goes
        dsimp only at goes
        split at goes
        · next there =>
          cases goes
          exact .inr ⟨t, rfl, by simp [taken, nonzero], targets_of_target target, there⟩
        · cases goes

/-- What the flow of control says of the stop. -/
theorem flow_of_execute {flow : Flow} {m : Machine}
    (executed : s.machine.execute p s.instruction = (.ok flow, m)) :
    (flow = .next ∧ s.Falls) ∨ (flow = .halt ∧ s.instruction.opcode = .halt) ∨
      ∃ t, flow = .jump t ∧ s.jumps ∧ s.Targets t ∧ p.contains t := by
  by_cases jump : s.instruction.opcode = .jcc
  · rw [Machine.execute_of_jcc jump] at executed
    exact (flow_of_branch jump (congrArg Prod.fst executed)).imp id .inr
  · have stays : s.jumps = false := by simp [jumps, jump]
    have effect := s.machine.executes p s.instruction
    rw [executed] at effect
    cases effect with
    | wrote writes =>
      refine .inl ⟨rfl, fun halts => ?_, stays⟩
      rw [halts] at writes
      cases writes
    | stored opcode | undefined opcode => exact .inl ⟨rfl, by rw [opcode]; decide, stays⟩
    | passed opcode =>
      refine .inl ⟨rfl, fun halts => ?_, stays⟩
      rw [halts] at opcode
      simp at opcode
    | jumped opcode => exact absurd opcode jump
    | halted halts => exact .inr (.inl ⟨rfl, halts⟩)

end Stop

/-! ## The stops of a run -/

/-- No effect counts as an executed instruction or as a jump. -/
theorem Machine.counters_execute {m m' : Machine} {p : Program} {i : Instruction}
    {result : Except (Fault Address) Flow} (executed : m.execute p i = (result, m')) :
    m'.counters.executed = m.counters.executed ∧ m'.counters.jumps = m.counters.jumps := by
  have one : ∀ (effects : List Effect) (m : Machine),
      (effects.foldl enact m).counters.executed = m.counters.executed ∧
        (effects.foldl enact m).counters.jumps = m.counters.jumps := by
    intro effects
    induction effects with
    | nil => exact fun m => ⟨rfl, rfl⟩
    | cons effect rest ih =>
      intro m
      obtain ⟨executed, jumps⟩ := ih (m.enact effect)
      rw [List.foldl_cons, executed, jumps]
      cases effect <;> exact ⟨rfl, rfl⟩
  rw [execute_eq_plan] at executed
  cases executed
  exact one _ m

namespace Run

variable {σ : Type}

/-- The stop that the next turn of a run makes, if it gets as far as asking the observer. -/
def stop? (p : Program) (r : Run σ) : Option (Stop σ) :=
  match r.progress with
  | .running pc =>
    match r.machine.spent? with
    | some _ => none
    | none => (p.get? pc).map fun i => ⟨i, r.machine.syncProgramCounter pc.native, r.watch⟩
  | _ => none

/-- The stops that a run makes in its first turns. -/
def itinerary (o : Observer σ) (p : Program) (turns : Nat) (r : Run σ) : List (Stop σ) :=
  (List.range turns).filterMap fun k => (advance o p k r).stop? p

/-- One more turn makes one more stop, if it makes any. -/
theorem itinerary_succ (o : Observer σ) (p : Program) (turns : Nat) (r : Run σ) :
    r.itinerary o p (turns + 1) =
      r.itinerary o p turns ++ ((advance o p turns r).stop? p).toList :=
  filterMap_range_succ ..

/-- What a turn does, with the stop it makes. -/
inductive Passes (o : Observer σ) (p : Program) (r : Run σ) : Option (Stop σ) → Run σ → Prop
  | ended (h : r.isOver) : Passes o p r none r
  | off {pc} (running : r.progress = .running pc) (nothing : p.get? pc = none) :
    Passes o p r none ⟨r.machine, r.watch, .finished⟩
  | limited {pc limit} (running : r.progress = .running pc) (there : p.contains pc)
    (spent : r.machine.spent? = some limit) :
    Passes o p r none ⟨r.machine, r.watch, .failed (.stepLimitExceeded limit)⟩
  | broke {s : Stop σ} {f w} {m : Machine} (running : r.progress = .running s.instruction.address)
    (found : p.get? s.instruction.address = some s.instruction) (result : s.result o p = .error f)
    (executed : m.counters.executed = r.machine.counters.executed)
    (jumps : m.counters.jumps = r.machine.counters.jumps) :
    Passes o p r (some s) ⟨m, w, .failed f⟩
  | went {s : Stop σ} {flow w} {m : Machine} (running : r.progress = .running s.instruction.address)
    (found : p.get? s.instruction.address = some s.instruction) (result : s.result o p = .ok flow)
    (executed : m.counters.executed = r.machine.counters.executed)
    (jumps : m.counters.jumps = r.machine.counters.jumps) :
    Passes o p r (some s) (follow p s.instruction.address m.counted w flow)

/-- A turn that gets as far as asking the observer makes its stop. -/
theorem passes_consult {o : Observer σ} {p : Program} {r : Run σ} {pc : Address} {i : Instruction}
    (running : r.progress = .running pc) (found : p.get? pc = some i) :
    Passes o p r (some ⟨i, r.machine.syncProgramCounter pc.native, r.watch⟩)
      (consult o p pc i r.machine r.watch) := by
  have here : i.address = pc := p.keyed found
  subst here
  -- the stop's result is the answer of the observer, and then that of the instruction
  unfold consult
  cases asked : o.next i r.watch with
  | mk answer w =>
    cases answer with
    | error f => exact .broke running found (by simp only [Stop.result, asked]; rfl) rfl rfl
    | ok _ =>
      dsimp only
      unfold perform
      cases executed : (r.machine.syncProgramCounter i.address.native).execute p i with
      | mk result m =>
        obtain ⟨kept, kept'⟩ := Machine.counters_execute executed
        have same : Stop.result o p ⟨i, r.machine.syncProgramCounter i.address.native, r.watch⟩ =
            result := by
          simp only [Stop.result, asked, executed]
          rfl
        cases result with
        | error f => exact .broke running found same kept kept'
        | ok flow => exact .went running found same kept kept'

/-- A turn makes a stop, or none. -/
theorem passes (o : Observer σ) (p : Program) (r : Run σ) :
    Passes o p r (r.stop? p) (r.step o p) := by
  unfold stop? step
  cases running : r.progress with
  | finished | failed => exact .ended (by rw [isOver, running])
  | running pc =>
    dsimp only
    cases found : p.get? pc with
    | none =>
      rw [turn_off found]
      cases r.machine.spent? <;> exact .off running found
    | some i =>
      cases spent : r.machine.spent? with
      | some limit =>
        rw [turn_spent found spent]
        exact .limited running (SortedMap.contains_iff.2 ⟨i, found⟩) spent
      | none =>
        rw [turn_consult found spent]
        exact passes_consult running found

/-! ## Stops along the control graph -/

/-- Where a run is that has made some stops: at the entry, or where the last stop leads. -/
structure Arrives (p : Program) (entry : Address) (stops : List (Stop σ)) (a : Address) : Prop where
  first : stops = [] → a = entry
  behind : ∀ s ∈ stops.getLast?, s.Leads p a

/-- How a run stands that has made some stops, with the machine as it is. -/
inductive Standing (o : Observer σ) (p : Program) (entry : Address) (stops : List (Stop σ))
    (m : Machine) : Progress → Prop
  | running {pc} (all : ∀ s ∈ stops, s.completes o p) (arrives : Arrives p entry stops pc) :
    Standing o p entry stops m (.running pc)
  | finished (all : ∀ s ∈ stops, s.completes o p)
    (ended : stops = [] ∧ ¬ p.contains entry ∨ ∃ s ∈ stops.getLast?, s.Ends p) :
    Standing o p entry stops m .finished
  | limited {pc limit} (all : ∀ s ∈ stops, s.completes o p) (arrives : Arrives p entry stops pc)
    (there : p.contains pc) (spent : m.spent? = some limit) :
    Standing o p entry stops m (.failed (.stepLimitExceeded limit))
  | broke {before s f} (all : ∀ s ∈ before, s.completes o p) (stops_eq : stops = before ++ [s])
    (result : s.result o p = .error f) : Standing o p entry stops m (.failed f)

/-- A run that has made some stops: they follow the control graph, and the counters count them. -/
structure Tours (o : Observer σ) (p : Program) (entry : Address) (stops : List (Stop σ))
    (r : Run σ) : Prop where
  placed : ∀ s ∈ stops, p.get? s.instruction.address = some s.instruction
  first : ∀ s ∈ stops.head?, s.instruction.address = entry
  chain : stops.IsChain fun s t => s.Leads p t.instruction.address
  executed : r.machine.counters.executed = (stops.filter (·.completes o p)).length
  jumps : r.machine.counters.jumps = (stops.filter (·.completes o p)).countP (·.jumps)
  standing : Standing o p entry stops r.machine r.progress

namespace Tours

variable {o : Observer σ} {p : Program} {entry pc : Address} {stops : List (Stop σ)} {r r' : Run σ}
  {s : Stop σ}

/-- A run that goes on has completed all its stops, and is where the last one leads. -/
theorem arrives (h : Tours o p entry stops r) (running : r.progress = .running pc) :
    (∀ s ∈ stops, s.completes o p) ∧ Arrives p entry stops pc := by
  have standing := h.standing
  rw [running] at standing
  cases standing with
  | running all arrives => exact ⟨all, arrives⟩

/-- One more stop is where the run is. -/
theorem placed_append (h : Tours o p entry stops r)
    (found : p.get? s.instruction.address = some s.instruction) :
    ∀ t ∈ stops ++ [s], p.get? t.instruction.address = some t.instruction := by
  intro t mem
  rcases List.mem_append.1 mem with before | last
  · exact h.placed t before
  · rw [List.mem_singleton.1 last]
    exact found

/-- One more stop is the first if there was none, and else the first stays. -/
theorem first_append (h : Tours o p entry stops r)
    (running : r.progress = .running s.instruction.address) :
    ∀ t ∈ (stops ++ [s]).head?, t.instruction.address = entry := by
  cases stops with
  | nil =>
    intro t mem
    cases mem
    exact (h.arrives running).2.first rfl
  | cons first rest => exact h.first

/-- The next stop is where the last one leads. -/
theorem chain_append (h : Tours o p entry stops r)
    (running : r.progress = .running s.instruction.address) :
    (stops ++ [s]).IsChain fun s t => s.Leads p t.instruction.address := by
  refine h.chain.append (List.isChain_singleton s) fun before last t mem => ?_
  cases mem
  exact (h.arrives running).2.behind before last

/-- A stop that fails is the last one. -/
theorem broke (h : Tours o p entry stops r) (running : r.progress = .running s.instruction.address)
    (found : p.get? s.instruction.address = some s.instruction) {m : Machine} {w : σ}
    {f : Fault Address} (result : s.result o p = .error f)
    (executed : m.counters.executed = r.machine.counters.executed)
    (jumps : m.counters.jumps = r.machine.counters.jumps) :
    Tours o p entry (stops ++ [s]) ⟨m, w, .failed f⟩ := by
  have fails : s.completes o p = false := by
    rw [Stop.completes, result]
    rfl
  have same : (stops ++ [s]).filter (·.completes o p) = stops.filter (·.completes o p) := by
    simp [List.filter_append, fails]
  refine ⟨h.placed_append found, h.first_append running, h.chain_append running, ?_, ?_, ?_⟩
  · rw [same]
    exact executed.trans h.executed
  · rw [same]
    exact jumps.trans h.jumps
  · exact .broke (h.arrives running).1 rfl result

/-- The flow of control that comes of a stop is the one that the instruction leads to. -/
theorem flow_of_result {flow : Flow} (result : s.result o p = .ok flow) :
    (flow = .next ∧ s.Falls) ∨ (flow = .halt ∧ s.instruction.opcode = .halt) ∨
      ∃ t, flow = .jump t ∧ s.jumps ∧ s.Targets t ∧ p.contains t := by
  unfold Stop.result at result
  cases asked : (o.next s.instruction s.watch).1 with
  | error f =>
    rw [asked] at result
    cases result
  | ok _ =>
    rw [asked] at result
    have flows : (s.machine.execute p s.instruction).1 = .ok flow := result
    exact Stop.flow_of_execute (Prod.ext flows rfl)

/-- A stop that is completed leads on, or the run ends well. -/
theorem standing_follow (all : ∀ t ∈ stops ++ [s], t.completes o p) {flow : Flow} (m : Machine)
    (w : σ) (result : s.result o p = .ok flow) :
    Standing o p entry (stops ++ [s]) (follow p s.instruction.address m w flow).machine
      (follow p s.instruction.address m w flow).progress := by
  have leads : ∀ {a}, s.Leads p a → Arrives p entry (stops ++ [s]) a := by
    intro a leads
    refine ⟨fun e => by simp at e, fun t mem => ?_⟩
    rw [List.getLast?_concat] at mem
    cases mem
    exact leads
  have ends : ∀ {m}, s.Ends p → Standing o p entry (stops ++ [s]) m .finished :=
    fun ends => .finished all (.inr ⟨s, List.getLast?_concat, ends⟩)
  rcases flow_of_result result with ⟨rfl, falls⟩ | ⟨rfl, halts⟩ | ⟨t, rfl, jumps, target, there⟩
  · unfold follow
    dsimp only
    cases next : p.next? s.instruction.address with
    | some a => exact .running all (leads (.fall falls (Program.next?_eq_some_iff.1 next)))
    | none => exact ends (.fall falls (Program.next?_eq_none_iff.1 next))
  · exact ends (.halt halts)
  · exact .running all (leads (.jump jumps target there))

/-- The counters behind a completed instruction. -/
theorem counters_follow (a : Address) (m : Machine) (w : σ) {flow : Flow}
    (result : s.result o p = .ok flow) :
    (follow p a m.counted w flow).machine.counters.executed = m.counters.executed + 1 ∧
      (follow p a m.counted w flow).machine.counters.jumps =
        m.counters.jumps + if s.jumps then 1 else 0 := by
  rcases flow_of_result result with ⟨rfl, -, stays⟩ | ⟨rfl, halts⟩ | ⟨t, rfl, jumps, -⟩
  · rw [stays]
    unfold follow
    dsimp only
    split <;> exact ⟨rfl, rfl⟩
  · have stays : s.jumps = false := by
      cases jumps : s.jumps with
      | false => rfl
      | true =>
        have opcode := Stop.opcode_of_jumps jumps
        rw [halts] at opcode
        cases opcode
    rw [stays]
    exact ⟨rfl, rfl⟩
  · rw [jumps]
    exact ⟨rfl, rfl⟩

/-- A stop that is completed carries the itinerary on. -/
theorem went (h : Tours o p entry stops r) (running : r.progress = .running s.instruction.address)
    (found : p.get? s.instruction.address = some s.instruction) {m : Machine} {w : σ}
    {flow : Flow} (result : s.result o p = .ok flow)
    (executed : m.counters.executed = r.machine.counters.executed)
    (jumps : m.counters.jumps = r.machine.counters.jumps) :
    Tours o p entry (stops ++ [s]) (follow p s.instruction.address m.counted w flow) := by
  have completes : s.completes o p := by
    rw [Stop.completes, result]
    rfl
  have more : (stops ++ [s]).filter (·.completes o p) = stops.filter (·.completes o p) ++ [s] := by
    simp [List.filter_append, completes]
  have all : ∀ t ∈ stops ++ [s], t.completes o p := by
    intro t mem
    rcases List.mem_append.1 mem with before | last
    · exact (h.arrives running).1 t before
    · rw [List.mem_singleton.1 last]
      exact completes
  obtain ⟨executed', jumps'⟩ := counters_follow s.instruction.address m w result
  refine ⟨h.placed_append found, h.first_append running, h.chain_append running, ?_, ?_, ?_⟩
  · rw [executed', executed, h.executed, more, List.length_append, List.length_singleton]
  · rw [jumps', jumps, h.jumps, more, List.countP_append, List.countP_singleton]
  · exact standing_follow all m.counted w result

/-- A turn carries the itinerary on along an edge of the control graph, or ends it. -/
theorem step (h : Tours o p entry stops r) :
    Tours o p entry (stops ++ (r.stop? p).toList) (r.step o p) := by
  have pass := r.passes o p
  generalize r.stop? p = stop, r.step o p = r' at pass
  cases pass with
  | ended => simpa using h
  | @off pc running nothing =>
    obtain ⟨all, arrives⟩ := h.arrives running
    have outside := Program.get?_eq_none_iff.1 nothing
    -- wherever a stop leads there is an instruction, so the entry itself is off the program
    have nowhere : stops = [] := by
      cases last : stops.getLast? with
      | none => exact List.getLast?_eq_none_iff.1 last
      | some s => exact absurd (arrives.behind s last).contains outside
    subst nowhere
    cases arrives.first rfl
    exact ⟨h.placed, h.first, h.chain, h.executed, h.jumps, .finished all (.inl ⟨rfl, outside⟩)⟩
  | limited running there spent =>
    obtain ⟨all, arrives⟩ := h.arrives running
    rw [Option.toList_none, List.append_nil]
    exact ⟨h.placed, h.first, h.chain, h.executed, h.jumps, .limited all arrives there spent⟩
  | broke running found result executed jumps => exact h.broke running found result executed jumps
  | went running found result executed jumps => exact h.went running found result executed jumps

/-- The itinerary of a run, as far as it has come. -/
theorem advance {m : Machine} {w : σ} (turns : Nat) :
    Tours o p entry ((begin o entry m w).itinerary o p turns)
      (Run.advance o p turns (begin o entry m w)) := by
  induction turns with
  | zero =>
    have standing : ∀ {m}, Standing o p entry [] m (.running entry) :=
      .running (by simp) ⟨by simp, by simp⟩
    exact ⟨by simp [itinerary], by simp [itinerary], .nil, rfl, rfl, standing⟩
  | succ turns ih =>
    rw [itinerary_succ, ← step_advance]
    exact ih.step

/-! ### What an itinerary tells -/

/-- Only the last stop may fail. -/
theorem completes_of_dropLast (h : Tours o p entry stops r) :
    ∀ s ∈ stops.dropLast, s.completes o p := by
  intro s mem
  have standing := h.standing
  generalize r.progress = progress at standing
  cases standing with
  | running all | finished all | limited all => exact all s (List.dropLast_subset _ mem)
  | broke all stops_eq =>
    rw [stops_eq, List.dropLast_concat] at mem
    exact all s mem

/-- A stop that fails is what the run fails of. -/
theorem failed_of_result (h : Tours o p entry stops r) (last : s ∈ stops.getLast?)
    {f : Fault Address} (result : s.result o p = .error f) : r.progress = .failed f := by
  have fails : ¬ s.completes o p := by
    rw [Stop.completes, result]
    exact nofun
  have standing := h.standing
  generalize r.progress = progress at standing ⊢
  cases standing with
  | running all | finished all | limited all =>
    exact absurd (all s (List.mem_of_getLast? last)) fails
  | broke _ stops_eq result' =>
    rw [stops_eq, List.getLast?_concat] at last
    cases last
    rw [result] at result'
    cases result'
    rfl

/-- A run fails of its last stop, or because its step limit is used up. -/
theorem of_failed (h : Tours o p entry stops r) {f : Fault Address}
    (failed : r.progress = .failed f) :
    (∃ s ∈ stops.getLast?, s.result o p = .error f) ∨
      ∃ limit, r.machine.spent? = some limit ∧ f = .stepLimitExceeded limit := by
  have standing := h.standing
  rw [failed] at standing
  cases standing with
  | limited _ _ _ spent => exact .inr ⟨_, spent, rfl⟩
  | @broke before s _ _ stops_eq result =>
    refine .inl ⟨s, ?_, result⟩
    rw [stops_eq, List.getLast?_concat]
    rfl

/-- A completed jump has gone to its target, which is in the program. -/
theorem jumps_of_completes (completes : s.completes o p) (jumps : s.jumps) :
    ∃ t, s.Targets t ∧ p.contains t := by
  cases result : s.result o p with
  | error f =>
    rw [Stop.completes, result] at completes
    cases completes
  | ok flow =>
    rcases flow_of_result result with ⟨-, -, stays⟩ | ⟨-, halts⟩ | ⟨t, -, -, target, there⟩
    · rw [stays] at jumps
      cases jumps
    · rw [Stop.opcode_of_jumps jumps] at halts
      cases halts
    · exact ⟨t, target, there⟩

/-- A run that made a stop began in the program. -/
theorem contains_entry (h : Tours o p entry stops r) (some_stop : stops ≠ []) :
    p.contains entry := by
  cases stops with
  | nil => exact absurd rfl some_stop
  | cons s rest =>
    rw [← h.first s rfl]
    exact SortedMap.contains_iff.2 ⟨_, h.placed s (List.mem_cons_self ..)⟩

/-- A run ends well exactly if it begins outside the program, or its last completed stop ends it. -/
theorem finished_iff (h : Tours o p entry stops r) (atEnd : r.isOver) :
    r.progress = .finished ↔
      ¬ p.contains entry ∨ ∃ s ∈ (stops.filter (·.completes o p)).getLast?, s.Ends p := by
  have standing := h.standing
  rw [isOver] at atEnd
  generalize r.progress = progress at standing atEnd ⊢
  cases standing with
  | running => cases atEnd
  | finished all ended =>
    rw [List.filter_eq_self.2 all]
    exact ⟨fun _ => ended.imp And.right id, fun _ => rfl⟩
  | @limited pc _ all arrives there =>
    -- the run stands in the program, where its last stop led
    rw [List.filter_eq_self.2 all]
    refine ⟨fun finished => Progress.noConfusion finished, fun ends => ?_⟩
    rcases ends with outside | ⟨s, last, ends⟩
    · refine absurd ?_ outside
      by_cases none_made : stops = []
      · exact arrives.first none_made ▸ there
      · exact h.contains_entry none_made
    · exact absurd ends (arrives.behind s last).not_ends
  | @broke before s f all stops_eq result =>
    -- the stop before the one that failed led there
    refine ⟨fun finished => Progress.noConfusion finished, fun ends => ?_⟩
    have fails : s.completes o p = false := by
      rw [Stop.completes, result]
      rfl
    subst stops_eq
    rw [List.filter_append, List.filter_eq_self.2 all] at ends
    rcases ends with outside | ⟨t, last, ends⟩
    · exact absurd (h.contains_entry (by simp)) outside
    · simp only [List.filter_singleton, fails, cond_false, List.append_nil] at last
      have leads := (List.isChain_append.1 h.chain).2.2 t last s rfl
      exact absurd ends leads.not_ends

end Tours

end Run

/-! ## What the observer is told -/

/-- A call that an observer gets. -/
inductive Call where
  | start (entry : Address)
  | next (i : Instruction)
  | finish (counters : Counters)
  deriving DecidableEq, Repr

/-- The same observer, which also writes down the calls it gets. -/
def Observer.recorded {σ : Type} (o : Observer σ) : Observer (List Call × σ) where
  start entry s := (s.1 ++ [.start entry], o.start entry s.2)
  next i s := ((o.next i s.2).1, s.1 ++ [.next i], (o.next i s.2).2)
  finish counters s := (s.1 ++ [.finish counters], o.finish counters s.2)

namespace Run

variable {σ : Type}

/-- A run without the record of its observer. -/
def unrecorded (r : Run (List Call × σ)) : Run σ := ⟨r.machine, r.watch.2, r.progress⟩

/-- To perform an instruction makes no call to the observer. -/
theorem perform_recorded (p : Program) (pc : Address) (i : Instruction) (m : Machine)
    (w : List Call × σ) :
    (perform p pc i m w).watch = w ∧ (perform p pc i m w).unrecorded = perform p pc i m w.2 := by
  unfold perform
  cases (m.syncProgramCounter pc.native).execute p i with
  | mk result m' =>
    cases result with
    | error f => exact ⟨rfl, rfl⟩
    | ok flow =>
      cases flow with
      | halt | jump t => exact ⟨rfl, rfl⟩
      | next =>
        dsimp only
        unfold follow
        dsimp only
        cases p.next? pc <;> exact ⟨rfl, rfl⟩

/-- A turn writes down the stop it makes, and is otherwise the same. -/
theorem step_recorded (o : Observer σ) (p : Program) (r : Run (List Call × σ)) :
    (r.step o.recorded p).watch.1 =
        r.watch.1 ++ (r.unrecorded.stop? p).toList.map (.next ·.instruction) ∧
      (r.step o.recorded p).unrecorded = r.unrecorded.step o p := by
  -- a turn that makes no stop asks the observer nothing, so nothing is written down
  have idle : ∀ {r' : Run (List Call × σ)}, r'.watch.1 = r.watch.1 →
      r'.watch.1 = r.watch.1 ++ (none : Option (Stop σ)).toList.map (Call.next ·.instruction) :=
    fun same => same.trans (List.append_nil _).symm
  have machine : r.unrecorded.machine = r.machine := rfl
  unfold stop? step
  rw [show r.unrecorded.progress = r.progress from rfl]
  cases r.progress with
  | finished | failed => exact ⟨idle rfl, rfl⟩
  | running pc =>
    dsimp only
    rw [machine]
    cases found : p.get? pc with
    | none =>
      rw [turn_off found, turn_off found]
      cases r.machine.spent? <;> exact ⟨idle rfl, rfl⟩
    | some i =>
      cases spent : r.machine.spent? with
      | some limit =>
        rw [turn_spent found spent, turn_spent found spent]
        exact ⟨idle rfl, rfl⟩
      | none =>
        rw [turn_consult found spent, turn_consult found spent]
        dsimp only [consult, Observer.recorded, unrecorded]
        cases o.next i r.watch.2 with
        | mk answer w =>
          cases answer with
          | error f => exact ⟨rfl, rfl⟩
          | ok _ =>
            obtain ⟨watch, same⟩ := perform_recorded p pc i r.machine (r.watch.1 ++ [.next i], w)
            exact ⟨congrArg Prod.fst watch, same⟩

/-- The calls of a run are its itinerary. -/
theorem advance_recorded (o : Observer σ) (p : Program) (turns : Nat) (r : Run (List Call × σ)) :
    (advance o.recorded p turns r).watch.1 =
        r.watch.1 ++ (r.unrecorded.itinerary o p turns).map (.next ·.instruction) ∧
      (advance o.recorded p turns r).unrecorded = advance o p turns r.unrecorded := by
  induction turns with
  | zero => exact ⟨(List.append_nil _).symm, rfl⟩
  | succ turns ih =>
    obtain ⟨calls, same⟩ := ih
    obtain ⟨more, same'⟩ := step_recorded o p (advance o.recorded p turns r)
    rw [← step_advance, ← step_advance, more, same', calls, same, itinerary_succ, List.map_append,
      List.append_assoc]
    exact ⟨rfl, rfl⟩

/-- The end of a run that is over is recorded as one last call. -/
theorem conclude_recorded (o : Observer σ) (r : Run (List Call × σ)) :
    (r.conclude o.recorded).watch.1 =
        r.watch.1 ++ (if r.isOver then [.finish r.machine.counters] else []) ∧
      (r.conclude o.recorded).unrecorded = r.unrecorded.conclude o := by
  unfold conclude
  rw [show r.unrecorded.isOver = r.isOver from rfl]
  cases r.isOver with
  | false => exact ⟨(List.append_nil _).symm, rfl⟩
  | true => exact ⟨rfl, rfl⟩

end Run

/--
What a run of any program does, under any observer and any settings, however many turns it has come.
The observer is called once at the start with the entry, then for each stop, and once at the end
with the counters; writing the calls down changes nothing else. The first stop is at the entry, and
each stop is in the program where the one before leads. Only the last stop may be refused or fail,
and then the run fails of that; it fails of nothing else but the step limit. The counters count the
completed stops and the jumps among them, which went to targets in the program. A run that is over
ended well exactly if it began outside the program, or its last completed stop halted or fell from
the last address.
-/
theorem run_follows_control_graph {σ : Type} (o : Observer σ) (p : Program) (turns : Nat)
    (entry : Address) (m : Machine) (w : σ) :
    let r := m.interpret o p turns entry w
    let recorded := m.interpret o.recorded p turns entry ([], w)
    let stops := (Run.begin o entry m w).itinerary o p turns
    let completed := stops.filter (·.completes o p)
    recorded.watch.1 = .start entry :: stops.map (.next ·.instruction) ++
        (if r.isOver then [.finish r.machine.counters] else []) ∧
      recorded.unrecorded = r ∧
      (∀ s ∈ stops, p.get? s.instruction.address = some s.instruction) ∧
      (∀ s ∈ stops.head?, s.instruction.address = entry) ∧
      (stops.IsChain fun s t => s.Leads p t.instruction.address) ∧
      (∀ s ∈ stops.dropLast, s.completes o p) ∧
      (∀ s ∈ stops.getLast?, ∀ f, s.result o p = .error f → r.progress = .failed f) ∧
      (∀ f, r.progress = .failed f → (∃ s ∈ stops.getLast?, s.result o p = .error f) ∨
        ∃ limit, r.machine.spent? = some limit ∧ f = .stepLimitExceeded limit) ∧
      r.machine.counters.executed = completed.length ∧
      r.machine.counters.jumps = completed.countP (·.jumps) ∧
      (∀ s ∈ completed, s.jumps → ∃ t, s.Targets t ∧ p.contains t) ∧
      (r.isOver → (r.progress = .finished ↔
        ¬ p.contains entry ∨ ∃ s ∈ completed.getLast?, s.Ends p)) := by
  intro r recorded stops completed
  let run := Run.advance o p turns (Run.begin o entry m w)
  let recording := Run.advance o.recorded p turns (Run.begin o.recorded entry m ([], w))
  have tours : Run.Tours o p entry stops run := .advance turns
  have progress : r.progress = run.progress := Run.progress_conclude o run
  have machine : r.machine = run.machine := Run.machine_conclude o run
  have atEnd : r.isOver = run.isOver := by rw [Run.isOver, progress, Run.isOver]
  -- writing the calls down changes nothing but the record
  obtain ⟨calls, same⟩ := Run.advance_recorded o p turns (Run.begin o.recorded entry m ([], w))
  obtain ⟨farewell, same'⟩ := Run.conclude_recorded o recording
  have machine' : recording.machine = run.machine := congrArg Run.machine same
  have atEnd' : recording.isOver = run.isOver := congrArg Run.isOver same
  refine ⟨?_, ?_, tours.placed, tours.first, tours.chain, tours.completes_of_dropLast, ?_, ?_, ?_,
    ?_, ?_, ?_⟩
  · rw [atEnd, machine, ← atEnd', ← machine']
    exact farewell.trans (congrArg (· ++ _) calls)
  · exact same'.trans (congrArg (·.conclude o) same)
  · intro s last f result
    rw [progress]
    exact tours.failed_of_result last result
  · intro f
    rw [progress, machine]
    exact tours.of_failed
  · rw [machine]
    exact tours.executed
  · rw [machine]
    exact tours.jumps
  · intro s mem jumps
    exact Run.Tours.jumps_of_completes (List.mem_filter.1 mem).2 jumps
  · rw [atEnd, progress]
    exact tours.finished_iff

end RegisterTransfer
