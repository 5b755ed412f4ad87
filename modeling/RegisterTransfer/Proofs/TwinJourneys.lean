import RegisterTransfer.Proofs.Twins

/-!
# Twin journeys

The journeys through two scripts in lockstep, from twin machines. They stay twins, whatever the other
temporaries held before, and stand at the same point all along; a fault on the way is the same on
both sides.

> `Script.Lockstep.agree`: scripts in lockstep write corresponding code, and twin journeys through
> them stay twins.
> `Script.Lockstep.orderly`: scripts in lockstep are orderly.
-/

namespace RegisterTransfer

/-! ## Twin journeys -/

/-- The temporaries that hold a value where a journey stands. -/
def Scope.heldAt (Γ : Scope) : Stance → List (Nat × Width)
  | .going => Γ.held
  | .seeking label =>
    match Γ.labels[label.index]? with
    | some (.sought held) => held
    | _ => []
  | .halted | .left _ _ | .failed _ => []

/-- Two journeys that stand at the same point with twin machines. -/
structure Journey.Twins (division : Prop) (d : Nat) (Γ : Scope) (g g' : Journey) : Prop where
  stance : g'.stance = g.stance
  machine : g.machine.Twins d (Γ.heldAt g.stance) g'.machine
  sought : ∀ {label}, g.stance = .seeking label →
    ∃ held, Γ.labels[label.index]? = some (.sought held)
  alive : g.stance ≠ .halted
  mild : ∀ {f}, g.stance = .failed f → f.Mild g.machine.settings division

namespace Journey

variable {division : Prop} {d : Nat} {Γ Γ' : Scope} {g g' : Journey} {m m' : Machine}

theorem twins_going (h : m.Twins d Γ.held m') : Twins division d Γ ⟨m, .going⟩ ⟨m', .going⟩ :=
  ⟨rfl, h, nofun, nofun, nofun⟩

/-- A fault that an expansion can cause by itself ends both journeys. -/
theorem twins_failed {held : List (Nat × Width)} {f : Fault Address} (h : m.Twins d held m')
    (mild : f.Mild m.settings division) :
    Twins division d Γ ⟨m, .failed f⟩ ⟨m', .failed f⟩ :=
  ⟨rfl, h.subset (List.nil_subset _), nofun, nofun, fun e => by cases e; exact mild⟩

/-- A jump out of the expansion takes both journeys to the same address. -/
theorem twins_left {held : List (Nat × Width)} {place t : Address} (h : m.Twins d held m') :
    Twins division d Γ ⟨m, .left place t⟩ ⟨m', .left place t⟩ :=
  ⟨rfl, h.subset (List.nil_subset _), nofun, nofun, nofun⟩

/-- While the journeys go on, their machines are twins in what the scope holds. -/
theorem Twins.going (h : Twins division d Γ g g') (e : g.stance = .going) :
    g.machine.Twins d Γ.held g'.machine := by
  have := h.machine
  rwa [e] at this

/-- A journey that is past a point does not see what becomes of the scope there. -/
theorem Twins.pass (h : Twins division d Γ g g') (ne : g.stance ≠ .going)
    (labels : ∀ {label held}, g.stance = .seeking label →
      Γ.labels[label.index]? = some (.sought held) →
      Γ'.labels[label.index]? = some (.sought held)) : Twins division d Γ' g g' := by
  refine ⟨h.stance, ?_, fun {label} e => ?_, h.alive, h.mild⟩
  · cases e : g.stance with
    | going => exact absurd e ne
    | seeking label =>
      obtain ⟨held, sought⟩ := h.sought e
      have machine := h.machine
      simp only [e, Scope.heldAt, sought] at machine
      simp only [Scope.heldAt, labels e sought]
      exact machine
    | halted | left | failed => exact h.machine.subset (List.nil_subset _)
  · obtain ⟨held, sought⟩ := h.sought e
    exact ⟨held, labels e sought⟩

/-- Twin journeys perform twin instructions. -/
theorem Twins.perform (h : Twins division d Γ g g') {i i' : Instruction}
    (place : i'.address = i.address) (labels : Γ'.labels = Γ.labels)
    (after : ∀ {m m' : Machine}, m.Twins d Γ.held m' →
      Twins division d Γ' (Journey.after m i) (Journey.after m' i')) :
    Twins division d Γ' (g.perform i) (g'.perform i') := by
  by_cases e : g.stance = .going
  · have e' : g'.stance = .going := h.stance.trans e
    unfold Journey.perform
    rw [e, e', place]
    exact after ((h.going e).syncProgramCounter _)
  · have e' : g'.stance ≠ .going := h.stance ▸ e
    rw [perform_of_ne_going e, perform_of_ne_going e']
    exact h.pass e (fun _ sought => labels ▸ sought)

/-- A new label changes nothing. -/
theorem Twins.create (h : Twins division d Γ g g') : Twins division d Γ.create g g' := by
  by_cases e : g.stance = .going
  · refine ⟨h.stance, ?_, fun {label} e' => ?_, h.alive, h.mild⟩
    · rw [e]
      exact h.going e
    · rw [e] at e'
      cases e'
  · refine h.pass e fun {label held} _ sought => ?_
    have inside := (List.getElem?_eq_some_iff.1 sought).1
    simp only [Scope.create, List.getElem?_append_left inside, sought]

/-- Twin journeys jump to a label alike. -/
theorem Twins.jumpIf (h : Twins division d Γ g g') {a a' : Operand} {label : Label}
    (condition : Γ.Reads d a a') (unused : Γ.labels[label.index]? = some .fresh)
    (place : Address) :
    Twins division d (Γ.leave label) (g.jumpIf place a label) (g'.jumpIf place a' label) := by
  by_cases e : g.stance = .going
  · have e' : g'.stance = .going := h.stance.trans e
    have synced := (h.going e).syncProgramCounter place.native
    obtain ⟨same, mild⟩ := condition.source division synced place
    have inside := (List.getElem?_eq_some_iff.1 unused).1
    -- the label keeps in mind what is held at its jump
    have sought : (Γ.leave label).labels[label.index]? = some (.sought Γ.held) := by
      simp only [Scope.leave, Scope.next, List.getElem?_set_self inside]
    unfold Journey.jumpIf
    rw [e, e']
    dsimp only
    rw [same]
    cases hs : (g.machine.syncProgramCounter place.native).source place a with
    | error f => exact twins_failed synced (mild hs)
    | ok v =>
      dsimp only
      split
      · exact twins_going synced.counted
      · refine ⟨rfl, ?_, fun e => ?_, nofun, nofun⟩
        · simp only [Scope.heldAt, sought]
          exact synced.counted.jumped
        · cases e
          exact ⟨_, sought⟩
  · have e' : g'.stance ≠ .going := h.stance ▸ e
    rw [jumpIf_of_ne_going e, jumpIf_of_ne_going e']
    refine h.pass e fun {other held} _ old => ?_
    have ne : label.index ≠ other.index := by
      intro same
      rw [← same, unused] at old
      cases old
    simp only [Scope.leave, Scope.next, List.getElem?_set_ne ne, old]

/-- Twin journeys arrive at a label alike. -/
theorem Twins.reach (h : Twins division d Γ g g') {label : Label} {held : List (Nat × Width)}
    (sought : Γ.labels[label.index]? = some (.sought held)) :
    Twins division d (Γ.attach label held) (g.reach label) (g'.reach label) := by
  by_cases e : g.stance = .seeking label
  · have e' : g'.stance = .seeking label := h.stance.trans e
    have machine := h.machine
    simp only [e, Scope.heldAt, sought] at machine
    rw [Journey.reach, Journey.reach, if_pos e, if_pos e']
    refine twins_going (machine.subset fun x hx => ?_)
    simp only [Scope.attach, List.mem_filter, decide_eq_true_eq] at hx
    exact hx.2
  · have e' : g'.stance ≠ .seeking label := h.stance ▸ e
    rw [reach_of_ne e, reach_of_ne e']
    by_cases going : g.stance = .going
    · refine ⟨h.stance, ?_, fun e => ?_, h.alive, h.mild⟩
      · rw [going]
        exact (h.going going).subset List.filter_sublist.subset
      · rw [going] at e
        cases e
    · refine h.pass going fun {other _} at_other old => ?_
      have ne : label.index ≠ other.index := by
        intro same
        have : label = other := by cases label; cases other; exact congrArg Label.mk same
        rw [this] at e
        exact e at_other
      simp only [Scope.attach, List.getElem?_set_ne ne, old]

end Journey

/-! ## Scopes of two expansions -/

/-- A scope that says where two expansions stand, one with temporaries `d` further than the other. -/
structure Scope.Describes (Γ : Scope) (d : Nat) (x x' : Expansion) : Prop where
  count : x.environment.temporaries = Γ.count
  count' : x'.environment.temporaries = Γ.count + d
  size : x.size = Γ.size
  size' : x'.size = Γ.size
  native : x'.native = x.native
  length : x.labels.length = Γ.labels.length
  labels : x'.labels = x.labels
  targets : x'.drafts.map Draft.target? = x.drafts.map Draft.target?
  unbound : ∀ {l : Nat} {mark}, Γ.labels[l]? = some mark → mark ≠ .bound → x.labels[l]? = some none
  old : ∀ {n w}, (n, w) ∈ Γ.held → n < Γ.count

namespace Scope.Describes

variable {d : Nat} {Γ : Scope} {x x' : Expansion}

theorem here (h : Γ.Describes d x x') : x'.here = x.here := by
  rw [Expansion.here, Expansion.here, h.native, h.size, h.size']

/-- The temporary that is next holds nothing yet. -/
theorem new (h : Γ.Describes d x x') (w : Width) : (Γ.count, w) ∉ Γ.held :=
  fun mem => Nat.lt_irrefl _ (h.old mem)

theorem temporary (h : Γ.Describes d x x') (w : Width) :
    (x.temporary w).1 = .register (temporaryName Γ.count) w := by
  rw [Expansion.temporary, h.count]

theorem temporary' (h : Γ.Describes d x x') (w : Width) :
    (x'.temporary w).1 = .register (temporaryName (Γ.count + d)) w := by
  rw [Expansion.temporary, h.count']

theorem newLabel (h : Γ.Describes d x x') : x.newLabel.1 = ⟨Γ.labels.length⟩ := by
  rw [Expansion.newLabel, h.length]

theorem newLabel' (h : Γ.Describes d x x') : x'.newLabel.1 = ⟨Γ.labels.length⟩ := by
  rw [Expansion.newLabel, h.labels, h.length]

/-- A temporary and the instruction that writes it. -/
theorem hold (h : Γ.Describes d x x') (w : Width) (opcode opcode' : Opcode)
    (a b c a' b' c' : Operand) :
    (Γ.hold w).Describes d ((x.temporary w).2.emit opcode a b c)
      ((x'.temporary w).2.emit opcode' a' b' c') where
  count := congrArg (· + 1) h.count
  count' := by
    have := h.count'
    simp only [Expansion.temporary, Expansion.emit, Scope.hold]
    omega
  size := by simpa [Expansion.size, Expansion.emit, Expansion.temporary, Scope.hold] using h.size
  size' := by simpa [Expansion.size, Expansion.emit, Expansion.temporary, Scope.hold] using h.size'
  native := h.native
  length := h.length
  labels := h.labels
  targets := by simp [Expansion.emit, Expansion.temporary, h.targets, Draft.target?]
  unbound := h.unbound
  old {n v} mem := by
    rcases List.mem_cons.1 mem with e | mem
    · cases e
      exact Nat.lt_succ_self _
    · exact Nat.lt_succ_of_lt (h.old mem)

/-- One more instruction on both sides, whatever it is. -/
theorem next (h : Γ.Describes d x x') (opcode opcode' : Opcode) (a b c a' b' c' : Operand) :
    Γ.next.Describes d (x.emit opcode a b c) (x'.emit opcode' a' b' c') :=
  { h with
    size := by simpa [Expansion.size, Expansion.emit, Scope.next] using h.size
    size' := by simpa [Expansion.size, Expansion.emit, Scope.next] using h.size'
    targets := by simp [Expansion.emit, h.targets, Draft.target?] }

theorem create (h : Γ.Describes d x x') : Γ.create.Describes d x.newLabel.2 x'.newLabel.2 :=
  { h with
    length := by simp [Expansion.newLabel, Scope.create, h.length]
    labels := by simp [Expansion.newLabel, h.labels]
    unbound := by
      intro l mark at_l ne
      simp only [Scope.create, Expansion.newLabel] at at_l ⊢
      by_cases last : l = Γ.labels.length
      · rw [last, ← h.length, List.getElem?_concat_length]
      · have inside : l < Γ.labels.length := by
          have := (List.getElem?_eq_some_iff.1 at_l).1
          simp only [List.length_append, List.length_singleton] at this
          omega
        rw [List.getElem?_append_left inside] at at_l
        rw [List.getElem?_append_left (h.length ▸ inside)]
        exact h.unbound at_l ne }

/-- A jump to a fresh label makes it sought, with what is held at the jump. -/
theorem leave (h : Γ.Describes d x x') {label : Label}
    (unused : Γ.labels[label.index]? = some .fresh) (a a' : Operand) :
    (Γ.leave label).Describes d (x.jumpIf a label) (x'.jumpIf a' label) :=
  { h with
    size := by simpa [Expansion.size, Expansion.jumpIf, Scope.leave, Scope.next] using h.size
    size' := by simpa [Expansion.size, Expansion.jumpIf, Scope.leave, Scope.next] using h.size'
    length := by simp [Expansion.jumpIf, Scope.leave, h.length]
    targets := by simp [Expansion.jumpIf, h.targets, Draft.target?]
    unbound := by
      intro l mark at_l ne
      by_cases e : label.index = l
      · subst e
        exact h.unbound unused (by simp)
      · simp only [Scope.leave, List.getElem?_set_ne e] at at_l
        exact h.unbound at_l ne }

/-- A label that is bound is bound at the same offset on both sides. -/
theorem attach (h : Γ.Describes d x x') {label : Label} (held : List (Nat × Width)) :
    (Γ.attach label held).Describes d (x.bind label) (x'.bind label) :=
  { h with
    length := by simp [Expansion.bind, Scope.attach, h.length]
    labels := by simp only [Expansion.bind, h.labels, h.size, h.size']
    unbound := by
      intro l mark at_l ne
      by_cases e : label.index = l
      · subst e
        have inside : label.index < Γ.labels.length := by
          have := (List.getElem?_eq_some_iff.1 at_l).1
          simpa [Scope.attach] using this
        simp only [Scope.attach, List.getElem?_set_self inside, Option.some.injEq] at at_l
        exact absurd at_l.symm ne
      · simp only [Scope.attach, List.getElem?_set_ne e] at at_l
        simp only [Expansion.bind, List.getElem?_set_ne e]
        exact h.unbound at_l ne
    old := fun mem => h.old (List.filter_sublist.subset mem) }

end Scope.Describes

/-! ## Journeys in lockstep -/

namespace Scope

variable {division : Prop} {d : Nat} {Γ : Scope} {m m' : Machine} {opcode : Opcode}
  {a b a' b' : Operand} {w : Width}

/-- Whatever computes leaves its result in a register. -/
theorem Computes.writesRegister (h : Γ.Computes division d opcode a b w a' b') :
    opcode.writesRegister := by
  cases h with
  | combine two => cases opcode <;> first | rfl | cases two
  | pass one => rcases one with rfl | rfl | rfl <;> rfl

theorem Computes.ne_jcc (h : Γ.Computes division d opcode a b w a' b') : opcode ≠ .jcc := by
  intro same
  subst same
  exact absurd h.writesRegister (by decide)

/-- Twins give twin temporaries the same value. -/
theorem Computes.after_hold (h : Γ.Computes division d opcode a b w a' b')
    (new : ∀ w, (Γ.count, w) ∉ Γ.held) (place : Address) (twins : m.Twins d Γ.held m') :
    Journey.Twins division d (Γ.hold w)
      (.after m ⟨place, opcode, a, b, .register (temporaryName Γ.count) w, none⟩)
      (.after m' ⟨place, opcode, a', b', .register (temporaryName (Γ.count + d)) w, none⟩) := by
  rw [Journey.after_outcome (temporaryName Γ.count) h.writesRegister rfl,
    Journey.after_outcome (temporaryName (Γ.count + d)) h.writesRegister rfl]
  rcases h.outcome (.register (temporaryName Γ.count) w)
    (.register (temporaryName (Γ.count + d)) w) rfl rfl twins place with
    ⟨f, left, right, mild⟩ | ⟨v, k, k', left, right, after, same⟩
  · rw [left, right]
    exact Journey.twins_failed twins mild
  · rw [left, right]
    exact Journey.twins_going (after.hold new v w).counted

/-- Twins give a register of the processor the same value. -/
theorem Computes.after_next (h : Γ.Computes division d opcode a b w a' b') {name : String}
    (native : isTemporary name = false) (place : Address) (twins : m.Twins d Γ.held m') :
    Journey.Twins division d Γ.next (.after m ⟨place, opcode, a, b, .register name w, none⟩)
      (.after m' ⟨place, opcode, a', b', .register name w, none⟩) := by
  rw [Journey.after_outcome name h.writesRegister rfl,
    Journey.after_outcome name h.writesRegister rfl]
  rcases h.outcome (.register name w) (.register name w) rfl rfl twins place with
    ⟨f, left, right, mild⟩ | ⟨v, k, k', left, right, after, same⟩
  · rw [left, right]
    exact Journey.twins_failed twins mild
  · rw [left, right]
    exact Journey.twins_going (after.setRegister native v w).counted

/-- Corresponding stores leave the same memory, or fail alike. -/
theorem Reads.after_store {c c' : Operand} (value : Γ.Reads d a a') (address : Γ.Reads d c c')
    (place : Address) (twins : m.Twins d Γ.held m') :
    Journey.Twins division d Γ.next (.after m ⟨place, .stm, a, .absent, c, none⟩)
      (.after m' ⟨place, .stm, a', .absent, c', none⟩) := by
  obtain ⟨same, mild⟩ := value.source division twins place
  obtain ⟨same', mild'⟩ := address.source division twins place
  rw [Journey.after_stm rfl, Journey.after_stm rfl]
  dsimp only
  rw [same, same', value.width]
  cases ha : m.source place a with
  | error f => exact Journey.twins_failed twins (mild ha)
  | ok v =>
    cases hc : m.source place c with
    | error f => exact Journey.twins_failed twins (mild' hc)
    | ok u => exact Journey.twins_going (twins.stored _ _ _).counted

/-- Twins jump to the same address, or fail in the same way. -/
theorem Reads.target {c c' : Operand} (h : Γ.Reads d c c') (division : Prop)
    (twins : m.Twins d Γ.held m') (place : Address) :
    m'.target place c' = m.target place c ∧
      ∀ {f}, m.target place c = .error f → f.Mild m.settings division := by
  obtain ⟨same, mild⟩ := h.source division twins place
  have opened : ∀ k : Machine, ∀ o : Operand, o = c ∨ o = c' →
      k.target place o = (k.source place o).map fun v => .ofNative (Width.qword.truncate v) := by
    intro k o either
    have kind : (∃ v, o.kind = .integer v) ∨ ∃ name, o.kind = .register name := by
      cases h with
      | integer v w => rcases either with rfl | rfl <;> exact .inl ⟨v, rfl⟩
      | native | temporary => rcases either with rfl | rfl <;> exact .inr ⟨_, rfl⟩
    unfold Machine.target
    rcases kind with ⟨v, e⟩ | ⟨name, e⟩ <;> rw [e] <;> cases k.source place o <;> rfl
  rw [opened m c (.inl rfl), opened m' c' (.inr rfl), same]
  cases hc : m.source place c with
  | error f => exact ⟨rfl, fun e => by cases e; exact mild hc⟩
  | ok v => exact ⟨rfl, nofun⟩

/-- Corresponding jumps out of the expansion go to the same address, or fail alike. -/
theorem Reads.after_exit {c c' : Operand} (condition : Γ.Reads d a a') (target : Γ.Reads d c c')
    (place : Address) (twins : m.Twins d Γ.held m') :
    Journey.Twins division d Γ.next (.after m ⟨place, .jcc, a, .absent, c, none⟩)
      (.after m' ⟨place, .jcc, a', .absent, c', none⟩) := by
  obtain ⟨same, mild⟩ := condition.source division twins place
  obtain ⟨same', mild'⟩ := target.target division twins place
  rw [Journey.after_jcc rfl, Journey.after_jcc rfl, Machine.route, Machine.route]
  dsimp only
  rw [same, same']
  cases ha : m.source place a with
  | error f => exact Journey.twins_failed twins (mild ha)
  | ok v =>
    by_cases zero : v = 0
    · simp only [bind, Except.bind, if_pos zero]
      exact Journey.twins_going twins.counted
    · simp only [bind, Except.bind, if_neg zero]
      cases hc : m.target place c with
      | error f => exact Journey.twins_failed twins (mild' hc)
      | ok t => exact Journey.twins_left twins

end Scope

namespace Script

variable {division : Prop} {d : Nat} {α : Type} {Q : α → α → Scope → Prop} {Γ : Scope}
  {s t : Script α}

/-- Scripts in lockstep are orderly. -/
theorem Lockstep.orderly (h : Lockstep division d Q Γ s t) {x x' : Expansion}
    (desc : Γ.Describes d x x') : s.Orderly x ∧ t.Orderly x' := by
  induction h generalizing x x' with
  | done | fail => exact ⟨trivial, trivial⟩
  | @compute Γ opcode a b w a' b' k k' s s' h left right rest ih =>
    obtain ⟨first, second⟩ := ih (desc.hold ..)
    constructor
    · rw [Orderly, desc.temporary, left]
      exact ⟨fun e => absurd e h.ne_jcc, first⟩
    · rw [Orderly, desc.temporary', right]
      exact ⟨fun e => absurd e h.ne_jcc, second⟩
  | assign h native rest ih =>
    obtain ⟨first, second⟩ := ih (desc.next ..)
    exact ⟨⟨fun e => absurd e h.ne_jcc, first⟩, ⟨fun e => absurd e h.ne_jcc, second⟩⟩
  | store _ _ _ ih | undefine _ _ ih | nop _ ih =>
    obtain ⟨first, second⟩ := ih (desc.next ..)
    exact ⟨⟨nofun, first⟩, ⟨nofun, second⟩⟩
  | exit condition target rest ih =>
    obtain ⟨first, second⟩ := ih (desc.next ..)
    exact ⟨⟨fun _ => target.not_address.1, first⟩, ⟨fun _ => target.not_address.2, second⟩⟩
  | create rest ih =>
    obtain ⟨first, second⟩ := ih desc.create
    constructor
    · rw [Orderly, desc.newLabel]
      exact first
    · rw [Orderly, desc.newLabel']
      exact second
  | leave condition unused rest ih =>
    obtain ⟨first, second⟩ := ih (desc.leave unused _ _)
    have fresh := desc.unbound unused nofun
    exact ⟨⟨fresh, first⟩, ⟨desc.labels ▸ fresh, second⟩⟩
  | attach sought rest ih =>
    obtain ⟨first, second⟩ := ih (desc.attach _)
    have fresh := desc.unbound sought nofun
    exact ⟨⟨fresh, first⟩, ⟨desc.labels ▸ fresh, second⟩⟩

/--
Two scripts that both give up for the same reason, or both end in `Q` and take twin journeys to twin
journeys.
-/
def Agree (division : Prop) (d : Nat) (Q : α → α → Scope → Prop) (Γ : Scope) (s t : Script α)
    (x x' : Expansion) : Prop :=
  (∃ e, (s.run x).1 = .error e ∧ (t.run x').1 = .error e) ∨
  ∃ a b Γ' X X', s.run x = (.ok a, X) ∧ t.run x' = (.ok b, X') ∧ Q a b Γ' ∧
    Γ'.Describes d X X' ∧
    ∀ {g g' : Journey}, g.Twins division d Γ g' →
      (s.walk x g).Twins division d Γ' (t.walk x' g')

/-- Agreement from the second step on, where the first step takes `f` to `g` and twins to twins. -/
theorem Agree.step {Γ' : Scope} {s' t' : Script α} {x x' y y' : Expansion}
    (h : Agree division d Q Γ' s' t' y y') (f f' : Journey → Journey)
    (ran : s.run x = s'.run y) (ran' : t.run x' = t'.run y')
    (walked : ∀ g, s.walk x g = s'.walk y (f g)) (walked' : ∀ g, t.walk x' g = t'.walk y' (f' g))
    (twins : ∀ {g g' : Journey}, g.Twins division d Γ g' →
      (f g).Twins division d Γ' (f' g')) :
    Agree division d Q Γ s t x x' := by
  rcases h with ⟨e, left, right⟩ | ⟨a, b, Γ'', X, X', left, right, q, desc, rest⟩
  · exact .inl ⟨e, ran ▸ left, ran' ▸ right⟩
  · refine .inr ⟨a, b, Γ'', X, X', ran ▸ left, ran' ▸ right, q, desc, fun {g g'} h => ?_⟩
    rw [walked, walked']
    exact rest (twins h)

/-- Agreement from behind a draft that both write at one place and that twins carry out alike. -/
theorem Agree.write {Γ' : Scope} {x x' : Expansion} {opcode : Opcode} {a b c a' b' c' : Operand}
    (h : Agree division d Q Γ' s t (x.emit opcode a b c) (x'.emit opcode a' b' c'))
    (here : x'.here = x.here) (labels : Γ'.labels = Γ.labels)
    (after : ∀ {m m' : Machine}, m.Twins d Γ.held m' →
      Journey.Twins division d Γ' (.after m ⟨x.here, opcode, a, b, c, none⟩)
        (.after m' ⟨x.here, opcode, a', b', c', none⟩)) :
    Agree division d Q Γ (.write opcode a b c s) (.write opcode a' b' c' t) x x' := by
  refine h.step (·.perform ⟨x.here, opcode, a, b, c, none⟩)
    (·.perform ⟨x'.here, opcode, a', b', c', none⟩) rfl rfl (fun _ => rfl) (fun _ => rfl)
    fun twins => twins.perform here labels fun machine => ?_
  rw [here]
  exact after machine

/-- Scripts in lockstep agree. -/
theorem Lockstep.agree (h : Lockstep division d Q Γ s t) {x x' : Expansion}
    (desc : Γ.Describes d x x') : Agree division d Q Γ s t x x' := by
  induction h generalizing x x' with
  | done h => exact .inr ⟨_, _, _, x, x', rfl, rfl, h, desc, fun twins => twins⟩
  | fail => exact .inl ⟨_, rfl, rfl⟩
  | @compute Γ opcode a b w a' b' k k' s s' h left right rest ih =>
    -- the temporary is allocated on both sides before it is written
    show Agree division d Q Γ (k (x.temporary w).1) (k' (x'.temporary w).1) (x.temporary w).2
      (x'.temporary w).2
    rw [desc.temporary, desc.temporary', left, right]
    exact (ih (desc.hold ..)).write desc.here rfl (h.after_hold desc.new x.here)
  | assign h native rest ih =>
    exact (ih (desc.next ..)).write desc.here rfl (h.after_next native x.here)
  | store value address rest ih =>
    exact (ih (desc.next ..)).write desc.here rfl (value.after_store address x.here)
  | @undefine Γ name w s s' native rest ih =>
    refine (ih (desc.next ..)).write desc.here rfl fun machine => ?_
    rw [Journey.after_undef name rfl rfl, Journey.after_undef name rfl rfl]
    exact Journey.twins_going (machine.undefineRegister native w).counted
  | nop rest ih =>
    refine (ih (desc.next ..)).write desc.here rfl fun machine => ?_
    rw [Journey.after_nop rfl, Journey.after_nop rfl]
    exact Journey.twins_going machine.counted
  | exit condition target rest ih =>
    exact (ih (desc.next ..)).write desc.here rfl (condition.after_exit target x.here)
  | @create Γ k k' rest ih =>
    show Agree division d Q Γ (k x.newLabel.1) (k' x'.newLabel.1) x.newLabel.2 x'.newLabel.2
    rw [desc.newLabel, desc.newLabel']
    exact (ih desc.create).step id id rfl rfl (fun _ => rfl) (fun _ => rfl)
      Journey.Twins.create
  | @leave Γ a a' label s s' condition unused rest ih =>
    refine (ih (desc.leave unused a a')).step (·.jumpIf x.here a label)
      (·.jumpIf x'.here a' label) rfl rfl (fun _ => rfl) (fun _ => rfl) fun twins => ?_
    rw [desc.here]
    exact twins.jumpIf condition unused x.here
  | @attach Γ label held s s' sought rest ih =>
    exact (ih (desc.attach held)).step (·.reach label) (·.reach label) rfl rfl (fun _ => rfl)
      (fun _ => rfl) fun twins => twins.reach sought

end Script

/-- Twin journeys go on through the last `nop`, if there is one, as twins. -/
theorem Scope.Describes.conclude {division : Prop} {d : Nat} {Γ : Scope} {X X' : Expansion}
    (h : Γ.Describes d X X') {g g' : Journey} (twins : g.Twins division d Γ g') :
    (X.conclude g).Twins division d Γ (X'.conclude g') := by
  unfold Expansion.conclude
  rw [h.labels, h.size', ← h.size]
  split
  · refine twins.perform h.here rfl fun machine => ?_
    rw [Journey.after_nop rfl, Journey.after_nop rfl]
    exact Journey.twins_going machine.counted
  · exact twins

end RegisterTransfer
