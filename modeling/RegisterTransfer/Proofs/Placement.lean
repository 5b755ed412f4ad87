import RegisterTransfer.Proofs.Boundaries
import RegisterTransfer.Proofs.Journey
import RegisterTransfer.Proofs.Layout

/-!
# Placed expansions

A finished expansion sits in a program at its native address from offset zero on. This file ties the
journey through a script to the run of any program in which its expansion is placed: control moves
forward inside the expansion until the journey ends, and what happens then is what the journey says,
except that the program decides whether a jump finds an instruction.

> `Script.nativeStep`: the run from the start of a placed expansion to the next start of an
> expansion is the journey through the script that wrote it.
-/

namespace RegisterTransfer

/-! ## Code in a program -/

/-- The code sits at a native address, and nothing else does. -/
structure Placed (p : Program) (native : Nat) (code : List Instruction) : Prop where
  nonempty : code ≠ []
  get? : ∀ k, p.get? ⟨native, k⟩ = code[k]?

/-- Where there is any instruction of a native address, there is a first one. -/
def Program.Grounded (p : Program) : Prop :=
  ∀ a, p.contains a → p.contains (.ofNative a.native)

namespace Placed

variable {p : Program} {native : Nat} {code : List Instruction}

theorem length_pos (h : Placed p native code) : 0 < code.length :=
  List.length_pos_iff.2 h.nonempty

/-- The code fills the offsets from zero on, and no others of its native address. -/
theorem contains_iff (h : Placed p native code) {k : Nat} :
    p.contains ⟨native, k⟩ ↔ k < code.length := by
  show (p.get? ⟨native, k⟩).isSome ↔ _
  rw [h.get? k]
  simp

/-- Inside the code, control falls through to the next offset. -/
theorem next?_inside (h : Placed p native code) {k : Nat} (hk : k + 1 < code.length) :
    p.next? ⟨native, k⟩ = some ⟨native, k + 1⟩ := by
  refine SortedMap.next?_eq_some_iff.2 ⟨h.contains_iff.2 hk, ?_, ?_⟩
  · exact Address.compare_eq_lt_iff.2 (.inr ⟨rfl, Nat.lt_succ_self k⟩)
  · intro r _ above
    rcases Address.compare_eq_lt_iff.1 above with native_lt | ⟨e, offset_lt⟩
    · exact .inr (Address.compare_eq_lt_iff.2 (.inl native_lt))
    · by_cases same : r.offset = k + 1
      · left
        cases r
        cases e
        cases same
        rfl
      · right
        refine Address.compare_eq_lt_iff.2 (.inr ⟨e, ?_⟩)
        show k + 1 < r.offset
        have : k < r.offset := offset_lt
        omega

/-- From its end, control falls through to the start of the next native instruction. -/
theorem next?_last (h : Placed p native code) (grounded : p.Grounded) {q : Address}
    (hq : p.next? ⟨native, code.length - 1⟩ = some q) :
    q = .ofNative q.native ∧ native < q.native ∧
      ∀ a, p.contains a → native < a.native → q.native ≤ a.native := by
  obtain ⟨there, above, least⟩ := SortedMap.next?_eq_some_iff.1 hq
  -- behind the last offset there is nothing of the same native address
  have native_lt : native < q.native := by
    rcases Address.compare_eq_lt_iff.1 above with lt | ⟨e, lt⟩
    · exact lt
    · have inside : q.offset < code.length := by
        refine h.contains_iff.1 ?_
        have e : native = q.native := e
        rw [e]
        exact there
      have lt : code.length - 1 < q.offset := lt
      omega
  have below : ∀ a, p.contains a → native < a.native → q.native ≤ a.native := by
    intro a ha hlt
    rcases least a ha (Address.compare_eq_lt_iff.2 (.inl hlt)) with e | lt
    · exact Nat.le_of_eq (congrArg Address.native e.symm)
    · rcases Address.compare_eq_lt_iff.1 lt with lt | ⟨e, -⟩
      · exact Nat.le_of_lt lt
      · exact Nat.le_of_eq e
  -- some code starts at that native address, and the least address there is its start
  refine ⟨?_, native_lt, below⟩
  rcases least (.ofNative q.native) (grounded q there)
    (Address.compare_eq_lt_iff.2 (.inl native_lt)) with e | lt
  · exact e.symm
  · rcases Address.compare_eq_lt_iff.1 lt with lt | ⟨-, lt⟩
    · exact absurd lt (Nat.lt_irrefl _)
    · exact absurd lt (Nat.not_lt_zero _)

end Placed

/-! ## One turn of a run -/

/-- A jump that names no offset goes to the start of an expansion. -/
theorem Machine.route_start {m : Machine} {i : Instruction} {t : Address}
    (named : ∀ target, i.op3.kind ≠ .address target) (h : m.route i = .ok (some t)) :
    t = .ofNative t.native := by
  unfold route at h
  cases hc : m.source i.address i.op1 with
  | error f => simp [hc, bind, Except.bind] at h
  | ok condition =>
    simp only [hc, bind, Except.bind] at h
    split at h
    · cases h
    · cases ht : m.target i.address i.op3 with
      | error f => simp [ht] at h
      | ok found =>
        simp only [ht, pure, Except.pure, Except.ok.injEq, Option.some.injEq] at h
        subst h
        unfold target at ht
        split at ht
        · next e => exact absurd e (named _)
        · cases ht
        all_goals
          cases hs : m.source i.address i.op3 with
          | error f => simp [hs, bind, Except.bind] at ht
          | ok v =>
            simp only [hs, bind, Except.bind, pure, Except.pure, Except.ok.injEq] at ht
            rw [← ht]
            rfl

namespace Journey

/-- The run behind the instruction at `pc`, which looks up where a jump goes. -/
def settle (p : Program) (pc : Address) (g : Journey) : Run Unit :=
  match g.stance with
  | .going | .seeking _ => Run.follow p pc g.machine () .next
  | .halted => ⟨g.machine, (), .finished⟩
  | .left place t =>
    if p.contains t then
      ⟨g.machine.counted.jumped, (), .running t⟩
    else
      ⟨g.machine, (), .failed (.unmappedTarget place t)⟩
  | .failed f => ⟨g.machine, (), .failed f⟩

/-- Control goes on only where there is an instruction. -/
theorem contains_of_settle {p : Program} {pc t : Address} {g : Journey}
    (h : (g.settle p pc).progress = .running t) : p.contains t := by
  have falling : (Run.follow p pc g.machine () .next).progress = .running t → p.contains t := by
    intro h
    unfold Run.follow at h
    dsimp only at h
    split at h
    · next q next =>
      cases h
      exact (SortedMap.next?_eq_some_iff.1 next).1
    · cases h
  unfold settle at h
  split at h
  · exact falling h
  · exact falling h
  · cases h
  · split at h
    · next there =>
      cases h
      exact there
    · cases h
  · cases h

/-- Looking up where control goes changes neither the settings nor the processor. -/
theorem settle_setup (p : Program) (pc : Address) (g : Journey) :
    g.machine.SameSetup (g.settle p pc).machine := by
  unfold settle
  split
  · unfold Run.follow
    dsimp only
    split <;> exact .refl _
  · unfold Run.follow
    dsimp only
    split <;> exact .refl _
  · exact .refl _
  · split <;> exact ⟨rfl, rfl⟩
  · exact .refl _

end Journey

/-- Nothing but a conditional jump sends control elsewhere. -/
theorem Machine.execute_ne_jump {i : Instruction} (h : i.opcode ≠ .jcc) (m : Machine)
    (p : Program) (t : Address) : (m.execute p i).1 ≠ .ok (.jump t) := by
  have assigned : ∀ (m : Machine) v, (m.assign i v).1 ≠ .ok (.jump t) := by
    intro m v
    unfold assign
    split <;> simp
  have results : ∀ r, (m.assignResult i r).1 ≠ .ok (.jump t) := by
    intro r
    cases r with
    | error f => simp [assignResult]
    | ok v => exact assigned m v
  have proceeds : ∀ r, (m.proceed r).1 ≠ .ok (.jump t) := by
    intro r
    cases r <;> simp [proceed]
  unfold execute
  cases e : i.opcode with
  | jcc => exact absurd e h
  | ldm =>
    cases hs : m.source i.address i.op1 with
    | error f => simp [loadFrom, hs]
    | ok a =>
      dsimp only
      rw [loadFrom_eq hs]
      exact assigned _ _
  | stm | undef => exact proceeds _
  | unkn => dsimp only; split <;> simp
  | nop | halt => simp
  | add | sub | mul | div | mod | bsh | and | or | xor | bisz | str => exact results _

/-- A turn at an instruction performs it and settles where it leads. -/
theorem Run.step_eq_settle {p : Program} {m : Machine} {pc : Address} {i : Instruction}
    {comment : Option String} (get : p.get? pc = some { i with comment })
    (here : i.address = pc) (limit : m.settings.stepLimit = none) :
    (⟨m, (), .running pc⟩ : Run Unit).step .silent p =
      ((Journey.start m).perform i).settle p pc := by
  subst here
  have opened : (⟨m, (), .running i.address⟩ : Run Unit).step .silent p =
      perform p i.address { i with comment } m () := by
    simp only [step, turn, get, limit, Option.filter_none, Observer.silent]
  rw [opened, perform, Machine.execute_comment]
  show _ = (Journey.after (m.syncProgramCounter i.address.native) i).settle p i.address
  -- the program counter is set on both sides alike
  generalize m.syncProgramCounter i.address.native = m
  -- only a jump looks at the program, for its target
  by_cases jump : i.opcode = .jcc
  · rw [Journey.after, if_pos jump, Machine.execute_of_jcc jump, Machine.branch_eq]
    cases m.route i with
    | error f => rfl
    | ok taken =>
      cases taken with
      | none => rfl
      | some t =>
        by_cases there : p.contains t
        · simp only [there, if_true, Journey.settle]
          rfl
        · simp [there, Journey.settle]
  · rw [Journey.after, if_neg jump, Machine.execute_of_ne_jcc jump m ∅ p]
    have no_jump := Machine.execute_ne_jump jump m p
    cases e : m.execute p i with
    | mk result m' =>
      rw [e] at no_jump
      cases result with
      | error f => rfl
      | ok flow =>
        cases flow with
        | next | halt => rfl
        | jump t => exact absurd rfl (no_jump t)

/-! ## Journeys and runs -/

namespace Journey

/--
The run that a journey stands for when its next instruction would be written at an offset of the
finished expansion `X`.
-/
def located (p : Program) (X : Expansion) (offset : Nat) (g : Journey) : Run Unit :=
  match g.stance with
  | .going =>
    if offset < X.completed.length then
      ⟨g.machine, (), .running ⟨X.native, offset⟩⟩
    else
      g.settle p ⟨X.native, X.completed.length - 1⟩
  | .seeking label =>
    ⟨g.machine, (), .running ⟨X.native, (X.labels[label.index]?.join).getD 0⟩⟩
  | _ => g.settle p ⟨X.native, X.completed.length - 1⟩

/-- What is known of a journey when an expansion is written as far as `x`. -/
structure Coherent (x : Expansion) (g : Journey) : Prop where
  written : g.stance ≠ .going → 0 < x.size
  sought : ∀ {label}, g.stance = .seeking label →
    x.labels[label.index]? = some none ∧ ∃ condition, .jump condition label ∈ x.drafts
  start : ∀ {place t}, g.stance = .left place t → t = .ofNative t.native

/-- A journey that starts is coherent with an expansion of which nothing is written. -/
theorem coherent_start (x : Expansion) (m : Machine) : Coherent x (start m) where
  written ne := absurd rfl ne
  sought e := by cases e
  start e := by cases e

/-- A journey stays coherent as an expansion grows, if the labels that are open stay open. -/
theorem Coherent.grow {x y : Expansion} {g : Journey} (h : Coherent x g) (size : x.size ≤ y.size)
    (labels : ∀ {l : Nat}, x.labels[l]? = some none → y.labels[l]? = some none)
    (drafts : x.drafts <+: y.drafts) : Coherent y g where
  written ne := Nat.lt_of_lt_of_le (h.written ne) size
  sought e := by
    obtain ⟨open_there, condition, mem⟩ := h.sought e
    exact ⟨labels open_there, condition, drafts.subset mem⟩
  start := h.start

/-- An instruction leaves the journey going, or ends it; only jumps to labels make it seek. -/
theorem perform_ne_seeking {g : Journey} (h : g.stance = .going) (i : Instruction)
    (label : Label) : (g.perform i).stance ≠ .seeking label := by
  simp only [perform, h, after]
  split <;> split <;> simp

/-- A jump that names no offset leaves for the start of a native instruction. -/
theorem perform_left {g : Journey} {i : Instruction} {place t : Address}
    (named : i.opcode = .jcc → ∀ target, i.op3.kind ≠ .address target)
    (h : g.stance = .going) (left : (g.perform i).stance = .left place t) :
    t = .ofNative t.native := by
  simp only [perform, h, after] at left
  split at left
  · next jump =>
    split at left
    · cases left
    · cases left
    · next e =>
      cases left
      exact Machine.route_start (named jump) e
  · split at left <;> cases left

/-- An instruction is written before a journey can have stopped at it. -/
theorem Coherent.perform {x : Expansion} {g : Journey} (h : Coherent x g) {opcode : Opcode}
    {op1 op2 op3 : Operand} (named : opcode = .jcc → ∀ target, op3.kind ≠ .address target) :
    Coherent (x.emit opcode op1 op2 op3) (g.perform ⟨x.here, opcode, op1, op2, op3, none⟩) := by
  have grows := x.grows_emit opcode op1 op2 op3
  by_cases e : g.stance = .going
  · refine ⟨fun _ => ?_, fun sought => ?_, fun left => ?_⟩
    · simp [Expansion.size, Expansion.emit]
    · exact absurd sought (perform_ne_seeking e _ _)
    · exact perform_left named e left
  · rw [perform_of_ne_going e]
    exact h.grow grows.size (fun h => h) grows.drafts

/-- Behind a jump a journey may seek the label, which is open and has a jump to it. -/
theorem Coherent.jumpIf {x : Expansion} {g : Journey} (h : Coherent x g) {label : Label}
    (unbound : x.labels[label.index]? = some none) (condition : Operand) :
    Coherent (x.jumpIf condition label) (g.jumpIf x.here condition label) := by
  have grows := x.grows_jumpIf condition label
  by_cases e : g.stance = .going
  · refine ⟨fun _ => ?_, fun {other} sought => ?_, fun {place t} left => ?_⟩
    · simp [Expansion.size, Expansion.jumpIf]
    · have same : other = label := by
        simp only [Journey.jumpIf, e] at sought
        split at sought
        · cases sought
        · split at sought
          · cases sought
          · cases sought
            rfl
      subst same
      exact ⟨unbound, condition, by simp [Expansion.jumpIf]⟩
    · simp only [Journey.jumpIf, e] at left
      split at left
      · cases left
      · split at left <;> cases left
  · rw [jumpIf_of_ne_going e]
    exact h.grow grows.size (fun h => h) grows.drafts

/-- A label that is bound is sought no more. -/
theorem Coherent.reach {x : Expansion} {g : Journey} (h : Coherent x g) {label : Label}
    (unbound : x.labels[label.index]? = some none) :
    Coherent (x.bind label) (g.reach label) := by
  have grows := Expansion.grows_bind unbound
  by_cases e : g.stance = .seeking label
  · rw [Journey.reach, if_pos e]
    exact coherent_start _ _
  · rw [reach_of_ne e]
    refine ⟨fun ne => Nat.lt_of_lt_of_le (h.written ne) grows.size, fun {other} sought => ?_,
      h.start⟩
    obtain ⟨open_there, condition, mem⟩ := h.sought sought
    have ne : label.index ≠ other.index := by
      intro same
      cases label
      cases other
      cases same
      exact e sought
    refine ⟨?_, condition, mem⟩
    simp only [Expansion.bind, List.getElem?_set_ne ne, open_there]

end Journey

namespace Script

variable {α : Type} {p : Program} {X : Expansion} {code : List Instruction}

/-- A coherent journey is coherent behind an orderly script. -/
theorem Orderly.coherent {s : Script α} {x : Expansion} {g : Journey} (h : s.Orderly x)
    (hg : Journey.Coherent x g) : Journey.Coherent (s.run x).2 (s.walk x g) := by
  induction s generalizing x g with
  | done | fail => exact hg
  | allocate width next ih =>
    exact ih _ h (hg.grow (Nat.le_refl _) (fun h => h) (List.prefix_refl _))
  | write opcode op1 op2 op3 next ih => exact ih h.2 (hg.perform h.1)
  | create next ih =>
    refine ih _ h (hg.grow (Nat.le_refl _) (fun {l} hl => ?_) (List.prefix_refl _))
    have inside := (List.getElem?_eq_some_iff.1 hl).1
    simp only [Expansion.newLabel, List.getElem?_append_left inside, hl]
  | attach label next ih => exact ih h.2 (hg.reach h.1)
  | leave condition label next ih => exact ih h.2 (hg.jumpIf h.1 condition)

end Script

namespace Journey

variable {p : Program} {X : Expansion} {code : List Instruction}

/-- Behind the instruction at an offset, control is at the next offset. -/
theorem settle_eq_located (placed : Placed p X.native code)
    (length : code.length = X.completed.length) {offset : Nat} (inside : offset < code.length)
    {g : Journey} (ne : ∀ label, g.stance ≠ .seeking label) :
    g.settle p ⟨X.native, offset⟩ = g.located p X (offset + 1) := by
  unfold located
  cases e : g.stance with
  | going =>
    dsimp only
    split
    · next more =>
      rw [settle, e]
      simp only [Run.follow, placed.next?_inside (k := offset) (by omega)]
    · next last => rw [show X.completed.length - 1 = offset by omega]
  | seeking label => exact absurd e (ne label)
  | halted | left | failed => simp only [settle, e]

/-- A journey that is past an instruction stands for the same run behind it. -/
theorem located_of_ne_going {g : Journey} (ne : g.stance ≠ .going) (j k : Nat) :
    g.located p X j = g.located p X k := by
  unfold located
  cases e : g.stance with
  | going => exact absurd e ne
  | seeking | halted | left | failed => rfl

/-- The turn at a jump to a label that is bound further on. -/
theorem step_jumpIf (placed : Placed p X.native code)
    (length : code.length = X.completed.length) {x : Expansion} {m : Machine}
    {condition : Operand} {label : Label} {t : Nat} {comment : Option String}
    (get : p.get? x.here = some
      { (⟨x.here, .jcc, condition, .absent, .address ⟨X.native, t⟩, none⟩ : Instruction) with
        comment })
    (native : X.native = x.native) (bound : X.labels[label.index]? = some (some t))
    (there : t < code.length) (here : x.size < code.length)
    (limit : m.settings.stepLimit = none) :
    (⟨m, (), .running x.here⟩ : Run Unit).step .silent p =
      ((start m).jumpIf x.here condition label).located p X (x.size + 1) := by
  rw [Run.step_eq_settle get rfl limit]
  have contained : p.contains ⟨X.native, t⟩ := placed.contains_iff.2 there
  simp only [start, perform, jumpIf, after, Machine.route, if_true]
  cases (m.syncProgramCounter x.here.native).source x.here condition with
  | error f => rfl
  | ok v =>
    simp only [bind, Except.bind, pure, Except.pure]
    by_cases zero : v = 0
    · rw [if_pos zero, if_pos zero, show x.here = ⟨X.native, x.size⟩ from by rw [native]; rfl]
      exact settle_eq_located placed length here (fun _ => by simp)
    · rw [if_neg zero, if_neg zero]
      simp [settle, located, Machine.target, Operand.address, contained, bound]

/-- The turn at an instruction carries it out, and goes on at the next offset if control stays. -/
theorem step_perform (placed : Placed p X.native code)
    (length : code.length = X.completed.length) {x : Expansion} {m : Machine} {opcode : Opcode}
    {op1 op2 op3 : Operand} {comment : Option String}
    (get : p.get? x.here = some
      { (⟨x.here, opcode, op1, op2, op3, none⟩ : Instruction) with comment })
    (native : X.native = x.native) (here : x.size < code.length)
    (limit : m.settings.stepLimit = none) :
    (⟨m, (), .running x.here⟩ : Run Unit).step .silent p =
      ((start m).perform ⟨x.here, opcode, op1, op2, op3, none⟩).located p X (x.size + 1) := by
  rw [Run.step_eq_settle get rfl limit]
  have behind := settle_eq_located placed length here
    (perform_ne_seeking (g := start m) rfl ⟨x.here, opcode, op1, op2, op3, none⟩)
  rw [native] at behind
  exact behind

/-- Before a draft the run gets where the journey behind it gets, if a turn carries it out. -/
theorem onward_of_step {x : Expansion} {g g' : Journey} {r : Run Unit}
    (native : X.native = x.native) (inside : x.size < X.completed.length) (coherent : Coherent x g)
    (step : g.stance = .going → (⟨g.machine, (), .running x.here⟩ : Run Unit).step .silent p =
      g'.located p X (x.size + 1))
    (idle : g.stance ≠ .going → g' = g)
    (later : Run.Onward p (x.size + 1) (g'.located p X (x.size + 1)) r) :
    Run.Onward p x.size (g.located p X x.size) r := by
  have later := Run.reaches_of_onward (Nat.succ_pos _) later
  by_cases going : g.stance = .going
  · have here : x.here = ⟨X.native, x.size⟩ := by rw [native]; rfl
    rw [located, going]
    dsimp only
    rw [if_pos inside]
    apply Run.onward_of_step
    rw [← here, step going]
    exact later
  · -- the run waits where the journey is past the draft
    rw [idle going] at later
    rw [located_of_ne_going going x.size (x.size + 1)]
    exact Run.onward_of_reaches (coherent.written going) later

/-- A turn at an instruction takes the run along with the journey. -/
theorem onward_perform (placed : Placed p X.native code)
    (length : code.length = X.completed.length) {x : Expansion} {g : Journey} {r : Run Unit}
    {opcode : Opcode} {op1 op2 op3 : Operand} {comment : Option String}
    (get : p.get? x.here = some
      { (⟨x.here, opcode, op1, op2, op3, none⟩ : Instruction) with comment })
    (native : X.native = x.native) (inside : x.size < code.length) (coherent : Coherent x g)
    (limit : g.machine.settings.stepLimit = none)
    (later : Run.Onward p (x.size + 1)
      ((g.perform ⟨x.here, opcode, op1, op2, op3, none⟩).located p X (x.size + 1)) r) :
    Run.Onward p x.size (g.located p X x.size) r := by
  refine onward_of_step native (length ▸ inside) coherent (fun going => ?_)
    (fun past => perform_of_ne_going past _) later
  have start : g = .start g.machine := by rw [Journey.start, ← going]
  rw [step_perform placed length get native inside limit, ← start]

/-- A turn at a jump inside the expansion takes the run along with the journey. -/
theorem onward_jumpIf (placed : Placed p X.native code)
    (length : code.length = X.completed.length) {x : Expansion} {g : Journey} {r : Run Unit}
    {condition : Operand} {label : Label} {t : Nat} {comment : Option String}
    (get : p.get? x.here = some
      { (⟨x.here, .jcc, condition, .absent, .address ⟨X.native, t⟩, none⟩ : Instruction) with
        comment })
    (native : X.native = x.native) (bound : X.labels[label.index]? = some (some t))
    (there : t < code.length) (inside : x.size < code.length) (coherent : Coherent x g)
    (limit : g.machine.settings.stepLimit = none)
    (later : Run.Onward p (x.size + 1)
      ((g.jumpIf x.here condition label).located p X (x.size + 1)) r) :
    Run.Onward p x.size (g.located p X x.size) r := by
  refine onward_of_step native (length ▸ inside) coherent (fun going => ?_)
    (fun past => jumpIf_of_ne_going past _ _ _) later
  have start : g = .start g.machine := by rw [Journey.start, ← going]
  rw [step_jumpIf placed length get native bound there inside limit, ← start]

/-- Where a label is bound, the run of a journey that was looking for it waits. -/
theorem located_reach {x : Expansion} {g : Journey} {label : Label}
    (bound : X.labels[label.index]? = some (some x.size)) (inside : x.size < X.completed.length) :
    (g.reach label).located p X x.size = g.located p X x.size := by
  by_cases sought : g.stance = .seeking label
  · simp only [located, sought, reach, if_true, start, bound, inside, Option.join_some,
      Option.getD_some]
  · rw [reach_of_ne sought]

end Journey

namespace Script

variable {α : Type} {p : Program} {X : Expansion} {code : List Instruction} {a : α}

/-- A run that is where a journey is gets where the journey gets. -/
theorem onward (fin : X.finish = .ok code) (placed : Placed p X.native code) (bounded : X.Bounded)
    {s : Script α} {x : Expansion} {g : Journey} (orderly : s.Orderly x)
    (ran : s.run x = (.ok a, X)) (coherent : Journey.Coherent x g)
    (limit : g.machine.settings.stepLimit = none) {r : Run Unit}
    (rest : Run.Onward p X.size ((s.walk x g).located p X X.size) r) :
    Run.Onward p x.size (g.located p X x.size) r := by
  obtain ⟨length, each⟩ := Expansion.finish_eq_ok fin
  -- on the script: what is written first is passed first
  induction s generalizing x g with
  | done =>
    cases ran
    exact rest
  | fail => cases ran
  | allocate width next ih =>
    refine ih _ (x := (x.temporary width).2) orderly ran ?_ limit rest
    exact coherent.grow (Nat.le_refl _) (fun h => h) (List.prefix_refl _)
  | create next ih =>
    refine ih _ (x := x.newLabel.2) orderly ran
      (coherent.grow (Nat.le_refl _) (fun {l} hl => ?_) (List.prefix_refl _)) limit rest
    have inside := (List.getElem?_eq_some_iff.1 hl).1
    simp only [Expansion.newLabel, List.getElem?_append_left inside, hl]
  | write opcode op1 op2 op3 next ih =>
    have grows : (x.emit opcode op1 op2 op3).Grows X := by
      simpa only [show next.run (x.emit opcode op1 op2 op3) = (.ok a, X) from ran]
        using orderly.2.grows
    have native : X.native = x.native := grows.native
    have here : x.here = ⟨X.native, x.size⟩ := by rw [native]; rfl
    -- the draft just written is the instruction at the current offset
    have draft : X.completed[x.size]? = some (.plain opcode op1 op2 op3) :=
      Expansion.completed_of_prefix grows (by simp [Expansion.emit, Expansion.size])
    obtain ⟨i, comment, laid, get⟩ := each draft
    have inside : x.size < code.length := (List.getElem?_eq_some_iff.1 get).1
    cases laid
    have later := ih orderly.2 ran (coherent.perform orderly.1)
      ((g.perform_setup _).settings ▸ limit) rest
    rw [x.size_emit] at later
    exact Journey.onward_perform placed length (by rw [here, placed.get?, get]) native inside
      coherent limit later
  | attach label next ih =>
    have grows : (x.bind label).Grows X := by
      simpa only [show next.run (x.bind label) = (.ok a, X) from ran] using orderly.2.grows
    have later := ih orderly.2 ran (coherent.reach orderly.1)
      ((g.reach_setup label).settings ▸ limit) rest
    have open_label := (List.getElem?_eq_some_iff.1 orderly.1).1
    have bound : X.labels[label.index]? = some (some x.size) :=
      grows.bound (by simp only [Expansion.bind, List.getElem?_set_self open_label])
    rw [← Journey.located_reach bound (bounded.lt_length bound)]
    exact later
  | leave condition label next ih =>
    have grows : (x.jumpIf condition label).Grows X := by
      simpa only [show next.run (x.jumpIf condition label) = (.ok a, X) from ran]
        using orderly.2.grows
    have native : X.native = x.native := grows.native
    have here : x.here = ⟨X.native, x.size⟩ := by rw [native]; rfl
    have draft : X.completed[x.size]? = some (.jump condition label) :=
      Expansion.completed_of_prefix grows (by simp [Expansion.jumpIf, Expansion.size])
    obtain ⟨i, comment, laid, get⟩ := each draft
    have inside : x.size < code.length := (List.getElem?_eq_some_iff.1 get).1
    obtain ⟨t, bound, rfl⟩ := Expansion.place_jump_eq_ok laid
    have later := ih orderly.2 ran (coherent.jumpIf orderly.1 condition)
      ((g.jumpIf_setup _ _ _).settings ▸ limit) rest
    rw [x.size_jumpIf] at later
    exact Journey.onward_jumpIf placed length (by rw [here, placed.get?, get]) native bound
      (length ▸ bounded.lt_length bound) inside coherent limit later

end Script

/-- The journey through the `nop` that a label bound to the end needs. -/
def Expansion.conclude (X : Expansion) (g : Journey) : Journey :=
  if some X.size ∈ X.labels then
    g.perform ⟨X.here, .nop, .absent, .absent, .absent, none⟩
  else
    g

/-- The `nop` at the end changes neither settings nor processor. -/
theorem Expansion.conclude_setup (X : Expansion) (g : Journey) :
    g.machine.SameSetup (X.conclude g).machine := by
  unfold conclude
  split
  · exact g.perform_setup _
  · exact .refl _

namespace Script

variable {α : Type} {p : Program} {X : Expansion} {code : List Instruction} {a : α}

/-- The settled end of a journey is a boundary. -/
theorem atBoundary_settle {native : Nat} (placed : Placed p native code) (grounded : p.Grounded)
    {g : Journey} (start : ∀ {place t}, g.stance = .left place t → t = .ofNative t.native) :
    (g.settle p ⟨native, code.length - 1⟩).AtBoundary := by
  have falling : (Run.follow p ⟨native, code.length - 1⟩ g.machine () .next).AtBoundary := by
    unfold Run.follow
    cases e : p.next? ⟨native, code.length - 1⟩ with
    | none => exact .inl rfl
    | some q => exact .inr ⟨q.native, congrArg Progress.running (placed.next?_last grounded e).1⟩
  unfold Journey.settle
  cases e : g.stance with
  | going | seeking => exact falling
  | halted | failed => exact .inl rfl
  | left place t =>
    dsimp only
    split
    · exact .inr ⟨t.native, congrArg Progress.running (start e)⟩
    · exact .inl rfl

/-- At the end of an expansion no journey is looking for a label, for that would have no layout. -/
theorem located_of_finish (fin : X.finish = .ok code) {g : Journey}
    (coherent : Journey.Coherent X g) (past : g.stance ≠ .going) (k : Nat) :
    g.located p X k = g.settle p ⟨X.native, X.completed.length - 1⟩ := by
  obtain ⟨-, each⟩ := Expansion.finish_eq_ok fin
  unfold Journey.located
  cases e : g.stance with
  | going => exact absurd e past
  | seeking label =>
    obtain ⟨unbound, condition, mem⟩ := coherent.sought e
    obtain ⟨k, hk⟩ := List.getElem?_of_mem mem
    obtain ⟨i, comment, laid, -⟩ := each (Expansion.completed_of_prefix (.refl X) hk)
    obtain ⟨t, bound, -⟩ := Expansion.place_jump_eq_ok laid
    rw [unbound] at bound
    cases bound
  | halted | left | failed => rfl

/-- Behind the last draft the run gets where the journey ends, past a last `nop` if there is one. -/
theorem onward_conclude (fin : X.finish = .ok code) (placed : Placed p X.native code) {g : Journey}
    (coherent : Journey.Coherent X g) (limit : g.machine.settings.stepLimit = none)
    (settled : ((X.conclude g).settle p ⟨X.native, code.length - 1⟩).AtBoundary) :
    Run.Onward p X.size (g.located p X X.size)
      ((X.conclude g).settle p ⟨X.native, code.length - 1⟩) := by
  obtain ⟨length, each⟩ := Expansion.finish_eq_ok fin
  by_cases going : g.stance = .going
  · by_cases nop : some X.size ∈ X.labels
    · have long : X.completed.length = X.size + 1 := by rw [X.length_completed, if_pos nop]
      have draft : X.completed[X.size]? = some (.plain .nop .absent .absent .absent) := by
        rw [Expansion.completed, if_pos nop]
        exact List.getElem?_concat_length
      obtain ⟨i, comment, laid, get⟩ := each draft
      cases laid
      have last : X.completed.length - 1 = X.size := by omega
      rw [Expansion.conclude, if_pos nop, length, last] at settled ⊢
      apply Journey.onward_perform placed length ((placed.get? X.size).trans get) rfl (by omega)
        coherent limit
      -- nothing is behind the `nop`
      apply Run.onward_of_reaches (Nat.succ_pos _)
      rw [← Journey.settle_eq_located placed length (by omega)
        (Journey.perform_ne_seeking going _)]
      exact .here settled
    · have short : X.completed.length = X.size := by rw [X.length_completed, if_neg nop]
      have pos := placed.length_pos
      rw [Expansion.conclude, if_neg nop, length] at settled ⊢
      rw [Journey.located, going]
      dsimp only
      rw [if_neg (by omega)]
      exact Run.onward_of_reaches (by omega) (.here settled)
  · have unchanged : X.conclude g = g := by
      unfold Expansion.conclude
      split
      · exact Journey.perform_of_ne_going going _
      · rfl
    rw [unchanged, length] at settled ⊢
    rw [located_of_finish fin coherent going]
    exact Run.onward_of_reaches (coherent.written going) (.here settled)

/--
The run from the start of a placed expansion to the next boundary is the journey through the script
that wrote it.
-/
theorem nativeStep {s : Script α} {x X : Expansion} (new : x.drafts = []) (closed : x.labels = [])
    (orderly : s.Orderly x) (ran : s.run x = (.ok a, X)) (fin : X.finish = .ok code)
    (placed : Placed p x.native code) (grounded : p.Grounded) {m : Machine}
    (limit : m.settings.stepLimit = none) :
    Run.NativeStep p ⟨m, (), .running (.ofNative x.native)⟩
      ((X.conclude (s.walk x (.start m))).settle p ⟨x.native, code.length - 1⟩) := by
  have grows : x.Grows X := by simpa only [ran] using orderly.grows
  have native : X.native = x.native := grows.native
  have size : x.size = 0 := by simp [Expansion.size, new]
  rw [← native] at placed ⊢
  have bounded : X.Bounded := by
    have none_bound : x.Bounded := by
      intro l t h
      simp [closed] at h
    simpa only [ran] using s.bounded_run none_bound
  have coherent : Journey.Coherent X (s.walk x (.start m)) := by
    simpa only [ran] using orderly.coherent (Journey.coherent_start x m)
  -- behind the whole expansion the journey has arrived at a boundary
  have settled : ((X.conclude (s.walk x (.start m))).settle p
      ⟨X.native, code.length - 1⟩).AtBoundary := by
    refine atBoundary_settle placed grounded fun {place t} left => ?_
    unfold Expansion.conclude at left
    split at left
    · have behind : Journey.Coherent (X.emit .nop .absent .absent .absent) _ :=
        coherent.perform (by simp)
      exact behind.start left
    · exact coherent.start left
  have arrived := onward_conclude fin placed coherent
    ((s.walk_setup x (.start m)).settings ▸ limit) settled
  have run := onward fin placed bounded orderly ran (Journey.coherent_start x m) limit arrived
  rw [size, Run.Onward, if_pos rfl] at run
  obtain ⟨length, -⟩ := Expansion.finish_eq_ok fin
  -- a run at the start of the code is the journey before its first draft
  have start : (Journey.start m).located p X 0 = ⟨m, (), .running (.ofNative X.native)⟩ := by
    have := placed.length_pos
    simp only [Journey.located, Journey.start]
    rw [if_pos (by omega)]
    rfl
  rwa [start] at run

end Script

end RegisterTransfer
