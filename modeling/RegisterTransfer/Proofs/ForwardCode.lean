import RegisterTransfer.Proofs.Appending
import RegisterTransfer.Proofs.Footprints
import RegisterTransfer.Proofs.PowerPC.NativeStep
import RegisterTransfer.Proofs.SingleAssignment
import RegisterTransfer.Proofs.StepLimit

/-!
# Forward code

Code of one native instruction through which control only goes forward. A jump that names an offset
names a later one, and any other jump is the last instruction. So a turn inside the code leads
further on or out of it, and control is out after as many turns as there are instructions, if not
before: the measure is what is left of the code.

A script writes forward code if it is orderly, if it writes a jump out of the expansion last, and if
it writes no halt. The first makes jumps to labels go forward whatever the labels are bound to; the
second is read off the script; the third is part of what scripts in lockstep keep to.

> `ForwardCode.of_run`: what such a script writes is finished to forward code.
> `ForwardCode.step`: a turn inside forward code leads further on, or out.
> `ForwardCode.crosses`: a run leaves forward code within as many turns as it has instructions.
-/

namespace RegisterTransfer

/--
Code at consecutive offsets of a native address: a jump that names an offset names a later one of
this code, any other jump is the last instruction, and nothing halts.
-/
structure ForwardCode (native : Nat) (code : List Instruction) : Prop where
  address : ∀ {k : Nat} {i}, code[k]? = some i → i.address = ⟨native, k⟩
  ahead : ∀ {k : Nat} {i t}, code[k]? = some i → i.opcode = .jcc → i.op3.kind = .address t →
    t.native = native ∧ k < t.offset ∧ t.offset < code.length
  last : ∀ {k : Nat} {i}, code[k]? = some i → i.opcode = .jcc →
    (∀ t, i.op3.kind ≠ .address t) → k + 1 = code.length
  going : ∀ {k : Nat} {i}, code[k]? = some i → i.opcode ≠ .halt

/-! ## Jumps to labels -/

/--
Jumps to labels go forward, wherever the labels are bound so far, and no other jump names an offset.
-/
structure Expansion.Onward (x : Expansion) : Prop where
  ahead : ∀ {k t : Nat} {condition label}, x.drafts[k]? = some (.jump condition label) →
    x.labels[label.index]? = some (some t) → k < t
  outward : ∀ {a b c}, .plain .jcc a b c ∈ x.drafts → ∀ t, c.kind ≠ .address t

namespace Expansion.Onward

variable {x : Expansion}

/-- Where nothing is written there are no jumps. -/
theorem of_blank (new : x.drafts = []) : x.Onward where
  ahead at_k := by simp [new] at at_k
  outward mem := by simp [new] at mem

/-- An instruction that is no jump to an offset keeps all jumps forward. -/
theorem emit (h : x.Onward) {opcode : Opcode} {a b c : Operand}
    (exits : opcode = .jcc → ∀ t, c.kind ≠ .address t) : (x.emit opcode a b c).Onward where
  ahead {k t condition label} at_k bound := by
    rcases eq_of_getElem?_concat at_k with old | ⟨-, new⟩
    · exact h.ahead old bound
    · cases new
  outward mem := by
    rcases List.mem_append.1 mem with old | new
    · exact h.outward old
    · cases List.mem_singleton.1 new
      exact exits rfl

/-- A label that is not bound leads nowhere yet. -/
theorem newLabel (h : x.Onward) : x.newLabel.2.Onward where
  ahead at_k bound := h.ahead at_k (bound_of_newLabel bound)
  outward := h.outward

/-- A label is bound behind everything that is written, its own jumps included. -/
theorem bind (h : x.Onward) (label : Label) : (x.bind label).Onward where
  ahead {k t condition other} at_k bound := by
    rcases bound_of_bind bound with ⟨-, rfl⟩ | ⟨-, old⟩
    · exact (List.getElem?_eq_some_iff.1 at_k).1
    · exact h.ahead at_k old
  outward := h.outward

/-- A label that is jumped to is open, so the jump is ahead of nothing yet. -/
theorem jumpIf (h : x.Onward) {condition : Operand} {label : Label}
    (unbound : x.labels[label.index]? = some none) : (x.jumpIf condition label).Onward where
  ahead {k t c other} at_k bound := by
    rcases eq_of_getElem?_concat at_k with old | ⟨-, new⟩
    · exact h.ahead old bound
    · cases new
      have bound : x.labels[label.index]? = some (some t) := bound
      rw [unbound] at bound
      cases bound
  outward mem := by
    rcases List.mem_append.1 mem with old | new
    · exact h.outward old
    · cases List.mem_singleton.1 new

end Expansion.Onward

/-- Right behind an instruction nothing is bound yet, so that no `nop` would follow it. -/
theorem Expansion.Bounded.length_emit {x : Expansion} (h : x.Bounded) (opcode : Opcode)
    (a b c : Operand) : (x.emit opcode a b c).completed.length = x.size + 1 := by
  have nothing : some (x.emit opcode a b c).size ∉ (x.emit opcode a b c).labels := by
    intro mem
    obtain ⟨l, bound⟩ := List.getElem?_of_mem mem
    have := h l _ bound
    rw [x.size_emit] at this
    omega
  rw [Expansion.length_completed, if_neg nothing, x.size_emit]

namespace Script

variable {α β : Type}

/-- An orderly script writes jumps to labels that go forward. -/
theorem Orderly.onward {s : Script α} {x : Expansion} (h : s.Orderly x) (before : x.Onward) :
    (s.run x).2.Onward := by
  induction s generalizing x with
  | done | fail => exact before
  | allocate w next ih => exact ih _ h ⟨before.ahead, before.outward⟩
  | write opcode a b c next ih => exact ih h.2 (before.emit h.1)
  | create next ih => exact ih _ h before.newLabel
  | attach label next ih => exact ih h.2 (before.bind label)
  | leave c label next ih => exact ih h.2 (before.jumpIf h.1)

/-! ## Jumps out of the expansion -/

/--
A jump out of the expansion, if there is one, is the last thing that the script does, whatever names
its temporaries get.
-/
def DepartsLast : Script α → Prop
  | .done _ | .fail _ => True
  | .allocate w next => ∀ k, (next (.register (temporaryName k) w)).DepartsLast
  | .write opcode _ _ _ next => (opcode = .jcc → ∃ a, next = .done a) ∧ next.DepartsLast
  | .create next => ∀ label, (next label).DepartsLast
  | .attach _ next | .leave _ _ next => next.DepartsLast

/-- A script without such a jump may go before. -/
theorem Each.departsLast_bind {Q : α → Prop} {s : Script α} {f : α → Script β}
    (h : s.Each (¬ ·.Departs) Q) (next : ∀ {a}, Q a → (f a).DepartsLast) :
    (s >>= f).DepartsLast := by
  show (s.andThen f).DepartsLast
  induction s with
  | done a => exact next h
  | fail => trivial
  | allocate _ _ ih => exact fun k => ih _ (h k)
  | create _ ih => exact fun label => ih _ (h label)
  | attach _ _ ih => exact ih h
  | write _ _ _ _ _ ih => exact ⟨fun jump => absurd jump h.1, ih h.2⟩
  | leave _ _ _ ih => exact ih h.2

/-- A script that never departs has no jump out of the expansion to put last. -/
theorem Each.departsLast {Q : α → Prop} {s : Script α} (h : s.Each (¬ ·.Departs) Q) :
    s.DepartsLast := by
  rw [← bind_pure s]
  exact h.departsLast_bind fun _ => trivial

/-- So a jump out of the expansion is laid out last: no label is bound behind it. -/
theorem DepartsLast.of_run {s : Script α} {x X : Expansion} {a : α} (h : s.DepartsLast)
    (bounded : x.Bounded) (stays : ∀ d ∈ x.drafts, ¬ d.Departs) (ran : s.run x = (.ok a, X)) :
    ∀ (k : Nat) (d : Draft), X.drafts[k]? = some d → d.Departs → k + 1 = X.completed.length := by
  induction s generalizing x with
  | done =>
    cases ran
    exact fun k d at_k departs => absurd departs (stays d (List.mem_of_getElem? at_k))
  | fail => cases ran
  | allocate w next ih =>
    exact ih _ (h x.environment.temporaries) (bounded.temporary w) stays ran
  | create next ih => exact ih _ (h _) bounded.newLabel stays ran
  | attach label next ih => exact ih h (bounded.bind label) stays ran
  | leave c label next ih =>
    exact ih h (bounded.jumpIf c label)
      (List.forall_mem_append.2 ⟨stays, List.forall_mem_singleton.2 id⟩) ran
  | write opcode p q o next ih =>
    by_cases jump : opcode = .jcc
    -- nothing is written behind the jump, and nothing before it departs
    · obtain ⟨result, rfl⟩ := h.1 jump
      cases ran
      intro k d at_k departs
      rw [bounded.length_emit]
      rcases eq_of_getElem?_concat at_k with old | ⟨here, -⟩
      · exact absurd departs (stays d (List.mem_of_getElem? old))
      · exact congrArg (· + 1) here
    · exact ih h.2 (bounded.emit opcode p q o)
        (List.forall_mem_append.2 ⟨stays, List.forall_mem_singleton.2 jump⟩) ran

/-! ## Instructions that halt -/

/-- A script in lockstep writes no instruction that halts. -/
theorem Lockstep.going {division : Prop} {d : Nat} {Q : α → α → Scope → Prop} {Γ : Scope}
    {s t : Script α} (h : Lockstep division d Q Γ s t) {x x' X : Expansion} {a : α}
    (desc : Γ.Describes d x x') (before : ∀ e ∈ x.drafts, e.outline.opcode ≠ .halt)
    (ran : s.run x = (.ok a, X)) : ∀ e ∈ X.drafts, e.outline.opcode ≠ .halt := by
  have further : ∀ {y : Expansion} {e : Draft}, (∀ e ∈ y.drafts, e.outline.opcode ≠ .halt) →
      e.outline.opcode ≠ .halt → ∀ e' ∈ y.drafts ++ [e], e'.outline.opcode ≠ .halt :=
    fun old new => List.forall_mem_append.2 ⟨old, List.forall_mem_singleton.2 new⟩
  have computing : ∀ {Γ opcode a b w a' b'}, Scope.Computes division Γ d opcode a b w a' b' →
      opcode ≠ .halt := by
    intro Γ opcode a b w a' b' h same
    exact absurd (same ▸ h.writesRegister) (by decide)
  induction h generalizing x x' with
  | done =>
    cases ran
    exact before
  | fail => cases ran
  | @compute Γ opcode a b w a' b' k k' s s' h left right rest ih =>
    rw [run, desc.temporary, left] at ran
    exact ih (desc.hold w opcode opcode a b (.register (temporaryName Γ.count) w) a' b'
      (.register (temporaryName (Γ.count + d)) w)) (further before (computing h)) ran
  | @assign Γ opcode a b w a' b' name s s' h native rest ih =>
    exact ih (desc.next opcode opcode a b (.register name w) a' b' (.register name w))
      (further before (computing h)) ran
  | @store Γ a c a' c' s s' value address rest ih =>
    exact ih (desc.next .stm .stm a .absent c a' .absent c')
      (further before (by decide : Opcode.stm ≠ .halt)) ran
  | @undefine Γ name w s s' native rest ih =>
    exact ih (desc.next .undef .undef .absent .absent (.register name w) .absent .absent
      (.register name w)) (further before (by decide : Opcode.undef ≠ .halt)) ran
  | nop rest ih =>
    exact ih (desc.next .nop .nop .absent .absent .absent .absent .absent .absent)
      (further before (by decide : Opcode.nop ≠ .halt)) ran
  | @exit Γ a c a' c' s s' condition target rest ih =>
    exact ih (desc.next .jcc .jcc a .absent c a' .absent c')
      (further before (by decide : Opcode.jcc ≠ .halt)) ran
  | create rest ih =>
    rw [run, desc.newLabel] at ran
    exact ih desc.create before ran
  | @leave Γ a a' label s s' condition unused rest ih =>
    exact ih (desc.leave unused a a') (further before (by decide : Opcode.jcc ≠ .halt)) ran
  | @attach Γ label held s s' sought rest ih => exact ih (desc.attach held) before ran

end Script

/-! ## Finished code -/

namespace Expansion

variable {X : Expansion} {code : List Instruction} {k : Nat} {i : Instruction}

/-- A jump of finished code is a jump out of the expansion, or a jump to a label. -/
theorem jcc_of_finish (fin : X.finish = .ok code) (at_k : code[k]? = some i)
    (jump : i.opcode = .jcc) :
    (∃ a b, X.drafts[k]? = some (.plain .jcc a b i.op3)) ∨
      ∃ condition label t, X.drafts[k]? = some (.jump condition label) ∧
        X.labels[label.index]? = some (some t) ∧ i.op3 = .address ⟨X.native, t⟩ := by
  obtain ⟨d, j, draft, laid, same⟩ := place_of_finish fin at_k
  have third : i.op3 = j.op3 := by rw [same]
  rw [same] at jump
  rcases draft_of_completed draft with written | ⟨-, rfl⟩
  · cases d with
    | plain opcode a b c =>
      cases laid
      subst jump
      exact .inl ⟨a, b, third ▸ written⟩
    | jump condition label =>
      obtain ⟨t, bound, rfl⟩ := place_jump_eq_ok laid
      exact .inr ⟨condition, label, t, written, bound, third⟩
  · cases laid
    cases jump

/-- What no draft has for its opcode does not come up in finished code, unless it is a `nop`. -/
theorem opcode_of_finish (fin : X.finish = .ok code) (at_k : code[k]? = some i) :
    i.opcode = .nop ∨ ∃ d ∈ X.drafts, i.opcode = d.outline.opcode := by
  obtain ⟨d, j, draft, laid, same⟩ := place_of_finish fin at_k
  have opcode : i.opcode = d.outline.opcode := by
    rw [same]
    exact (place_outline laid).1
  rcases draft_of_completed draft with written | ⟨-, rfl⟩
  · exact .inr ⟨d, List.mem_of_getElem? written, opcode⟩
  · exact .inl opcode

end Expansion

namespace ForwardCode

variable {native : Nat} {code : List Instruction}

/-- What an orderly script writes is forward code, if it departs last and writes no halt. -/
theorem of_run {s : Script Unit} {x X : Expansion} (new : x.drafts = []) (closed : x.labels = [])
    (orderly : s.Orderly x) (departs : s.DepartsLast)
    (going : ∀ d ∈ X.drafts, d.outline.opcode ≠ .halt) (ran : s.run x = (.ok (), X))
    (fin : X.finish = .ok code) : ForwardCode X.native code := by
  have bounded : x.Bounded := fun l t bound => by simp [closed] at bound
  have onward : X.Onward := by simpa only [ran] using orderly.onward (.of_blank new)
  have bounded' : X.Bounded := by simpa only [ran] using s.bounded_run bounded
  have length : code.length = X.completed.length := (Expansion.finish_eq_ok fin).1
  refine ⟨fun at_k => (Expansion.place_of_instruction fin at_k).1, fun {k i t} at_k jump named => ?_,
    fun {k i} at_k jump unnamed => ?_, fun {k i} at_k halt => ?_⟩
  · rcases Expansion.jcc_of_finish fin at_k jump with ⟨a, b, out⟩ | ⟨c, label, u, inside, bound, third⟩
    · exact absurd named (onward.outward (List.mem_of_getElem? out) t)
    · rw [third] at named
      cases named
      exact ⟨rfl, onward.ahead inside bound, length ▸ bounded'.lt_length bound⟩
  · rcases Expansion.jcc_of_finish fin at_k jump with ⟨a, b, out⟩ | ⟨c, label, u, -, -, third⟩
    · rw [length]
      exact departs.of_run bounded (by simp [new]) ran k _ out rfl
    · exact absurd (congrArg Operand.kind third) (unnamed _)
  · rcases Expansion.opcode_of_finish fin at_k with nop | ⟨d, mem, opcode⟩
    · rw [halt] at nop
      cases nop
    · exact going d mem (opcode.symm.trans halt)

end ForwardCode

/-! ## Runs through forward code -/

namespace Run

variable {σ : Type} {o : Observer σ} {p : Program} {r : Run σ} {native : Nat}
  {code : List Instruction}

/--
How a turn takes control out of code at a native address: it fails, it falls from the last
instruction to the start of the next native instruction, or off the program, or the last instruction
jumps to the start of a native instruction.
-/
inductive Leaves (p : Program) (native : Nat) (code : List Instruction) (r r' : Run σ) : Prop
  | failed {f} (failed : r'.progress = .failed f)
  | fell (last : r.progress = .running ⟨native, code.length - 1⟩)
    (onward : r'.progress = match p.nativeAbove? native with
      | some next => .running (.ofNative next)
      | none => .finished)
  | jumped {i target} (last : r.progress = .running ⟨native, code.length - 1⟩)
    (found : code[code.length - 1]? = some i) (jump : i.opcode = .jcc)
    (outward : ∀ t, i.op3.kind ≠ .address t)
    (onward : r'.progress = .running (.ofNative target)) (there : p.contains (.ofNative target))

/--
A run that is inside code for so many turns, ever further on, and leaves it with the turn behind
them. It completes at most as many instructions as it makes turns.
-/
structure Crosses (o : Observer σ) (p : Program) (native : Nat) (code : List Instruction)
    (turns : Nat) (r : Run σ) : Prop where
  inside : ∀ {j}, j ≤ turns → ∃ k < code.length, j ≤ k ∧
    (advance o p j r).progress = .running ⟨native, k⟩
  leaves : Leaves p native code (advance o p turns r) (advance o p (turns + 1) r)
  executed : (advance o p (turns + 1) r).machine.counters.executed ≤
    r.machine.counters.executed + (turns + 1)

/-- A turn completes at most one instruction. -/
theorem executed_step_le (o : Observer σ) (p : Program) (r : Run σ) :
    (r.step o p).machine.counters.executed ≤ r.machine.counters.executed + 1 := by
  have pass := r.passes o p
  generalize r.stop? p = stop, r.step o p = r' at pass ⊢
  cases pass with
  | ended | off | limited => exact Nat.le_succ _
  | broke _ _ _ executed => exact executed ▸ Nat.le_succ _
  | @went s flow w m _ _ result executed =>
    rw [(Tours.counters_follow s.instruction.address m w result).1, executed]

/-- A run completes at most one instruction a turn. -/
theorem executed_advance_le (o : Observer σ) (p : Program) (turns : Nat) (r : Run σ) :
    (advance o p turns r).machine.counters.executed ≤ r.machine.counters.executed + turns := by
  induction turns with
  | zero => exact Nat.le_refl _
  | succ turns ih =>
    rw [← step_advance]
    have := executed_step_le o p (advance o p turns r)
    omega

end Run

namespace ForwardCode

variable {σ : Type} {o : Observer σ} {p : Program} {r : Run σ} {native k : Nat}
  {code : List Instruction}

/-- A turn inside forward code leads further on, or out. -/
theorem step (h : ForwardCode native code) (placed : Placed p native code)
    (grounded : p.Grounded) (running : r.progress = .running ⟨native, k⟩)
    (inside : k < code.length) :
    (∃ k', k < k' ∧ k' < code.length ∧ (r.step o p).progress = .running ⟨native, k'⟩) ∨
      r.Leaves p native code (r.step o p) := by
  have at_end : ¬ k + 1 < code.length → k = code.length - 1 := by omega
  have effect := Run.steps o p r
  generalize r.step o p = r' at effect ⊢
  cases effect with
  | ended atEnd =>
    rw [Run.isOver, running] at atEnd
    cases atEnd
  | off running' nothing =>
    rw [running] at running'
    cases running'
    rw [placed.get?, List.getElem?_eq_getElem inside] at nothing
    cases nothing
  | stopped | failed => exact .inr (.failed rfl)
  | @fell pc i next m w running' found executed onward =>
    rw [running] at running'
    cases running'
    by_cases more : k + 1 < code.length
    · rw [placed.next?_inside more] at onward
      cases onward
      exact .inl ⟨k + 1, Nat.lt_succ_self k, more, rfl⟩
    · rw [at_end more] at running onward
      have follows := congrArg Run.progress (placed.follow_last grounded m)
      simp only [Run.follow, onward] at follows
      exact .inr (.fell running follows)
  | @exhausted pc i m w running' found executed off =>
    rw [running] at running'
    cases running'
    by_cases more : k + 1 < code.length
    · rw [placed.next?_inside more] at off
      cases off
    · rw [at_end more] at running off
      have follows := congrArg Run.progress (placed.follow_last grounded m)
      simp only [Run.follow, off] at follows
      exact .inr (.fell running follows)
  | @jumped pc i t m w running' found executed =>
    rw [running] at running'
    cases running'
    have at_k : code[k]? = some i := placed.get? k ▸ found
    have effect := (r.machine.syncProgramCounter native).executes p i
    rw [executed] at effect
    cases effect with
    | jumped jump taken mapped =>
      -- a jump that names an offset stays inside, any other is the last instruction
      by_cases named : ∃ target, i.op3.kind = .address target
      · obtain ⟨target, kind⟩ := named
        obtain ⟨same, further, below⟩ := h.ahead at_k jump kind
        have arrives := Machine.route_address kind taken
        subst arrives
        subst same
        exact .inl ⟨t.offset, further, below, rfl⟩
      · have unnamed : ∀ target, i.op3.kind ≠ .address target := fun target kind =>
          named ⟨target, kind⟩
        have last := h.last at_k jump unnamed
        have start := Machine.route_start unnamed taken
        have here : k = code.length - 1 := by omega
        subst here
        exact .inr (.jumped running at_k jump unnamed (congrArg Progress.running start)
          (start ▸ mapped))
  | @halted pc i m w running' found executed =>
    rw [running] at running'
    cases running'
    have effect := (r.machine.syncProgramCounter native).executes p i
    rw [executed] at effect
    cases effect with
    | halted halt => exact absurd halt (h.going (placed.get? k ▸ found))

/-- A run leaves forward code within as many turns as there are instructions left. -/
theorem leaves (h : ForwardCode native code) (placed : Placed p native code)
    (grounded : p.Grounded) (running : r.progress = .running ⟨native, k⟩)
    (inside : k < code.length) :
    ∃ turns, k + turns < code.length ∧
      (∀ j ≤ turns, ∃ k' < code.length, k + j ≤ k' ∧
        (Run.advance o p j r).progress = .running ⟨native, k'⟩) ∧
      (Run.advance o p turns r).Leaves p native code (Run.advance o p (turns + 1) r) := by
  -- every turn inside the code leaves less of it
  induction left : code.length - k using Nat.strongRecOn generalizing k r with
  | ind left ih =>
    subst left
    rcases h.step (o := o) placed grounded running inside with ⟨k', further, inside', onward⟩ | out
    · obtain ⟨turns, bound, stays, out⟩ := ih _ (by omega) onward inside' rfl
      refine ⟨turns + 1, by omega, fun j le => ?_, ?_⟩
      · cases j with
        | zero => exact ⟨k, inside, Nat.le_refl _, running⟩
        | succ j =>
          obtain ⟨k'', below, above, there⟩ := stays j (Nat.le_of_succ_le_succ le)
          exact ⟨k'', below, by omega, by rw [Run.advance_succ]; exact there⟩
      · rw [Run.advance_succ, Run.advance_succ]
        exact out
    · refine ⟨0, inside, fun j le => ?_, ?_⟩
      · cases Nat.le_zero.1 le
        exact ⟨k, inside, Nat.le_refl _, running⟩
      · rw [Run.advance_succ]
        exact out

/-- From its start, a run crosses forward code within as many turns as there are instructions. -/
theorem crosses (h : ForwardCode native code) (placed : Placed p native code)
    (grounded : p.Grounded) (running : r.progress = .running (.ofNative native)) :
    ∃ turns < code.length, r.Crosses o p native code turns := by
  obtain ⟨turns, bound, stays, out⟩ :=
    h.leaves (o := o) placed grounded running placed.length_pos
  refine ⟨turns, by omega, fun {j} le => ?_, out, Run.executed_advance_le o p (turns + 1) r⟩
  obtain ⟨k, below, above, there⟩ := stays j le
  exact ⟨k, below, by omega, there⟩

end ForwardCode

end RegisterTransfer
