import RegisterTransfer.Proofs.EmittedCode
import RegisterTransfer.Proofs.ExactResults

/-!
# The width rule

Sums, differences, products and bitwise operations have a rule about the widths of their operands,
and an instruction that breaks it fails before it reads anything. The rule asks for nothing but the
instruction. So a program whose instructions all keep it never fails by it, whatever the machine and
however long the run; and whether the code of a script keeps it can be read off what the script
writes.

> `Machine.unclashing_execute`: an instruction that keeps the rule does not fail by it.
> `Program.KeepsWidths.not_clashes_interpret`: nor does a run of a program that keeps it.
> `Script.Each.keepsWidths`: instructions whose widths fit make a program that keeps the rule.
> `Expansion.Fills.turn_of_clashes`: where an instruction breaks it, the run fails.
-/

namespace RegisterTransfer

/-- Not a failure by the width rule. -/
def Unclashing {α : Type} : Except (Fault Address) α → Prop
  | .error (.widthClash ..) => False
  | _ => True

namespace Unclashing

variable {α β : Type} {r : Except (Fault Address) α} {f : α → Except (Fault Address) β}
  {fault : Fault Address}

/-- It makes no difference what a failing computation would have resulted in. -/
theorem error (h : Unclashing r) (e : r = .error fault) :
    Unclashing (.error fault : Except (Fault Address) β) := by
  subst e
  cases fault with
  | widthClash => exact h
  | _ => trivial

/-- A sequence does not clash if none of its parts does. -/
theorem bind (h : Unclashing r) (next : ∀ a, Unclashing (f a)) : Unclashing (r >>= f) := by
  cases r with
  | ok a => exact next a
  | error fault => exact h.error rfl

theorem map (h : Unclashing r) (f : α → β) : Unclashing (r.map f) := by
  cases r with
  | ok a => trivial
  | error fault => exact h.error rfl

end Unclashing

/-! ## One instruction -/

/-- A destination may be missing, which is another fault. -/
theorem Instruction.unclashing_destination (i : Instruction) : Unclashing i.destination := by
  unfold destination
  split <;> trivial

namespace Machine

variable {i : Instruction}

/-- Reading an operand fails for other reasons than its width. -/
theorem unclashing_source (m : Machine) (place : Address) (o : Operand) :
    Unclashing (m.source place o) := by
  unfold source
  split
  · trivial
  · split
    · trivial
    · split <;> trivial
  · trivial
  · trivial

/-- A jump target has no width to keep. -/
theorem unclashing_target (m : Machine) (place : Address) (o : Operand) :
    Unclashing (m.target place o) := by
  unfold target
  split
  · trivial
  · trivial
  · exact (unclashing_source m place o).bind fun _ => trivial
  · exact (unclashing_source m place o).bind fun _ => trivial

theorem unclashing_branch (m : Machine) (p : Program) (i : Instruction) :
    Unclashing (m.branch p i) := by
  refine (unclashing_source m i.address i.op1).bind fun condition => ?_
  split
  · trivial
  · refine (unclashing_target m i.address i.op3).bind fun target => ?_
    split <;> trivial

theorem unclashing_assign (m : Machine) (i : Instruction) (v : Nat) :
    Unclashing (m.assign i v).1 := by
  have destination := i.unclashing_destination
  unfold assign
  split
  · next f e => exact destination.error e
  · trivial

/-- Writing a result adds no clash to those of computing it. -/
theorem unclashing_assignResult (m : Machine) (i : Instruction) {r : Except (Fault Address) Nat}
    (h : Unclashing r) : Unclashing (m.assignResult i r).1 := by
  cases r with
  | ok v => exact unclashing_assign m i v
  | error f => exact h.error rfl

theorem unclashing_proceed (m : Machine) {r : Except (Fault Address) Machine}
    (h : Unclashing r) : Unclashing (m.proceed r).1 := by
  cases r with
  | ok v => trivial
  | error f => exact h.error rfl

theorem unclashing_loadFrom (m : Machine) (i : Instruction) : Unclashing (m.loadFrom i).1 := by
  have address := unclashing_source m i.address i.op1
  unfold loadFrom
  split
  · next f e => exact address.error e
  · exact unclashing_assign _ i _

theorem unclashing_storeTo (m : Machine) (i : Instruction) : Unclashing (m.storeTo i) :=
  (unclashing_source m i.address i.op1).bind fun _ =>
    (unclashing_source m i.address i.op3).bind fun _ => trivial

theorem unclashing_makeUndefined (m : Machine) (i : Instruction) :
    Unclashing (m.makeUndefined i) :=
  i.unclashing_destination.bind fun _ => trivial

/-- An instruction that keeps the rule is checked before it computes. -/
theorem unclashing_combine (keeps : i.checkWidths = .ok ()) (m : Machine) :
    Unclashing (m.combine i) := by
  unfold combine
  rw [keeps]
  refine (unclashing_source m i.address i.op1).bind fun a => ?_
  refine (unclashing_source m i.address i.op2).bind fun b => ?_
  split <;> trivial

/-- Nothing but the check of its widths makes an instruction fail by the width rule. -/
theorem unclashing_execute (keeps : i.checkWidths = .ok ()) (m : Machine) (p : Program) :
    Unclashing (m.execute p i).1 := by
  unfold execute
  cases i.opcode with
  | add | sub | mul | div | mod | bsh | and | or | xor =>
    exact unclashing_assignResult m i (unclashing_combine keeps m)
  | bisz => exact unclashing_assignResult m i ((unclashing_source m i.address i.op1).map _)
  | str => exact unclashing_assignResult m i (unclashing_source m i.address i.op1)
  | jcc => exact unclashing_branch m p i
  | ldm => exact unclashing_loadFrom m i
  | stm => exact unclashing_proceed m (unclashing_storeTo m i)
  | undef => exact unclashing_proceed m (unclashing_makeUndefined m i)
  | unkn =>
    dsimp only
    split <;> trivial
  | nop | halt => trivial

end Machine

/-! ## Runs -/

/-- The run has failed by the width rule. -/
def Run.Clashes {σ : Type} (r : Run σ) : Prop :=
  ∃ place clash, r.progress = .failed (.widthClash place clash)

/-- Every instruction of the program keeps the width rule. -/
def Program.KeepsWidths (p : Program) : Prop :=
  ∀ a i, p.get? a = some i → i.checkWidths = .ok ()

namespace Program.KeepsWidths

variable {p : Program}

/-- No turn of a program that keeps the rule fails by it. -/
theorem not_clashes_turn (h : p.KeepsWidths) (pc : Address) (m : Machine) :
    ¬ (Run.turn .silent p pc m ()).Clashes := by
  rintro ⟨place, clash, failed⟩
  unfold Run.turn at failed
  split at failed
  · cases failed
  · next i there =>
    split at failed
    · cases failed
    · have unclashing := Machine.unclashing_execute (h pc i there)
        (m.syncProgramCounter pc.native) p
      simp only [Observer.silent, Run.perform] at failed
      split at failed
      · next f m' executed =>
        cases failed
        rw [executed] at unclashing
        exact unclashing
      · unfold Run.follow at failed
        split at failed
        · cases failed
        · cases failed
        · split at failed <;> cases failed

/-- The induction is on the turns that are left. -/
theorem not_clashes_advance (h : p.KeepsWidths) (turns : Nat) {r : Run Unit}
    (unclashed : ¬ r.Clashes) : ¬ (Run.advance .silent p turns r).Clashes := by
  induction turns generalizing r with
  | zero => exact unclashed
  | succ n ih =>
    rw [Run.advance_succ]
    apply ih
    unfold Run.step
    split
    · exact h.not_clashes_turn _ _
    · exact unclashed

/-- No run of a program that keeps the width rule fails by it. -/
theorem not_clashes_interpret (h : p.KeepsWidths) (m : Machine) (turns : Nat) (entry : Address) :
    ¬ (m.interpret .silent p turns entry ()).Clashes := by
  rw [Machine.interpret, Run.conclude_silent]
  refine h.not_clashes_advance turns ?_
  rintro ⟨_, _, running⟩
  cases running

end Program.KeepsWidths

/-! ## Code of scripts -/

/-- The operands of an instruction have widths that fit together. -/
def Draft.Fits : Draft → Prop
  | plain opcode a b c => opcode.Fits a.width b.width c.width
  | jump _ _ => True

/-- A draft that fits is laid out as an instruction that keeps the rule. -/
theorem Expansion.checkWidths_instructionAt {d : Draft} (h : d.Fits) (X : Expansion) (k : Nat) :
    (X.instructionAt k d).checkWidths = .ok () := by
  cases d with
  | plain opcode a b c => exact checkWidths_of_fits h
  | jump c label => rfl

namespace Script

variable {α : Type} {C : Draft → Prop} {Q : α → Prop} {s : Script α} {x X : Expansion} {a : α}

/-- What is known of every instruction of a script is known of what it writes. -/
theorem Each.written (h : s.Each C Q) (ran : s.run x = (.ok a, X)) :
    ∃ more, X.drafts = x.drafts ++ more ∧ ∀ d ∈ more, C d := by
  induction s generalizing x with
  | done r =>
    cases ran
    exact ⟨[], (List.append_nil _).symm, by simp⟩
  | fail e => cases ran
  | allocate w next ih => exact ih _ (h x.taken) (x := (x.temporary w).2) ran
  | create next ih => exact ih _ (h _) (x := x.newLabel.2) ran
  | attach label next ih => exact ih h (x := x.bind label) ran
  | write _ _ _ _ _ ih | leave _ _ _ ih =>
    obtain ⟨more, written, each⟩ := ih h.2 ran
    exact ⟨_ :: more, written.trans (List.append_assoc _ _ _),
      List.forall_mem_cons.2 ⟨h.1, each⟩⟩

/-- Instructions whose widths fit make a program that keeps the width rule. -/
theorem Each.keepsWidths {p : Program} (h : s.Each Draft.Fits Q) (ran : s.run x = (.ok a, X))
    (made : Program.ofList (x.codeBehind X) = .ok p) : p.KeepsWidths := by
  obtain ⟨more, written, fits⟩ := h.written ran
  intro place i there
  obtain ⟨mem, -⟩ := ((Program.ofList_eq_ok made).2 _ _).1 there
  obtain ⟨k, at_k⟩ := List.getElem?_of_mem mem
  rw [Expansion.getElem?_codeBehind, written, Expansion.size,
    List.getElem?_append_right (Nat.le_add_right _ _), Nat.add_sub_cancel_left] at at_k
  obtain ⟨d, draft, rfl⟩ := Option.map_eq_some_iff.1 at_k
  exact Expansion.checkWidths_instructionAt (fits d (List.mem_of_getElem? draft)) X _

end Script

/-! ## Turns at emitted instructions -/

/-- A turn executes the instruction that it finds, unless the step limit is reached. -/
theorem Run.turn_of_allowed {p : Program} {pc : Address} {i : Instruction} {m : Machine}
    (there : p.get? pc = some i)
    (allowed : ∀ l, m.settings.stepLimit = some l → m.counters.executed < l) :
    Run.turn .silent p pc m () = Run.perform p pc i m () := by
  have free : m.settings.stepLimit.filter (· ≤ m.counters.executed) = none := by
    rw [Option.filter_eq_none_iff]
    intro l limit
    have below := allowed l limit
    simpa using below
  simp only [Run.turn, there, free]
  rfl

namespace Expansion.Fills

variable {X : Expansion} {a b c : Operand} {wide : Width} {m : Machine} {u v k first : Nat}
  {p : Program} {opcode : Opcode} {name : String}

/-- An instruction with widths that fit, sources that are read and a result of them is executed, and
control goes on. -/
theorem turn_of_reads (fills : X.Fills first p) (le : first ≤ k)
    (draft : X.drafts[k]? = some (.plain opcode a b (.register name wide)))
    (combines : opcode.combines) (fits : opcode.Fits a.width b.width wide)
    (left : (m.syncProgramCounter X.native).Reads a u)
    (right : (m.syncProgramCounter X.native).Reads b v) {w : Nat}
    (value : opcode.combine b.width u v = some w)
    (allowed : ∀ l, m.settings.stepLimit = some l → m.counters.executed < l) :
    ∃ m' : Machine, m'.settings = m.settings ∧ m'.counters.executed = m.counters.executed + 1 ∧
      Run.turn .silent p ⟨X.native, k⟩ m () = ⟨m', (), X.progressAt (k + 1)⟩ := by
  let i : Instruction := X.instructionAt k (.plain opcode a b (.register name wide))
  let computed := (m.syncProgramCounter X.native).setRegister name w wide .defined
  have executed : (m.syncProgramCounter X.native).execute p i = (.ok .next, computed) := by
    have combined : i.opcode.combine i.op2.width u v = some w := value
    rw [Machine.execute_of_combines combines,
      Machine.combine_of_reads (checkWidths_of_fits fits) left right, combined]
    rfl
  refine ⟨{ computed with counters.executed := computed.counters.executed + 1 }, rfl, rfl, ?_⟩
  rw [Run.turn_of_allowed (fills.get? le draft) allowed, Run.perform, executed]
  exact fills.follow le _

/-- An instruction that breaks the width rule fails before it reads anything. -/
theorem turn_of_clashes (fills : X.Fills first p) (le : first ≤ k)
    (draft : X.drafts[k]? = some (.plain opcode a b c)) (combines : opcode.combines)
    {clash : WidthClash} (clashes : (X.instructionAt k (.plain opcode a b c)).Clashes clash)
    (allowed : ∀ l, m.settings.stepLimit = some l → m.counters.executed < l) :
    (Run.turn .silent p ⟨X.native, k⟩ m ()).progress =
      .failed (.widthClash ⟨X.native, k⟩ clash) := by
  have fails := checkWidths_eq_error_iff.2 ⟨clash, clashes, rfl⟩
  rw [Run.turn_of_allowed (fills.get? le draft) allowed, Run.perform,
    Machine.execute_of_combines combines, Machine.combine, fails]
  rfl

end Expansion.Fills

end RegisterTransfer
