import RegisterTransfer.Proofs.Calculations
import RegisterTransfer.Proofs.PowerPC.Alone
import RegisterTransfer.Proofs.Programs

/-!
# Emitted code

What a script writes behind an expansion, as a program of its own. If the script calculates, control
falls through this program from the first instruction to the last, and a run of it has the effect of
the journey through the script.

> `Expansion.finish_eq_ok_of_blank`: what is written into a new expansion is all of its code.
> `Script.Calculates.interpret`: a run of the code that a calculation emits.
-/

namespace RegisterTransfer

namespace Expansion

variable {x X : Expansion} {p : Program} {first k : Nat} {d : Draft}

/-- The instruction of a draft at an offset. -/
def instructionAt (X : Expansion) (k : Nat) : Draft → Instruction :=
  Draft.instruction X.native X.comment (fun l => X.labels[l]?.join) k

/-- The instructions that were written behind `x`, at their offsets. -/
def codeBehind (x X : Expansion) : List Instruction :=
  (X.drafts.drop x.size).mapIdx fun k => X.instructionAt (x.size + k)

theorem address_instructionAt (X : Expansion) (k : Nat) (d : Draft) :
    (X.instructionAt k d).address = ⟨X.native, k⟩ := by
  cases d <;> rfl

/-- The code behind an expansion is that of the drafts from its end on. -/
theorem getElem?_codeBehind (x X : Expansion) (k : Nat) :
    (x.codeBehind X)[k]? = X.drafts[x.size + k]?.map (X.instructionAt (x.size + k)) := by
  rw [codeBehind, List.getElem?_mapIdx, List.getElem?_drop]

/-- What is written into a new expansion is all of its code. -/
theorem finish_eq_ok_of_blank (behind : x.Extends X) (drafts : x.drafts = [])
    (labels : x.labels = []) : X.finish = .ok (x.codeBehind X) := by
  obtain ⟨more, written, plain⟩ := behind.drafts
  have unlabelled : X.labels = [] := behind.labels.trans labels
  have unbound : X.completed = X.drafts := by
    rw [completed, if_neg (by rw [unlabelled]; exact List.not_mem_nil)]
  -- no draft jumps to a label, so that no label can be missing
  obtain ⟨code, fin⟩ := finish_isOk_iff.2 fun label jumps => by
    obtain ⟨d, mem, target⟩ := List.mem_map.1 jumps
    rw [written, drafts, List.nil_append] at mem
    have no_jump := plain d mem
    cases d with
    | plain => cases target
    | jump => cases no_jump
  have zero : x.size = 0 := by rw [size, drafts, List.length_nil]
  have same : code = x.codeBehind X := by
    refine List.ext_getElem? fun k => ?_
    rw [eq_mapIdx_of_finish fin, getElem?_codeBehind, List.getElem?_mapIdx, unbound, zero,
      Nat.zero_add]
    rfl
  rw [fin, same]

/-! ## Programs of emitted code -/

/-- A program of what was written from an offset on. -/
structure Fills (X : Expansion) (first : Nat) (p : Program) : Prop where
  get? : ∀ {k d}, first ≤ k → X.drafts[k]? = some d →
    p.get? ⟨X.native, k⟩ = some (X.instructionAt k d)
  covered : ∀ {a}, p.contains a → a.native = X.native ∧ first ≤ a.offset ∧ a.offset < X.size

/-- How far a run has come that is about to execute the instruction at an offset. -/
def progressAt (X : Expansion) (k : Nat) : Progress :=
  if k < X.size then .running ⟨X.native, k⟩ else .finished

/--
What was written behind an expansion can be made a program, for no two drafts share an offset.
-/
theorem exists_fills (x X : Expansion) :
    ∃ p, Program.ofList (x.codeBehind X) = .ok p ∧ X.Fills x.size p := by
  have places : ∀ {k : Nat} {i}, (x.codeBehind X)[k]? = some i →
      ∃ d, X.drafts[x.size + k]? = some d ∧ X.instructionAt (x.size + k) d = i := by
    intro k i at_k
    rw [getElem?_codeBehind] at at_k
    exact Option.map_eq_some_iff.1 at_k
  -- instructions lie at the offsets of their drafts, so their addresses differ
  have apart : ((x.codeBehind X).map (·.address)).Nodup := by
    rw [List.nodup_iff_getElem?_ne_getElem?]
    intro j k lt inside same
    rw [List.length_map] at inside
    obtain ⟨d, -, left⟩ := places (List.getElem?_eq_getElem (Nat.lt_trans lt inside))
    obtain ⟨e, -, right⟩ := places (List.getElem?_eq_getElem inside)
    rw [List.getElem?_map, List.getElem?_map, List.getElem?_eq_getElem (Nat.lt_trans lt inside),
      List.getElem?_eq_getElem inside, ← left, ← right, Option.map_some, Option.map_some,
      address_instructionAt, address_instructionAt] at same
    have offsets : x.size + j = x.size + k := congrArg Address.offset (Option.some.inj same)
    omega
  obtain ⟨p, made⟩ := Program.ofList_isOk apart
  have found := (Program.ofList_eq_ok made).2
  refine ⟨p, made, fun {k d} le at_k => ?_, fun {a} there => ?_⟩
  · obtain ⟨j, rfl⟩ := Nat.exists_eq_add_of_le le
    refine (found _ _).2 ⟨List.mem_of_getElem? (i := j) ?_, address_instructionAt ..⟩
    rw [getElem?_codeBehind, at_k]
    rfl
  · obtain ⟨i, got⟩ := SortedMap.contains_iff.1 there
    obtain ⟨mem, rfl⟩ := (found _ _).1 got
    obtain ⟨j, at_j⟩ := List.getElem?_of_mem mem
    obtain ⟨d, draft, rfl⟩ := places at_j
    rw [address_instructionAt]
    exact ⟨rfl, Nat.le_add_right _ _, (List.getElem?_eq_some_iff.1 draft).1⟩

namespace Fills

/-- Every offset that was written is in the program. -/
theorem contains (h : X.Fills first p) (le : first ≤ k) (inside : k < X.size) :
    p.contains ⟨X.native, k⟩ :=
  SortedMap.contains_iff.2 ⟨_, h.get? le (List.getElem?_eq_getElem inside)⟩

/-- Control falls through to the next offset, or the run is finished. -/
theorem follow (h : X.Fills first p) (le : first ≤ k) (m : Machine) :
    Run.follow p ⟨X.native, k⟩ m () .next = ⟨m, (), X.progressAt (k + 1)⟩ := by
  unfold Run.follow progressAt
  -- the program holds these drafts and nothing else, so the next address is the next offset
  by_cases more : k + 1 < X.size
  · have next : p.next? ⟨X.native, k⟩ = some ⟨X.native, k + 1⟩ := by
      refine Program.next?_eq_some_iff.2 ⟨h.contains (Nat.le_succ_of_le le) more,
        Address.compare_eq_lt_iff.2 (.inr ⟨rfl, Nat.lt_succ_self k⟩), fun {a} there above => ?_⟩
      obtain ⟨native, -, -⟩ := h.covered there
      rcases Address.compare_eq_lt_iff.1 above with lt | ⟨-, lt⟩
      · exact absurd lt (native ▸ Nat.lt_irrefl _)
      · rcases Nat.eq_or_lt_of_le (Nat.succ_le_of_lt lt) with same | later
        · left
          cases a
          cases native
          cases same
          rfl
        · exact .inr (Address.compare_eq_lt_iff.2 (.inr ⟨native.symm, later⟩))
    rw [if_pos more]
    simp only [next]
  · have last : p.next? ⟨X.native, k⟩ = none := by
      refine Program.next?_eq_none_iff.2 fun a there above => ?_
      obtain ⟨native, -, below⟩ := h.covered there
      rcases Address.compare_eq_lt_iff.1 above with lt | ⟨-, lt⟩
      · exact absurd lt (native ▸ Nat.lt_irrefl _)
      · exact more (Nat.lt_of_le_of_lt (Nat.succ_le_of_lt lt) below)
    rw [if_neg more]
    simp only [last]

end Fills

end Expansion

/-! ## Runs of emitted code -/

/-- A journey that is going on starts where it is. -/
theorem Journey.exists_start {g : Journey} (going : g.stance = .going) : ∃ m, g = .start m := by
  obtain ⟨m, stance⟩ := g
  have going : stance = .going := going
  subst going
  exact ⟨m, rfl⟩

namespace Script.Calculates

variable {α : Type} {s : Script α} {pending : Option Operand} {x X : Expansion} {a : α}
  {p : Program} {first : Nat} {m : Machine}

/-- Where the journey through a calculation does not fail, control comes to the end of its code. -/
theorem advance (h : s.Calculates pending) (ran : s.run x = (.ok a, X))
    (fills : X.Fills first p) (le : first ≤ x.size) (unlimited : m.settings.stepLimit = none)
    (going : (s.walk x (.start m)).stance = .going) :
    Run.advance .silent p (X.size - x.size) ⟨m, (), X.progressAt x.size⟩ =
      ⟨(s.walk x (.start m)).machine, (), .finished⟩ := by
  induction s generalizing pending x m with
  | done r =>
    cases ran
    rw [Nat.sub_self, Expansion.progressAt, if_neg (Nat.lt_irrefl _)]
    rfl
  | allocate w next ih => exact ih _ (h.2 x.taken) ran le unlimited going
  | write opcode op1 op2 op3 next ih =>
    let i : Instruction := ⟨x.here, opcode, op1, op2, op3, none⟩
    let y : Expansion := x.emit opcode op1 op2 op3
    have behind : y.Extends X := h.2.2.extends_of_run ran
    have native : X.native = x.native := behind.native
    have longer : y.size = x.size + 1 := x.size_emit ..
    have inside : x.size < X.size := Nat.lt_of_lt_of_le (longer ▸ Nat.lt_succ_self _) behind.size
    have draft : X.drafts[x.size]? = some (.plain opcode op1 op2 op3) :=
      behind.draft (by simp [y, Expansion.emit, Expansion.size])
    have there : p.get? i.address =
        some { i with comment := if x.size = 0 then X.comment else none } := by
      have found := fills.get? le draft
      rw [native] at found
      rw [show i.address = ⟨x.native, x.size⟩ from rfl, found, Expansion.instructionAt, native]
      rfl
    -- a journey that fails here does not go on
    have went : ((Journey.start m).perform i).stance = .going := by
      by_contra past
      rw [walk, h.2.2.walk_of_ne_going y past] at going
      exact past going
    obtain ⟨m', performed⟩ : ∃ m', (Journey.start m).perform i = .start m' :=
      Journey.exists_start went
    have limit : m'.settings.stepLimit = none := by
      have setup := (Journey.start m).perform_setup i
      rw [performed] at setup
      exact setup.settings ▸ unlimited
    have stepped : (⟨m, (), .running i.address⟩ : Run Unit).step .silent p =
        ⟨m', (), X.progressAt y.size⟩ := by
      rw [Run.step_eq_settle there rfl unlimited, performed, longer, ← fills.follow le, native]
      rfl
    rw [walk, performed] at going ⊢
    rw [show X.size - x.size = X.size - y.size + 1 by omega, Run.advance_succ,
      Expansion.progressAt, if_pos inside, native,
      show (⟨x.native, x.size⟩ : Address) = i.address from rfl, stepped]
    exact ih h.2.2 ran (longer ▸ Nat.le_succ_of_le le) limit going
  | fail | create | attach | leave => cases h

/-- A run of the code that a calculation emits has the effect of the journey through it. -/
theorem interpret (h : s.Calculates none) (ran : s.run x = (.ok a, X))
    (unlimited : m.settings.stepLimit = none)
    (going : (s.walk x (.start m.begun)).stance = .going) :
    ∃ p turns, Program.ofList (x.codeBehind X) = .ok p ∧
      m.interpret .silent p turns x.here () =
        ⟨(s.walk x (.start m.begun)).machine, (), .finished⟩ := by
  obtain ⟨p, made, fills⟩ := x.exists_fills X
  have native : X.native = x.native := (h.extends_of_run ran).native
  have advanced := h.advance ran fills (Nat.le_refl _) (m := m.begun) unlimited going
  by_cases written : x.size < X.size
  · refine ⟨p, X.size - x.size, made, ?_⟩
    rw [Expansion.progressAt, if_pos written, native] at advanced
    rw [Machine.interpret, Run.conclude_silent]
    exact advanced
  · -- without any code the run is finished as soon as it looks for an instruction
    refine ⟨p, 1, made, ?_⟩
    rw [Expansion.progressAt, if_neg written, show X.size - x.size = 0 by omega] at advanced
    rw [← advanced, Machine.interpret, Run.conclude_silent]
    have nothing : p.get? x.here = none := by
      refine Program.get?_eq_none_iff.2 fun there => written ?_
      exact (fills.covered there).2.2
    show Run.turn .silent p x.here m.begun () = _
    rw [Run.turn, nothing]
    rfl

end Script.Calculates

end RegisterTransfer
