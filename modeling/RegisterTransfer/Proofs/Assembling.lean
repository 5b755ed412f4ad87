import RegisterTransfer.Proofs.Blocks
import RegisterTransfer.Proofs.Programs

/-!
# Assembling by hand

What is pushed between one move and the next is a stretch: it stands at one native address, at
offsets from zero on. Going back to a native address starts over at offset zero, so that stretches
at one address clash in their first instructions, unless one of them is empty.

> `Assembly.calls_stretches`: the calls are, in order, those of the stretches.
> `Assembly.instructions_after`: the instructions are those of the stretches.
> `assembled_in_stretches`: what is assembled, and when it is a program.
-/

namespace RegisterTransfer

namespace Assembly

/-! ## Calls and stretches -/

/-- An instruction that has no address yet. -/
structure Pushed where
  opcode : Opcode
  op1 : Operand
  op2 : Operand
  op3 : Operand
  deriving DecidableEq, Repr

/-- A call that assembles something. -/
inductive Call where
  | moveTo (native : Nat)
  | push (i : Pushed)
  deriving DecidableEq, Repr

/-- The instruction at its address. -/
def Pushed.placed (native offset : Nat) (i : Pushed) : Instruction :=
  ⟨⟨native, offset⟩, i.opcode, i.op1, i.op2, i.op3, none⟩

/-- The instruction that a call pushes. -/
def Call.pushed? : Call → Option Pushed
  | moveTo _ => none
  | push i => some i

/-- The assembly after a call. -/
def after (s : Assembly) : Call → Assembly
  | .moveTo native => s.moveTo native
  | .push i => s.push i.opcode i.op1 i.op2 i.op3

/-- What is pushed at one native address, without a move in between. -/
structure Stretch where
  native : Nat
  pushes : List Pushed
  deriving DecidableEq, Repr

namespace Stretch

/-- The instructions of a stretch, at offsets from zero on. -/
def code (t : Stretch) : List Instruction := t.pushes.mapIdx (Pushed.placed t.native)

/-- The move to a stretch, and its pushes. -/
def calls (t : Stretch) : List Call := .moveTo t.native :: t.pushes.map .push

end Stretch

/-- The stretches of some calls, after the given pushes at a native address. -/
def stretches (native : Nat) (pushes : List Pushed) : List Call → List Stretch
  | [] => [⟨native, pushes⟩]
  | .moveTo native' :: rest => ⟨native, pushes⟩ :: stretches native' [] rest
  | .push i :: rest => stretches native (pushes ++ [i]) rest

/-- The calls, behind the move to where they start, are those of the stretches. -/
theorem calls_stretches (native : Nat) (pushes : List Pushed) (calls : List Call) :
    (stretches native pushes calls).flatMap Stretch.calls =
      Stretch.calls ⟨native, pushes⟩ ++ calls := by
  induction calls generalizing native pushes with
  | nil => simp [stretches]
  | cons call rest ih =>
    cases call with
    | moveTo native' => rw [stretches, List.flatMap_cons, ih]; rfl
    | push i => rw [stretches, ih]; simp [Stretch.calls]

/-! ## Instructions -/

/-- So many pushes into a stretch, the next offset is their number. -/
theorem after_push (native : Nat) (pushes : List Pushed) (before : List Instruction) (i : Pushed) :
    after ⟨native, pushes.length, before ++ (Stretch.mk native pushes).code⟩ (.push i) =
      ⟨native, (pushes ++ [i]).length, before ++ (Stretch.mk native (pushes ++ [i])).code⟩ := by
  simp [after, push, here, Stretch.code, Pushed.placed]

/-- The instructions are those of the stretches, in order. -/
theorem instructions_after (native : Nat) (pushes : List Pushed) (before : List Instruction)
    (calls : List Call) :
    (calls.foldl after
        ⟨native, pushes.length, before ++ (Stretch.mk native pushes).code⟩).instructions =
      before ++ (stretches native pushes calls).flatMap Stretch.code := by
  induction calls generalizing native pushes before with
  | nil => simp [stretches]
  | cons call rest ih =>
    rw [List.foldl_cons]
    cases call with
    | moveTo native' =>
      -- the stretch is closed, and a new one starts at offset zero
      have moved := ih native' [] (before ++ (Stretch.mk native pushes).code)
      rw [show (Stretch.mk native' []).code = [] from rfl, List.append_nil] at moved
      rw [stretches, List.flatMap_cons, ← List.append_assoc]
      exact moved
    | push i =>
      rw [after_push, stretches]
      exact ih native (pushes ++ [i]) before

/-- No offset is beyond the number of pushes. -/
theorem offset_after_le (s : Assembly) (calls : List Call) :
    (calls.foldl after s).offset ≤ s.offset + (calls.filterMap Call.pushed?).length := by
  induction calls generalizing s with
  | nil => exact Nat.le_refl _
  | cons call rest ih =>
    have step := ih (s.after call)
    rw [List.foldl_cons]
    cases call with
    | moveTo native =>
      have restarted : (s.after (.moveTo native)).offset = 0 := rfl
      rw [restarted] at step
      show _ ≤ s.offset + (rest.filterMap Call.pushed?).length
      omega
    | push i =>
      have next : (s.after (.push i)).offset = s.offset + 1 := rfl
      rw [next] at step
      show _ ≤ s.offset + ((rest.filterMap Call.pushed?).length + 1)
      omega

/-! ## Programs -/

namespace Stretch

theorem code_eq_nil_iff {t : Stretch} : t.code = [] ↔ t.pushes = [] := List.mapIdx_eq_nil_iff

/-- A stretch that is not empty is code at consecutive offsets. -/
theorem consecutive {t : Stretch} (filled : t.pushes ≠ []) : Consecutive t.native t.code := by
  refine ⟨fun empty => filled (code_eq_nil_iff.1 empty), fun {k i} at_k => ?_⟩
  rw [code, List.getElem?_mapIdx, Option.map_eq_some_iff] at at_k
  obtain ⟨_, _, rfl⟩ := at_k
  rfl

/-- Empty stretches add nothing. -/
theorem flatMap_code_filled (l : List Stretch) :
    ((l.filter (·.pushes ≠ [])).map code).flatten = l.flatMap code := by
  induction l with
  | nil => rfl
  | cons t rest ih =>
    rw [List.flatMap_cons, List.filter_cons]
    by_cases empty : t.pushes = []
    · rw [code_eq_nil_iff.2 empty, if_neg (by simpa using empty)]
      exact ih
    · rw [if_pos (by simpa using empty), List.map_cons, List.flatten_cons, ih]

/-- The code of each stretch that holds something stands at consecutive offsets from zero on. -/
theorem consecutive_filled {l : List Stretch} (filled : ∀ t ∈ l, t.pushes ≠ []) :
    List.Forall₂ (fun t code => Consecutive t.native code) l (l.map code) := by
  rw [List.forall₂_map_right_iff, List.forall₂_same]
  exact fun t mem => consecutive (filled t mem)

end Stretch

section Assembled

variable {l : List Stretch}

/-- Stretches that are not empty make a program if they are at different native addresses. -/
theorem ofList_of_apart (filled : ∀ t ∈ l, t.pushes ≠ []) (apart : (l.map (·.native)).Nodup) :
    ∃ p, Program.ofList (l.map Stretch.code).flatten = .ok p :=
  Program.ofList_isOk (nodup_of_consecutive (Stretch.consecutive_filled filled) apart)

/-- The first of them to come to the native address of an earlier one is to blame if they do not. -/
theorem ofList_of_clash {before after : List Stretch} {t : Stretch}
    (filled : ∀ s ∈ before ++ t :: after, s.pushes ≠ []) (apart : (before.map (·.native)).Nodup)
    (taken : t.native ∈ before.map (·.native)) :
    Program.ofList ((before ++ t :: after).map Stretch.code).flatten =
      .error (.duplicateAddress ⟨t.native, 0⟩) := by
  have earlier : ∀ s ∈ before, s.pushes ≠ [] := fun s mem => filled s (List.mem_append_left _ mem)
  have here := Stretch.consecutive (filled t (by simp))
  rw [List.map_append, List.flatten_append, List.map_cons, List.flatten_cons]
  exact ofList_of_repeated (Stretch.consecutive_filled earlier) apart taken here _

end Assembled

end Assembly

/--
Whatever is moved to and pushed from a native address on, the instructions are those of the
stretches in order, each with the native address of its stretch and with its place in the stretch
for an offset; no offset reaches the number of pushes. They make a program exactly if the stretches
that are not empty are at different native addresses. Otherwise the first of those that is where an
earlier one is has its start reported.
-/
theorem assembled_in_stretches (native : Nat) (calls : List Assembly.Call) :
    let s := calls.foldl Assembly.after (.start native)
    let stretches := Assembly.stretches native [] calls
    let filled := stretches.filter (·.pushes ≠ [])
    stretches.flatMap Assembly.Stretch.calls = .moveTo native :: calls ∧
      s.instructions = stretches.flatMap (fun t => t.pushes.mapIdx (Assembly.Pushed.placed t.native)) ∧
      s.offset ≤ (calls.filterMap Assembly.Call.pushed?).length ∧
      (∀ p, s.program = .ok p ↔
        (filled.map (·.native)).Nodup ∧ p = s.instructions.foldl Program.offer ∅) ∧
      ∀ e, s.program = .error e ↔
        ∃ before t after, filled = before ++ t :: after ∧ (before.map (·.native)).Nodup ∧
          t.native ∈ before.map (·.native) ∧ e = .duplicateAddress ⟨t.native, 0⟩ := by
  intro s stretches filled
  -- empty stretches have no instructions, so they cannot clash
  have instructions : s.instructions = stretches.flatMap Assembly.Stretch.code :=
    Assembly.instructions_after native [] [] calls
  have program : s.program = Program.ofList (filled.map Assembly.Stretch.code).flatten := by
    rw [Assembly.program, instructions, Assembly.Stretch.flatMap_code_filled]
  have nonempty : ∀ t ∈ filled, t.pushes ≠ [] := by
    intro t mem
    simpa using (List.mem_filter.1 mem).2
  refine ⟨Assembly.calls_stretches native [] calls, instructions, ?_, fun p => ⟨fun made => ?_, ?_⟩,
    fun e => ⟨fun failed => ?_, ?_⟩⟩
  · exact (Assembly.offset_after_le (.start native) calls).trans_eq (Nat.zero_add _)
  · refine ⟨?_, (Program.ofList_eq_ok_iff.1 made).2⟩
    rcases nodup_or_first Assembly.Stretch.native filled with
      apart | ⟨before, t, after, split, apart, taken⟩
    · exact apart
    · rw [program, split, Assembly.ofList_of_clash (split ▸ nonempty) apart taken] at made
      cases made
  · rintro ⟨apart, rfl⟩
    obtain ⟨p, made⟩ := Assembly.ofList_of_apart nonempty apart
    rw [← program] at made
    rw [made, (Program.ofList_eq_ok_iff.1 made).2]
  · rcases nodup_or_first Assembly.Stretch.native filled with
      apart | ⟨before, t, after, split, apart, taken⟩
    · obtain ⟨p, made⟩ := Assembly.ofList_of_apart nonempty apart
      rw [program, made] at failed
      cases failed
    · refine ⟨before, t, after, split, apart, taken, ?_⟩
      rw [program, split, Assembly.ofList_of_clash (split ▸ nonempty) apart taken] at failed
      cases failed
      rfl
  · rintro ⟨before, t, after, split, apart, taken, rfl⟩
    rw [program, split]
    exact Assembly.ofList_of_clash (split ▸ nonempty) apart taken

end RegisterTransfer
