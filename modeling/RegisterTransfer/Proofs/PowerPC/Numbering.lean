import RegisterTransfer.Proofs.PowerPC.Lifting

/-!
# Where the numbering starts

The temporaries taken before a block decide from which number on its own are counted, and nothing
else: whether it is translated, what goes wrong, what the instructions are and how many temporaries
they take stay the same. A block may therefore be translated in parts, and a block that is
translated again, with the temporaries of the first time still taken, comes out the same but for
their numbers.

> `Registry.translateBlock_append`: translating in parts, in one environment, with any registry.
> `Program.ofList_map_renumber`: renumbered instructions are assembled to the renumbered program.
> `translation_renumbers`: what is translated with any number of temporaries taken.
-/

namespace RegisterTransfer

/-! ## Blocks in parts -/

namespace Session

variable {r : Registry}

/-- A list in two parts is translated part by part, unless the first part fails. -/
theorem translateAll_append (s : Session) (first second : List NativeInstruction) :
    s.translateAll r (first ++ second) =
      match s.translateAll r first with
      | (.ok (), s') => s'.translateAll r second
      | failed => failed := by
  induction first generalizing s with
  | nil => rfl
  | cons n rest ih =>
    rw [List.cons_append, translateAll, translateAll]
    cases s.translate r n with
    | mk result s' =>
      cases result with
      | error error => rfl
      | ok _ => exact ih s'

/-- The session with some output in front of its own. -/
def behind (before : List Instruction) (s : Session) : Session :=
  ⟨s.environment, before ++ s.output⟩

/-- What was there before stays in front and does not matter, not even to a failure. -/
theorem translateAll_behind (before : List Instruction) (s : Session)
    (block : List NativeInstruction) :
    (s.behind before).translateAll r block =
      ((s.translateAll r block).1, (s.translateAll r block).2.behind before) := by
  induction block generalizing s with
  | nil => rfl
  | cons n rest ih =>
    rw [translateAll, translateAll, translate, translate, behind]
    dsimp only
    cases r.translate s.environment n with
    | mk result e =>
      cases result with
      | error error => rfl
      | ok code =>
        dsimp only
        rw [List.append_assoc]
        exact ih ⟨e, s.output ++ code⟩

end Session

/-- A block is translated in parts: the second goes on in the environment that the first left. -/
theorem Registry.translateBlock_append (r : Registry) (e : Environment)
    (first second : List NativeInstruction) :
    r.translateBlock e (first ++ second) =
      match r.translateBlock e first with
      | (.ok code, e') =>
        ((r.translateBlock e' second).1.map (code ++ ·), (r.translateBlock e' second).2)
      | failed => failed := by
  rw [translateBlock, translateBlock, Session.translateAll_append]
  cases Session.translateAll ⟨e, []⟩ r first with
  | mk result s =>
    cases result with
    | error error => rfl
    | ok _ =>
      have started : s = Session.behind s.output ⟨s.environment, []⟩ := by
        rw [Session.behind, List.append_nil]
      dsimp only
      rw [started, Session.translateAll_behind, translateBlock]
      dsimp only [Session.behind]
      rw [List.append_nil]
      cases Session.translateAll ⟨s.environment, []⟩ r second with
      | mk result' s' => cases result' <;> rfl

/-- A block changes nothing in an environment but the number of temporaries, even if it fails. -/
theorem Registry.Keeps.translateBlock {r : Registry} (keeps : r.Keeps) (e : Environment)
    (block : List NativeInstruction) : (r.translateBlock e block).2.cpu = e.cpu := by
  suffices every : ∀ s : Session,
      (s.translateAll r block).2.environment.cpu = s.environment.cpu by
    rw [← every ⟨e, []⟩, Registry.translateBlock]
    cases Session.translateAll ⟨e, []⟩ r block with
    | mk result s => cases result <;> rfl
  induction block with
  | nil => exact fun s => rfl
  | cons n rest ih =>
    intro s
    have kept := keeps s.environment n
    rw [Session.translateAll, Session.translate]
    cases translated : r.translate s.environment n with
    | mk result e =>
      rw [translated] at kept
      cases result with
      | error error => exact kept
      | ok code => exact (ih ⟨e, s.output ++ code⟩).trans kept

/-! ## Programs with other numbers -/

namespace SortedMap

variable {κ υ ω : Type} [Ord κ]

/-- The map with its values changed. -/
def mapValues (f : υ → ω) (m : SortedMap κ υ) : SortedMap κ ω :=
  ⟨m.toList.map fun e => (e.1, f e.2), List.pairwise_map.2 m.increasing⟩

theorem get?_mapValues (f : υ → ω) (m : SortedMap κ υ) (k : κ) :
    (m.mapValues f).get? k = (m.get? k).map f := by
  show lookup k (m.toList.map _) = (lookup k m.toList).map f
  induction m.toList with
  | nil => rfl
  | cons e rest ih =>
    rw [List.map_cons, lookup, lookup, ih]
    split <;> rfl

end SortedMap

namespace Program

variable (π : Nat → Nat)

/-- The program with its temporaries renumbered. -/
def renumber (p : Program) : Program where
  code := p.code.mapValues (Instruction.renumber π)
  keyed {a i} found := by
    rw [SortedMap.get?_mapValues, Option.map_eq_some_iff] at found
    obtain ⟨j, there, rfl⟩ := found
    have address : j.address = a := p.keyed there
    exact address

theorem get?_renumber (p : Program) (a : Address) :
    (p.renumber π).get? a = (p.get? a).map (Instruction.renumber π) :=
  p.code.get?_mapValues _ a

/-- A renumbered instruction goes into the renumbered program where it would go into the other. -/
theorem insert_renumber (p : Program) (i : Instruction) :
    (p.renumber π).insert (i.renumber π) = (p.insert i).map (renumber π) := by
  have taken : (p.renumber π).contains i.address = p.contains i.address := by
    show ((p.renumber π).get? i.address).isSome = (p.get? i.address).isSome
    rw [get?_renumber, Option.isSome_map]
  cases inserted : p.insert i with
  | error e =>
    obtain ⟨occupied, rfl⟩ := insert_eq_error_iff.1 inserted
    exact insert_eq_error_iff.2 ⟨taken.trans occupied, rfl⟩
  | ok q =>
    cases inserted' : (p.renumber π).insert (i.renumber π) with
    | error e =>
      obtain ⟨occupied, -⟩ := insert_eq_error_iff.1 inserted'
      rw [insert_eq_error_iff.2 ⟨taken.symm.trans occupied, rfl⟩] at inserted
      cases inserted
    | ok q' =>
      refine congrArg Except.ok (ext_get? fun a => ?_)
      rw [get?_of_insert_eq_ok inserted', get?_renumber, get?_renumber,
        get?_of_insert_eq_ok inserted]
      show (if a = i.address then _ else _) = _
      split <;> rfl

/-- Renumbered instructions are assembled to the renumbered program, or fail at the same place. -/
theorem ofList_map_renumber (l : List Instruction) :
    ofList (l.map (Instruction.renumber π)) = (ofList l).map (renumber π) := by
  suffices every : ∀ p : Program, (l.map (Instruction.renumber π)).foldlM insert (p.renumber π) =
      (l.foldlM insert p).map (renumber π) from every ∅
  induction l with
  | nil => exact fun p => rfl
  | cons i rest ih =>
    intro p
    rw [List.map_cons, List.foldlM_cons, List.foldlM_cons, insert_renumber]
    cases p.insert i with
    | error e => rfl
    | ok q => exact ih q

end Program

/-! ## More temporaries taken -/

/-- The environment with `d` more temporaries taken. -/
def Environment.later (e : Environment) (d : Nat) : Environment :=
  { e with temporaries := e.temporaries + d }

/-- The code with every temporary `d` numbers on. -/
def moved (d : Nat) (code : List Instruction) : List Instruction :=
  code.map (Instruction.renumber (· + d))

/-- The session when `d` more temporaries were taken before it. -/
def Session.later (s : Session) (d : Nat) : Session := ⟨s.environment.later d, moved d s.output⟩

/-- Moving temporaries twice moves them by the sum. -/
theorem moved_moved (c d : Nat) (code : List Instruction) :
    moved d (moved c code) = moved (c + d) code := by
  rw [moved, moved, moved, ← Instruction.map_renumber_comp]
  refine congrArg (fun π => code.map (Instruction.renumber π)) (funext fun n => ?_)
  show n + c + d = n + (c + d)
  omega

namespace PowerPC

/-- More temporaries taken before an instruction move its own and leave everything else. -/
theorem translate_later {e : Environment} (known : e.cpu = some cpu) (d : Nat)
    (n : NativeInstruction) :
    registry.translate (e.later d) n =
      ((registry.translate e n).1.map (moved d), (registry.translate e n).2.later d) := by
  obtain ⟨_, count⟩ := e
  cases known
  show registry.translate ⟨some cpu, count + d⟩ n = _
  rw [translate_at (count + d) n, translate_at count n, Environment.later, Nat.add_assoc]
  cases (registry.translate environment n).1 with
  | error error => rfl
  | ok alone =>
    refine congrArg (Except.ok · , _) ?_
    exact (moved_moved count d alone).symm

/-- A list of instructions is translated to the same, moved, or fails at the same instruction. -/
theorem translateAll_later {s : Session} (known : s.environment.cpu = some cpu) (d : Nat)
    (block : List NativeInstruction) :
    (s.later d).translateAll registry block =
      ((s.translateAll registry block).1, (s.translateAll registry block).2.later d) := by
  induction block generalizing s with
  | nil => rfl
  | cons n rest ih =>
    have kept := keeps_registry s.environment n
    rw [Session.translateAll, Session.translateAll, Session.translate, Session.translate,
      Session.later]
    dsimp only
    rw [translate_later known]
    cases translated : registry.translate s.environment n with
    | mk result e =>
      rw [translated] at kept
      cases result with
      | error error => rfl
      | ok code =>
        have together : moved d s.output ++ moved d code = moved d (s.output ++ code) :=
          List.map_append.symm
        show Session.translateAll ⟨e.later d, moved d s.output ++ moved d code⟩ registry rest = _
        rw [together]
        exact ih (s := ⟨e, s.output ++ code⟩) (kept.trans known)

/-- More temporaries taken before a block move its own and leave everything else. -/
theorem translateBlock_later {e : Environment} (known : e.cpu = some cpu) (d : Nat)
    (block : List NativeInstruction) :
    registry.translateBlock (e.later d) block =
      ((registry.translateBlock e block).1.map (moved d),
        (registry.translateBlock e block).2.later d) := by
  have start : (⟨e.later d, []⟩ : Session) = Session.later ⟨e, []⟩ d := rfl
  rw [Registry.translateBlock, Registry.translateBlock, start, translateAll_later known]
  cases Session.translateAll ⟨e, []⟩ registry block with
  | mk result s => cases result <;> rfl

/-- Any number of temporaries taken is that many more than none. -/
theorem environment_later (count : Nat) : environment.later count = ⟨some cpu, count⟩ := by
  rw [Environment.later, environment, Nat.zero_add]

/-- A block that is translated leaves the number of temporaries it took, and the processor. -/
theorem environment_of_translateBlock (block : List NativeInstruction) :
    (registry.translateBlock environment block).2 =
      environment.later (registry.translateBlock environment block).2.temporaries := by
  have kept : (registry.translateBlock environment block).2.cpu = some cpu :=
    keeps_registry.translateBlock environment block
  rw [environment_later, ← kept]

/-- A block that is translated again comes out the same, behind the temporaries it took before. -/
theorem translateBlock_again (block : List NativeInstruction) :
    let once := registry.translateBlock environment block
    registry.translateBlock once.2 block =
      (once.1.map (moved once.2.temporaries), once.2.later once.2.temporaries) := by
  have left := environment_of_translateBlock block
  intro once
  calc registry.translateBlock once.2 block
      = registry.translateBlock (environment.later once.2.temporaries) block := by rw [← left]
    _ = _ := translateBlock_later rfl _ block

/-! ## Lifting with temporaries taken -/

/-- Lifts a block with some temporaries taken. -/
def liftFrom (count : Nat) (block : List NativeInstruction) :
    Except (Problem Address) Program :=
  match (registry.translateBlock ⟨some cpu, count⟩ block).1 with
  | .error e => .error (.lifting e)
  | .ok code => (Program.ofList code).mapError .assembly

/-- A block is lifted to the same program, renumbered, or fails with the same problem. -/
theorem liftFrom_eq (count : Nat) (block : List NativeInstruction) :
    liftFrom count block = (lift block).map (Program.renumber (· + count)) := by
  rw [liftFrom, lift, ← environment_later, translateBlock_later rfl]
  cases (registry.translateBlock environment block).1 with
  | error e => rfl
  | ok code =>
    show (Program.ofList (moved count code)).mapError Problem.assembly = _
    rw [moved, Program.ofList_map_renumber]
    show _ = ((Program.ofList code).mapError Problem.assembly).map _
    cases Program.ofList code <;> rfl

example (block : List NativeInstruction) : liftFrom 0 block = lift block := rfl

/--
What is translated with some temporaries taken is what is translated with none taken: the same
error, or the same code with the number of every temporary raised by the temporaries taken before;
and as many are taken. The temporaries of a block are numbered without gaps from the temporaries
taken before on, so there are no others to rename. A block in two parts is translated to what it is
translated to as a whole. A block that is translated again in the same environment comes out the
same, with its temporaries behind those of the first time, and is lifted to the same program,
renamed in the same way, or fails with the same problem.
-/
theorem translation_renumbers :
    (∀ (count : Nat) (n : NativeInstruction),
      registry.translate ⟨some cpu, count⟩ n =
        ((registry.translate environment n).1.map (moved count),
          ⟨some cpu, (registry.translate environment n).2.temporaries + count⟩)) ∧
    (∀ count block code e, registry.translateBlock ⟨some cpu, count⟩ block = (.ok code, e) →
      ∀ name, isTemporary name →
        ((∃ i ∈ code, ∃ slot w, i.operand slot = .register name w) ↔
          ∃ k, count ≤ k ∧ k < e.temporaries ∧ name = temporaryName k)) ∧
    (∀ (count : Nat) (first second : List NativeInstruction),
      registry.translateBlock ⟨some cpu, count⟩ (first ++ second) =
        match registry.translateBlock ⟨some cpu, count⟩ first with
        | (.ok code, e) =>
          ((registry.translateBlock e second).1.map (code ++ ·),
            (registry.translateBlock e second).2)
        | failed => failed) ∧
    ∀ block : List NativeInstruction,
      (let once := registry.translateBlock environment block
       registry.translateBlock once.2 block =
        (once.1.map (moved once.2.temporaries), once.2.later once.2.temporaries)) ∧
      ∀ count, registry.translateBlock ⟨some cpu, count⟩ block =
          ((registry.translateBlock environment block).1.map (moved count),
            (registry.translateBlock environment block).2.later count) ∧
        liftFrom count block = (lift block).map (Program.renumber (· + count)) := by
  refine ⟨translate_at, fun count block code e translated name temporary => ?_,
    fun count => registry.translateBlock_append ⟨some cpu, count⟩,
    fun block => ⟨translateBlock_again block, fun count => ⟨?_, liftFrom_eq count block⟩⟩⟩
  · obtain ⟨codes, last, rfl, rfl, all⟩ := translateBlock_eq_ok_iff.1 translated
    exact all.occurs_iff temporary
  · rw [← environment_later]
    exact translateBlock_later rfl count block

end PowerPC

end RegisterTransfer
