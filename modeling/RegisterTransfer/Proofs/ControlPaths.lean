import RegisterTransfer.Proofs.Execution
import RegisterTransfer.Proofs.Lockstep

/-!
# Control paths

The control graph inside the code of one native instruction, and the paths through it from its
first instruction. A fall through is an edge whatever the instruction does, so a path may go on behind
a jump that is always taken. Runs go along paths:

> `Program.Tiled.onward`: a turn leads along an edge of the code that control is in, or to the start
> of a code.
> `Program.Tiled.written_before`: a run executes whatever is on every path to where it stands.
-/

namespace RegisterTransfer

/-! ## What instructions read and write -/

/-- A place for an operand in an instruction. -/
inductive Slot where
  | first
  | second
  | third
  deriving DecidableEq, Repr, Inhabited

/-- The operand in a slot. -/
def Instruction.operand (i : Instruction) : Slot → Operand
  | .first => i.op1
  | .second => i.op2
  | .third => i.op3

/-- An operand of register kind is the register at the width of the operand. -/
theorem Operand.eq_register {o : Operand} {name : String} (h : o.kind = .register name) :
    o = .register name o.width := by
  cases o
  cases h
  rfl

/-- Whether an instruction may take the value of the operand in a slot. -/
def Opcode.reads (opcode : Opcode) : Slot → Bool
  | .first =>
    match opcode with
    | nop | undef | unkn | halt => false
    | _ => true
  | .second => opcode.combines
  | .third =>
    match opcode with
    | jcc | stm => true
    | _ => false

namespace Opcode

/-- What writes a register computes with its first operand. -/
theorem reads_first (opcode : Opcode) (writes : opcode.writesRegister) : opcode.reads .first := by
  cases opcode <;> first | rfl | cases writes

/-- What writes its third operand does not read it. -/
theorem reads_third (opcode : Opcode) (writes : opcode.writesRegister) :
    ¬ opcode.reads .third := by
  cases opcode <;> first | exact Bool.false_ne_true | cases writes

end Opcode

namespace Instruction

/-- The instruction may take the value of a register at a width. -/
def Reads (i : Instruction) (name : String) (w : Width) : Prop :=
  ∃ slot, i.opcode.reads slot ∧ i.operand slot = .register name w

/-- The instruction gives a register a value at a width. -/
def Writes (i : Instruction) (name : String) (w : Width) : Prop :=
  i.opcode.writesRegister ∧ i.op3 = .register name w

end Instruction

/-! ## Paths through the code of an instruction -/

/-- Where control may go inside the code of a native instruction. -/
inductive Edge (code : List Instruction) (k : Nat) : Nat → Prop
  | fall (more : k + 1 < code.length) : Edge code k (k + 1)
  | jump {i t} (at_k : code[k]? = some i) (jumps : i.opcode = .jcc)
    (target : i.op3.kind = .address ⟨i.address.native, t⟩) : Edge code k t

/-- Control may come from the first instruction to an offset by way of the offsets visited. -/
inductive Path (code : List Instruction) : Nat → List Nat → Prop
  | start : Path code 0 []
  | onward {k k' visited} (before : Path code k visited) (edge : Edge code k k') :
    Path code k' (k :: visited)

/-- Only the first instruction is reached by way of nothing. -/
theorem Path.eq_zero {code : List Instruction} {k : Nat} (h : Path code k []) : k = 0 := by
  cases h
  rfl

/-- A path came to where it stands along an edge. -/
theorem Path.edge {code : List Instruction} {k k' : Nat} {visited : List Nat}
    (h : Path code k' (k :: visited)) : Edge code k k' := by
  cases h with
  | onward before edge => exact edge

/-- One instruction after the other. -/
theorem path_falling {code : List Instruction} {k : Nat} (inside : k < code.length) :
    Path code k (List.range k).reverse := by
  induction k with
  | zero => exact .start
  | succ k ih =>
    rw [List.range_succ, List.reverse_append]
    exact .onward (ih (Nat.lt_of_succ_lt inside)) (.fall inside)

/--
Code at a native address that control leaves only for the start of some code: a jump that names an
offset stays inside.
-/
structure Enclosed (native : Nat) (code : List Instruction) : Prop where
  address : ∀ {k : Nat} {i : Instruction}, code[k]? = some i → i.address = ⟨native, k⟩
  inward : ∀ {k : Nat} {i : Instruction} {t : Address}, code[k]? = some i → i.opcode = .jcc →
    i.op3.kind = .address t → t.native = native

/-! ## Programs of placed codes -/

/-- A jump that names an offset goes there. -/
theorem Machine.route_address {m : Machine} {i : Instruction} {t target : Address}
    (named : i.op3.kind = .address target) (taken : m.route i = .ok (some t)) : t = target := by
  unfold route at taken
  cases condition : m.source i.address i.op1 with
  | error f => simp [condition, bind, Except.bind] at taken
  | ok v =>
    simp only [condition, bind, Except.bind, Machine.target, named] at taken
    split at taken
    · cases taken
    · cases taken
      rfl

/-- Every instruction of the program belongs to enclosed code, of which `C` holds. -/
structure Program.Tiled (p : Program) (C : List Instruction → Prop) : Prop where
  grounded : p.Grounded
  tile : ∀ {a}, p.contains a → ∃ code, Placed p a.native code ∧ Enclosed a.native code ∧ C code

/-- Control is at `pc`, inside code that it came through by way of the offsets visited. -/
structure Visit (p : Program) (C : List Instruction → Prop) (code : List Instruction)
    (visited : List Nat) (pc : Address) : Prop where
  placed : Placed p pc.native code
  enclosed : Enclosed pc.native code
  tile : C code
  path : Path code pc.offset visited

/-- While control is inside code, the program holds the instructions of that code. -/
theorem Visit.get? {p : Program} {C : List Instruction → Prop} {code : List Instruction}
    {visited : List Nat} {pc : Address} (h : Visit p C code visited pc) :
    p.get? pc = code[pc.offset]? :=
  h.placed.get? pc.offset

namespace Program.Tiled

variable {p : Program} {C : List Instruction → Prop} {code : List Instruction}
  {visited : List Nat} {σ : Type} {o : Observer σ} {r : Run σ} {pc pc' : Address}

/-- Control enters code at its start. -/
theorem enter (tiled : p.Tiled C) (native : Nat) (there : p.contains (.ofNative native)) :
    ∃ code, Visit p C code [] (.ofNative native) := by
  obtain ⟨code, placed, enclosed, tile⟩ := tiled.tile there
  exact ⟨code, placed, enclosed, tile, .start⟩

/-- A turn leads along an edge of the code that control is in, or to the start of a code. -/
theorem onward (tiled : p.Tiled C) (visit : Visit p C code visited pc)
    (running : r.progress = .running pc) (next : (r.step o p).progress = .running pc') :
    pc'.native = pc.native ∧ Visit p C code (pc.offset :: visited) pc' ∨
      ∃ code', Visit p C code' [] pc' := by
  have along : ∀ {t}, t.native = pc.native → Edge code pc.offset t.offset →
      t.native = pc.native ∧ Visit p C code (pc.offset :: visited) t := fun native edge =>
    ⟨native, native ▸ visit.placed, native ▸ visit.enclosed, visit.tile, visit.path.onward edge⟩
  have anew : ∀ {t : Address}, p.contains t → t = .ofNative t.native →
      ∃ code', Visit p C code' [] t := by
    intro t there start
    rw [start] at there ⊢
    exact tiled.enter _ there
  have effect := Run.steps o p r
  generalize r.step o p = r' at effect next
  cases effect with
  | ended h =>
    rw [Run.isOver, running] at h
    cases h
  | @fell pc' i _ m w running' found executed onward =>
    rw [running] at running'
    cases running'
    cases next
    have there := (SortedMap.next?_eq_some_iff.1 onward).1
    -- inside the code the next address is one offset on, and behind it a code starts
    by_cases more : pc.offset + 1 < code.length
    · have inside := visit.placed.next?_inside more
      rw [show (⟨pc.native, pc.offset⟩ : Address) = pc from rfl, onward] at inside
      cases inside
      exact .inl (along rfl (.fall more))
    · have last : pc = ⟨pc.native, code.length - 1⟩ := by
        have inside : pc.offset < code.length := by
          rw [visit.get?] at found
          exact (List.getElem?_eq_some_iff.1 found).1
        rw [show code.length - 1 = pc.offset by omega]
      rw [last] at onward
      exact .inr (anew there (visit.placed.next?_last tiled.grounded onward).1)
  | @jumped pc' i t m w running' found executed =>
    rw [running] at running'
    cases running'
    cases next
    rw [visit.get?] at found
    have effect := (r.machine.syncProgramCounter pc.native).executes p i
    rw [executed] at effect
    cases effect with
    | jumped jump taken mapped =>
      -- a jump that names an address stays in the code, and any other goes to a start
      by_cases named : ∃ target, i.op3.kind = .address target
      · obtain ⟨target, kind⟩ := named
        have address := visit.enclosed.address found
        have native := visit.enclosed.inward found jump kind
        have arrives := Machine.route_address kind taken
        subst arrives
        refine .inl (along native (.jump found jump ?_))
        rw [kind, address, ← native]
      · refine .inr (anew mapped (Machine.route_start (fun target kind => ?_) taken))
        exact named ⟨target, kind⟩
  | off | stopped | failed | exhausted | halted => cases next

end Program.Tiled

/-! ## Runs along paths -/

namespace Run

variable {σ : Type} {o : Observer σ} {p : Program} {r : Run σ} {pc pc' : Address}

/-- The last turn is one more turn. -/
theorem step_advance (o : Observer σ) (p : Program) (n : Nat) (r : Run σ) :
    (advance o p n r).step o p = advance o p (n + 1) r := by
  rw [advance_add, advance_succ]
  rfl

/-- Of what is noted along the turns, the last turn comes last. -/
theorem filterMap_range_succ {α : Type} (note : Nat → Option α) (n : Nat) :
    (List.range (n + 1)).filterMap note = (List.range n).filterMap note ++ (note n).toList := by
  rw [List.range_succ, List.filterMap_append]
  cases e : note n <;> simp [e]

@[simp] theorem progress_conclude (o : Observer σ) (r : Run σ) :
    (r.conclude o).progress = r.progress := by
  unfold conclude
  split <;> rfl

@[simp] theorem machine_conclude (o : Observer σ) (r : Run σ) :
    (r.conclude o).machine = r.machine := by
  unfold conclude
  split <;> rfl

/-- A run that goes on was at an instruction and is at one. -/
theorem contains_of_step (running : r.progress = .running pc)
    (next : (r.step o p).progress = .running pc') : p.contains pc ∧ p.contains pc' := by
  have effect := steps o p r
  generalize r.step o p = r' at effect next
  cases effect with
  | ended h =>
    rw [isOver, running] at h
    cases h
  | fell running' found executed onward =>
    rw [running] at running'
    cases running'
    cases next
    exact ⟨SortedMap.contains_iff.2 ⟨_, found⟩, (SortedMap.next?_eq_some_iff.1 onward).1⟩
  | @jumped _ i t m w running' found executed =>
    rw [running] at running'
    cases running'
    cases next
    have effect := (r.machine.syncProgramCounter pc.native).executes p i
    rw [executed] at effect
    cases effect with
    | jumped jump taken mapped => exact ⟨SortedMap.contains_iff.2 ⟨_, found⟩, mapped⟩
  | off | stopped | failed | exhausted | halted => cases next

/-- A run that goes on was going on. -/
theorem running_of_step (next : (r.step o p).progress = .running pc') :
    ∃ pc, r.progress = .running pc := by
  cases progress : r.progress with
  | running pc => exact ⟨pc, rfl⟩
  | finished | failed =>
    rw [step_of_isOver (by rw [isOver, progress]), progress] at next
    cases next

/-- A run that is over stays as it is. -/
theorem advance_of_le {n k : Nat} (le : n ≤ k) (atEnd : (advance o p n r).isOver) :
    advance o p k r = advance o p n r := by
  obtain ⟨d, rfl⟩ := Nat.exists_eq_add_of_le le
  exact advance_eq_of_isOver atEnd d

/-- A run that is over had a last turn. -/
theorem exists_last_turn (start : r.progress = .running pc) {turns : Nat}
    (atEnd : (advance o p turns r).isOver) :
    ∃ n < turns, (∃ pc', (advance o p n r).progress = .running pc') ∧
      advance o p (n + 1) r = advance o p turns r := by
  induction turns with
  | zero =>
    have e : r.isOver := atEnd
    rw [isOver, start] at e
    cases e
  | succ turns ih =>
    cases progress : (advance o p turns r).progress with
    | running pc' => exact ⟨turns, Nat.lt_succ_self _, ⟨pc', progress⟩, rfl⟩
    | finished | failed =>
      have ended : (advance o p turns r).isOver := by rw [isOver, progress]
      obtain ⟨n, before, running, same⟩ := ih ended
      have stays := advance_of_le (Nat.le_succ turns) ended
      exact ⟨n, Nat.lt_succ_of_lt before, running, same.trans stays.symm⟩

end Run

/-- Every temporary that is read has been written on every path to where it is read. -/
def Dominated (code : List Instruction) : Prop :=
  ∀ {k : Nat} {visited : List Nat} {i : Instruction} {name : String} {w : Width},
    Path code k visited → code[k]? = some i → isTemporary name → i.Reads name w →
      ∃ j ∈ visited, ∃ i', code[j]? = some i' ∧ i'.Writes name w

namespace Program.Tiled

variable {p : Program} {C : List Instruction → Prop} {σ : Type} {o : Observer σ} {r : Run σ}
  {native n : Nat} {pc : Address}

/-- A run has executed whatever was visited on the way to where it stands. -/
theorem visited_before (tiled : p.Tiled C) (start : r.progress = .running (.ofNative native))
    (running : (Run.advance o p n r).progress = .running pc) (there : p.contains pc) :
    ∃ code visited, Visit p C code visited pc ∧
      ∀ j ∈ visited, ∃ k < n, (Run.advance o p k r).progress = .running ⟨pc.native, j⟩ := by
  induction n generalizing pc with
  | zero =>
    have e : r.progress = .running pc := running
    rw [start] at e
    cases e
    obtain ⟨code, visit⟩ := tiled.enter native there
    exact ⟨code, [], visit, nofun⟩
  | succ n ih =>
    rw [← Run.step_advance] at running
    obtain ⟨before, at_before⟩ := Run.running_of_step running
    obtain ⟨was_there, -⟩ := Run.contains_of_step at_before running
    obtain ⟨code, visited, visit, executed⟩ := ih at_before was_there
    -- a turn goes on along the path, or enters a code anew
    rcases tiled.onward visit at_before running with ⟨native, along⟩ | ⟨code', anew⟩
    · refine ⟨code, before.offset :: visited, along, fun j mem => ?_⟩
      rcases List.mem_cons.1 mem with rfl | mem
      · exact ⟨n, Nat.lt_succ_self n, by rw [native]; exact at_before⟩
      · obtain ⟨k, before_n, at_j⟩ := executed j mem
        exact ⟨k, Nat.lt_succ_of_lt before_n, by rw [native]; exact at_j⟩
    · exact ⟨code', [], anew, nofun⟩

/-- Where every code is dominated, no temporary is read before it is written. -/
theorem written_before (tiled : p.Tiled Dominated)
    (start : r.progress = .running (.ofNative native))
    (running : (Run.advance o p n r).progress = .running pc) {i : Instruction} {name : String}
    {w : Width} (found : p.get? pc = some i) (temporary : isTemporary name) (reads : i.Reads name w) :
    ∃ k < n, ∃ pc' i', (Run.advance o p k r).progress = .running pc' ∧ p.get? pc' = some i' ∧
      i'.Writes name w := by
  obtain ⟨code, visited, visit, executed⟩ :=
    tiled.visited_before start running (SortedMap.contains_iff.2 ⟨i, found⟩)
  rw [visit.get?] at found
  obtain ⟨j, mem, i', at_j, writes⟩ := visit.tile visit.path found temporary reads
  obtain ⟨k, before, at_k⟩ := executed j mem
  exact ⟨k, before, ⟨pc.native, j⟩, i', at_k, (visit.placed.get? j).trans at_j, writes⟩

end Program.Tiled

end RegisterTransfer
