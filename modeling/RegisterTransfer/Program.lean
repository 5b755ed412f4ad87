import RegisterTransfer.Instruction
import RegisterTransfer.SortedMap

/-!
# Programs

A program holds at most one instruction per address. Control falls through to the least address
above, whatever gap lies between; `Program.next?` is that edge. An `Assembly` collects instructions
one after the other and hands out consecutive offsets.
-/

namespace RegisterTransfer

/--
What can be wrong with a program text. `Place` is how addresses are named: by an `Address`, or in
words in a report.
-/
inductive AssemblyError (Place : Type) where
  | duplicateAddress (place : Place)
  | invalidWidth (text : String)
  deriving DecidableEq, Repr

/-- The wording of an assembly error. -/
def AssemblyError.message {Place : Type} [ToString Place] : AssemblyError Place → String
  | duplicateAddress place => "Duplicate IR address: " ++ toString place
  | invalidWidth text => "Invalid operand size: " ++ text

/-- Reads the name of a width. -/
def Width.parse (text : String) : Except (AssemblyError Address) Width :=
  match Width.ofName? text with
  | some w => .ok w
  | none => .error (.invalidWidth text)

/-- Instructions in address order, each stored under its own address. -/
structure Program where
  code : SortedMap Address Instruction
  keyed : ∀ {a i}, code.get? a = some i → i.address = a

namespace Program

/-- The program without instructions. -/
def empty : Program := ⟨∅, fun h => by simp at h⟩

instance : EmptyCollection Program := ⟨empty⟩

instance : Inhabited Program := ⟨empty⟩

instance : DecidableEq Program := fun p q =>
  if h : p.code = q.code then
    .isTrue (by cases p; cases q; cases h; rfl)
  else
    .isFalse fun e => h (e ▸ rfl)

/-- The instruction at an address. -/
def get? (p : Program) (a : Address) : Option Instruction := p.code.get? a

/-- Whether there is an instruction at an address. -/
def contains (p : Program) (a : Address) : Bool := p.code.contains a

/-- The least address above the given one. -/
def next? (p : Program) (a : Address) : Option Address := p.code.next? a

/-- The least address. -/
def first? (p : Program) : Option Address := p.code.first?

/-- The number of instructions. -/
def size (p : Program) : Nat := p.code.size

/-- Whether there are no instructions. -/
def isEmpty (p : Program) : Bool := p.code.isEmpty

/-- The instructions in address order. -/
def toList (p : Program) : List Instruction := p.code.values

/-- Adds an instruction at an address that is still free. -/
def insert (p : Program) (i : Instruction) : Except (AssemblyError Address) Program :=
  if p.contains i.address then
    .error (.duplicateAddress i.address)
  else
    .ok ⟨p.code.insert i.address i, fun {a j} h => by
      rw [SortedMap.get?_insert] at h
      split at h
      · next e => cases h; exact e.symm
      · exact p.keyed h⟩

/-- An insertion fails exactly at an address that is taken, and names it. -/
theorem insert_eq_error_iff {p : Program} {i : Instruction} {e : AssemblyError Address} :
    p.insert i = .error e ↔ p.contains i.address ∧ e = .duplicateAddress i.address := by
  unfold insert
  split
  · next h => simp [h, eq_comm]
  · next h => simp [h]

/-- A successful insertion changes the program at the instruction's address only. -/
theorem get?_of_insert_eq_ok {p q : Program} {i : Instruction} (h : p.insert i = .ok q)
    (a : Address) : q.get? a = if a = i.address then some i else p.get? a := by
  unfold insert at h
  split at h
  · cases h
  · cases h
    exact SortedMap.get?_insert _ _ _ _

/-- The program of a list of instructions, which may come in any order. -/
def ofList (instructions : List Instruction) : Except (AssemblyError Address) Program :=
  instructions.foldlM insert ∅

/-- What a program holds after some insertions, none of which was at an address taken. -/
theorem foldlM_insert_eq_ok {l : List Instruction} {p q : Program}
    (h : l.foldlM insert p = .ok q) :
    (l.map (·.address)).Nodup ∧ (∀ i ∈ l, p.get? i.address = none) ∧
      ∀ a i, q.get? a = some i ↔ (i ∈ l ∧ i.address = a) ∨ p.get? a = some i := by
  induction l generalizing p with
  | nil =>
    cases h
    exact ⟨.nil, by simp, by simp⟩
  | cons first rest ih =>
    rw [List.foldlM_cons] at h
    cases inserted : p.insert first with
    | error e => simp [inserted, bind, Except.bind] at h
    | ok r =>
      simp only [inserted, bind, Except.bind] at h
      obtain ⟨apart, free, found⟩ := ih h
      have at_first := get?_of_insert_eq_ok inserted
      -- the insertion went well, so that the address was free
      have fresh : p.get? first.address = none := by
        cases taken : p.get? first.address with
        | none => rfl
        | some i =>
          have contained : p.contains first.address := SortedMap.contains_iff.2 ⟨i, taken⟩
          rw [insert_eq_error_iff.2 ⟨contained, rfl⟩] at inserted
          cases inserted
      -- what comes later was inserted into a program that holds the first, so it lies elsewhere
      have ne : ∀ i ∈ rest, i.address ≠ first.address := by
        intro i mem same
        have := free i mem
        rw [at_first, if_pos same] at this
        cases this
      refine ⟨List.nodup_cons.2 ⟨?_, apart⟩, ?_, fun a i => ?_⟩
      · intro mem
        obtain ⟨i, mem, same⟩ := List.mem_map.1 mem
        exact ne i mem same
      · intro i mem
        rcases List.mem_cons.1 mem with rfl | mem
        · exact fresh
        · have := free i mem
          rwa [at_first, if_neg (ne i mem)] at this
      · rw [found, at_first]
        by_cases same : a = first.address
        · subst same
          rw [if_pos rfl, fresh]
          constructor
          · rintro (⟨mem, e⟩ | e)
            · exact absurd e (ne i mem)
            · cases e
              exact .inl ⟨List.mem_cons_self .., rfl⟩
          · rintro (⟨mem, e⟩ | e)
            · rcases List.mem_cons.1 mem with rfl | mem
              · exact .inr rfl
              · exact absurd e (ne i mem)
            · cases e
        · rw [if_neg same]
          constructor
          · rintro (⟨mem, e⟩ | e)
            · exact .inl ⟨List.mem_cons_of_mem _ mem, e⟩
            · exact .inr e
          · rintro (⟨mem, e⟩ | e)
            · rcases List.mem_cons.1 mem with rfl | mem
              · exact absurd e.symm same
              · exact .inl ⟨mem, e⟩
            · exact .inr e

/-- A list makes a program only if its addresses differ, and then the program holds just the list. -/
theorem ofList_eq_ok {l : List Instruction} {p : Program} (h : ofList l = .ok p) :
    (l.map (·.address)).Nodup ∧ ∀ a i, p.get? a = some i ↔ i ∈ l ∧ i.address = a := by
  obtain ⟨apart, -, found⟩ := foldlM_insert_eq_ok h
  refine ⟨apart, fun a i => ?_⟩
  have nothing : (∅ : Program).get? a = none := rfl
  rw [found, nothing]
  simp

/-- A list whose addresses differ makes a program. -/
theorem ofList_isOk {l : List Instruction} (apart : (l.map (·.address)).Nodup) :
    ∃ p, ofList l = .ok p := by
  -- the insertions start from a program that holds nothing at the addresses to come
  suffices every : ∀ p : Program, (∀ i ∈ l, p.get? i.address = none) →
      ∃ q, l.foldlM insert p = .ok q from every ∅ fun _ _ => rfl
  induction l with
  | nil => exact fun p _ => ⟨p, rfl⟩
  | cons first rest ih =>
    intro p free
    obtain ⟨fresh, apart⟩ := List.nodup_cons.1 apart
    cases inserted : p.insert first with
    | error e =>
      obtain ⟨contained, -⟩ := insert_eq_error_iff.1 inserted
      obtain ⟨i, taken⟩ := SortedMap.contains_iff.1 contained
      have free : p.get? first.address = none := free first (List.mem_cons_self ..)
      rw [get?, taken] at free
      cases free
    | ok r =>
      obtain ⟨q, hq⟩ := ih apart r fun i mem => by
        have ne : i.address ≠ first.address := fun same =>
          fresh (List.mem_map.2 ⟨i, mem, same⟩)
        rw [get?_of_insert_eq_ok inserted, if_neg ne]
        exact free i (List.mem_cons_of_mem _ mem)
      refine ⟨q, ?_⟩
      rw [List.foldlM_cons, inserted]
      exact hq

/-- A list fails at the first instruction at the address of an earlier one. -/
theorem ofList_eq_error {before after : List Instruction} {i : Instruction}
    (apart : (before.map (·.address)).Nodup) (taken : i.address ∈ before.map (·.address)) :
    ofList (before ++ i :: after) = .error (.duplicateAddress i.address) := by
  obtain ⟨p, assembled⟩ := ofList_isOk apart
  obtain ⟨j, mem, same⟩ := List.mem_map.1 taken
  have there : p.get? i.address = some j := ((ofList_eq_ok assembled).2 _ _).2 ⟨mem, same⟩
  have refused : p.insert i = .error (.duplicateAddress i.address) :=
    insert_eq_error_iff.2 ⟨SortedMap.contains_iff.2 ⟨j, there⟩, rfl⟩
  have begun : before.foldlM insert ∅ = .ok p := assembled
  rw [ofList, List.foldlM_append, begun]
  show List.foldlM insert p (i :: after) = _
  rw [List.foldlM_cons, refused]
  rfl

end Program

/-! ## Assembling by hand -/

/-- A place to assemble at and the instructions pushed so far. -/
structure Assembly where
  native : Nat
  offset : Nat
  instructions : List Instruction
  deriving DecidableEq, Repr

namespace Assembly

/-- Nothing assembled yet, at a native address. -/
def start (native : Nat) : Assembly := ⟨native, 0, []⟩

/-- Goes on at another native address, from offset zero. -/
def moveTo (s : Assembly) (native : Nat) : Assembly := { s with native, offset := 0 }

/-- The address that the next instruction gets. -/
def here (s : Assembly) : Address := ⟨s.native, s.offset⟩

/-- Adds an instruction here. -/
def push (s : Assembly) (opcode : Opcode) (op1 op2 op3 : Operand) : Assembly :=
  { s with
    offset := s.offset + 1
    instructions := s.instructions ++ [⟨s.here, opcode, op1, op2, op3, none⟩] }

/-- The instructions pushed so far, as a program. -/
def program (s : Assembly) : Except (AssemblyError Address) Program :=
  Program.ofList s.instructions

end Assembly

end RegisterTransfer
