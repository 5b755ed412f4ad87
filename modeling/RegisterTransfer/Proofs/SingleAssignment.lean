import Mathlib.Logic.Function.Basic
import RegisterTransfer.Proofs.ControlPaths
import RegisterTransfer.Proofs.Blocks
import RegisterTransfer.Proofs.TwinJourneys

/-!
# Single assignment

The temporaries in the code of a script in lockstep. Before each draft of an expansion stands what
holds a value there on every way from the start (`Expansion.Annotated`), and the annotation grows
with the expansion. What is annotated at the end has been written on every path.

> `Script.Lockstep.annotates`: a script in lockstep goes on annotating.
> `Expansion.Annotated.single`: finished code writes its temporaries once, in order, and reads each
> only where every path has written it.
-/

namespace RegisterTransfer

/-! ## Temporaries of instructions -/

/-- The temporary that an instruction gives a value. -/
def Instruction.temporary? (i : Instruction) : Option String :=
  if i.opcode.writesRegister then i.op3.register?.filter isTemporary else none

/-- A register that is named in a slot is read there, or written there. -/
def Instruction.Uses (i : Instruction) (slot : Slot) : Prop :=
  i.opcode.reads slot ∨ slot = .third ∧ i.opcode.writesRegister

/--
Code that takes the temporaries from `first` on, `count` of them: it writes them one after the other,
names them in no slot without a use, and reads each only where every path has written it.
-/
structure SingleAssignment (first count : Nat) (code : List Instruction) : Prop where
  written : code.filterMap (·.temporary?) = (List.range' first count).map temporaryName
  used : ∀ {i slot name w}, i ∈ code → i.operand slot = .register name w → isTemporary name →
    i.Uses slot
  dominated : Dominated code

/-! ## Drafts -/

/-- The instruction of a draft, but for its address and the address it jumps to. -/
def Draft.outline : Draft → Instruction
  | .plain opcode op1 op2 op3 => ⟨default, opcode, op1, op2, op3, none⟩
  | .jump condition _ => ⟨default, .jcc, condition, .absent, .address default, none⟩

/--
A draft that reads only the temporaries held and names no others but the one it writes. If it jumps,
it jumps to a label or out of the expansion.
-/
structure Draft.Reads (d : Draft) (held : List (Nat × Width)) : Prop where
  exits : ∀ {condition second target}, d = .plain .jcc condition second target →
    ∀ t, target.kind ≠ .address t
  held : ∀ {name w}, d.outline.Reads name w → isTemporary name →
    ∃ n, name = temporaryName n ∧ (n, w) ∈ held
  used : ∀ {slot name w}, d.outline.operand slot = .register name w → isTemporary name →
    d.outline.Uses slot

namespace Scope

variable {division : Prop} {d : Nat} {Γ : Scope} {opcode : Opcode} {a b a' b' c c' : Operand}
  {w : Width}

/-- A temporary that can be read is held. -/
theorem Reads.held {o o' : Operand} (h : Γ.Reads d o o') {name : String} {w : Width}
    (same : o = .register name w) (temporary : isTemporary name) :
    ∃ n, name = temporaryName n ∧ (n, w) ∈ Γ.held := by
  cases h with
  | integer => cases same
  | native native =>
    cases same
    rw [native] at temporary
    cases temporary
  | @temporary n _ mem =>
    cases same
    exact ⟨n, rfl, mem⟩

/-- A computation reads temporaries that are held, whatever it writes. -/
theorem Computes.reads_draft (h : Γ.Computes division d opcode a b w a' b') (o : Operand) :
    (Draft.plain opcode a b o).Reads Γ.held := by
  have writes := h.writesRegister
  constructor
  · intro _ _ _ e
    cases e
    cases writes
  · intro name v reads temporary
    obtain ⟨slot, reads, same⟩ := reads
    cases h with
    | combine two divides fits first second =>
      cases slot with
      | first => exact first.held same temporary
      | second => exact second.held same temporary
      | third => exact absurd reads (opcode.reads_third writes)
    | pass one first =>
      cases slot with
      | first => exact first.held same temporary
      | second => cases same
      | third => exact absurd reads (opcode.reads_third writes)
  · intro slot name v same temporary
    cases slot with
    | first => exact .inl (opcode.reads_first writes)
    | third => exact .inr ⟨rfl, writes⟩
    | second =>
      cases h with
      | combine two => exact .inl two
      | pass => cases same

/-- Stores and jumps out of the expansion read their first and third slot. -/
theorem Reads.reads_draft (first : Γ.Reads d a a') (third : Γ.Reads d c c')
    (kind : opcode = .stm ∨ opcode = .jcc) : (Draft.plain opcode a .absent c).Reads Γ.held := by
  constructor
  · intro _ _ _ e
    cases e
    exact third.not_address.1
  · intro name v reads temporary
    obtain ⟨slot, -, same⟩ := reads
    cases slot with
    | first => exact first.held same temporary
    | second => cases same
    | third => exact third.held same temporary
  · intro slot name v same temporary
    cases slot with
    | first => exact .inl (by rcases kind with rfl | rfl <;> rfl)
    | second => cases same
    | third => exact .inl (by rcases kind with rfl | rfl <;> rfl)

/-- A jump to a label reads its condition, which is held. -/
theorem Reads.reads_jump (condition : Γ.Reads d a a') (label : Label) :
    (Draft.jump a label).Reads Γ.held := by
  constructor
  · exact nofun
  · intro name v reads temporary
    obtain ⟨slot, -, same⟩ := reads
    cases slot with
    | first => exact condition.held same temporary
    | second => cases same
    | third => cases same
  · intro slot name v same temporary
    cases slot with
    | first => exact .inl rfl
    | second => cases same
    | third => cases same

end Scope

/-- Marking a register of the processor undefined reads and writes no temporary. -/
theorem Draft.reads_undefine {name : String} (native : isTemporary name = false) (w : Width)
    (held : List (Nat × Width)) :
    (Draft.plain .undef .absent .absent (.register name w)).Reads held := by
  constructor
  · exact nofun
  · intro other v reads temporary
    obtain ⟨slot, reads, -⟩ := reads
    cases slot <;> cases reads
  · intro slot other v same temporary
    cases slot with
    | first => cases same
    | second => cases same
    | third =>
      cases same
      rw [native] at temporary
      cases temporary

theorem Draft.reads_nop (held : List (Nat × Width)) :
    (Draft.plain .nop .absent .absent .absent).Reads held := by
  constructor
  · exact nofun
  · intro name w reads temporary
    obtain ⟨slot, reads, -⟩ := reads
    cases slot <;> cases reads
  · intro slot name w same temporary
    cases slot <;> cases same

/-! ## Annotated expansions -/

/--
What holds a value before each draft of an expansion, on every way from its start. Jumps to labels
that are not bound yet wait with what is held at the jump.
-/
structure Expansion.Annotated (x : Expansion) (first : Nat) (Γ : Scope)
    (held : Nat → List (Nat × Width)) : Prop where
  start : held 0 = []
  here : held x.size = Γ.held
  reads : ∀ {k} {d : Draft}, x.drafts[k]? = some d → d.Reads (held k)
  fall : ∀ {k} {d : Draft}, x.drafts[k]? = some d → ∀ {n w}, (n, w) ∈ held (k + 1) →
    (n, w) ∈ held k ∨ d.outline.Writes (temporaryName n) w
  arrive : ∀ {k condition} {label : Label} {t}, x.drafts[k]? = some (.jump condition label) →
    x.labels[label.index]? = some (some t) → held t ⊆ held k
  wait : ∀ {k condition} {label : Label}, x.drafts[k]? = some (.jump condition label) →
    ∃ mark, Γ.labels[label.index]? = some mark ∧ mark ≠ .fresh ∧
      ∀ {sought}, mark = .sought sought → sought ⊆ held k
  written : x.drafts.filterMap (·.outline.temporary?) =
    (List.range' first (Γ.count - first)).map temporaryName
  count : first ≤ Γ.count

namespace Expansion.Annotated

variable {x y : Expansion} {first : Nat} {Γ Γ' : Scope} {held : Nat → List (Nat × Width)}

/-- The annotation with what is held behind one more draft. -/
def further (held : Nat → List (Nat × Width)) (size : Nat) (now : List (Nat × Width)) :
    Nat → List (Nat × Width) :=
  fun k => if k ≤ size then held k else now

/-- One more draft. -/
theorem append (h : x.Annotated first Γ held) {d : Draft} (drafts : y.drafts = x.drafts ++ [d])
    (bounded : x.Bounded) (labels : y.labels = x.labels) (reads : d.Reads Γ.held)
    (kept : ∀ {n w}, (n, w) ∈ Γ'.held → (n, w) ∈ Γ.held ∨ d.outline.Writes (temporaryName n) w)
    (marks : ∀ {l : Nat} {mark}, Γ.labels[l]? = some mark → mark ≠ .fresh →
      Γ'.labels[l]? = some mark)
    (jumps : ∀ {condition label}, d = .jump condition label →
      x.labels[label.index]? = some none ∧ Γ'.labels[label.index]? = some (.sought Γ.held))
    (written : d.outline.temporary?.toList =
      (List.range' Γ.count (Γ'.count - Γ.count)).map temporaryName)
    (count : Γ.count ≤ Γ'.count) :
    y.Annotated first Γ' (further held x.size Γ'.held) := by
  have size : y.size = x.size + 1 := by simp [Expansion.size, drafts]
  have old : ∀ {k}, k ≤ x.size → further held x.size Γ'.held k = held k := fun le => if_pos le
  have at_end : further held x.size Γ'.held (x.size + 1) = Γ'.held := if_neg (by omega)
  -- a draft of the longer expansion is an old one or the new one
  have each : ∀ {k e}, y.drafts[k]? = some e →
      k < x.size ∧ x.drafts[k]? = some e ∨ k = x.size ∧ e = d := by
    intro k e at_k
    rw [drafts] at at_k
    rcases eq_of_getElem?_concat at_k with old | new
    · exact .inl ⟨(List.getElem?_eq_some_iff.1 old).1, old⟩
    · exact .inr new
  refine {
    start := (old (Nat.zero_le _)).trans h.start
    here := by rw [size, at_end]
    reads := fun {k e} at_k => ?_
    fall := fun {k e} at_k {n w} mem => ?_
    arrive := fun {k condition label t} at_k bound => ?_
    wait := fun {k condition label} at_k => ?_
    written := ?_
    count := Nat.le_trans h.count count }
  · rcases each at_k with ⟨inside, at_k⟩ | ⟨rfl, rfl⟩
    · rw [old (by omega)]
      exact h.reads at_k
    · rw [old (Nat.le_refl _), h.here]
      exact reads
  · rcases each at_k with ⟨inside, at_k⟩ | ⟨rfl, rfl⟩
    · rw [old (by omega)] at mem ⊢
      exact h.fall at_k mem
    · rw [at_end] at mem
      rw [old (Nat.le_refl _), h.here]
      exact kept mem
  · rw [labels] at bound
    have behind : t ≤ x.size := bounded _ _ bound
    rcases each at_k with ⟨inside, at_k⟩ | ⟨-, e⟩
    · rw [old behind, old (by omega)]
      exact h.arrive at_k bound
    · rw [(jumps e.symm).1] at bound
      cases bound
  · rcases each at_k with ⟨inside, at_k⟩ | ⟨rfl, e⟩
    · obtain ⟨mark, marked, used, waits⟩ := h.wait at_k
      exact ⟨mark, marks marked used, used, by rw [old (by omega)]; exact waits⟩
    · refine ⟨.sought Γ.held, (jumps e.symm).2, by simp, fun {sought} same => ?_⟩
      cases same
      rw [old (Nat.le_refl _), h.here]
      exact fun _ mem => mem
  · have last : ([d].filterMap (·.outline.temporary?)) = d.outline.temporary?.toList := by
      cases e : d.outline.temporary? <;> simp [e]
    have split : Γ'.count - first = (Γ.count - first) + (Γ'.count - Γ.count) := by
      have := h.count
      omega
    have from_there : first + (Γ.count - first) = Γ.count := by
      have := h.count
      omega
    rw [drafts, List.filterMap_append, h.written, last, written, split, ← List.map_append,
      ← List.range'_append_1, from_there]

/-- A draft that writes no temporary and jumps to no label. -/
theorem emit (h : x.Annotated first Γ held) (bounded : x.Bounded) {opcode : Opcode}
    {a b o : Operand} (reads : (Draft.plain opcode a b o).Reads Γ.held)
    (quiet : (Draft.plain opcode a b o).outline.temporary? = none) :
    (x.emit opcode a b o).Annotated first Γ.next (further held x.size Γ.held) :=
  h.append rfl bounded rfl reads .inl (fun marked _ => marked) nofun
    (by rw [quiet]; simp [Scope.next]) (Nat.le_refl _)

/-- A draft that writes the next temporary. -/
theorem hold (h : x.Annotated first Γ held) (bounded : x.Bounded) {opcode : Opcode}
    {a b : Operand} {w : Width} (writes : opcode.writesRegister)
    (reads : (Draft.plain opcode a b (.register (temporaryName Γ.count) w)).Reads Γ.held) :
    ((x.temporary w).2.emit opcode a b (.register (temporaryName Γ.count) w)).Annotated first
      (Γ.hold w) (further held x.size (Γ.hold w).held) := by
  refine h.append rfl bounded rfl reads (fun {n v} mem => ?_)
    (fun marked _ => marked) nofun ?_ (Nat.le_succ _)
  · rcases List.mem_cons.1 mem with e | mem
    · cases e
      exact .inr ⟨writes, rfl⟩
    · exact .inl mem
  · simp [Draft.outline, Instruction.temporary?, writes, Operand.register?, Operand.register,
      isTemporary_temporaryName, Scope.hold]

/-- A new label has no jumps to it, so there is nothing to annotate. -/
theorem create (h : x.Annotated first Γ held) : x.newLabel.2.Annotated first Γ.create held :=
  { h with
    arrive := fun at_k bound => h.arrive at_k (bound_of_newLabel bound)
    wait := fun at_k => by
      obtain ⟨mark, marked, used, waits⟩ := h.wait at_k
      have inside := (List.getElem?_eq_some_iff.1 marked).1
      refine ⟨mark, ?_, used, waits⟩
      rw [Scope.create, List.getElem?_append_left inside, marked] }

/-- One more draft, a jump to a label that is not bound yet. -/
theorem leave (h : x.Annotated first Γ held) (bounded : x.Bounded) {condition : Operand}
    {label : Label} (reads : (Draft.jump condition label).Reads Γ.held)
    (unused : Γ.labels[label.index]? = some .fresh)
    (unbound : x.labels[label.index]? = some none) :
    (x.jumpIf condition label).Annotated first (Γ.leave label) (further held x.size Γ.held) := by
  refine h.append rfl bounded rfl reads .inl (fun {l mark} marked used => ?_)
    (fun {_ other} e => ?_) (by simp [Scope.leave, Scope.next]; rfl) (Nat.le_refl _)
  · have ne : label.index ≠ l := by
      intro same
      rw [← same, unused] at marked
      cases marked
      exact used rfl
    rw [Scope.leave, List.getElem?_set_ne ne, marked]
  · cases e
    refine ⟨unbound, ?_⟩
    have inside := (List.getElem?_eq_some_iff.1 unused).1
    rw [Scope.leave, List.getElem?_set_self inside]

/-- Where a label is bound, only what is held at its jumps stays held. -/
theorem attach (h : x.Annotated first Γ held) {label : Label} {there : List (Nat × Width)}
    (sought : Γ.labels[label.index]? = some (.sought there)) :
    (x.bind label).Annotated first (Γ.attach label there)
      (Function.update held x.size (Γ.attach label there).held) := by
  -- binding takes away from what is held, and only at the end, where no draft stands yet
  have fewer : ∀ k, Function.update held x.size (Γ.attach label there).held k ⊆ held k := by
    intro k
    by_cases e : k = x.size
    · subst e
      rw [Function.update_self, h.here]
      exact List.filter_sublist.subset
    · rw [Function.update_of_ne e]
      exact fun _ mem => mem
  have old : ∀ {k} {d : Draft}, x.drafts[k]? = some d →
      Function.update held x.size (Γ.attach label there).held k = held k := by
    intro k d at_k
    have inside := (List.getElem?_eq_some_iff.1 at_k).1
    exact Function.update_of_ne (Nat.ne_of_lt inside) _ _
  refine {
    start := List.eq_nil_of_subset_nil (h.start ▸ fewer 0)
    here := Function.update_self ..
    reads := fun {k d} at_k => by
      rw [old at_k]
      exact h.reads at_k
    fall := fun {k d} at_k {n w} mem => by
      rw [old at_k]
      exact h.fall at_k (fewer _ mem)
    arrive := fun {k condition other t} at_k bound => ?_
    wait := fun {k condition other} at_k => ?_
    written := h.written
    count := h.count }
  · rw [old at_k]
    rcases bound_of_bind bound with ⟨e, rfl⟩ | ⟨-, before⟩
    · obtain ⟨mark, marked, -, waits⟩ := h.wait at_k
      rw [← e, sought] at marked
      cases marked
      rw [Function.update_self]
      intro pair mem
      simp only [Scope.attach, List.mem_filter, decide_eq_true_eq] at mem
      exact waits rfl mem.2
    · exact fun pair mem => h.arrive at_k before (fewer _ mem)
  · obtain ⟨mark, marked, used, waits⟩ := h.wait at_k
    by_cases e : label.index = other.index
    · have inside := (List.getElem?_eq_some_iff.1 sought).1
      refine ⟨.bound, ?_, by simp, fun {_} same => by cases same⟩
      rw [Scope.attach, ← e, List.getElem?_set_self inside]
    · refine ⟨mark, ?_, used, fun {_} same => ?_⟩
      · rw [Scope.attach, List.getElem?_set_ne e, marked]
      · rw [old at_k]
        exact waits same

end Expansion.Annotated

/-! ## Scripts that go on annotating -/

namespace Script

variable {division : Prop} {d first : Nat} {α : Type} {Q : α → α → Scope → Prop} {Γ : Scope}
  {s t : Script α} {a : α} {X : Expansion}

/-- Registers of the processor are no temporaries. -/
theorem temporary?_native (opcode : Opcode) (a b : Operand) {name : String}
    (native : isTemporary name = false) (w : Width) :
    (Draft.plain opcode a b (.register name w)).outline.temporary? = none := by
  simp [Draft.outline, Instruction.temporary?, Operand.register?, Operand.register, Option.filter,
    native]

/-- A script in lockstep goes on annotating. -/
theorem Lockstep.annotates (h : Lockstep division d Q Γ s t) {x x' : Expansion}
    {held : Nat → List (Nat × Width)} (desc : Γ.Describes d x x') (bounded : x.Bounded)
    (annotated : x.Annotated first Γ held) (ran : s.run x = (.ok a, X)) :
    ∃ Γ' held', X.environment.temporaries = Γ'.count ∧ X.Annotated first Γ' held' := by
  induction h generalizing x x' held with
  | done =>
    cases ran
    exact ⟨_, _, desc.count, annotated⟩
  | fail => cases ran
  | @compute Γ opcode a b w a' b' k k' s s' h left right rest ih =>
    rw [run, desc.temporary, left] at ran
    exact ih (desc.hold w opcode opcode a b _ a' b' (.register (temporaryName (Γ.count + d)) w))
      ((bounded.temporary w).emit _ _ _ _)
      (annotated.hold bounded h.writesRegister (h.reads_draft _)) ran
  | @assign Γ opcode a b w a' b' name s s' h native rest ih =>
    exact ih (desc.next opcode opcode a b _ a' b' (.register name w)) (bounded.emit _ _ _ _)
      (annotated.emit bounded (h.reads_draft _) (temporary?_native opcode a b native w)) ran
  | @store Γ a c a' c' s s' value address rest ih =>
    exact ih (desc.next .stm .stm a .absent c a' .absent c') (bounded.emit _ _ _ _)
      (annotated.emit bounded (value.reads_draft address (.inl rfl)) rfl) ran
  | @undefine Γ name w s s' native rest ih =>
    exact ih (desc.next .undef .undef .absent .absent _ .absent .absent (.register name w))
      (bounded.emit _ _ _ _) (annotated.emit bounded (Draft.reads_undefine native w _) rfl) ran
  | nop rest ih =>
    exact ih (desc.next .nop .nop .absent .absent .absent .absent .absent .absent)
      (bounded.emit _ _ _ _) (annotated.emit bounded (Draft.reads_nop _) rfl) ran
  | @exit Γ a c a' c' s s' condition target rest ih =>
    exact ih (desc.next .jcc .jcc a .absent c a' .absent c') (bounded.emit _ _ _ _)
      (annotated.emit bounded (condition.reads_draft target (.inr rfl)) rfl) ran
  | create rest ih =>
    rw [run, desc.newLabel] at ran
    exact ih desc.create bounded.newLabel annotated.create ran
  | @leave Γ a a' label s s' condition unused rest ih =>
    exact ih (desc.leave unused a a') (bounded.jumpIf a label) (annotated.leave bounded
      (condition.reads_jump label) unused (desc.unbound unused (by simp))) ran
  | @attach Γ label there s s' sought rest ih =>
    exact ih (desc.attach there) (bounded.bind label) (annotated.attach sought) ran

end Script

/-! ## Finished code -/

namespace Expansion

variable {X : Expansion} {first : Nat} {Γ : Scope} {held : Nat → List (Nat × Width)}
  {code : List Instruction} {k : Nat} {i j : Instruction} {d : Draft}

/-- A draft is laid out with its operands, and with the address it jumps to if it is a jump. -/
theorem place_outline (h : X.place k d = .ok i) :
    i.opcode = d.outline.opcode ∧ i.temporary? = d.outline.temporary? ∧
      ∀ {slot name w}, i.operand slot = .register name w ↔
        d.outline.operand slot = .register name w := by
  cases d with
  | plain opcode op1 op2 op3 =>
    cases h
    refine ⟨rfl, rfl, fun {slot name w} => ?_⟩
    cases slot <;> rfl
  | jump condition label =>
    obtain ⟨t, -, rfl⟩ := place_jump_eq_ok h
    refine ⟨rfl, rfl, fun {slot name w} => ?_⟩
    cases slot with
    | first | second => rfl
    | third => exact ⟨nofun, nofun⟩

/-- The drafts to lay out are the drafts written, and perhaps a last `nop`. -/
theorem draft_of_completed (h : X.completed[k]? = some d) :
    X.drafts[k]? = some d ∨ k = X.size ∧ d = .plain .nop .absent .absent .absent := by
  unfold completed at h
  split at h
  · exact eq_of_getElem?_concat h
  · exact .inl h

/-- Every instruction of finished code is a draft laid out. -/
theorem place_of_finish (fin : X.finish = .ok code) (at_k : code[k]? = some i) :
    ∃ d j, X.completed[k]? = some d ∧ X.place k d = .ok j ∧ i = { j with comment := i.comment } := by
  obtain ⟨length, each⟩ := finish_eq_ok fin
  have inside : k < X.completed.length := length ▸ (List.getElem?_eq_some_iff.1 at_k).1
  obtain ⟨j, comment, laid, at_k'⟩ := each (List.getElem?_eq_getElem inside)
  rw [at_k] at at_k'
  cases at_k'
  exact ⟨_, j, List.getElem?_eq_getElem inside, laid, rfl⟩

/-- Finished code writes the temporaries that its drafts write. -/
theorem temporaries_of_finish (fin : X.finish = .ok code) :
    code.filterMap (·.temporary?) = X.drafts.filterMap (·.outline.temporary?) := by
  obtain ⟨length, -⟩ := finish_eq_ok fin
  have laid : code.map (·.temporary?) = X.completed.map (·.outline.temporary?) := by
    refine List.ext_getElem? fun k => ?_
    rw [List.getElem?_map, List.getElem?_map]
    cases at_k : code[k]? with
    | none =>
      have outside : X.completed[k]? = none := by
        rw [List.getElem?_eq_none_iff] at at_k ⊢
        omega
      rw [outside]
      rfl
    | some i =>
      obtain ⟨d, j, draft, laid, same⟩ := place_of_finish fin at_k
      obtain ⟨-, temporary, -⟩ := place_outline laid
      rw [draft, Option.map_some, Option.map_some, same, ← temporary]
      rfl
  have nop : X.completed.filterMap (·.outline.temporary?) =
      X.drafts.filterMap (·.outline.temporary?) := by
    unfold completed
    split
    · rw [List.filterMap_append]
      exact List.append_nil _
    · rfl
  calc code.filterMap (·.temporary?)
      = (code.map (·.temporary?)).filterMap id := by rw [List.filterMap_map]; rfl
    _ = X.completed.filterMap (·.outline.temporary?) := by rw [laid, List.filterMap_map]; rfl
    _ = X.drafts.filterMap (·.outline.temporary?) := nop

namespace Annotated

/-- The draft of an instruction of finished code reads only what is held before it. -/
theorem reads_completed (h : X.Annotated first Γ held) (draft : X.completed[k]? = some d) :
    d.Reads (held k) := by
  rcases draft_of_completed draft with written | ⟨-, rfl⟩
  · exact h.reads written
  · exact Draft.reads_nop _

/-- Jumps that name an offset are jumps to labels. -/
theorem jump_of_finish (h : X.Annotated first Γ held) (fin : X.finish = .ok code)
    (at_k : code[k]? = some i) (jumps : i.opcode = .jcc) {target : Address}
    (named : i.op3.kind = .address target) :
    ∃ condition label, X.drafts[k]? = some (.jump condition label) ∧
      X.labels[label.index]? = some (some target.offset) ∧ target.native = X.native := by
  obtain ⟨d, j, draft, laid, same⟩ := place_of_finish fin at_k
  rw [same] at jumps named
  have proper := h.reads_completed draft
  cases d with
  | plain opcode op1 op2 op3 =>
    cases laid
    subst jumps
    exact absurd named (proper.exits rfl target)
  | jump condition label =>
    obtain ⟨t, bound, rfl⟩ := place_jump_eq_ok laid
    cases named
    rcases draft_of_completed draft with written | ⟨-, e⟩
    · exact ⟨condition, label, written, bound, rfl⟩
    · cases e

/-- Finished code is left only for the start of some code. -/
theorem enclosed (h : X.Annotated first Γ held) (fin : X.finish = .ok code) :
    Enclosed X.native code where
  address at_k := by
    obtain ⟨d, j, -, laid, same⟩ := place_of_finish fin at_k
    have address : j.address = ⟨X.native, _⟩ := address_of_place laid
    rw [same]
    exact address
  inward at_k jumps named := by
    obtain ⟨-, -, -, -, native⟩ := h.jump_of_finish fin at_k jumps named
    exact native

/-- What is held at an offset has been written on every path there. -/
theorem written_on_path (h : X.Annotated first Γ held) (fin : X.finish = .ok code)
    {visited : List Nat} (path : Path code k visited) :
    ∀ {n w}, (n, w) ∈ held k →
      ∃ j ∈ visited, ∃ i, code[j]? = some i ∧ i.Writes (temporaryName n) w := by
  obtain ⟨length, -⟩ := finish_eq_ok fin
  have longest : code.length ≤ X.size + 1 := by
    rw [length, length_completed]
    split <;> omega
  -- what is held behind an edge was held before it, or the instruction there writes it
  induction path with
  | start =>
    intro n w mem
    rw [h.start] at mem
    cases mem
  | @onward k k' visited before edge ih =>
    have earlier : ∀ {n w}, (n, w) ∈ held k →
        ∃ j ∈ k :: visited, ∃ i, code[j]? = some i ∧ i.Writes (temporaryName n) w := by
      intro n w mem
      obtain ⟨j, visited, writes⟩ := ih mem
      exact ⟨j, List.mem_cons_of_mem _ visited, writes⟩
    intro n w mem
    cases edge with
    | fall more =>
      have inside : k < code.length := Nat.lt_of_succ_lt more
      obtain ⟨d, j, draft, laid, same⟩ := place_of_finish fin (List.getElem?_eq_getElem inside)
      rcases draft_of_completed draft with written | ⟨last, -⟩
      · rcases h.fall written mem with mem | writes
        · exact earlier mem
        · obtain ⟨opcode, -, operand⟩ := place_outline laid
          refine ⟨k, List.mem_cons_self .., _, List.getElem?_eq_getElem inside, ?_⟩
          have third : j.operand .third = _ := operand.2 writes.2
          rw [same]
          exact ⟨opcode ▸ writes.1, third⟩
      · omega
    | jump at_k jumps target =>
      obtain ⟨condition, label, written, bound, -⟩ := h.jump_of_finish fin at_k jumps target
      exact earlier (h.arrive written bound mem)

/-- Finished code writes its temporaries once, in order, and reads them where they are written. -/
theorem single (h : X.Annotated first Γ held) (fin : X.finish = .ok code) :
    SingleAssignment first (Γ.count - first) code where
  written := (temporaries_of_finish fin).trans h.written
  used {i slot name w} mem named temporary := by
    obtain ⟨k, at_k⟩ := List.getElem?_of_mem mem
    obtain ⟨d, j, draft, laid, same⟩ := place_of_finish fin at_k
    obtain ⟨opcode, -, operand⟩ := place_outline laid
    rw [same] at named ⊢
    have uses := (h.reads_completed draft).used (operand.1 named) temporary
    unfold Instruction.Uses at uses ⊢
    rw [← opcode] at uses
    exact uses
  dominated {k visited i name w} path at_k temporary reads := by
    obtain ⟨d, j, draft, laid, same⟩ := place_of_finish fin at_k
    obtain ⟨opcode, -, operand⟩ := place_outline laid
    obtain ⟨slot, reads, named⟩ := reads
    rw [same] at reads named
    obtain ⟨n, rfl, mem⟩ := (h.reads_completed draft).held
      ⟨slot, opcode ▸ reads, operand.1 named⟩ temporary
    exact h.written_on_path fin path mem

end Annotated

end Expansion

/-! ## What single assignment says of a temporary -/

/-- What a function finds in a list without repetition, it finds at one place. -/
theorem existsUnique_of_mem_filterMap {α β : Type} {f : α → Option β} {l : List α} {b : β}
    (apart : (l.filterMap f).Nodup) (mem : b ∈ l.filterMap f) :
    ∃! k : Nat, ∃ a, l[k]? = some a ∧ f a = some b := by
  induction l with
  | nil => cases mem
  | cons a rest ih =>
    -- the places of the rest, one further on
    have further : (∃! k : Nat, ∃ a, rest[k]? = some a ∧ f a = some b) → f a ≠ some b →
        ∃! k : Nat, ∃ c, (a :: rest)[k]? = some c ∧ f c = some b := by
      intro found ne
      obtain ⟨k, at_k, unique⟩ := found
      refine ⟨k + 1, at_k, fun j at_j => ?_⟩
      cases j with
      | zero =>
        obtain ⟨c, same, is_b⟩ := at_j
        cases same
        exact absurd is_b ne
      | succ j => exact congrArg (· + 1) (unique j at_j)
    cases found : f a with
    | none =>
      rw [List.filterMap_cons_none found] at apart mem
      exact further (ih apart mem) (by rw [found]; nofun)
    | some c =>
      rw [List.filterMap_cons_some found] at apart mem
      obtain ⟨fresh, apart⟩ := List.nodup_cons.1 apart
      rcases List.mem_cons.1 mem with rfl | behind
      · refine ⟨0, ⟨a, rfl, found⟩, fun j at_j => ?_⟩
        cases j with
        | zero => rfl
        | succ j =>
          obtain ⟨d, at_j, is_b⟩ := at_j
          have inside : d ∈ rest := List.mem_of_getElem? (i := j) at_j
          exact absurd (List.mem_filterMap.2 ⟨d, inside, is_b⟩) fresh
      · refine further (ih apart behind) fun same => ?_
        rw [found] at same
        cases same
        exact fresh behind

/-- The temporary of an instruction is the one it writes. -/
theorem Instruction.temporary?_eq_some_iff {i : Instruction} {name : String} :
    i.temporary? = some name ↔ isTemporary name ∧ ∃ w, i.Writes name w := by
  unfold temporary? Writes Operand.register?
  cases kind : i.op3.kind with
  | register other =>
    have named : ∀ {w}, i.op3 = .register name w → other = name := by
      intro w same
      rw [same] at kind
      cases kind
      rfl
    constructor
    · intro found
      split at found
      · next writes =>
        obtain ⟨same, temporary⟩ := Option.filter_eq_some_iff.1 found
        cases same
        exact ⟨temporary, i.op3.width, writes, Operand.eq_register kind⟩
      · cases found
    · intro written
      obtain ⟨temporary, w, writes, same⟩ := written
      rw [if_pos writes, named same]
      exact Option.filter_eq_some_iff.2 ⟨rfl, temporary⟩
  | absent | integer | address =>
    constructor
    · intro found
      split at found <;> cases found
    · intro written
      obtain ⟨-, w, -, same⟩ := written
      rw [same] at kind
      cases kind

namespace SingleAssignment

variable {first count : Nat} {code : List Instruction}

/-- Every temporary that occurs is written somewhere in the code. -/
theorem mem_written (h : SingleAssignment first count code) {i : Instruction} (mem : i ∈ code)
    {slot : Slot} {name : String} {w : Width} (named : i.operand slot = .register name w)
    (temporary : isTemporary name) : name ∈ code.filterMap (·.temporary?) := by
  rcases h.used mem named temporary with reads | ⟨rfl, writes⟩
  · obtain ⟨k, at_k⟩ := List.getElem?_of_mem mem
    have inside := (List.getElem?_eq_some_iff.1 at_k).1
    obtain ⟨j, -, i', at_j, writes⟩ :=
      h.dominated (path_falling inside) at_k temporary ⟨slot, reads, named⟩
    exact List.mem_filterMap.2 ⟨i', List.mem_of_getElem? at_j,
      Instruction.temporary?_eq_some_iff.2 ⟨temporary, w, writes⟩⟩
  · exact List.mem_filterMap.2 ⟨i, mem,
      Instruction.temporary?_eq_some_iff.2 ⟨temporary, w, writes, named⟩⟩

/-- A run of numbers makes different names. -/
theorem nodup_names (first count : Nat) :
    ((List.range' first count).map temporaryName).Nodup :=
  List.Nodup.map (fun _ _ => temporaryName_injective) (List.nodup_range' _)

/-- Two instructions that write one temporary are one instruction. -/
theorem same_place (h : SingleAssignment first count code) {j k : Nat} {i i' : Instruction}
    {name : String} {w w' : Width} (at_j : code[j]? = some i) (at_k : code[k]? = some i')
    (temporary : isTemporary name) (writes : i.Writes name w) (writes' : i'.Writes name w') :
    j = k := by
  have apart : (code.filterMap (·.temporary?)).Nodup := h.written ▸ nodup_names first count
  have of_writes : ∀ {i : Instruction} {w}, i.Writes name w → i.temporary? = some name :=
    fun writes => Instruction.temporary?_eq_some_iff.2 ⟨temporary, _, writes⟩
  have mem : name ∈ code.filterMap (·.temporary?) :=
    List.mem_filterMap.2 ⟨i, List.mem_of_getElem? at_j, of_writes writes⟩
  obtain ⟨_, -, unique⟩ := existsUnique_of_mem_filterMap apart mem
  exact (unique j ⟨i, at_j, of_writes writes⟩).trans (unique k ⟨i', at_k, of_writes writes'⟩).symm

/-- A temporary is written in one place of the code, and read only behind it. -/
theorem read_behind (h : SingleAssignment first count code) {k : Nat} {i : Instruction}
    (at_k : code[k]? = some i) {slot : Slot} {name : String} {w : Width}
    (named : i.operand slot = .register name w) (temporary : isTemporary name) :
    slot = .third ∧ i.opcode.writesRegister ∨
      i.opcode.reads slot ∧ ∃ j i', j < k ∧ code[j]? = some i' ∧ i'.Writes name w ∧
        ∀ visited, Path code k visited → j ∈ visited := by
  rcases h.used (List.mem_of_getElem? at_k) named temporary with reads | writes
  · right
    have inside := (List.getElem?_eq_some_iff.1 at_k).1
    obtain ⟨j, before, i', at_j, writes⟩ :=
      h.dominated (path_falling inside) at_k temporary ⟨slot, reads, named⟩
    simp only [List.mem_reverse, List.mem_range] at before
    refine ⟨reads, j, i', before, at_j, writes, fun visited path => ?_⟩
    -- another path meets another write of the same temporary, which is the same write
    obtain ⟨l, mem, i'', at_l, writes'⟩ := h.dominated path at_k temporary ⟨slot, reads, named⟩
    rwa [h.same_place at_j at_l temporary writes writes']
  · exact .inl writes

end SingleAssignment

end RegisterTransfer
