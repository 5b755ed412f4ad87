import RegisterTransfer.Proofs.Appending

/-!
# Labels and where they lead

Expansions written in any order of steps: instructions, moves, labels made, bound once, again or
never, jumps to labels that are bound before or behind. A `History` is such a sequence; it can name
only labels that were made. What it is finished to is said from the history alone, without looking
at the labels of the expansion: every instruction stands at its own offset, a jump goes to what was
written next when its label was last bound, and a `nop` follows if a label was bound behind the last
instruction.

> `History.labels_carryOut`: the labels of the expansion are the last binds of the history.
> `History.endsBound_iff`: a bind behind the last instruction is a last bind at the end.
> `history_lays_out`: what comes out, or that nothing does.
-/

namespace RegisterTransfer

/-! ## Histories -/

/-- The steps by which an expansion was written, the last one outermost, `n` labels made so far. -/
inductive History : Nat → Type where
  | start : History 0
  | emit {n : Nat} (h : History n) (opcode : Opcode) (op1 op2 op3 : Operand) : History n
  | copy {n : Nat} (h : History n) (source destination : Operand) : History n
  | newLabel {n : Nat} (h : History n) : History (n + 1)
  | bind {n : Nat} (h : History n) (label : Fin n) : History n
  | jumpIf {n : Nat} (h : History n) (condition : Operand) (label : Fin n) : History n
  | jump {n : Nat} (h : History n) (label : Fin n) : History n

namespace History

variable {n : Nat}

/-- Takes the steps in an expansion. -/
def carryOut {n : Nat} : History n → Expansion → Expansion
  | start, x => x
  | emit h opcode op1 op2 op3, x => (h.carryOut x).emit opcode op1 op2 op3
  | copy h source destination, x => (h.carryOut x).copy source destination
  | newLabel h, x => (h.carryOut x).newLabel.2
  | bind h label, x => (h.carryOut x).bind ⟨label⟩
  | jumpIf h condition label, x => (h.carryOut x).jumpIf condition ⟨label⟩
  | jump h label, x => (h.carryOut x).jump ⟨label⟩

/-- The steps as a script. -/
def script {n : Nat} : History n → Script Unit
  | start => pure ()
  | emit h opcode op1 op2 op3 => do h.script; Script.emit opcode op1 op2 op3
  | copy h source destination => do h.script; Script.copy source destination
  | newLabel h => do h.script; let _ ← Script.newLabel
  | bind h label => do h.script; Script.bindLabel ⟨label⟩
  | jumpIf h condition label => do h.script; Script.jumpIf condition ⟨label⟩
  | jump h label => do h.script; Script.jump ⟨label⟩

/-- What was written, in order. -/
def drafts {n : Nat} : History n → List Draft
  | start => []
  | emit h opcode op1 op2 op3 => h.drafts ++ [.plain opcode op1 op2 op3]
  | copy h source destination => h.drafts ++ [.plain .str source .absent destination]
  | newLabel h | bind h _ => h.drafts
  | jumpIf h condition label => h.drafts ++ [.jump condition ⟨label⟩]
  | jump h label => h.drafts ++ [.jump (.integer 1 .byte) ⟨label⟩]

/-- The number of instructions written. -/
def written (h : History n) : Nat := h.drafts.length

/-- How much was written when a label was last bound, if it ever was. -/
def lastBind? {n : Nat} : History n → Nat → Option Nat
  | start, _ => none
  | bind h label, l => if l = label then some h.written else h.lastBind? l
  | emit h .., l | copy h .., l | newLabel h, l | jumpIf h .., l | jump h _, l => h.lastBind? l

/-- Whether some label was bound and nothing written since. -/
def endsBound {n : Nat} : History n → Bool
  | start | emit .. | copy .. | jumpIf .. | jump .. => false
  | bind .. => true
  | newLabel h => h.endsBound

/-- What is laid out: what was written, and a `nop` if a label was bound behind it. -/
def completed (h : History n) : List Draft :=
  if h.endsBound then h.drafts ++ [.plain .nop .absent .absent .absent] else h.drafts

/-- A label is jumped to. -/
def Jumps (h : History n) (l : Nat) : Prop := ∃ condition, Draft.jump condition ⟨l⟩ ∈ h.drafts

end History

/-- The instruction of a draft at an offset, when a label `l` leads to `target l`. -/
def Draft.instruction (native : Nat) (comment : Option String) (target : Nat → Option Nat)
    (offset : Nat) : Draft → Instruction
  | .plain opcode op1 op2 op3 =>
    ⟨⟨native, offset⟩, opcode, op1, op2, op3, if offset = 0 then comment else none⟩
  | .jump condition label =>
    ⟨⟨native, offset⟩, .jcc, condition, .absent, .address ⟨native, (target label.index).getD 0⟩,
      if offset = 0 then comment else none⟩

/--
The code of a history: what was written at consecutive offsets, jumps leading to where their labels
were last bound, and a `nop` behind if a label was bound to the end.
-/
def History.code {n : Nat} (h : History n) (native : Nat) (comment : Option String) :
    List Instruction :=
  h.completed.mapIdx (Draft.instruction native comment h.lastBind?)

/-- Appends the finished expansion and counts its instructions, or leaves the output as it is. -/
def Expansion.finishInto (x : Expansion) (out : List Instruction) :
    Except LiftingError Nat × List Instruction :=
  match x.finish with
  | .ok code => (.ok code.length, out ++ code)
  | .error e => (.error e, out)

/-! ## Steps in an expansion -/

namespace History

variable {n : Nat} (h : History n) (x : Expansion)

/-- The script of a history takes its steps. -/
theorem run_script : h.script.run x = (.ok (), h.carryOut x) := by
  induction h with
  | start => rfl
  | emit _ _ _ _ _ ih | copy _ _ _ ih | newLabel _ ih | bind _ _ ih | jumpIf _ _ _ ih
  | jump _ _ ih =>
    rw [script, Script.run_bind, ih]
    rfl

/-- Steps change neither where an expansion belongs nor what it is called. -/
theorem carryOut_keeps : (h.carryOut x).environment = x.environment ∧
    (h.carryOut x).native = x.native ∧ (h.carryOut x).comment = x.comment := by
  induction h with
  | start => exact ⟨rfl, rfl, rfl⟩
  | emit _ _ _ _ _ ih | copy _ _ _ ih | newLabel _ ih | bind _ _ ih | jumpIf _ _ _ ih
  | jump _ _ ih => exact ih

/-- The steps of a history append what they write, and change nothing written before. -/
theorem drafts_carryOut : (h.carryOut x).drafts = x.drafts ++ h.drafts := by
  induction h with
  | start => exact (List.append_nil _).symm
  | newLabel _ ih | bind _ _ ih => exact ih
  | emit _ _ _ _ _ ih | copy _ _ _ ih | jumpIf _ _ _ ih | jump _ _ ih =>
    rw [drafts, ← List.append_assoc, ← ih]
    rfl

/-- A label that was not made was not bound. -/
theorem lastBind?_of_le {l : Nat} (le : n ≤ l) : h.lastBind? l = none := by
  induction h with
  | start => rfl
  | newLabel _ ih => exact ih (by omega)
  | emit _ _ _ _ _ ih | copy _ _ _ ih | jumpIf _ _ _ ih | jump _ _ ih => exact ih le
  | bind _ label ih =>
    have ne : l ≠ label := by omega
    rw [lastBind?, if_neg ne, ih le]

/-- A label is bound to what is written next, so it was never bound behind the end. -/
theorem lastBind?_le {l t : Nat} (bound : h.lastBind? l = some t) : t ≤ h.written := by
  induction h with
  | start => cases bound
  | newLabel _ ih => exact ih bound
  | bind h label ih =>
    rw [lastBind?] at bound
    split at bound
    · cases bound
      exact Nat.le_refl h.written
    · exact ih bound
  | emit h _ _ _ _ ih | copy h _ _ ih | jumpIf h _ _ ih | jump h _ ih =>
    have le : t ≤ h.written := ih bound
    rw [written, drafts, List.length_append]
    exact Nat.le_add_right_of_le le

/-- A bind behind the last instruction is the last bind of its label, at the end. -/
theorem endsBound_iff : h.endsBound ↔ ∃ l, h.lastBind? l = some h.written := by
  induction h with
  | start => exact ⟨nofun, nofun⟩
  | newLabel _ ih => exact ih
  | bind h label ih => exact ⟨fun _ => ⟨label, if_pos rfl⟩, fun _ => rfl⟩
  | emit h _ _ _ _ ih | copy h _ _ ih | jumpIf h _ _ ih | jump h _ ih =>
    refine ⟨nofun, fun ⟨l, bound⟩ => ?_⟩
    -- the label would have been bound before the last instruction, yet behind it
    have le : _ ≤ h.written := h.lastBind?_le bound
    rw [written, drafts, List.length_append, List.length_singleton] at le
    exact absurd le (Nat.not_succ_le_self _)

/-- The labels of the expansion are the last binds of the history. -/
theorem labels_carryOut (unlabelled : x.labels = []) (blank : x.drafts = []) :
    (h.carryOut x).labels = (List.range n).map h.lastBind? := by
  induction h with
  | start => exact unlabelled
  | emit _ _ _ _ _ ih | copy _ _ _ ih | jumpIf _ _ _ ih | jump _ _ ih => exact ih
  | @newLabel n h ih =>
    have fresh : h.lastBind? n = none := h.lastBind?_of_le (Nat.le_refl n)
    show (h.carryOut x).labels ++ [none] = (List.range (n + 1)).map h.lastBind?
    rw [ih, List.range_succ, List.map_append, List.map_singleton, fresh]
  | @bind n h label ih =>
    have size : (h.carryOut x).size = h.written := by
      rw [Expansion.size, drafts_carryOut, blank]
      rfl
    show (h.carryOut x).labels.set label (some (h.carryOut x).size) = _
    rw [ih, size]
    refine List.ext_getElem (by simp) fun l inside _ => ?_
    rw [List.getElem_set, List.getElem_map, List.getElem_map, List.getElem_range, lastBind?]
    simp only [eq_comm]

/-- A label leads to what was written next when it was last bound. -/
theorem join_labels_carryOut (unlabelled : x.labels = []) (blank : x.drafts = []) (l : Nat) :
    (h.carryOut x).labels[l]?.join = h.lastBind? l := by
  rw [h.labels_carryOut x unlabelled blank, List.getElem?_map]
  by_cases made : l < n
  · rw [List.getElem?_range made]
    rfl
  · rw [List.getElem?_eq_none (by simpa using made), h.lastBind?_of_le (by omega)]
    rfl

/-- The expansion is completed by a `nop` if the history ends with a label bound. -/
theorem completed_carryOut (unlabelled : x.labels = []) (blank : x.drafts = []) :
    (h.carryOut x).completed = h.completed := by
  have drafts : (h.carryOut x).drafts = h.drafts := by
    rw [drafts_carryOut, blank, List.nil_append]
  have bound : some (h.carryOut x).size ∈ (h.carryOut x).labels ↔ h.endsBound := by
    rw [Expansion.size, drafts, h.labels_carryOut x unlabelled blank, List.mem_map,
      endsBound_iff]
    constructor
    · rintro ⟨l, -, at_end⟩
      exact ⟨l, at_end⟩
    · rintro ⟨l, at_end⟩
      refine ⟨l, List.mem_range.2 (Nat.lt_of_not_le fun le => ?_), at_end⟩
      rw [h.lastBind?_of_le le] at at_end
      cases at_end
  simp only [Expansion.completed, completed, drafts, bound]

end History

/-! ## Finishing -/

namespace Expansion

variable {X : Expansion} {code : List Instruction} {e : LiftingError}

/-- Finished code is what the drafts become when every label leads to where it is bound. -/
theorem eq_mapIdx_of_finish (fin : X.finish = .ok code) :
    code = X.completed.mapIdx
      (Draft.instruction X.native X.comment fun l => X.labels[l]?.join) := by
  refine List.ext_getElem? fun k => ?_
  rw [List.getElem?_mapIdx]
  cases at_k : X.completed[k]? with
  | none =>
    rw [List.getElem?_eq_none_iff] at at_k
    exact List.getElem?_eq_none ((finish_eq_ok fin).1 ▸ at_k)
  | some d =>
    obtain ⟨i, placed, found⟩ := instruction_of_finish fin at_k
    rw [found]
    cases d with
    | plain opcode op1 op2 op3 =>
      cases placed
      rfl
    | jump condition label =>
      obtain ⟨t, bound, rfl⟩ := place_jump_eq_ok placed
      rw [Option.map_some, Draft.instruction, bound]
      rfl

/-- What goes wrong in laying out drafts is a label that is not bound. -/
theorem error_of_layout {drafts : List Draft} {offset : Nat}
    (fails : X.layout offset drafts = .error e) : e = .unboundLabel X.title := by
  induction drafts generalizing offset with
  | nil => cases fails
  | cons d rest ih =>
    rw [layout] at fails
    cases placed : X.place offset d with
    | error problem =>
      rw [placed] at fails
      cases fails
      cases d with
      | plain opcode op1 op2 op3 => cases placed
      | jump condition label =>
        rw [place] at placed
        split at placed
        · cases placed
        · cases placed
          rfl
    | ok i =>
      rw [placed] at fails
      cases behind : X.layout (offset + 1) rest with
      | error problem =>
        rw [behind] at fails
        cases fails
        exact ih behind
      | ok code =>
        rw [behind] at fails
        cases fails

/-- The one error of finishing is a jump to a label that is not bound. -/
theorem error_of_finish (fails : X.finish = .error e) : e = .unboundLabel X.title := by
  rw [finish] at fails
  cases laid : X.layout 0 X.completed with
  | error problem =>
    rw [laid] at fails
    cases fails
    exact error_of_layout laid
  | ok code =>
    rw [laid] at fails
    cases fails

end Expansion

namespace History

variable {n : Nat} (h : History n) (e : Environment) (native : Nat) (comment : Option String)

/-- The expansion of a native instruction that a history has written. -/
def expansion : Expansion := h.carryOut ⟨e, native, comment, [], []⟩

/-- The labels that the drafts jump to are those that the history jumps to. -/
theorem target?_mem_iff (l : Label) :
    some l ∈ (h.expansion e native comment).drafts.map Draft.target? ↔ h.Jumps l.index := by
  rw [expansion, drafts_carryOut, List.nil_append, List.mem_map]
  constructor
  · rintro ⟨d, mem, same⟩
    cases d with
    | plain opcode op1 op2 op3 => cases same
    | jump condition label =>
      cases same
      exact ⟨condition, mem⟩
  · rintro ⟨condition, mem⟩
    exact ⟨.jump condition l, mem, rfl⟩

/-- A history is finished exactly if every label that it jumps to was bound. -/
theorem isOk_iff : (∃ code, (h.expansion e native comment).finish = .ok code) ↔
    ∀ l, h.Jumps l → ∃ t, h.lastBind? l = some t := by
  have bound : ∀ l t : Nat, (h.expansion e native comment).labels[l]? = some (some t) ↔
      h.lastBind? l = some t := fun l t => by
    rw [← h.join_labels_carryOut ⟨e, native, comment, [], []⟩ rfl rfl l, Option.join_eq_some_iff]
    rfl
  simp only [Expansion.finish_isOk_iff, target?_mem_iff, bound]
  exact ⟨fun every l => every ⟨l⟩, fun every label => every label.index⟩

variable {e native comment}

/-- What a history is finished to is its code. -/
theorem code_eq_of_finish {code : List Instruction}
    (fin : (h.expansion e native comment).finish = .ok code) : h.code native comment = code := by
  have kept := h.carryOut_keeps ⟨e, native, comment, [], []⟩
  have leads : (fun l : Nat => (h.expansion e native comment).labels[l]?.join) = h.lastBind? :=
    funext fun l => h.join_labels_carryOut _ rfl rfl l
  have completed : (h.expansion e native comment).completed = h.completed :=
    h.completed_carryOut _ rfl rfl
  have at_native : (h.expansion e native comment).native = native := kept.2.1
  have called : (h.expansion e native comment).comment = comment := kept.2.2
  rw [Expansion.eq_mapIdx_of_finish fin, leads, completed, at_native, called]
  rfl

/-- Either every label jumped to was bound and the code is appended, or nothing is. -/
theorem finishInto_cases (out : List Instruction) :
    ((∀ l, h.Jumps l → ∃ t, h.lastBind? l = some t) ∧
        (h.expansion e native comment).finishInto out =
          (.ok (h.code native comment).length, out ++ h.code native comment)) ∨
      (∃ l, h.Jumps l ∧ h.lastBind? l = none) ∧
        (h.expansion e native comment).finishInto out =
          (.error (.unboundLabel (h.expansion e native comment).title), out) := by
  cases fin : (h.expansion e native comment).finish with
  | ok code =>
    left
    refine ⟨(h.isOk_iff e native comment).1 ⟨code, fin⟩, ?_⟩
    rw [Expansion.finishInto, fin, h.code_eq_of_finish fin]
  | error problem =>
    right
    have some_unbound : ¬ ∀ l, h.Jumps l → ∃ t, h.lastBind? l = some t := fun every => by
      obtain ⟨code, done⟩ := (h.isOk_iff e native comment).2 every
      rw [fin] at done
      cases done
    refine ⟨?_, ?_⟩
    · by_contra none_unbound
      refine some_unbound fun l jumps => Option.ne_none_iff_exists'.1 fun unbound => ?_
      exact none_unbound ⟨l, jumps, unbound⟩
    · rw [Expansion.finishInto, fin, Expansion.error_of_finish fin]

/-- The label that is made next has the number of the labels made so far. -/
theorem newLabel_expansion : (h.expansion e native comment).newLabel.1 = ⟨n⟩ := by
  have labels := h.labels_carryOut ⟨e, native, comment, [], []⟩ rfl rfl
  show Label.mk (h.carryOut _).labels.length = ⟨n⟩
  rw [labels, List.length_map, List.length_range]

/-- A translator that takes the steps of a history appends what the history is finished to. -/
theorem translate_script (s : Session) (i : NativeInstruction) :
    s.translate (.ofScripts [(i.mnemonic, fun _ _ => h.script)]) i =
      match (h.expansion s.environment i.address (some i.text)).finishInto s.output with
      | (.ok _, out) => (.ok (), ⟨s.environment, out⟩)
      | (.error problem, out) => (.error problem, ⟨s.environment, out⟩) := by
  have found : (Registry.ofScripts [(i.mnemonic, fun _ _ => h.script)]).get? i.mnemonic =
      some (.ofScript fun _ _ => h.script) :=
    SortedMap.get?_insert_self ∅ i.mnemonic _
  have kept := (h.carryOut_keeps (.opened s.environment i)).1
  have ran := h.run_script (.opened s.environment i)
  have translated : (Registry.ofScripts [(i.mnemonic, fun _ _ => h.script)]).translate
      s.environment i = ((h.carryOut (.opened s.environment i)).finish, s.environment) := by
    rw [Registry.translate, found]
    show Expansion.collect (h.script.run (.opened s.environment i)) = _
    rw [ran, Expansion.collect, kept]
    rfl
  rw [Session.translate, translated, Expansion.finishInto]
  show _ = match (match (h.carryOut (.opened s.environment i)).finish with
    | .ok code => (Except.ok code.length, s.output ++ code)
    | .error e => (.error e, s.output)) with
    | (.ok _, out) => (Except.ok (), Session.mk s.environment out)
    | (.error problem, out) => (.error problem, Session.mk s.environment out)
  cases (h.carryOut (.opened s.environment i)).finish <;> rfl

/-! ## The code of a history -/

/-- The code has an instruction for every draft, and one more if a label was bound to the end. -/
theorem length_code :
    (h.code native comment).length = h.written + if h.endsBound then 1 else 0 := by
  rw [code, List.length_mapIdx, completed]
  split
  · exact List.length_append
  · rfl

/-- The code stands at consecutive offsets. -/
theorem address_of_code {k : Nat} {i : Instruction}
    (found : (h.code native comment)[k]? = some i) : i.address = ⟨native, k⟩ := by
  rw [code, List.getElem?_mapIdx, Option.map_eq_some_iff] at found
  obtain ⟨d, -, rfl⟩ := found
  cases d <;> rfl

/-- Every label that was bound leads to an instruction of the code. -/
theorem exists_at_lastBind? {l t : Nat} (bound : h.lastBind? l = some t) :
    ∃ i ∈ h.code native comment, i.address = ⟨native, t⟩ := by
  have le := h.lastBind?_le bound
  have inside : t < (h.code native comment).length := by
    rw [length_code]
    by_cases at_end : t = h.written
    · subst at_end
      rw [if_pos (h.endsBound_iff.2 ⟨l, bound⟩)]
      omega
    · omega
  exact ⟨_, List.getElem_mem inside, h.address_of_code (List.getElem?_eq_getElem inside)⟩

end History

/--
An expansion that is written in any order of steps, its labels bound any number of times before or
after they are used. It comes out exactly if every label that is jumped to was bound; the
instructions are then appended in order at offsets zero, one, two and so on, the first with the
comment, and their number is returned. They are as they were written, except that a jump to a label
leads to what was written next when the label was last bound. A `nop` follows them exactly if the
last bind of some label has nothing written behind it, so labels always lead to instructions that
are appended. If some label that is jumped to was never bound, the output is left as it is. A translator
that takes the same steps appends the same.
-/
theorem history_lays_out {n : Nat} (h : History n) (e : Environment) (native : Nat)
    (comment : Option String) (out : List Instruction) :
    let x := h.expansion e native comment
    let code := h.code native comment
    x.newLabel.1 = ⟨n⟩ ∧
    (x.finishInto out = (.ok code.length, out ++ code) ↔
      ∀ l, h.Jumps l → ∃ t, h.lastBind? l = some t) ∧
    (x.finishInto out = (.error (.unboundLabel x.title), out) ↔
      ∃ l, h.Jumps l ∧ h.lastBind? l = none) ∧
    (code.length = h.written + if h.endsBound then 1 else 0) ∧
    (h.endsBound ↔ ∃ l, h.lastBind? l = some h.written) ∧
    (∀ (k : Nat) (i : Instruction), code[k]? = some i → i.address = ⟨native, k⟩) ∧
    (∀ l t, h.lastBind? l = some t → ∃ i ∈ code, i.address = ⟨native, t⟩) ∧
    ∀ (s : Session) (i : NativeInstruction),
      s.translate (.ofScripts [(i.mnemonic, fun _ _ => h.script)]) i =
        match (h.expansion s.environment i.address (some i.text)).finishInto s.output with
        | (.ok _, out) => (.ok (), ⟨s.environment, out⟩)
        | (.error problem, out) => (.error problem, ⟨s.environment, out⟩) := by
  intro x code
  have apart : (∀ l, h.Jumps l → ∃ t, h.lastBind? l = some t) →
      ¬ ∃ l, h.Jumps l ∧ h.lastBind? l = none := by
    rintro every ⟨l, jumps, unbound⟩
    obtain ⟨t, bound⟩ := every l jumps
    cases unbound.symm.trans bound
  refine ⟨h.newLabel_expansion, ?_, ?_, h.length_code, h.endsBound_iff,
    fun k i => h.address_of_code, fun l t => h.exists_at_lastBind?, h.translate_script⟩
  · rcases h.finishInto_cases out with ⟨every, done⟩ | ⟨unbound, failed⟩
    · exact ⟨fun _ => every, fun _ => done⟩
    · refine ⟨fun done => ?_, fun every => absurd unbound (apart every)⟩
      cases failed.symm.trans done
  · rcases h.finishInto_cases out with ⟨every, done⟩ | ⟨unbound, failed⟩
    · refine ⟨fun failed => ?_, fun unbound => absurd unbound (apart every)⟩
      cases done.symm.trans failed
    · exact ⟨fun _ => unbound, fun _ => failed⟩

/-- A jump forward over nothing: the label is bound to the end, and a `nop` is there. -/
example : ((History.start.newLabel.jump 0).bind 0).code 16 (some "b 0x14") =
    [⟨⟨16, 0⟩, .jcc, .integer 1 .byte, .absent, .address ⟨16, 1⟩, some "b 0x14"⟩,
      ⟨⟨16, 1⟩, .nop, .absent, .absent, .absent, none⟩] := rfl

end RegisterTransfer
