import RegisterTransfer.PowerPC.Lifter
import RegisterTransfer.Proofs.Blocks

/-!
# Translation appends

What one translation does to the output, whatever the translator's script is: scripts here may bind
labels twice or not at all, jump backwards, and give up anywhere. A translation that fails leaves
the output as it is. One that succeeds appends the drafts of its expansion at consecutive offsets,
with the text of the instruction on the first, and jumps to labels stay inside.

> `Expansion.instruction_of_finish`: every draft becomes the instruction at its own offset, and the
> comment goes to the first.
> `Expansion.target_of_finish`: a jump to a label goes to an instruction of the finished code.
> `translation_appends`: what a translation appends, for every registry of scripts.
-/

namespace RegisterTransfer

/-! ## Finished code of any script -/

namespace Script

/-- A script does not change where its expansion belongs and what it is called. -/
theorem run_keeps {α : Type} (s : Script α) (x : Expansion) :
    (s.run x).2.native = x.native ∧ (s.run x).2.comment = x.comment := by
  induction s generalizing x with
  | done | fail => exact ⟨rfl, rfl⟩
  | allocate _ _ ih | create _ ih => exact ih _ _
  | write _ _ _ _ _ ih | attach _ _ ih | leave _ _ _ ih => exact ih _

end Script

namespace Expansion

variable {X : Expansion} {code : List Instruction} {k : Nat}

/--
Laying out a draft gives it no comment; the comment of an expansion goes to its first instruction.
-/
theorem comment_of_place {d : Draft} {i : Instruction} (h : X.place k d = .ok i) :
    i.comment = none := by
  cases d with
  | plain opcode op1 op2 op3 =>
    cases h
    rfl
  | jump condition label =>
    obtain ⟨t, -, rfl⟩ := place_jump_eq_ok h
    rfl

/-- The comment of an expansion at one of its offsets: only the first instruction has one. -/
def commentAt (X : Expansion) (k : Nat) : Option String := if k = 0 then X.comment else none

/-- Every draft becomes the instruction at its own offset, and the comment goes to the first. -/
theorem instruction_of_finish (fin : X.finish = .ok code) {d : Draft}
    (draft : X.completed[k]? = some d) :
    ∃ i, X.place k d = .ok i ∧ code[k]? = some { i with comment := X.commentAt k } := by
  unfold finish at fin
  obtain ⟨laid, all, fin⟩ := Except.bind_eq_ok.1 fin
  cases fin
  obtain ⟨i, placed, at_k⟩ := (layout_eq_ok all).2 draft
  rw [Nat.zero_add] at placed
  refine ⟨i, placed, ?_⟩
  cases laid with
  | nil => cases at_k
  | cons first rest =>
    cases k with
    | zero =>
      cases at_k
      rfl
    | succ k =>
      -- drafts are laid out without a comment, so that nothing but the first instruction has one
      have kept : { i with comment := X.commentAt (k + 1) } = i := by
        have none := comment_of_place placed
        cases i
        cases none
        rfl
      rw [kept]
      exact at_k

/-- Finished code sits at consecutive offsets, and only its first instruction has a comment. -/
theorem place_of_instruction (fin : X.finish = .ok code) {i : Instruction}
    (at_k : code[k]? = some i) : i.address = ⟨X.native, k⟩ ∧ i.comment = X.commentAt k := by
  have inside : k < X.completed.length :=
    (finish_eq_ok fin).1 ▸ (List.getElem?_eq_some_iff.1 at_k).1
  obtain ⟨j, placed, same⟩ := instruction_of_finish fin (List.getElem?_eq_getElem inside)
  rw [at_k] at same
  cases same
  have address : j.address = ⟨X.native, k⟩ := address_of_place placed
  exact ⟨address, rfl⟩

/-- A draft that was written is among the drafts to lay out. -/
theorem completed_of_draft {d : Draft} (draft : X.drafts[k]? = some d) :
    X.completed[k]? = some d :=
  completed_of_prefix (.refl X) draft

/-- A jump to a label goes to an instruction of the finished code. -/
theorem target_of_finish (fin : X.finish = .ok code) (bounded : X.Bounded) {condition : Operand}
    {label : Label} (draft : X.drafts[k]? = some (.jump condition label)) :
    ∃ t < code.length, X.labels[label.index]? = some (some t) ∧
      code[k]? = some ⟨⟨X.native, k⟩, .jcc, condition, .absent, .address ⟨X.native, t⟩,
        X.commentAt k⟩ := by
  obtain ⟨i, placed, at_k⟩ := instruction_of_finish fin (completed_of_draft draft)
  obtain ⟨t, bound, rfl⟩ := place_jump_eq_ok placed
  exact ⟨t, (finish_eq_ok fin).1 ▸ bounded.lt_length bound, bound, at_k⟩

end Expansion

/-! ## Registries of scripts -/

/-- What the translator of a mnemonic writes, by the widths of registers and the instruction. -/
abbrev Writer := (String → Option Width) → NativeInstruction → Script Unit

/-- The registry of a list of scripts, a later one replacing an earlier one. -/
def Registry.ofScripts (entries : List (String × Writer)) : Registry :=
  .ofList (entries.map fun (mnemonic, script) => (mnemonic, .ofScript script))

/-- The expansion of an instruction before anything is written. -/
def Expansion.opened (e : Environment) (n : NativeInstruction) : Expansion :=
  ⟨e, n.address, some n.text, [], []⟩

namespace Registry

variable {entries : List (String × Writer)} {e : Environment} {n : NativeInstruction}

/-- What a registry of scripts finds under a mnemonic is one of the scripts it was made of. -/
theorem get?_ofScripts {mnemonic : String} {t : Translator}
    (h : (ofScripts entries).get? mnemonic = some t) :
    ∃ script, (mnemonic, script) ∈ entries ∧ t = .ofScript script := by
  obtain ⟨⟨_, script⟩, mem, same⟩ := List.mem_map.1 (SortedMap.mem_of_get?_ofList h)
  cases same
  exact ⟨script, mem, rfl⟩

/-- A translation that succeeds finishes the expansion that a script has written to its end. -/
theorem translate_ofScripts {code : List Instruction} {e' : Environment}
    (h : (ofScripts entries).translate e n = (.ok code, e')) :
    ∃ script X, (n.mnemonic, script) ∈ entries ∧
      (ofScripts entries).get? n.mnemonic = some (.ofScript script) ∧
      (script e.widthOf n).run (.opened e n) = (.ok (), X) ∧ X.finish = .ok code := by
  rw [translate] at h
  cases registered : (ofScripts entries).get? n.mnemonic with
  | none =>
    rw [registered] at h
    cases h
  | some t =>
    obtain ⟨script, mem, rfl⟩ := get?_ofScripts registered
    rw [registered] at h
    have h : Expansion.collect ((script e.widthOf n).run (.opened e n)) = (.ok code, e') := h
    cases ran : (script e.widthOf n).run (.opened e n) with
    | mk result X =>
      rw [ran] at h
      cases result with
      | error error => cases h
      | ok _ => exact ⟨script, X, mem, rfl, ran, congrArg Prod.fst h⟩

end Registry

/--
Code that was laid out for a native instruction: it sits at the address of the instruction, at
consecutive offsets from zero on, and the text of the instruction is the comment of its first
instruction only. Every draft is at its own offset, with at most one instruction behind the last,
and a jump to a label has become a jump to an instruction of this code.
-/
structure LaidOut (n : NativeInstruction) (drafts : List Draft) (code : List Instruction) :
    Prop where
  length : drafts.length ≤ code.length ∧ code.length ≤ drafts.length + 1
  address : ∀ {k : Nat} {i}, code[k]? = some i → i.address = ⟨n.address, k⟩
  comment : ∀ {k : Nat} {i}, code[k]? = some i → i.comment = if k = 0 then some n.text else none
  plain : ∀ {k : Nat} {opcode a b c}, drafts[k]? = some (.plain opcode a b c) →
    ∃ i, code[k]? = some i ∧ i.opcode = opcode ∧ i.op1 = a ∧ i.op2 = b ∧ i.op3 = c
  jump : ∀ {k : Nat} {condition label}, drafts[k]? = some (.jump condition label) →
    ∃ i, ∃ t < code.length, code[k]? = some i ∧ i.opcode = .jcc ∧ i.op1 = condition ∧
      i.op2 = .absent ∧ i.op3 = .address ⟨n.address, t⟩

/-- What a script writes is laid out. -/
theorem LaidOut.of_finish {e : Environment} {n : NativeInstruction} {s : Script Unit}
    {X : Expansion} {code : List Instruction} (ran : s.run (.opened e n) = (.ok (), X))
    (fin : X.finish = .ok code) : LaidOut n X.drafts code := by
  have kept := s.run_keeps (.opened e n)
  have bounded : (s.run (.opened e n)).2.Bounded := s.bounded_run fun l t bound => by cases bound
  rw [ran] at kept bounded
  have native : X.native = n.address := kept.1
  have comment : X.comment = some n.text := kept.2
  refine ⟨?_, fun {k i} at_k => ?_, fun {k i} at_k => ?_, fun {k opcode a b c} draft => ?_,
    fun {k condition label} draft => ?_⟩
  · rw [(Expansion.finish_eq_ok fin).1, Expansion.length_completed, Expansion.size]
    split <;> omega
  · rw [← native]
    exact (Expansion.place_of_instruction fin at_k).1
  · rw [← comment]
    exact (Expansion.place_of_instruction fin at_k).2
  · obtain ⟨i, placed, at_k⟩ :=
      Expansion.instruction_of_finish fin (Expansion.completed_of_draft draft)
    cases placed
    exact ⟨_, at_k, rfl, rfl, rfl, rfl⟩
  · obtain ⟨t, inside, -, at_k⟩ := Expansion.target_of_finish fin bounded draft
    rw [← native]
    exact ⟨_, t, inside, at_k, rfl, rfl, rfl, rfl⟩

/--
A translation that fails leaves the output as it is, whatever scripts are registered. One that
succeeds has carried out a script of the mnemonic to its end, and appends the code that its drafts
are laid out to. The registry of the PowerPC is a registry of scripts.
-/
theorem translation_appends :
    (∀ (entries : List (String × Writer)) (s : Session) (n : NativeInstruction),
      match s.translate (.ofScripts entries) n with
      | (.error _, s') => s'.output = s.output
      | (.ok (), s') => ∃ script X code, (n.mnemonic, script) ∈ entries ∧
        (Registry.ofScripts entries).get? n.mnemonic = some (.ofScript script) ∧
        (script s.environment.widthOf n).run (.opened s.environment n) = (.ok (), X) ∧
        s'.output = s.output ++ code ∧ LaidOut n X.drafts code) ∧
    PowerPC.registry =
      .ofScripts (PowerPC.forms.map fun (mnemonic, form) => (mnemonic, form.script)) := by
  refine ⟨fun entries s n => ?_, ?_⟩
  · rw [Session.translate]
    cases translated : (Registry.ofScripts entries).translate s.environment n with
    | mk result e =>
      cases result with
      | error error => rfl
      | ok code =>
        obtain ⟨script, X, mem, registered, ran, fin⟩ := Registry.translate_ofScripts translated
        exact ⟨script, X, code, mem, registered, ran, rfl, .of_finish ran fin⟩
  · rw [PowerPC.registry, Registry.ofScripts, List.map_map]
    rfl

end RegisterTransfer
