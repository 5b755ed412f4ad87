import RegisterTransfer.Proofs.PowerPC.Bits
import RegisterTransfer.Proofs.PowerPC.Temporaries

/-!
# Overflow and summary in finished code

In the code of every instruction a write of the overflow flag is a move of a flag, and the instruction
behind it merges the overflow flag into the summary flag. Nothing else writes the two or makes them
undefined, and no jump leads in between.

> `Limited.paired`: a script within limits writes such code.
> `Expands.tidy`: so does every instruction that is lifted, and its temporaries have limits.
> `Laid.tidy`: a lifted program is made of such codes.
-/

namespace RegisterTransfer.PowerPC

open Script

variable {T : String → Option Nat}

/-! ## Pairs of instructions -/

/-- A move of a flag to the overflow flag. -/
structure Raises (T : String → Option Nat) (i : Instruction) : Prop where
  opcode : i.opcode = .str
  flag : i.op1.ceiling T ≤ 1
  target : i.op3 = flagOperand overflowFlag

/-- The instruction that sets the summary flag if the overflow flag is set. -/
structure Merges (i : Instruction) : Prop where
  opcode : i.opcode = .or
  first : i.op1 = flagOperand summaryFlag
  second : i.op2 = flagOperand overflowFlag
  target : i.op3 = flagOperand summaryFlag

/-- The second part of a pair changes the summary flag. -/
theorem Merges.changes {i : Instruction} (h : Merges i) : i.Changes summaryFlag := by
  refine ⟨.inl ?_, congrArg Operand.kind h.target⟩
  rw [h.opcode]
  rfl

/-- The first part of a pair changes the overflow flag. -/
theorem Raises.changes {i : Instruction} (h : Raises T i) : i.Changes overflowFlag := by
  refine ⟨.inl ?_, congrArg Operand.kind h.target⟩
  rw [h.opcode]
  rfl

/-- No instruction is both the first and the second part of a pair. -/
theorem Raises.not_merges {i : Instruction} (h : Raises T i) : ¬ Merges i := by
  intro merges
  have := h.opcode.symm.trans merges.opcode
  cases this

/-- What is written at a time: a lawful instruction, or a pair. -/
inductive Phrase (T : String → Option Nat) : List Instruction → Prop
  | single {i} (lawful : Lawful T i) : Phrase T [i]
  | pair {i j} (raises : Raises T i) (merges : Merges j) : Phrase T [i, j]

/--
Instructions that are lawful but for pairs; control jumps to the offsets `entered` only, and to none
between the parts of a pair.
-/
structure Paired (T : String → Option Nat) (entered : Nat → Prop) (body : List Instruction) :
    Prop where
  each : ∀ {k : Nat} {i}, body[k]? = some i → Lawful T i ∨
    (Raises T i ∧ ∃ j, body[k + 1]? = some j ∧ Merges j) ∨
    (Merges i ∧ ∃ l j, k = l + 1 ∧ body[l]? = some j ∧ Raises T j)
  apart : ∀ {t i}, entered t → body[t]? = some i → ¬ Merges i

namespace Paired

variable {entered entered' : Nat → Prop} {body new : List Instruction}

/-- One more phrase, which may be entered at its start. -/
theorem append (h : Paired T entered body) (phrase : Phrase T new)
    (old : ∀ {t}, entered' t → t ≤ body.length ∧ (t < body.length → entered t)) :
    Paired T entered' (body ++ new) := by
  have kept : ∀ {k : Nat} {i}, body[k]? = some i → (body ++ new)[k]? = some i := by
    intro k i at_k
    rw [List.getElem?_append_left (List.getElem?_eq_some_iff.1 at_k).1, at_k]
  have later : ∀ {k : Nat} {i}, (body ++ new)[k]? = some i →
      body[k]? = some i ∨ ∃ l, k = body.length + l ∧ new[l]? = some i := by
    intro k i at_k
    rw [List.getElem?_append] at at_k
    split at at_k
    · exact .inl at_k
    · exact .inr ⟨k - body.length, by omega, at_k⟩
  constructor
  -- every instruction belongs to an old phrase or to the new one
  · intro k i at_k
    rcases later at_k with at_k | ⟨l, rfl, at_l⟩
    · rcases h.each at_k with lawful | ⟨raises, j, next, merges⟩ | ⟨merges, l, j, rfl, before, raises⟩
      · exact .inl lawful
      · exact .inr (.inl ⟨raises, j, kept next, merges⟩)
      · exact .inr (.inr ⟨merges, l, j, rfl, kept before, raises⟩)
    · have shifted : ∀ {l : Nat} {i}, new[l]? = some i → (body ++ new)[body.length + l]? = some i := by
        intro l i at_l
        rw [List.getElem?_append_right (Nat.le_add_right _ _), Nat.add_sub_cancel_left, at_l]
      cases phrase with
      | single lawful =>
        rcases l with _ | l
        · cases at_l
          exact .inl lawful
        · cases at_l
      | @pair i' j raises merges =>
        rcases l with _ | _ | l
        · cases at_l
          exact .inr (.inl ⟨raises, j, @shifted 1 j rfl, merges⟩)
        · cases at_l
          exact .inr (.inr ⟨merges, body.length, i', rfl, @shifted 0 i' rfl, raises⟩)
        · cases at_l
  · intro t i there at_t merges
    obtain ⟨le, known⟩ := old there
    rcases later at_t with at_t | ⟨l, rfl, at_l⟩
    · exact h.apart (known (List.getElem?_eq_some_iff.1 at_t).1) at_t merges
    -- the new phrase is entered at its start only, which is no second part
    · have first : l = 0 := by omega
      subst first
      cases phrase with
      | single lawful =>
        cases at_l
        exact lawful.summary merges.changes
      | pair raises =>
        cases at_l
        exact raises.not_merges merges

end Paired

/-! ## Scripts within limits -/

/-- The outlines of what is written so far, and the offsets at which labels are bound. -/
def PairedSoFar (T : String → Option Nat) (x : Expansion) : Prop :=
  Paired T (fun t => ∃ l : Nat, x.labels[l]? = some (some t)) (x.drafts.map Draft.outline)

/-- One more phrase of drafts. -/
theorem PairedSoFar.append {x y : Expansion} (h : PairedSoFar T x) (bounded : x.Bounded)
    {drafts : List Draft} (written : y.drafts = x.drafts ++ drafts) (labels : y.labels = x.labels)
    (phrase : Phrase T (drafts.map Draft.outline)) : PairedSoFar T y := by
  unfold PairedSoFar
  rw [written, labels, List.map_append]
  refine Paired.append h phrase fun {t} entered => ?_
  obtain ⟨l, bound⟩ := entered
  rw [List.length_map]
  exact ⟨bounded l t bound, fun _ => ⟨l, bound⟩⟩

/-- A script within limits writes lawful instructions and pairs. -/
theorem Limited.paired {α : Type} {Q : α → Prop} {s : Script α} (h : Limited T Q s)
    {x X : Expansion} {a : α} (orderly : s.Orderly x) (bounded : x.Bounded)
    (settles : ∀ d ∈ X.drafts, d.outline.Settles T) (ran : s.run x = (.ok a, X))
    (paired : PairedSoFar T x) : PairedSoFar T X := by
  induction h generalizing x with
  | done =>
    cases ran
    exact paired
  | fail => cases ran
  | allocate _ ih => exact ih _ orderly (bounded.temporary _) ran paired
  | @write opcode a b c s lawful _ ih =>
    have grows : (x.emit opcode a b c).Grows X := by
      have := orderly.2.grows
      rwa [show s.run (x.emit opcode a b c) = _ from ran] at this
    have mem : Draft.plain opcode a b c ∈ X.drafts :=
      grows.drafts.subset (List.mem_append_right _ (List.mem_singleton_self _))
    exact ih (settles _ mem) orderly.2 (bounded.emit opcode a b c) ran
      (paired.append bounded rfl rfl (.single lawful))
  | @overflow a s flag _ ih =>
    let flagged := (x.emit .str a .absent (flagOperand overflowFlag)).emit .or
      (flagOperand summaryFlag) (flagOperand overflowFlag) (flagOperand summaryFlag)
    have drafts : flagged.drafts = x.drafts ++
        [.plain .str a .absent (flagOperand overflowFlag), .plain .or (flagOperand summaryFlag)
          (flagOperand overflowFlag) (flagOperand summaryFlag)] :=
      List.append_assoc ..
    exact ih orderly.2.2 ((bounded.emit _ _ _ _).emit _ _ _ _) ran (paired.append bounded drafts rfl
      (.pair ⟨rfl, flag, rfl⟩ ⟨rfl, rfl, rfl, rfl⟩))
  | create _ ih =>
    refine ih _ orderly bounded.newLabel ran ⟨paired.each, fun {t i} entered => paired.apart ?_⟩
    obtain ⟨l, bound⟩ := entered
    exact ⟨l, Expansion.bound_of_newLabel bound⟩
  | @attach label s _ ih =>
    refine ih orderly.2 (bounded.bind label) ran ⟨paired.each, fun {t i} entered at_t => ?_⟩
    obtain ⟨l, bound⟩ := entered
    have inside : t < x.size := by
      have := (List.getElem?_eq_some_iff.1 at_t).1
      rwa [List.length_map] at this
    -- what is bound here is bound behind everything that is written so far
    rcases Expansion.bound_of_bind bound with ⟨-, here⟩ | ⟨-, old⟩
    · omega
    · exact paired.apart ⟨l, old⟩ at_t
  | @leave a label s _ ih =>
    exact ih orderly.2 (bounded.jumpIf a label) ran
      (paired.append bounded rfl rfl (.single (lawful_of_jcc rfl)))

/-! ## Finished code -/

/-- An instruction and an outline of it, where jumps to labels are outlined without their targets. -/
def Outlines (b i : Instruction) : Prop :=
  i = { b with address := i.address, comment := i.comment } ∨ i.opcode = .jcc ∧ b.opcode = .jcc

namespace Outlines

variable {b i : Instruction}

/-- An instruction is as lawful as its outline. -/
theorem lawful (h : Outlines b i) (lawful : Lawful T b) : Lawful T i := by
  rcases h with same | ⟨jump, -⟩
  · rw [same]
    exact ⟨lawful.heeds, lawful.overflow, lawful.summary⟩
  · exact lawful_of_jcc jump

theorem raises (h : Outlines b i) (raises : Raises T b) : Raises T i := by
  rcases h with same | ⟨-, jump⟩
  · rw [same]
    exact ⟨raises.opcode, raises.flag, raises.target⟩
  · rw [raises.opcode] at jump
    cases jump

/-- Which instructions merge flags can be told from their outlines. -/
theorem merges_iff (h : Outlines b i) : Merges i ↔ Merges b := by
  rcases h with same | ⟨jump, jump'⟩
  · rw [same]
    exact ⟨fun h => ⟨h.opcode, h.first, h.second, h.target⟩,
      fun h => ⟨h.opcode, h.first, h.second, h.target⟩⟩
  · constructor
    · intro merges
      rw [merges.opcode] at jump
      cases jump
    · intro merges
      rw [merges.opcode] at jump'
      cases jump'

theorem settles (h : Outlines b i) (settles : i.Settles T) : b.Settles T := by
  rcases h with same | ⟨-, jump⟩
  · rw [same] at settles
    exact settles
  · intro name w writes
    have := writes.1
    rw [jump] at this
    cases this

end Outlines

/-- Code and an outline of it. -/
structure Outlined (body code : List Instruction) : Prop where
  length : code.length = body.length
  each : ∀ {k : Nat} {i}, code[k]? = some i → ∃ b, body[k]? = some b ∧ Outlines b i

/-- Each outline of a body has its instruction at the same place in the code. -/
theorem Outlined.onward {body code : List Instruction} (h : Outlined body code) {k : Nat}
    {b : Instruction} (at_k : body[k]? = some b) : ∃ i, code[k]? = some i ∧ Outlines b i := by
  have inside : k < code.length := h.length ▸ (List.getElem?_eq_some_iff.1 at_k).1
  have at_k' := List.getElem?_eq_getElem inside
  obtain ⟨b', same, outlines⟩ := h.each at_k'
  rw [at_k] at same
  cases same
  exact ⟨_, at_k', outlines⟩

/-- The instructions of finished code are those that are outlined. -/
theorem outlined_of_finish {X : Expansion} {code : List Instruction} (fin : X.finish = .ok code) :
    Outlined (X.completed.map Draft.outline) code where
  length := by rw [List.length_map, (Expansion.finish_eq_ok fin).1]
  each {k i} at_k := by
    obtain ⟨d, j, draft, laid, same⟩ := Expansion.place_of_finish fin at_k
    refine ⟨d.outline, by rw [List.getElem?_map, draft, Option.map_some], ?_⟩
    cases d with
    | plain opcode op1 op2 op3 =>
      cases laid
      exact .inl (by rw [same]; rfl)
    | jump condition label =>
      obtain ⟨t, -, rfl⟩ := Expansion.place_jump_eq_ok laid
      exact .inr ⟨by rw [same], rfl⟩

/-- What is outlined as lawful instructions and pairs consists of them. -/
theorem Paired.of_outlined {entered : Nat → Prop} {body code : List Instruction}
    (h : Paired T entered body) (outlined : Outlined body code) : Paired T entered code := by
  constructor
  · intro k i at_k
    obtain ⟨b, at_b, outline⟩ := outlined.each at_k
    rcases h.each at_b with lawful | ⟨raises, j, next, merges⟩ | ⟨merges, l, j, rfl, before, raises⟩
    · exact .inl (outline.lawful lawful)
    · obtain ⟨i', next', outline'⟩ := outlined.onward next
      exact .inr (.inl ⟨outline.raises raises, i', next', outline'.merges_iff.2 merges⟩)
    · obtain ⟨i', before', outline'⟩ := outlined.onward before
      exact .inr (.inr ⟨outline.merges_iff.2 merges, l, i', rfl, before', outline'.raises raises⟩)
  · intro t i there at_t merges
    obtain ⟨b, at_b, outline⟩ := outlined.each at_t
    exact h.apart there at_b (outline.merges_iff.1 merges)

/--
Code that is lawful but for pairs, in which control comes to the second part of a pair from the first
one only.
-/
structure Tidy (T : String → Option Nat) (code : List Instruction) : Prop where
  each : ∀ {k : Nat} {i}, code[k]? = some i → Lawful T i ∨
    (Raises T i ∧ ∃ j, code[k + 1]? = some j ∧ Merges j) ∨ Merges i
  arrival : ∀ {k k' : Nat} {j}, Edge code k k' → code[k']? = some j → Merges j →
    ∃ i, code[k]? = some i ∧ Raises T i
  start : ∀ {i}, code[0]? = some i → ¬ Merges i

/-- Paired code is tidy if its inner jumps lead only to offsets that are entered. -/
theorem Paired.tidy {entered : Nat → Prop} {code : List Instruction} (h : Paired T entered code)
    (jumps : ∀ {k : Nat} {i t}, code[k]? = some i → i.opcode = .jcc →
      i.op3.kind = .address ⟨i.address.native, t⟩ → entered t) : Tidy T code := by
  have before : ∀ {k : Nat} {j}, code[k]? = some j → Merges j →
      ∃ l i, k = l + 1 ∧ code[l]? = some i ∧ Raises T i := by
    intro k j at_k merges
    rcases h.each at_k with lawful | ⟨raises, -⟩ | ⟨-, l, i, same, at_l, raises⟩
    · exact absurd merges.changes lawful.summary
    · exact absurd merges raises.not_merges
    · exact ⟨l, i, same, at_l, raises⟩
  constructor
  · intro k i at_k
    exact (h.each at_k).imp id (Or.imp id And.left)
  · intro k k' j edge at_k' merges
    -- control falls from one part of a pair to the other, and no jump leads in between
    cases edge with
    | fall =>
      obtain ⟨l, i, same, at_l, raises⟩ := before at_k' merges
      cases same
      exact ⟨i, at_l, raises⟩
    | jump at_k jump target => exact absurd merges (h.apart (jumps at_k jump target) at_k')
  · intro i at_start merges
    obtain ⟨l, -, same, -⟩ := before at_start merges
    cases same

/-- A last `nop` that a label may need is lawful. -/
theorem PairedSoFar.completed {X : Expansion} (h : PairedSoFar T X) (bounded : X.Bounded) :
    Paired T (fun t => ∃ l : Nat, X.labels[l]? = some (some t)) (X.completed.map Draft.outline) := by
  unfold Expansion.completed
  split
  · rw [List.map_append]
    refine Paired.append h (.single (lawful_of_idle (by decide) (by decide))) fun {t} entered => ?_
    obtain ⟨l, bound⟩ := entered
    rw [List.length_map]
    exact ⟨bounded l t bound, fun _ => ⟨l, bound⟩⟩
  · exact h

/-- An instruction of tidy code, whose temporaries have the limits that it settles, heeds them all. -/
theorem Tidy.heeds {strict : Bool} {code : List Instruction} (h : Tidy T code)
    (limits : BitLimits strict T) {i : Instruction} (mem : i ∈ code) (settles : i.Settles T) :
    i.Heeds T := by
  intro name w l writes limit
  cases temporary : isTemporary name with
  | true =>
    rw [settles writes temporary] at limit
    cases limit
    exact Nat.le_refl _
  | false =>
    obtain ⟨k, at_k⟩ := List.getElem?_of_mem mem
    have kept := limit
    rw [limits.native temporary] at kept
    -- outside a pair nothing is limited but by the instruction itself, and a pair has flags
    rcases h.each at_k with lawful | ⟨raises, -⟩ | merges
    · exact lawful.heeds writes temporary limit
    · obtain ⟨rfl, -, -⟩ := eq_one_of_bitLimits kept
      rw [Instruction.ceiling, raises.opcode]
      exact Nat.le_trans (Nat.min_le_left _ _) raises.flag
    · obtain ⟨rfl, strict, -⟩ := eq_one_of_bitLimits kept
      have summary := limits.ceiling (@bitRegister_flag summaryFlag (by simp)) strict
      have overflow := limits.ceiling (@bitRegister_flag overflowFlag (by simp)) strict
      rw [Instruction.ceiling, merges.opcode, merges.first, merges.second]
      exact Nat.le_of_eq (Opcode.ceiling_flags (.inl rfl) summary overflow)

/-- The code of every instruction is tidy, and its temporaries have limits. -/
theorem Expands.tidy {count : Nat} {n : NativeInstruction} {operation : Operation} {X : Expansion}
    {code : List Instruction} (h : Expands count n operation X code) (strict : Bool) :
    ∃ T, Limits (bitLimits strict) T code ∧ Tidy T code := by
  obtain ⟨T, native, settles⟩ := h.single.2.exists_limits (bitLimits strict)
  have limits : BitLimits strict T := ⟨native⟩
  have outlined := outlined_of_finish h.finished
  have bounded : (blank count n).Bounded := by simp [Expansion.Bounded, blank]
  have bounded' : X.Bounded := by
    have := bounded_run (operation.expand n.mnemonic n.address) bounded
    rwa [h.ran] at this
  have settled : ∀ d ∈ X.drafts, d.outline.Settles T := by
    intro d mem name w writes temporary
    obtain ⟨k, at_k⟩ := List.getElem?_of_mem mem
    have at_k' : (X.completed.map Draft.outline)[k]? = some d.outline := by
      rw [List.getElem?_map, Expansion.completed_of_prefix (.refl X) at_k, Option.map_some]
    obtain ⟨i, at_i, outlines⟩ := outlined.onward at_k'
    exact outlines.settles (settles i (List.mem_of_getElem? at_i)) writes temporary
  obtain ⟨form, mem, decoded⟩ := h.decoded
  have bitwise := Operation.bitwise_of_decode (bitwise_of_mem_forms _ mem) decoded
  have drafts : PairedSoFar T X :=
    (Operation.limited bitwise limits _ _).paired h.orderly bounded settled h.ran
      ⟨by simp [blank], by simp [blank]⟩
  obtain ⟨Γ, held, -, annotated⟩ := h.annotated
  -- jumps inside the code lead to where a label is bound
  have tidy : Tidy T code := by
    refine ((drafts.completed bounded').of_outlined outlined).tidy fun {k i t} at_k jump target => ?_
    obtain ⟨-, label, -, bound, -⟩ := annotated.jump_of_finish h.finished at_k jump target
    exact ⟨label.index, bound⟩
  exact ⟨T, ⟨native, fun mem => tidy.heeds limits mem (settles _ mem), h.single.2.dominated⟩, tidy⟩

/-- A lifted program is made of tidy codes. -/
theorem Laid.tidy {block : List NativeInstruction} {p : Program} (h : Laid block p)
    (strict : Bool) : p.Tiled fun code => ∃ T, Limits (bitLimits strict) T code ∧ Tidy T code where
  grounded := h.grounded
  tile there := by
    obtain ⟨n, mem, address⟩ := h.covered there
    obtain ⟨count, operation, X, code, expands, placed⟩ := h.placed n mem
    exact ⟨code, address ▸ placed, address ▸ expands.enclosed, expands.tidy strict⟩

end RegisterTransfer.PowerPC
