import RegisterTransfer.Proofs.Names

/-!
# Names of registers

What is read as the name of a general purpose register, and what as the name of a condition field. A
percent sign may stand in front and a plus sign before the number, and the number may begin with
zeros, so every register has infinitely many names. No name is read as both.

> `Text.byte?_eq_some_iff`: which characters are read as a small number.
> `PowerPC.gpr?_eq_some_iff`, `PowerPC.conditionField?_eq_some_iff`: the names, as a grammar.
> `PowerPC.conditionField?_of_gpr?`: no register is a condition field.
-/

namespace RegisterTransfer

/-! ## Numbers -/

namespace Text

/-- A number in decimal. Zeros may stand in front, and before them a plus sign. -/
inductive Numeral : List Char → Nat → Prop
  | plain {digits : List Char} (written : digits ≠ []) (each : ∀ c ∈ digits, c.isDigit) :
    Numeral digits (Nat.ofDigitChars 10 digits 0)
  | signed {digits : List Char} (written : digits ≠ []) (each : ∀ c ∈ digits, c.isDigit) :
    Numeral ('+' :: digits) (Nat.ofDigitChars 10 digits 0)

/-- Digits are read exactly if there are some and nothing else, as the number that they denote. -/
theorem digits?_eq_some_iff {cs : List Char} {v : Nat} :
    digits? cs = some v ↔
      cs ≠ [] ∧ (∀ c ∈ cs, c.isDigit) ∧ Nat.ofDigitChars 10 cs 0 = v := by
  have read : (!cs.isEmpty && cs.all isDigit) = true ↔ cs ≠ [] ∧ ∀ c ∈ cs, c.isDigit := by
    simp only [Bool.and_eq_true, Bool.not_eq_true', List.isEmpty_eq_false_iff, List.all_eq_true,
      isDigit_eq, ne_eq]
  unfold digits?
  split
  · next accepted =>
    rw [Option.some_inj, digitsValue_eq]
    exact ⟨fun value => ⟨(read.1 accepted).1, (read.1 accepted).2, value⟩, fun h => h.2.2⟩
  · next refused =>
    exact ⟨nofun, fun h => absurd (read.2 ⟨h.1, h.2.1⟩) refused⟩

/-- A sign is not a digit, so it is clear whether there is one. -/
theorem byte?_eq_some_iff {cs : List Char} {v : Nat} :
    byte? cs = some v ↔ Numeral cs v ∧ v ≤ 255 := by
  unfold byte?
  rw [Option.filter_eq_some_iff, decide_eq_true_eq]
  refine and_congr_left fun _ => ?_
  split
  · next rest =>
    rw [digits?_eq_some_iff]
    constructor
    · rintro ⟨written, each, rfl⟩
      exact .signed written each
    · intro numeral
      cases numeral with
      | plain written each => exact absurd (each '+' List.mem_cons_self) (by decide)
      | signed written each => exact ⟨written, each, rfl⟩
  · next unsigned =>
    rw [digits?_eq_some_iff]
    constructor
    · rintro ⟨written, each, rfl⟩
      exact .plain written each
    · intro numeral
      cases numeral with
      | plain written each => exact ⟨written, each, rfl⟩
      | signed => exact absurd rfl (unsigned _)

end Text

namespace PowerPC

/-! ## Names -/

/-- Letters and a number, and perhaps a percent sign in front. -/
def Designates (letters : List Char) (name : String) (i : Nat) : Prop :=
  ∃ percent ∈ [[], ['%']], ∃ number, Text.Numeral number i ∧
    name.toList = percent ++ letters ++ number

theorem below?_eq_some_iff {n k : Nat} {i : Fin n} : below? n k = some i ↔ k = i := by
  unfold below?
  split
  · rw [Option.some_inj, Fin.ext_iff]
  · next beyond =>
    refine ⟨nofun, fun same => absurd ?_ beyond⟩
    rw [same]
    exact i.isLt

/-- A number below a bound is read exactly where its numeral stands. -/
theorem number_eq_some_iff {n : Nat} (small : n ≤ 256) {cs : List Char} {i : Fin n} :
    (Text.byte? cs).bind (below? n) = some i ↔ Text.Numeral cs i := by
  simp only [Option.bind_eq_some_iff, Text.byte?_eq_some_iff, below?_eq_some_iff]
  constructor
  · rintro ⟨v, ⟨numeral, -⟩, rfl⟩
    exact numeral
  · intro numeral
    exact ⟨i, ⟨numeral, by omega⟩, rfl⟩

/-- One percent sign is dropped, if there is one. -/
theorem dropPercent_eq_cons_iff {c : Char} (ne : c ≠ '%') {cs rest : List Char} :
    dropPercent cs = c :: rest ↔ ∃ percent ∈ [[], ['%']], cs = percent ++ c :: rest := by
  simp only [List.mem_cons, List.not_mem_nil, or_false, exists_eq_or_imp, exists_eq_left,
    List.nil_append, List.cons_append]
  unfold dropPercent
  split
  · next tail =>
    constructor
    · rintro rfl
      exact .inr rfl
    · rintro (same | same)
      · exact absurd (List.cons.inj same).1.symm ne
      · exact (List.cons.inj same).2
  · next unmarked =>
    constructor
    · exact .inl
    · rintro (same | same)
      · exact same
      · exact absurd same (unmarked _)

/--
A name designates a register if its letters match, with or without a percent sign in front, and a
numeral follows.
-/
theorem designates_iff {c : Char} (ne : c ≠ '%') {letters : List Char} {name : String} {i : Nat} :
    Designates (c :: letters) name i ↔
      ∃ number, dropPercent name.toList = c :: (letters ++ number) ∧ Text.Numeral number i := by
  simp only [dropPercent_eq_cons_iff ne]
  constructor
  · rintro ⟨percent, mem, number, numeral, letters⟩
    exact ⟨number, ⟨percent, mem, by rw [letters, List.append_assoc, List.cons_append]⟩, numeral⟩
  · rintro ⟨number, ⟨percent, mem, letters⟩, numeral⟩
    exact ⟨percent, mem, number, numeral, by rw [letters, List.append_assoc, List.cons_append]⟩

/-- The names of general purpose registers. -/
theorem gpr?_eq_some_iff {name : String} {r : Gpr} :
    gpr? name = some r ↔ Designates ['r'] name r := by
  rw [designates_iff (by decide)]
  unfold gpr?
  split
  · next number letters =>
    rw [number_eq_some_iff (by decide), letters]
    simp
  · next other =>
    refine ⟨nofun, ?_⟩
    rintro ⟨number, letters, -⟩
    exact absurd letters (other number)

/-- The names of condition fields. -/
theorem conditionField?_eq_some_iff {name : String} {field : ConditionField} :
    conditionField? name = some field ↔ Designates ['c', 'r'] name field := by
  rw [designates_iff (by decide)]
  unfold conditionField?
  split
  · next number letters =>
    rw [number_eq_some_iff (by decide), letters]
    simp
  · next other =>
    refine ⟨nofun, ?_⟩
    rintro ⟨number, letters, -⟩
    exact absurd letters (other number)

/-- No register is a condition field: behind the percent sign the names begin with other letters. -/
theorem conditionField?_of_gpr? {name : String} {r : Gpr} (h : gpr? name = some r) :
    conditionField? name = none := by
  obtain ⟨number, letters, -⟩ := (designates_iff (by decide)).1 (gpr?_eq_some_iff.1 h)
  unfold conditionField?
  rw [letters]
  rfl

end PowerPC

end RegisterTransfer
