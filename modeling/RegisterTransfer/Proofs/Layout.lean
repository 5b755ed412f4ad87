import RegisterTransfer.Lifting.Script

/-!
# Layout of expansions

How an expansion grows while a script writes it, and what it is finished to. Scripts are taken to be
orderly (`Script.Orderly`): labels are bound once, after every jump to them, and no other jump names
an offset. Then every label that is bound points at an instruction of the finished code.

> `Script.Orderly.grows`: an orderly script lets an expansion grow.
> `Expansion.finish_eq_ok`: every draft becomes the instruction at its own offset.
> `Expansion.finish_isOk_iff`: finishing fails only at a jump to a label that was never bound.
-/

namespace RegisterTransfer

/-- What is in a list with one more element was there before, or is that element. -/
theorem eq_of_getElem?_concat {α : Type} {l : List α} {a b : α} {k : Nat}
    (h : (l ++ [a])[k]? = some b) : l[k]? = some b ∨ k = l.length ∧ b = a := by
  rw [List.getElem?_append] at h
  split at h
  · exact .inl h
  · next outside =>
    rw [List.getElem?_singleton, Option.ite_none_right_eq_some] at h
    obtain ⟨first, same⟩ := h
    cases same
    exact .inr ⟨by omega, rfl⟩

namespace Expansion

/-! ## One more draft or label -/

theorem size_emit (x : Expansion) (opcode : Opcode) (op1 op2 op3 : Operand) :
    (x.emit opcode op1 op2 op3).size = x.size + 1 := by simp [size, emit]

theorem size_jumpIf (x : Expansion) (condition : Operand) (label : Label) :
    (x.jumpIf condition label).size = x.size + 1 := by simp [size, jumpIf]

/-- A new label is not bound yet. -/
theorem bound_of_newLabel {x : Expansion} {l t : Nat}
    (bound : x.newLabel.2.labels[l]? = some (some t)) : x.labels[l]? = some (some t) := by
  rcases eq_of_getElem?_concat bound with old | ⟨-, new⟩
  · exact old
  · cases new

/-- A label is bound to the end, behind everything written, and the others stay as they are. -/
theorem bound_of_bind {x : Expansion} {label : Label} {l t : Nat}
    (bound : (x.bind label).labels[l]? = some (some t)) :
    label.index = l ∧ t = x.size ∨ label.index ≠ l ∧ x.labels[l]? = some (some t) := by
  by_cases same : label.index = l
  · subst same
    have inside : label.index < x.labels.length := by
      have := (List.getElem?_eq_some_iff.1 bound).1
      simpa [bind] using this
    simp only [bind, List.getElem?_set_self inside, Option.some.injEq] at bound
    exact .inl ⟨rfl, bound.symm⟩
  · simp only [bind, List.getElem?_set_ne same] at bound
    exact .inr ⟨same, bound⟩

/-! ## Growth of an expansion -/

/-- Bindings of labels are compared by equality, so it is decidable whether one is among others. -/
@[instance] theorem lawful_binding : LawfulBEq (Option Nat) := inferInstance

/--
How an expansion may have grown: what is written stays, a bound label stays where it is, and an open
label is bound further on if at all.
-/
structure Grows (x y : Expansion) : Prop where
  native : y.native = x.native
  drafts : x.drafts <+: y.drafts
  labels : x.labels.length ≤ y.labels.length
  bound : ∀ {l t : Nat}, x.labels[l]? = some (some t) → y.labels[l]? = some (some t)
  later : ∀ {l t : Nat}, x.labels[l]? = some none → y.labels[l]? = some (some t) → x.size ≤ t

theorem Grows.size {x y : Expansion} (h : x.Grows y) : x.size ≤ y.size := h.drafts.length_le

theorem Grows.refl (x : Expansion) : x.Grows x where
  native := rfl
  drafts := List.prefix_refl _
  labels := Nat.le_refl _
  bound h := h
  later h h' := by rw [h] at h'; cases h'

theorem Grows.trans {x y z : Expansion} (h : x.Grows y) (h' : y.Grows z) : x.Grows z where
  native := h'.native.trans h.native
  drafts := h.drafts.trans h'.drafts
  labels := Nat.le_trans h.labels h'.labels
  bound hb := h'.bound (h.bound hb)
  later {l t} hx hz := by
    have inside : l < y.labels.length := by
      have := (List.getElem?_eq_some_iff.1 hx).1
      have := h.labels
      omega
    -- the label was bound on the first stretch, or is open until the second
    cases hy : y.labels[l] with
    | none =>
      have open_there : y.labels[l]? = some none := by rw [List.getElem?_eq_getElem inside, hy]
      exact Nat.le_trans h.size (h'.later open_there hz)
    | some u =>
      have bound_there : y.labels[l]? = some (some u) := by
        rw [List.getElem?_eq_getElem inside, hy]
      have same : some (some u) = some (some t) := by rw [← h'.bound bound_there, hz]
      cases same
      exact h.later hx bound_there

/-- A temporary leaves no trace in what is laid out. -/
theorem grows_temporary (x : Expansion) (w : Width) : x.Grows (x.temporary w).2 :=
  ⟨rfl, List.prefix_refl _, Nat.le_refl _, fun h => h, fun h h' => by
    rw [show (x.temporary w).2.labels = x.labels from rfl, h] at h'
    cases h'⟩

/-- An instruction goes behind all others. -/
theorem grows_emit (x : Expansion) (opcode : Opcode) (op1 op2 op3 : Operand) :
    x.Grows (x.emit opcode op1 op2 op3) :=
  ⟨rfl, List.prefix_append _ _, Nat.le_refl _, fun h => h, fun h h' => by
    rw [show (x.emit opcode op1 op2 op3).labels = x.labels from rfl, h] at h'
    cases h'⟩

theorem grows_jumpIf (x : Expansion) (condition : Operand) (label : Label) :
    x.Grows (x.jumpIf condition label) :=
  ⟨rfl, List.prefix_append _ _, Nat.le_refl _, fun h => h, fun h h' => by
    rw [show (x.jumpIf condition label).labels = x.labels from rfl, h] at h'
    cases h'⟩

/-- A new label is open, so it changes none of the others. -/
theorem grows_newLabel (x : Expansion) : x.Grows x.newLabel.2 where
  native := rfl
  drafts := List.prefix_refl _
  labels := by simp [newLabel]
  bound {l t} h := by
    have := (List.getElem?_eq_some_iff.1 h).1
    simp only [newLabel, List.getElem?_append_left this, h]
  later {l t} h h' := by
    have := (List.getElem?_eq_some_iff.1 h).1
    simp [newLabel, List.getElem?_append_left this, h] at h'

/-- Binding an open label to the end leaves bound labels where they are. -/
theorem grows_bind {x : Expansion} {label : Label} (h : x.labels[label.index]? = some none) :
    x.Grows (x.bind label) where
  native := rfl
  drafts := List.prefix_refl _
  labels := by simp [bind]
  bound {l t} hl := by
    have ne : label.index ≠ l := by
      intro same
      subst same
      rw [h] at hl
      cases hl
    simp only [bind, List.getElem?_set_ne ne, hl]
  later {l t} hl ht := by
    rcases bound_of_bind ht with ⟨-, here⟩ | ⟨-, old⟩
    · exact Nat.le_of_eq here.symm
    · rw [hl] at old
      cases old

/-- No label is bound behind the end. -/
def Bounded (x : Expansion) : Prop := ∀ l t : Nat, x.labels[l]? = some (some t) → t ≤ x.size

theorem Bounded.temporary {x : Expansion} (h : x.Bounded) (w : Width) :
    (x.temporary w).2.Bounded := h

theorem Bounded.emit {x : Expansion} (h : x.Bounded) (opcode : Opcode) (op1 op2 op3 : Operand) :
    (x.emit opcode op1 op2 op3).Bounded :=
  fun l t bound => Nat.le_trans (h l t bound) (x.grows_emit ..).size

theorem Bounded.jumpIf {x : Expansion} (h : x.Bounded) (condition : Operand) (label : Label) :
    (x.jumpIf condition label).Bounded :=
  fun l t bound => Nat.le_trans (h l t bound) (x.grows_jumpIf ..).size

theorem Bounded.newLabel {x : Expansion} (h : x.Bounded) : x.newLabel.2.Bounded :=
  fun l t bound => h l t (bound_of_newLabel bound)

/-- A label is bound to the end, which is not behind the end. -/
theorem Bounded.bind {x : Expansion} (h : x.Bounded) (label : Label) :
    (x.bind label).Bounded := by
  intro l t bound
  rcases bound_of_bind bound with ⟨-, here⟩ | ⟨-, old⟩
  · exact Nat.le_of_eq here
  · exact h l t old

end Expansion

/-! ## Orderly scripts -/

namespace Script

variable {α β : Type}

/--
Labels are jumped to and bound while they are open, so all jumps inside the expansion go forward;
no other jump names an offset.
-/
def Orderly : Script α → Expansion → Prop
  | done _, _ | fail _, _ => True
  | allocate width next, x => (next (x.temporary width).1).Orderly (x.temporary width).2
  | write opcode op1 op2 op3 next, x =>
    (opcode = .jcc → ∀ target, op3.kind ≠ .address target) ∧
      next.Orderly (x.emit opcode op1 op2 op3)
  | create next, x => (next x.newLabel.1).Orderly x.newLabel.2
  | attach label next, x =>
    x.labels[label.index]? = some none ∧ next.Orderly (x.bind label)
  | leave condition label next, x =>
    x.labels[label.index]? = some none ∧ next.Orderly (x.jumpIf condition label)

/-- What an orderly script does to an expansion. -/
theorem Orderly.grows {s : Script α} {x : Expansion} (h : s.Orderly x) :
    x.Grows (s.run x).2 := by
  induction s generalizing x with
  | done | fail => exact .refl x
  | allocate width next ih => exact (x.grows_temporary width).trans (ih _ h)
  | write opcode op1 op2 op3 next ih => exact (x.grows_emit opcode op1 op2 op3).trans (ih h.2)
  | create next ih => exact x.grows_newLabel.trans (ih _ h)
  | attach label next ih => exact (Expansion.grows_bind h.1).trans (ih h.2)
  | leave condition label next ih => exact (x.grows_jumpIf condition label).trans (ih h.2)

/-- No script binds a label behind the end. -/
theorem bounded_run (s : Script α) {x : Expansion} (h : x.Bounded) : (s.run x).2.Bounded := by
  induction s generalizing x with
  | done | fail => exact h
  | allocate width next ih => exact ih _ (h.temporary width)
  | write opcode op1 op2 op3 next ih => exact ih (h.emit opcode op1 op2 op3)
  | create next ih => exact ih _ h.newLabel
  | attach label next ih => exact ih (h.bind label)
  | leave condition label next ih => exact ih (h.jumpIf condition label)

end Script

/-! ## Layout -/

/-- The label that a draft jumps to. -/
def Draft.target? : Draft → Option Label
  | .plain _ _ _ _ => none
  | .jump _ label => some label

namespace Expansion

variable {x X : Expansion} {code : List Instruction}

/-- A jump to a label is laid out only if the label is bound. -/
theorem place_jump_eq_ok {offset : Nat} {condition : Operand} {label : Label} {i : Instruction}
    (h : X.place offset (.jump condition label) = .ok i) :
    ∃ t, X.labels[label.index]? = some (some t) ∧
      i = ⟨⟨X.native, offset⟩, .jcc, condition, .absent, .address ⟨X.native, t⟩, none⟩ := by
  simp only [place] at h
  split at h
  · next t bound =>
    cases h
    exact ⟨t, bound, rfl⟩
  · cases h

/-- Every draft is laid out at its own offset. -/
theorem layout_eq_ok {drafts : List Draft} {offset : Nat}
    (h : X.layout offset drafts = .ok code) :
    code.length = drafts.length ∧
      ∀ {k d}, drafts[k]? = some d → ∃ i, X.place (offset + k) d = .ok i ∧ code[k]? = some i := by
  induction drafts generalizing offset code with
  | nil =>
    cases h
    exact ⟨rfl, fun h => by simp at h⟩
  | cons draft rest ih =>
    rw [layout] at h
    cases hp : X.place offset draft with
    | error e => simp [hp, Bind.bind, Except.bind] at h
    | ok i =>
      cases hl : X.layout (offset + 1) rest with
      | error e => simp [hp, hl, Bind.bind, Except.bind] at h
      | ok tail =>
        simp only [hp, hl, Bind.bind, Except.bind, pure, Except.pure, Except.ok.injEq] at h
        subst h
        obtain ⟨length, each⟩ := ih hl
        refine ⟨by simp [length], fun {k d} hd => ?_⟩
        cases k with
        | zero =>
          cases hd
          exact ⟨i, hp, rfl⟩
        | succ k =>
          obtain ⟨j, hj, at_k⟩ := each hd
          exact ⟨j, by rw [show offset + (k + 1) = offset + 1 + k by omega]; exact hj, at_k⟩

/-- A finished expansion holds the instruction of every draft, up to its comment. -/
theorem finish_eq_ok (h : X.finish = .ok code) :
    code.length = X.completed.length ∧
      ∀ {k d}, X.completed[k]? = some d →
        ∃ i comment, X.place k d = .ok i ∧ code[k]? = some { i with comment } := by
  unfold finish at h
  cases hl : X.layout 0 X.completed with
  | error e => simp [hl, Bind.bind, Except.bind] at h
  | ok laid =>
    simp only [hl, Bind.bind, Except.bind, pure, Except.pure, Except.ok.injEq] at h
    subst h
    obtain ⟨length, each⟩ := layout_eq_ok hl
    cases laid with
    | nil =>
      refine ⟨length, fun {k d} hd => ?_⟩
      obtain ⟨i, -, at_k⟩ := each hd
      simp at at_k
    | cons first rest =>
      refine ⟨length, fun {k d} hd => ?_⟩
      obtain ⟨i, hi, at_k⟩ := each hd
      rw [Nat.zero_add] at hi
      cases k with
      | zero =>
        cases at_k
        exact ⟨first, X.comment, hi, rfl⟩
      | succ k => exact ⟨i, i.comment, hi, at_k⟩

/-- A draft has an instruction exactly if the label it jumps to is bound. -/
theorem place_isOk_iff {offset : Nat} {draft : Draft} :
    (∃ i, X.place offset draft = .ok i) ↔
      ∀ label, draft.target? = some label → ∃ t, X.labels[label.index]? = some (some t) := by
  cases draft with
  | plain opcode op1 op2 op3 => simp [place, Draft.target?]
  | jump condition label =>
    constructor
    · intro found other e
      obtain ⟨i, h⟩ := found
      cases e
      obtain ⟨t, bound, -⟩ := place_jump_eq_ok h
      exact ⟨t, bound⟩
    · intro h
      obtain ⟨t, bound⟩ := h label rfl
      refine ⟨⟨⟨X.native, offset⟩, .jcc, condition, .absent, .address ⟨X.native, t⟩, none⟩, ?_⟩
      simp only [place, bound]

/-- Drafts can be laid out if every label they jump to is bound. -/
theorem layout_isOk_iff {drafts : List Draft} {offset : Nat} :
    (∃ code, X.layout offset drafts = .ok code) ↔
      ∀ label, some label ∈ drafts.map Draft.target? →
        ∃ t, X.labels[label.index]? = some (some t) := by
  induction drafts generalizing offset with
  | nil => simp [layout]
  | cons draft rest ih =>
    have both : (∃ code, X.layout offset (draft :: rest) = .ok code) ↔
        (∃ i, X.place offset draft = .ok i) ∧ ∃ code, X.layout (offset + 1) rest = .ok code := by
      rw [layout]
      cases X.place offset draft with
      | error e => simp [Bind.bind, Except.bind]
      | ok i =>
        cases X.layout (offset + 1) rest with
        | error e => simp [Bind.bind, Except.bind]
        | ok code => simp [Bind.bind, Except.bind, pure, Except.pure]
    rw [both, place_isOk_iff, ih]
    constructor
    · intro found label mem
      obtain ⟨first, others⟩ := found
      rcases List.mem_cons.1 mem with e | mem
      · exact first label e.symm
      · exact others label mem
    · intro every
      exact ⟨fun label e => every label (e ▸ List.mem_cons_self ..),
        fun label mem => every label (List.mem_cons_of_mem _ mem)⟩

/-- An expansion finishes exactly if every label that is jumped to is bound. -/
theorem finish_isOk_iff :
    (∃ code, X.finish = .ok code) ↔
      ∀ label, some label ∈ X.drafts.map Draft.target? →
        ∃ t, X.labels[label.index]? = some (some t) := by
  have same : ∀ label, some label ∈ X.completed.map Draft.target? ↔
      some label ∈ X.drafts.map Draft.target? := by
    intro label
    unfold completed
    split <;> simp [Draft.target?]
  have laid : (∃ code, X.layout 0 X.completed = .ok code) ↔ _ := layout_isOk_iff
  simp only [← same, ← laid]
  unfold finish
  cases X.layout 0 X.completed <;> simp [Bind.bind, Except.bind, pure, Except.pure]

/-- What is written stays in its place in the finished expansion. -/
theorem completed_of_prefix (h : x.Grows X) {k : Nat} {d : Draft} (hd : x.drafts[k]? = some d) :
    X.completed[k]? = some d := by
  have written : X.drafts[k]? = some d := by
    obtain ⟨rest, e⟩ := h.drafts
    rw [← e, List.getElem?_append_left (List.getElem?_eq_some_iff.1 hd).1, hd]
  unfold completed
  split
  · rw [List.getElem?_append_left (List.getElem?_eq_some_iff.1 written).1, written]
  · exact written

/-- An expansion is as long as what was written, and one longer if a label is bound to its end. -/
theorem length_completed (X : Expansion) :
    X.completed.length = if some X.size ∈ X.labels then X.size + 1 else X.size := by
  unfold completed
  split <;> simp [size]

/-- Every label that is bound points at an instruction. -/
theorem Bounded.lt_length (h : X.Bounded) {l t : Nat} (bound : X.labels[l]? = some (some t)) :
    t < X.completed.length := by
  have le : t ≤ X.size := h l t bound
  rw [length_completed]
  split
  · omega
  · next absent =>
    have ne : t ≠ X.size := by
      intro same
      subst same
      exact absent (List.mem_of_getElem? bound)
    omega

end Expansion

end RegisterTransfer
