import RegisterTransfer.Proofs.Appending
import RegisterTransfer.Proofs.Footprints
import RegisterTransfer.Proofs.Labels

/-!
# Calculations

A calculation takes temporaries and gives each of them a value before it takes the next. It has no
labels, does not jump and does not give up, so what it writes is a line of instructions that each
give a new temporary its value.

> `Script.Calculates.ends`: a calculation ends, and what it writes comes behind what was written.
> `Script.Calculates.register?_walk`: nothing but the program counter and the temporaries it took
> changes.
> `Script.Calculates.addWithCarry`, `Script.Calculates.signedLess`, `Script.Calculates.magnitude`: the
> addition, the comparisons and the changes of sign are calculations.
-/

namespace RegisterTransfer

/-- An instruction that is no jump to a label. -/
def Draft.Plain : Draft → Prop
  | plain .. => True
  | jump .. => False

/-- An expansion with temporaries taken and instructions written behind another, and no labels. -/
structure Expansion.Extends (x X : Expansion) : Prop where
  native : X.native = x.native
  comment : X.comment = x.comment
  labels : X.labels = x.labels
  taken : x.taken ≤ X.taken
  drafts : ∃ more, X.drafts = x.drafts ++ more ∧ ∀ d ∈ more, d.Plain

namespace Expansion.Extends

variable {x y X : Expansion}

/-- An expansion in which nothing more is written. -/
theorem of_drafts (native : X.native = x.native) (comment : X.comment = x.comment)
    (labels : X.labels = x.labels) (taken : x.taken ≤ X.taken) (drafts : X.drafts = x.drafts) :
    x.Extends X :=
  ⟨native, comment, labels, taken, [], by rw [drafts, List.append_nil], by simp⟩

theorem refl (x : Expansion) : x.Extends x := of_drafts rfl rfl rfl (Nat.le_refl _) rfl

theorem trans (h : x.Extends y) (h' : y.Extends X) : x.Extends X := by
  obtain ⟨first, written, plain⟩ := h.drafts
  obtain ⟨second, written', plain'⟩ := h'.drafts
  refine ⟨h'.native.trans h.native, h'.comment.trans h.comment, h'.labels.trans h.labels,
    Nat.le_trans h.taken h'.taken, first ++ second, ?_, fun d mem => ?_⟩
  · rw [written', written, List.append_assoc]
  · rcases List.mem_append.1 mem with mem | mem
    · exact plain d mem
    · exact plain' d mem

theorem size (h : x.Extends X) : x.size ≤ X.size := by
  obtain ⟨more, written, -⟩ := h.drafts
  rw [Expansion.size, Expansion.size, written, List.length_append]
  exact Nat.le_add_right _ _

/-- What was written stays where it was. -/
theorem draft (h : x.Extends X) {k : Nat} {d : Draft} (at_k : x.drafts[k]? = some d) :
    X.drafts[k]? = some d := by
  obtain ⟨more, written, -⟩ := h.drafts
  rw [written, List.getElem?_append_left (List.getElem?_eq_some_iff.1 at_k).1, at_k]

end Expansion.Extends

theorem Expansion.extends_temporary (x : Expansion) (w : Width) : x.Extends (x.temporary w).2 :=
  .of_drafts rfl rfl rfl (Nat.le_succ _) rfl

/--
An instruction that is written extends an expansion by one draft, which is no jump to a label.
-/
theorem Expansion.extends_emit (x : Expansion) (opcode : Opcode) (a b c : Operand) :
    x.Extends (x.emit opcode a b c) := by
  refine ⟨rfl, rfl, rfl, Nat.le_refl _, [.plain opcode a b c], rfl, fun d mem => ?_⟩
  rw [List.mem_singleton.1 mem]
  trivial

namespace Script

variable {α β : Type} {s : Script α} {f : α → Script β} {pending : Option Operand}
  {x X : Expansion}

/--
Temporaries are taken one at a time, and each is given its value before the next is taken; `pending`
is the one that has none yet.
-/
def Calculates : Script α → Option Operand → Prop
  | done _, pending => pending = none
  | allocate w next, pending => pending = none ∧
    ∀ k, (next (.register (temporaryName k) w)).Calculates (some (.register (temporaryName k) w))
  | write opcode _ _ c next, pending =>
    opcode.writesRegister ∧ pending = some c ∧ next.Calculates none
  | fail _, _ | create _, _ | attach _ _, _ | leave _ _ _, _ => False

namespace Calculates

/-- What follows a calculation starts with no temporary pending. -/
theorem bind (h : s.Calculates pending) (next : ∀ a, (f a).Calculates none) :
    (s >>= f).Calculates pending := by
  show (s.andThen f).Calculates pending
  induction s generalizing pending with
  | done a =>
    have nothing : pending = none := h
    subst nothing
    exact next a
  | allocate w rest ih => exact ⟨h.1, fun k => ih _ (h.2 k)⟩
  | write opcode a b c rest ih => exact ⟨h.1, h.2.1, ih h.2.2⟩
  | fail | create | attach | leave => cases h

/-- A calculation runs to its end, behind what is written already. -/
theorem ends (h : s.Calculates pending) (x : Expansion) :
    ∃ a X, s.run x = (.ok a, X) ∧ x.Extends X := by
  induction s generalizing pending x with
  | done a => exact ⟨a, x, rfl, .refl x⟩
  | allocate w next ih =>
    obtain ⟨a, X, ran, behind⟩ := ih _ (h.2 x.taken) (x.temporary w).2
    exact ⟨a, X, ran, (x.extends_temporary w).trans behind⟩
  | write opcode a b c next ih =>
    obtain ⟨r, X, ran, behind⟩ := ih h.2.2 (x.emit opcode a b c)
    exact ⟨r, X, ran, (x.extends_emit opcode a b c).trans behind⟩
  | fail | create | attach | leave => cases h

/-- However a calculation ends, it has only written behind what was there. -/
theorem extends_of_run (h : s.Calculates pending) {r : Except LiftingError α}
    (ran : s.run x = (r, X)) : x.Extends X := by
  obtain ⟨a, Y, ran', behind⟩ := h.ends x
  rw [ran] at ran'
  cases ran'
  exact behind

/-- A journey that has failed passes over a calculation. -/
theorem walk_of_ne_going (h : s.Calculates pending) (x : Expansion) {g : Journey}
    (past : g.stance ≠ .going) : s.walk x g = g := by
  induction s generalizing pending x with
  | done a => rfl
  | allocate w next ih => exact ih _ (h.2 x.taken) _
  | write opcode a b c next ih =>
    rw [walk, Journey.perform_of_ne_going past]
    exact ih h.2.2 _
  | fail | create | attach | leave => cases h

/-- Every register but the program counter and the temporaries taken keeps its contents. -/
theorem register?_walk (h : s.Calculates pending) {g : Journey} (plain : g.machine.cpu.Plain)
    {name : String} (ne : name ≠ g.machine.cpu.programCounter)
    (apart : ∀ k, x.taken ≤ k → k < (s.run x).2.taken → name ≠ temporaryName k)
    (other : ∀ o, pending = some o → o.kind ≠ .register name) :
    (s.walk x g).machine.register? name = g.machine.register? name := by
  induction s generalizing pending x g with
  | done a => rfl
  | allocate w next ih =>
    have inside : x.taken < ((allocate w next).run x).2.taken :=
      ((h.2 x.taken).extends_of_run (x := (x.temporary w).2) rfl).taken
    refine ih _ (h.2 x.taken) plain ne (fun k above below => ?_) fun o same => ?_
    · exact apart k (Nat.le_of_succ_le above) below
    · cases same
      intro named
      cases named
      exact apart x.taken (Nat.le_refl _) inside rfl
  | write opcode a b c next ih =>
    have setup := g.perform_setup ⟨x.here, opcode, a, b, c, none⟩
    -- what is written goes to the pending temporary, and behind it nothing is pending
    rw [walk, ih h.2.2 (setup.cpu ▸ plain) (setup.cpu ▸ ne) apart (by simp)]
    unfold Journey.perform
    split
    · have kept : ¬ (⟨x.here, opcode, a, b, c, none⟩ : Instruction).Changes name :=
        fun changes => other c h.2.1 changes.2
      exact (Journey.register?_after (m := g.machine.syncProgramCounter x.native) plain kept).trans
        (Machine.register?_syncProgramCounter plain ne x.native)
    · rfl
  | fail | create | attach | leave => cases h

/-! ## Computations that are calculations -/

variable {opcode : Opcode} {a b r : Operand} {w wide : Width}

/-- A temporary for a value, and what is done with it. -/
theorem computing {k : Operand → Script β} (writes : opcode.writesRegister) (a b : Operand)
    (w : Width) (rest : ∀ o, (k o).Calculates none) :
    (temporary w >>= fun o => emit opcode a b o >>= fun _ => k o).Calculates none :=
  ⟨rfl, fun _ => ⟨writes, rfl, rest _⟩⟩

/-- The smallest calculation: a temporary is taken and given a value. -/
theorem computed (writes : opcode.writesRegister) (a b : Operand) (w : Width) :
    (temporary w >>= fun o => emit opcode a b o >>= fun _ => pure o).Calculates none :=
  computing writes a b w fun _ => rfl

theorem binary (writes : opcode.writesRegister) (a b : Operand) :
    (Script.binary opcode a b).Calculates none :=
  computed writes a b a.width

theorem signBit (a : Operand) : (Script.signBit a).Calculates none := computed rfl _ _ _

/-- A sum with a carry adds twice, and each addition takes a temporary of its own. -/
theorem wideSum (wide : Width) (a b : Operand) (carryIn : Option Operand) :
    (Script.wideSum wide a b carryIn).Calculates none := by
  refine computing rfl a b wide fun sum => ?_
  cases carryIn with
  | none => rfl
  | some c => exact computed rfl sum c wide

theorem carryOut (w wide : Width) (sum : Operand) :
    (Script.carryOut w wide sum).Calculates none :=
  computed rfl _ _ _

theorem overflowOut (a b r : Operand) : (Script.overflowOut a b r).Calculates none :=
  (binary rfl a r).bind fun left => (binary rfl b r).bind fun right =>
    (binary rfl left right).bind fun both => signBit both

/-- A calculation that is not wanted writes nothing. -/
theorem optionally (wanted : Bool) {s : Script α} (h : s.Calculates none) :
    (Script.optionally wanted s).Calculates none := by
  unfold Script.optionally
  split
  · rw [map_eq_pure_bind]
    exact h.bind fun _ => rfl
  · rfl

/-- An addition calculates, if its operands are of one width and there is a wider one. -/
theorem addWithCarry (wider : a.width.wider? = some wide) (same : b.width = a.width)
    (carryIn : Option Operand) (flags : AdditionFlags) :
    (Script.addWithCarry a b carryIn flags).Calculates none := by
  unfold Script.addWithCarry
  rw [if_pos same, wider]
  refine (wideSum wide a b carryIn).bind fun sum => computing rfl sum _ a.width fun r => ?_
  refine (optionally flags.carry (carryOut a.width wide sum)).bind fun carry => ?_
  exact (optionally flags.overflow (overflowOut a b r)).bind fun overflow => rfl

/-- Where there is a wider width, the comparison is a calculation and does not give up. -/
theorem unsignedLess (wider : (max a.width b.width).wider? = some wide) :
    (Script.unsignedLess a b).Calculates none := by
  unfold Script.unsignedLess
  rw [wider]
  exact computing rfl a b wide fun difference => signBit difference

theorem flipSign (a : Operand) : (Script.flipSign a).Calculates none := binary rfl _ _

/-- The numbers with inverted sign bits have the widths of the operands. -/
theorem signedLess (wider : (max a.width b.width).wider? = some wide) :
    (Script.signedLess a b).Calculates none :=
  ⟨rfl, fun _ => ⟨rfl, rfl, rfl, fun _ => ⟨rfl, rfl, unsignedLess wider⟩⟩⟩

theorem signExtend (a : Operand) (w : Width) : (Script.signExtend a w).Calculates none :=
  (flipSign a).bind fun flipped => computing rfl flipped .absent w fun _ => computed rfl _ _ _

theorem negateIf (a f : Operand) : (Script.negateIf a f).Calculates none :=
  (computed rfl _ f a.width).bind fun mask => (binary rfl a mask).bind fun flipped =>
    binary rfl flipped mask

theorem magnitude (a : Operand) : (Script.magnitude a).Calculates none :=
  (signBit a).bind fun negative => (negateIf a negative).bind fun _ => rfl

end Calculates

end Script

end RegisterTransfer
