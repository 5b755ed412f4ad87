import RegisterTransfer.Lifting.Expansion

/-!
# Scripts

A script is what a translator does to an expansion: it allocates temporaries, writes instructions,
creates and binds labels, jumps, and may give up with an error. Scripts are data, so that a
statement about every translator is an induction on its script. `Script.run` carries one out; the
temporaries that a failing script took stay taken.
-/

namespace RegisterTransfer

/-- A sequence of steps that write an expansion and yield a result. -/
inductive Script (α : Type) where
  | done (result : α)
  | fail (error : LiftingError)
  | allocate (width : Width) (next : Operand → Script α)
  | write (opcode : Opcode) (op1 op2 op3 : Operand) (next : Script α)
  | create (next : Label → Script α)
  | attach (label : Label) (next : Script α)
  | leave (condition : Operand) (label : Label) (next : Script α)

namespace Script

variable {α β : Type}

/-- One script after another. -/
def andThen : Script α → (α → Script β) → Script β
  | done result, f => f result
  | fail error, _ => fail error
  | allocate width next, f => allocate width fun o => (next o).andThen f
  | write opcode op1 op2 op3 next, f => write opcode op1 op2 op3 (next.andThen f)
  | create next, f => create fun l => (next l).andThen f
  | attach label next, f => attach label (next.andThen f)
  | leave condition label next, f => leave condition label (next.andThen f)

instance : Monad Script where
  pure := done
  bind := andThen

/-- Carries a script out. -/
def run : Script α → Expansion → Except LiftingError α × Expansion
  | done result, x => (.ok result, x)
  | fail error, x => (.error error, x)
  | allocate width next, x => (next (x.temporary width).1).run (x.temporary width).2
  | write opcode op1 op2 op3 next, x => next.run (x.emit opcode op1 op2 op3)
  | create next, x => (next x.newLabel.1).run x.newLabel.2
  | attach label next, x => next.run (x.bind label)
  | leave condition label next, x => next.run (x.jumpIf condition label)

/-! ## Steps -/

/-- Allocates a temporary. -/
def temporary (width : Width) : Script Operand := allocate width done

/-- Writes an instruction. -/
def emit (opcode : Opcode) (op1 op2 op3 : Operand) : Script Unit :=
  write opcode op1 op2 op3 (done ())

/-- Writes a move. -/
def copy (source destination : Operand) : Script Unit := emit .str source .absent destination

/-- Creates a label that is not bound yet. -/
def newLabel : Script Label := create done

/-- Binds a label to the next instruction. -/
def bindLabel (label : Label) : Script Unit := attach label (done ())

/-- Writes a jump to a label, taken if the condition is not zero. -/
def jumpIf (condition : Operand) (label : Label) : Script Unit := leave condition label (done ())

/-- Writes a jump to a label that is always taken. -/
def jump (label : Label) : Script Unit := jumpIf (.integer 1 .byte) label

/-! ## Sequencing -/

theorem andThen_done (s : Script α) : s.andThen done = s := by
  induction s with
  | done | fail => rfl
  | allocate _ _ ih | create _ ih => simp only [andThen, ih]
  | write _ _ _ _ _ ih | attach _ _ ih | leave _ _ _ ih => simp only [andThen, ih]

/-- Sequencing is associative, which makes scripts a lawful monad. -/
theorem andThen_assoc {γ : Type} (s : Script α) (f : α → Script β) (g : β → Script γ) :
    (s.andThen f).andThen g = s.andThen fun a => (f a).andThen g := by
  induction s with
  | done | fail => rfl
  | allocate _ _ ih | create _ ih => simp only [andThen, ih]
  | write _ _ _ _ _ ih | attach _ _ ih | leave _ _ _ ih => simp only [andThen, ih]

instance : LawfulMonad Script :=
  LawfulMonad.mk' Script andThen_done (fun _ _ => rfl) andThen_assoc

/-- A sequence runs its first part and then, if that did not give up, its second. -/
theorem run_bind (s : Script α) (f : α → Script β) (x : Expansion) :
    (s >>= f).run x =
      match s.run x with
      | (.ok a, x) => (f a).run x
      | (.error e, x) => (.error e, x) := by
  show (s.andThen f).run x = _
  induction s generalizing x with
  | done | fail => rfl
  | allocate _ _ ih | create _ ih => simp only [andThen, run, ih]
  | write _ _ _ _ _ ih | attach _ _ ih | leave _ _ _ ih => simp only [andThen, run, ih]

@[simp] theorem run_pure (a : α) (x : Expansion) : (pure a : Script α).run x = (.ok a, x) := rfl

@[simp] theorem run_temporary (w : Width) (x : Expansion) :
    (temporary w).run x = (.ok (x.temporary w).1, (x.temporary w).2) := rfl

@[simp] theorem run_emit (opcode : Opcode) (op1 op2 op3 : Operand) (x : Expansion) :
    (emit opcode op1 op2 op3).run x = (.ok (), x.emit opcode op1 op2 op3) := rfl

@[simp] theorem run_copy (source destination : Operand) (x : Expansion) :
    (copy source destination).run x = (.ok (), x.copy source destination) := rfl

@[simp] theorem run_newLabel (x : Expansion) :
    newLabel.run x = (.ok x.newLabel.1, x.newLabel.2) := rfl

@[simp] theorem run_bindLabel (l : Label) (x : Expansion) :
    (bindLabel l).run x = (.ok (), x.bind l) := rfl

@[simp] theorem run_jumpIf (c : Operand) (l : Label) (x : Expansion) :
    (jumpIf c l).run x = (.ok (), x.jumpIf c l) := rfl

@[simp] theorem run_jump (l : Label) (x : Expansion) :
    (jump l).run x = (.ok (), x.jump l) := rfl

@[simp] theorem run_fail (e : LiftingError) (x : Expansion) :
    (fail e : Script α).run x = (.error e, x) := rfl

end Script

end RegisterTransfer
