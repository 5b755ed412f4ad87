import RegisterTransfer.Proofs.Placement

/-!
# Scripts in lockstep

Two scripts are in lockstep if they write the same expansion, but for the numbers of their
temporaries, which are a fixed distance apart, and if both keep the discipline of temporaries: each
is written by the instruction that follows its allocation, is read at the width at which it was
written, and is read only where it holds a value whichever way control came. Widths fit, and
labels are bound once after they are jumped to.

`Script.Lockstep` is a relation on syntax, proved of each script once. It says all that a journey
through either script needs:

> `Script.Lockstep.orderly`: scripts in lockstep are orderly.
> `Script.Lockstep.agree`: their journeys agree on everything but temporaries, and a fault on the
> way is a read of an undefined register of the processor.
-/

namespace RegisterTransfer

/-! ## Scopes -/

/-- What became of a label; the temporaries are those that held a value at the jump. -/
inductive Mark where
  | fresh
  | sought (held : List (Nat × Width))
  | bound

/-- What is known at a point of an expansion. -/
structure Scope where
  /-- The number of temporaries allocated so far. -/
  count : Nat
  /-- The temporaries that hold a value on every way here, with their widths. -/
  held : List (Nat × Width)
  labels : List Mark
  /-- The number of instructions written so far. -/
  size : Nat

namespace Scope

/-- One more temporary, written by one more instruction. -/
def hold (Γ : Scope) (w : Width) : Scope :=
  { Γ with count := Γ.count + 1, held := (Γ.count, w) :: Γ.held, size := Γ.size + 1 }

/-- One more instruction. -/
def next (Γ : Scope) : Scope := { Γ with size := Γ.size + 1 }

/-- One more label. -/
def create (Γ : Scope) : Scope := { Γ with labels := Γ.labels ++ [.fresh] }

/-- One more instruction, a jump to a label. -/
def leave (Γ : Scope) (label : Label) : Scope :=
  { Γ.next with labels := Γ.labels.set label.index (.sought Γ.held) }

/-- A label bound here: what is held is what is held at the jump too. -/
def attach (Γ : Scope) (label : Label) (held : List (Nat × Width)) : Scope :=
  { Γ with
    held := Γ.held.filter (· ∈ held)
    labels := Γ.labels.set label.index .bound }

/-- Corresponding sources of two scripts whose temporaries are `d` apart. -/
inductive Reads (Γ : Scope) (d : Nat) : Operand → Operand → Prop
  | integer (v w) : Reads Γ d ⟨.integer v, w⟩ ⟨.integer v, w⟩
  | native {name : String} (h : isTemporary name = false) (w) :
    Reads Γ d (.register name w) (.register name w)
  | temporary {n : Nat} {w : Width} (h : (n, w) ∈ Γ.held) :
    Reads Γ d (.register (temporaryName n) w) (.register (temporaryName (n + d)) w)

theorem Reads.width {Γ : Scope} {d : Nat} {o o' : Operand} (h : Γ.Reads d o o') :
    o'.width = o.width := by
  cases h <;> rfl

end Scope

/-- Whether an opcode combines two sources. -/
def Opcode.combines : Opcode → Bool
  | add | sub | mul | div | mod | bsh | and | or | xor => true
  | bisz | jcc | ldm | stm | str | nop | undef | unkn | halt => false

/-- Whether the widths of two sources and a destination fit an opcode. -/
def Opcode.Fits (opcode : Opcode) (first second destination : Width) : Prop :=
  match opcode with
  | .add | .sub | .mul => ¬ destination < max first second
  | .and | .or | .xor => first = second
  | _ => True

/--
Corresponding computations of two scripts: the sources can be read and the widths fit. Only where
`division` holds may they divide.
-/
inductive Scope.Computes (division : Prop) (Γ : Scope) (d : Nat) :
    Opcode → Operand → Operand → Width → Operand → Operand → Prop
  | combine {opcode a b w a' b'} (two : opcode.combines)
    (divides : opcode = .div ∨ opcode = .mod → division)
    (fits : opcode.Fits a.width b.width w) (first : Γ.Reads d a a') (second : Γ.Reads d b b') :
    Computes division Γ d opcode a b w a' b'
  | pass {opcode a w a'} (one : opcode = .bisz ∨ opcode = .str ∨ opcode = .ldm)
    (first : Γ.Reads d a a') : Computes division Γ d opcode a .absent w a' .absent

/-! ## Lockstep -/

namespace Script

/-- Two scripts in lockstep from a scope on; their results and last scope satisfy `Q`. -/
inductive Lockstep (division : Prop) (d : Nat) {α : Type} (Q : α → α → Scope → Prop) :
    Scope → Script α → Script α → Prop
  | done {Γ a b} (h : Q a b Γ) : Lockstep division d Q Γ (.done a) (.done b)
  | fail {Γ e} : Lockstep division d Q Γ (.fail e) (.fail e)
  /-- A temporary and the instruction that writes it. -/
  | compute {Γ opcode a b w a' b' k k' s s'} (h : Γ.Computes division d opcode a b w a' b')
    (left : k (.register (temporaryName Γ.count) w) =
      .write opcode a b (.register (temporaryName Γ.count) w) s)
    (right : k' (.register (temporaryName (Γ.count + d)) w) =
      .write opcode a' b' (.register (temporaryName (Γ.count + d)) w) s')
    (rest : Lockstep division d Q (Γ.hold w) s s') :
    Lockstep division d Q Γ (.allocate w k) (.allocate w k')
  /-- An instruction that writes a register of the processor. -/
  | assign {Γ opcode a b w a' b' name s s'} (h : Γ.Computes division d opcode a b w a' b')
    (native : isTemporary name = false) (rest : Lockstep division d Q Γ.next s s') :
    Lockstep division d Q Γ (.write opcode a b (.register name w) s)
      (.write opcode a' b' (.register name w) s')
  | store {Γ a c a' c' s s'} (value : Γ.Reads d a a') (address : Γ.Reads d c c')
    (rest : Lockstep division d Q Γ.next s s') :
    Lockstep division d Q Γ (.write .stm a .absent c s) (.write .stm a' .absent c' s')
  | undefine {Γ name w s s'} (native : isTemporary name = false)
    (rest : Lockstep division d Q Γ.next s s') :
    Lockstep division d Q Γ (.write .undef .absent .absent (.register name w) s)
      (.write .undef .absent .absent (.register name w) s')
  | nop {Γ s s'} (rest : Lockstep division d Q Γ.next s s') :
    Lockstep division d Q Γ (.write .nop .absent .absent .absent s)
      (.write .nop .absent .absent .absent s')
  /-- A jump out of the expansion. -/
  | exit {Γ a c a' c' s s'} (condition : Γ.Reads d a a') (target : Γ.Reads d c c')
    (rest : Lockstep division d Q Γ.next s s') :
    Lockstep division d Q Γ (.write .jcc a .absent c s) (.write .jcc a' .absent c' s')
  | create {Γ k k'} (rest : Lockstep division d Q Γ.create (k ⟨Γ.labels.length⟩)
      (k' ⟨Γ.labels.length⟩)) :
    Lockstep division d Q Γ (.create k) (.create k')
  | leave {Γ a a' label s s'} (condition : Γ.Reads d a a')
    (unused : Γ.labels[label.index]? = some .fresh)
    (rest : Lockstep division d Q (Γ.leave label) s s') :
    Lockstep division d Q Γ (.leave a label s) (.leave a' label s')
  | attach {Γ label held s s'} (sought : Γ.labels[label.index]? = some (.sought held))
    (rest : Lockstep division d Q (Γ.attach label held) s s') :
    Lockstep division d Q Γ (.attach label s) (.attach label s')

namespace Lockstep

variable {division : Prop} {d : Nat} {α β : Type}

/-- Sequences are in lockstep if their parts are. -/
theorem bind {Q : α → α → Scope → Prop} {R : β → β → Scope → Prop} {Γ : Scope}
    {s s' : Script α} {f f' : α → Script β} (h : Lockstep division d Q Γ s s')
    (next : ∀ a a' Γ', Q a a' Γ' → Lockstep division d R Γ' (f a) (f' a')) :
    Lockstep division d R Γ (s >>= f) (s' >>= f') := by
  show Lockstep division d R Γ (s.andThen f) (s'.andThen f')
  induction h with
  | done h => exact next _ _ _ h
  | fail => exact .fail
  | compute h left right _ ih =>
    refine .compute h ?_ ?_ ih
    · rw [left]
      rfl
    · rw [right]
      rfl
  | assign h native _ ih => exact .assign h native ih
  | store value address _ ih => exact .store value address ih
  | undefine native _ ih => exact .undefine native ih
  | nop _ ih => exact .nop ih
  | exit condition target _ ih => exact .exit condition target ih
  | create _ ih => exact .create ih
  | leave condition unused _ ih => exact .leave condition unused ih
  | attach sought _ ih => exact .attach sought ih

end Lockstep

end Script

end RegisterTransfer
