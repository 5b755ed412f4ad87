import RegisterTransfer.Lifting.Script

/-!
# Translators

A translator lifts one native instruction. It either returns the whole expansion or an error, so a
failure never leaves half an expansion behind; the temporaries it took stay taken either way. A
`Registry` holds translators by mnemonic, and a `Session` feeds instructions through translators
into one growing output.
-/

namespace RegisterTransfer

/-- Lifts one native instruction in an environment. -/
structure Translator where
  translate : Environment → NativeInstruction →
    Except LiftingError (List Instruction) × Environment

/-- The instructions that a script wrote, if it did not give up. -/
def Expansion.collect : Except LiftingError Unit × Expansion →
    Except LiftingError (List Instruction) × Environment
  | (.error e, x) => (.error e, x.environment)
  | (.ok (), x) => (x.finish, x.environment)

/--
The translator that carries out a script. The script may depend on the instruction and on the
widths of registers; the text of the instruction becomes the comment of the expansion.
-/
def Translator.ofScript (script : (String → Option Width) → NativeInstruction → Script Unit) :
    Translator where
  translate e n :=
    Expansion.collect
      ((script e.widthOf n).run ⟨e, n.address, some n.text, [], []⟩)

/-- Translators by mnemonic. -/
structure Registry where
  translators : SortedMap String Translator

namespace Registry

instance : EmptyCollection Registry := ⟨⟨∅⟩⟩

instance : Inhabited Registry := ⟨∅⟩

/-- Registers a translator, replacing an earlier one for the same mnemonic. -/
def register (r : Registry) (mnemonic : String) (t : Translator) : Registry :=
  ⟨r.translators.insert mnemonic t⟩

/-- The registry of a list of translators, a later one replacing an earlier one. -/
def ofList (entries : List (String × Translator)) : Registry := ⟨.ofList entries⟩

/-- The translator of a mnemonic. -/
def get? (r : Registry) (mnemonic : String) : Option Translator := r.translators.get? mnemonic

/-- Whether a mnemonic has a translator. -/
def contains (r : Registry) (mnemonic : String) : Bool := r.translators.contains mnemonic

/-- The registered mnemonics in order. -/
def mnemonics (r : Registry) : List String := r.translators.keys

/-- The number of registered mnemonics. -/
def size (r : Registry) : Nat := r.translators.size

/-- Whether nothing is registered. -/
def isEmpty (r : Registry) : Bool := r.translators.isEmpty

/-- Lifts one native instruction with the translator of its mnemonic. -/
def translate (r : Registry) (e : Environment) (n : NativeInstruction) :
    Except LiftingError (List Instruction) × Environment :=
  match r.get? n.mnemonic with
  | some t => t.translate e n
  | none => (.error (.unsupportedMnemonic n.mnemonic), e)

/-- A registry is itself a translator. -/
def toTranslator (r : Registry) : Translator := ⟨r.translate⟩

end Registry

/-- An environment and the output so far. -/
structure Session where
  environment : Environment
  output : List Instruction
  deriving DecidableEq

namespace Session

/-- Appends the expansion of a native instruction, or leaves the output as it is. -/
def translate (s : Session) (r : Registry) (n : NativeInstruction) :
    Except LiftingError Unit × Session :=
  match r.translate s.environment n with
  | (.ok code, e) => (.ok (), ⟨e, s.output ++ code⟩)
  | (.error error, e) => (.error error, ⟨e, s.output⟩)

/-- Appends the expansions of native instructions, up to the first that fails. -/
def translateAll (s : Session) (r : Registry) : List NativeInstruction →
    Except LiftingError Unit × Session
  | [] => (.ok (), s)
  | n :: rest =>
    match s.translate r n with
    | (.ok (), s) => s.translateAll r rest
    | (.error error, s) => (.error error, s)

end Session

/-- Lifts a block of native instructions in one environment; the first failure ends it. -/
def Registry.translateBlock (r : Registry) (e : Environment) (block : List NativeInstruction) :
    Except LiftingError (List Instruction) × Environment :=
  match Session.translateAll ⟨e, []⟩ r block with
  | (.ok (), s) => (.ok s.output, s.environment)
  | (.error error, s) => (.error error, s.environment)

end RegisterTransfer
