/-!
# Readers

A reader takes a value off the front of a text, or fails and leaves the text to another reader.
Repetition is bounded by the length of the text, which is no restriction: each round takes at least
one character.
-/

namespace RegisterTransfer.Toml

/-- Takes a value off the front of a text. -/
abbrev Reader (α : Type) := StateT (List Char) Option α

namespace Reader

variable {α β : Type}

/-- Takes one character that satisfies a test. -/
def satisfy (test : Char → Bool) : Reader Char
  | c :: rest => if test c then some (c, rest) else none
  | [] => none

/-- Takes a given character. -/
def char (c : Char) : Reader Unit := do let _ ← satisfy (· == c)

/-- Takes a given text. -/
def text (s : String) : Reader Unit := s.toList.forM char

/-- Looks at the rest without taking anything. -/
def rest : Reader (List Char) := get

/-- Succeeds at the end of the text only. -/
def atEnd : Reader Unit
  | [] => some ((), [])
  | _ => none

/-- Takes something if it is there. -/
def maybe (p : Reader α) : Reader (Option α) := (some <$> p) <|> pure none

/-- Takes at most `n` values. -/
def upTo (p : Reader α) : Nat → Reader (List α)
  | 0 => pure []
  | n + 1 => (do
    let a ← p
    return a :: (← upTo p n)) <|> pure []

/-- Takes as many values as there are. -/
def many (p : Reader α) : Reader (List α) := do upTo p (← rest).length

/-- Takes as many values as there are, and at least one. -/
def many1 (p : Reader α) : Reader (List α) := do return (← p) :: (← many p)

/-- Takes values with separators between them, and at least one. -/
def separated1 (p : Reader α) (separator : Reader Unit) : Reader (List α) := do
  return (← p) :: (← many (do separator; p))

/-- Takes values with separators between them. -/
def separated (p : Reader α) (separator : Reader Unit) : Reader (List α) :=
  separated1 p separator <|> pure []

/-- Takes exactly `n` characters that satisfy a test. -/
def exactly (test : Char → Bool) : Nat → Reader (List Char)
  | 0 => pure []
  | n + 1 => do return (← satisfy test) :: (← exactly test n)

/-- Takes the value that a check makes of what was read. -/
def accept (a : Option α) : Reader α := fun cs => a.map (·, cs)

end Reader

end RegisterTransfer.Toml
