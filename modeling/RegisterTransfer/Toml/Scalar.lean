import RegisterTransfer.Text.Number
import RegisterTransfer.Toml.Reader
import RegisterTransfer.Toml.Value

/-!
# TOML scalars and keys

White space, comments, keys, strings, numbers, booleans, and dates and times, as TOML 1.0 writes
them. Integers are 64-bit; floats may round to minus infinity but not to plus infinity.
-/

namespace RegisterTransfer.Toml

open Reader

/-! ## White space and comments -/

/-- Space and tab. -/
def isBlank (c : Char) : Bool := c == ' ' || c == '\t'

/-- Whether a character may stand in a text that shows it as it is: no control but the tab. -/
def isPlain (c : Char) : Bool := c == '\t' || (0x20 ≤ c.toNat && c.toNat ≠ 0x7F)

/-- White space inside a line. -/
def blanks : Reader Unit := do let _ ← many (satisfy isBlank)

/-- The end of a line. -/
def newline : Reader Unit := char '\n' <|> text "\r\n"

/-- A comment, up to the end of its line. -/
def comment : Reader Unit := do
  char '#'
  let _ ← many (satisfy isPlain)

/-- What may stand between a value and the end of its line, with that end. -/
def lineTail : Reader Unit := do
  blanks
  let _ ← maybe comment
  newline <|> atEnd

/-- White space, line ends and comments. -/
def filler : Reader Unit := do
  let _ ← many ((do let _ ← satisfy isBlank) <|> newline <|> comment)

/-! ## Strings -/

/-- Whether a character is a hexadecimal digit. -/
def isHexDigit (c : Char) : Bool :=
  Text.isDigit c || ('a' ≤ c && c ≤ 'f') || ('A' ≤ c && c ≤ 'F')

/-- The value of a digit in a base of up to sixteen. -/
def digitValue (c : Char) : Nat :=
  if Text.isDigit c then c.toNat - '0'.toNat
  else if 'a' ≤ c then c.toNat - 'a'.toNat + 10
  else c.toNat - 'A'.toNat + 10

/-- The value of a run of digits in a base. -/
def valueOf (base : Nat) (digits : List Char) : Nat :=
  digits.foldl (fun n c => n * base + digitValue c) 0

/-- The character with a given number, which must not be half of a surrogate pair. -/
def scalar? (n : Nat) : Option Char := if n.isValidChar then some (Char.ofNat n) else none

/-- A character given by its number in so many hexadecimal digits. -/
def numbered (digits : Nat) : Reader Char := do
  accept (scalar? (valueOf 16 (← exactly isHexDigit digits)))

/-- The character that an escape after its backslash stands for. -/
def escaped : Reader Char := do
  match ← satisfy fun _ => true with
  | 'b' => return '\x08'
  | 'f' => return '\x0c'
  | 'n' => return '\n'
  | 'r' => return '\r'
  | 't' => return '\t'
  | '"' => return '"'
  | '\\' => return '\\'
  | 'u' => numbered 4
  | 'U' => numbered 8
  | _ => failure

/-- Whether a character stands for itself in a string with escapes. -/
def isBasic (c : Char) : Bool := isPlain c && c != '"' && c != '\\'

/-- Whether a character stands for itself in a string without escapes. -/
def isLiteral (c : Char) : Bool := isPlain c && c != '\''

/-- A string with escapes on one line. -/
def basicString : Reader String := do
  char '"'
  let body ← many (satisfy isBasic <|> (do char '\\'; escaped))
  char '"'
  return .ofList body

/-- A string without escapes on one line. -/
def literalString : Reader String := do
  char '\''
  let body ← many (satisfy isLiteral)
  char '\''
  return .ofList body

/-- A backslash at the end of a line, which takes all white space after it away. -/
def lineContinuation : Reader (List Char) := do
  char '\\'
  blanks
  newline
  let _ ← many ((do let _ ← satisfy isBlank) <|> newline)
  return []

/-- A piece of a string with escapes over several lines. -/
def basicPiece : Reader (List Char) :=
  (do return [← satisfy isBasic]) <|> lineContinuation <|>
    (do char '\\'; return [← escaped]) <|> (do newline; return ['\n'])

/-- A piece of a string without escapes over several lines. -/
def literalPiece : Reader (List Char) :=
  (do return [← satisfy isLiteral]) <|> (do newline; return ['\n'])

/-- One or two quotes before a piece, and the piece. -/
def quotesThen (quote : Char) (piece : Reader (List Char)) : Reader (List Char) :=
  (do char quote; char quote; return quote :: quote :: (← piece)) <|>
    (do char quote; return quote :: (← piece))

/-- Three quotes, and one or two more before them that belong to the string. -/
def closing (quote : Char) : Reader (List Char) :=
  (do let _ ← exactly (· == quote) 5; return [quote, quote]) <|>
    (do let _ ← exactly (· == quote) 4; return [quote]) <|>
    (do let _ ← exactly (· == quote) 3; return [])

/-- A string over several lines: pieces between triple quotes, a first line end not counted. -/
def multilineString (quote : Char) (piece : Reader (List Char)) : Reader String := do
  let _ ← exactly (· == quote) 3
  let _ ← maybe newline
  let body ← many (piece <|> quotesThen quote piece)
  let last ← closing quote
  return .ofList (body.flatten ++ last)

/-- A string in any of its four forms. -/
def string : Reader String :=
  multilineString '"' basicPiece <|> basicString <|>
    multilineString '\'' literalPiece <|> literalString

/-! ## Keys -/

/-- Whether a character may stand in a key without quotes. -/
def isBare (c : Char) : Bool :=
  Text.isDigit c || ('a' ≤ c && c ≤ 'z') || ('A' ≤ c && c ≤ 'Z') || c == '_' || c == '-'

/-- One part of a key. -/
def simpleKey : Reader String :=
  basicString <|> literalString <|> (do return .ofList (← many1 (satisfy isBare)))

/-- The number of parts that a dotted key, and the depth that nested values, stay below. -/
def depthLimit : Nat := 80

/-- A dotted key by its parts, white space around each left out. -/
def key : Reader (List String) := do
  let part : Reader String := do
    blanks
    let k ← simpleKey
    blanks
    return k
  let parts ← separated1 part (char '.')
  if parts.length < depthLimit then
    return parts
  failure

/-! ## Numbers -/

/-- A sign; true for minus. -/
def sign : Reader Bool := do
  match ← maybe (satisfy fun c => c == '+' || c == '-') with
  | some '-' => return true
  | _ => return false

/-- Digits, with underscores between them. -/
def digitRun (test : Char → Bool) : Reader (List Char) := do
  let head ← satisfy test
  let tail ← many (satisfy test <|> (do char '_'; satisfy test))
  return head :: tail

/-- Decimal digits without a leading zero. -/
def decimalDigits : Reader (List Char) := do
  match ← rest with
  | '0' :: _ => return [← satisfy Text.isDigit]
  | _ => digitRun Text.isDigit

/-- An integer in the 64-bit range. -/
def inRange (i : Int) : Option Int :=
  if -0x8000000000000000 ≤ i && i < 0x8000000000000000 then some i else none

/-- An integer after a mark for its base. -/
def basedInteger (mark : String) (base : Nat) (test : Char → Bool) : Reader Int := do
  text mark
  accept (inRange (valueOf base (← digitRun test)))

/-- An integer. -/
def integer : Reader Int :=
  basedInteger "0x" 16 isHexDigit <|>
  basedInteger "0o" 8 (fun c => '0' ≤ c && c ≤ '7') <|>
  basedInteger "0b" 2 (fun c => c == '0' || c == '1') <|>
  (do
    let negative ← sign
    let magnitude := valueOf 10 (← decimalDigits)
    accept (inRange (if negative then -magnitude else magnitude)))

/--
Whether a decimal rounds to infinity among double-precision floats: whether `digits * 10 ^ exponent`
reaches half a step above the greatest of them. Lengths decide unless the decimal is close.
-/
def roundsToInfinity (digits : Nat) (exponent : Int) : Bool :=
  let bound := 1 <<< 1024 - 1 <<< 970
  let magnitude := (Nat.repr digits).length + exponent
  if digits = 0 || magnitude < 300 then
    false
  else if 320 < magnitude then
    true
  else if 0 ≤ exponent then
    bound ≤ digits * Nat.pow 10 exponent.toNat
  else
    bound * Nat.pow 10 (-exponent).toNat ≤ digits

/-- The exponent of a float. -/
def exponent : Reader Int := do
  let _ ← satisfy fun c => c == 'e' || c == 'E'
  let negative ← sign
  let magnitude : Nat := valueOf 10 (← digitRun Text.isDigit)
  return if negative then -magnitude else magnitude

/-- A float with a fraction, an exponent or both. -/
def finiteFloat : Reader Unit := do
  let negative ← sign
  let whole ← decimalDigits
  let (fraction, power) ←
    (do return ([], ← exponent)) <|>
    (do
      char '.'
      let fraction ← digitRun Text.isDigit
      return (fraction, (← maybe exponent).getD 0))
  let overflows :=
    roundsToInfinity (valueOf 10 (whole ++ fraction)) (power - fraction.length)
  if overflows && !negative then
    failure

/-- An infinity or what is not a number. -/
def specialFloat : Reader Unit := do
  let _ ← sign
  text "inf" <|> text "nan"

/-- A float. -/
def float : Reader Unit := finiteFloat <|> specialFloat

/-! ## Dates and times -/

/-- A number of so many digits in a range. -/
def numberIn (digits low high : Nat) : Reader Nat := do
  let n := valueOf 10 (← exactly Text.isDigit digits)
  if low ≤ n && n ≤ high then
    return n
  failure

/-- Whether a year has a 29th of February. -/
def isLeapYear (year : Nat) : Bool := year % 4 = 0 && (year % 100 ≠ 0 || year % 400 = 0)

/-- The number of days of a month. -/
def daysIn (year month : Nat) : Nat :=
  if month = 2 then (if isLeapYear year then 29 else 28)
  else if month = 4 || month = 6 || month = 9 || month = 11 then 30
  else 31

/-- A date. -/
def date : Reader Unit := do
  let year ← numberIn 4 0 9999
  char '-'
  let month ← numberIn 2 1 12
  char '-'
  let _ ← numberIn 2 1 (daysIn year month)

/-- A time of day; a leap second is allowed. -/
def time : Reader Unit := do
  let _ ← numberIn 2 0 23
  char ':'
  let _ ← numberIn 2 0 59
  char ':'
  let _ ← numberIn 2 0 60
  let _ ← maybe (do
    char '.'
    many1 (satisfy Text.isDigit))

/-- An offset from universal time. -/
def offset : Reader Unit :=
  (do let _ ← satisfy fun c => c == 'Z' || c == 'z') <|>
  (do
    let _ ← satisfy fun c => c == '+' || c == '-'
    let _ ← numberIn 2 0 23
    char ':'
    let _ ← numberIn 2 0 59)

/-- A date, a time of day, or both. -/
def dateTime : Reader Unit :=
  (do
    date
    let _ ← maybe (do
      let _ ← satisfy fun c => c == 'T' || c == 't' || c == ' '
      time
      maybe offset)) <|>
  time

/-! ## Scalars -/

/-- A boolean. -/
def boolean : Reader Bool :=
  (do text "true"; return true) <|> (do text "false"; return false)

/-- A value without parts. -/
def scalar : Reader Value :=
  (do return .text (← string)) <|>
  (do dateTime; return .dateTime) <|>
  (do float; return .float) <|>
  (do return .integer (← integer)) <|>
  (do return .boolean (← boolean))

end RegisterTransfer.Toml
