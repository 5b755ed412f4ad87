import RegisterTransfer.Text.Number
import RegisterTransfer.Text.Unprintable

/-!
# Quoted texts

Messages quote names that come from outside. Quotes and backslashes are escaped, the common control
characters have escapes of one letter, and other unprintable characters are written by number.
-/

namespace RegisterTransfer.Text

/-- A character by its number, in hexadecimal without leading zeros. -/
def numberedEscape (c : Char) : String := "\\u\x7b" ++ hexDigits c.toNat ++ "\x7d"

/-- How a character is written inside quotes. -/
def quotedChar (c : Char) : String :=
  match c with
  | '"' => "\\\""
  | '\\' => "\\\\"
  | '\n' => "\\n"
  | '\r' => "\\r"
  | '\t' => "\\t"
  | '\x00' => "\\0"
  | c => if isUnprintable c then numberedEscape c else c.toString

/-- A text between quotes, with escapes. -/
def quoted (text : String) : String :=
  "\"" ++ String.join (text.toList.map quotedChar) ++ "\""

end RegisterTransfer.Text
