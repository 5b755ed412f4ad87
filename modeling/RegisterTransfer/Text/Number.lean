/-!
# Number texts

Listings write addresses in hexadecimal and everything else in decimal. Register numbers are read
back from decimal digits.
-/

namespace RegisterTransfer.Text

/-- The lower-case hexadecimal digits of a number, without leading zeros. -/
def hexDigits (n : Nat) : String := String.ofList (Nat.toDigits 16 n)

/-- A number in hexadecimal with its `0x` mark. -/
def hexadecimal (n : Nat) : String := "0x" ++ hexDigits n

/-- The hexadecimal digits of a number, at least two of them. -/
def hexPair (n : Nat) : String := if n < 16 then "0" ++ hexDigits n else hexDigits n

/-- An integer in hexadecimal, the sign before the `0x` mark. -/
def signedHexadecimal (i : Int) : String :=
  if i < 0 then "-" ++ hexadecimal i.natAbs else hexadecimal i.natAbs

/-- Whether a character is one of the ten ASCII digits. -/
def isDigit (c : Char) : Bool := '0' ≤ c && c ≤ '9'

/-- The number that a run of decimal digits stands for; leading zeros are allowed. -/
def digitsValue (cs : List Char) : Nat :=
  cs.foldl (fun n c => n * 10 + (c.toNat - '0'.toNat)) 0

/-- Reads a non-empty run of ASCII digits. -/
def digits? (cs : List Char) : Option Nat :=
  if !cs.isEmpty && cs.all isDigit then some (digitsValue cs) else none

/-- Reads a number of at most 255: one optional `+`, then digits. -/
def byte? (cs : List Char) : Option Nat :=
  let unsigned :=
    match cs with
    | '+' :: rest => rest
    | _ => cs
  (digits? unsigned).filter (· ≤ 255)

end RegisterTransfer.Text
