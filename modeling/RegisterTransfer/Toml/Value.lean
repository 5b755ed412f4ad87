/-!
# TOML values

The value of a TOML document is a table. Tables remember how they came about, because that decides
what may still be added to them.
-/

namespace RegisterTransfer.Toml

/-- How a table came about. -/
inductive Origin where
  /-- Written between braces; nothing can be added. -/
  | inline
  /-- Named by a header of its own. -/
  | header
  /-- Passed through by the header of a table inside it. -/
  | implied
  /-- Passed through by a dotted key. -/
  | dotted
  deriving DecidableEq, Repr, Inhabited

/-- A TOML value. The values of floats and of dates and times are of no interest here. -/
inductive Value where
  | text (s : String)
  | integer (i : Int)
  | float
  | boolean (b : Bool)
  | dateTime
  | array (items : List Value)
  | table (origin : Origin) (entries : List (String × Value))
  /-- The tables of repeated headers in double brackets. -/
  | tables (items : List (List (String × Value)))
  deriving Repr, Inhabited

/-- The entries of a table, in the order in which their keys first occur. -/
abbrev Entries := List (String × Value)

namespace Entries

/-- The value of a key. -/
def find? (es : Entries) (key : String) : Option Value := es.lookup key

/-- Gives a key a value, replacing the one it had. -/
def put (es : Entries) (key : String) (v : Value) : Entries :=
  if (es.find? key).isSome then
    es.map fun e => if e.1 = key then (key, v) else e
  else
    es ++ [(key, v)]

end Entries

end RegisterTransfer.Toml
