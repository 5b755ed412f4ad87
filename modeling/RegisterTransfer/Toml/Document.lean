import RegisterTransfer.Toml.Scalar

/-!
# TOML documents

A document is a run of key-value lines, the first under no header and each further one under the
header of a table or of one more element of an array of tables. Reading it collects the sections;
building it puts them together and refuses whatever would define a table or a key twice.
-/

namespace RegisterTransfer.Toml

open Reader

/-! ## Values with parts -/

/-- A dotted key and its value; the last part of the key is kept apart. -/
structure Pair where
  path : List String
  key : String
  value : Value

/-- The pair of a key given by its parts. -/
def Pair.ofParts (parts : List String) (value : Value) : Option Pair :=
  parts.getLast?.map fun key => ⟨parts.dropLast, key, value⟩

namespace Entries

/--
Gives a dotted key its value. Tables on the way must have come from dotted keys or, short of the
last, from the headers of tables inside them; the key itself must be new.
-/
def define (es : Entries) (path : List String) (key : String) (value : Value) : Option Entries :=
  match path with
  | [] => if (es.find? key).isSome then none else some (es.put key value)
  | k :: ks =>
    match es.find? k with
    | none => (define [] ks key value).map fun sub => es.put k (.table .dotted sub)
    | some (.table .dotted sub) =>
      (define sub ks key value).map fun sub => es.put k (.table .dotted sub)
    | some (.table .implied sub) =>
      if ks.isEmpty then none
      else (define sub ks key value).map fun sub => es.put k (.table .implied sub)
    | some (.tables items) =>
      match items.getLast? with
      | some last =>
        if ks.isEmpty then none
        else (define last ks key value).map fun last => es.put k (.tables (items.dropLast ++ [last]))
      | none => none
    | some _ => none

/-- Gives the keys of pairs their values, one after the other. -/
def defineAll (es : Entries) (pairs : List Pair) : Option Entries :=
  pairs.foldlM (fun es p => es.define p.path p.key p.value) es

/--
Changes the table that a header path leads to, passing through any table with a header or dotted
key and through the last of an array of tables. Missing tables are implied.
-/
def within (es : Entries) (path : List String) (change : Entries → Option Entries) :
    Option Entries :=
  match path with
  | [] => change es
  | k :: ks =>
    match es.find? k with
    | none => (within [] ks change).map fun sub => es.put k (.table .implied sub)
    | some (.table .inline _) => none
    | some (.table origin sub) => (within sub ks change).map fun sub => es.put k (.table origin sub)
    | some (.tables items) =>
      match items.getLast? with
      | some last =>
        (within last ks change).map fun last => es.put k (.tables (items.dropLast ++ [last]))
      | none => none
    | some _ => none

end Entries

/-- The inside of an array, after its opening bracket. -/
def arrayBody (value : Reader Value) : Reader Value := do
  let item : Reader Value := do
    filler
    let v ← value
    filler
    return v
  let items ← separated item (char ',')
  if !items.isEmpty then
    let _ ← maybe (char ',')
  filler
  char ']'
  return .array items

/-- The inside of an inline table, after its opening brace. -/
def inlineBody (value : Reader Value) : Reader Value := do
  let pair : Reader Pair := do
    let parts ← key
    char '='
    blanks
    let v ← value
    blanks
    accept (Pair.ofParts parts v)
  let pairs ← separated pair (char ',')
  blanks
  char '\x7d'
  return .table .inline (← accept (Entries.defineAll [] pairs))

/-- A value, with arrays and inline tables nested at most so deep. -/
def value : Nat → Reader Value
  | 0 => scalar
  | depth + 1 => do
    match ← rest with
    | '[' :: _ => do
      char '['
      arrayBody (value depth)
    | '\x7b' :: _ => do
      char '\x7b'
      inlineBody (value depth)
    | _ => scalar

/-! ## Lines and sections -/

/-- A line of a document that is neither blank nor a comment. -/
inductive Line where
  | pair (p : Pair)
  /-- The header of a table, or of one more element of an array of tables. -/
  | header (repeated : Bool) (path : List String) (name : String)

/-- A key and its value on a line. -/
def pairLine : Reader Line := do
  let parts ← key
  char '='
  blanks
  let v ← value (depthLimit - 1)
  lineTail
  return .pair (← accept (Pair.ofParts parts v))

/-- The header of a section, between the given brackets. -/
def headerLine (repeated : Bool) (opening closing : String) : Reader Line := do
  text opening
  let parts ← key
  text closing
  lineTail
  let name ← accept parts.getLast?
  return .header repeated parts.dropLast name

/-- A line with its end; nothing for a blank line or a comment. -/
def line : Reader (Option Line) := do
  let l ←
    (do newline; return none) <|>
    (do comment; newline <|> atEnd; return none) <|>
    some <$> (headerLine true "[[" "]]" <|> headerLine false "[" "]" <|> pairLine)
  blanks
  return l

/-- All lines of a document. -/
def lines : Reader (List Line) := do
  let _ ← maybe (char '\ufeff')
  blanks
  let ls ← many line
  atEnd
  return ls.filterMap id

/-- A header and the pairs under it. -/
structure Section where
  repeated : Bool
  path : List String
  name : String
  pairs : List Pair

/-- The pairs before the first header, and the sections. -/
def sections : List Line → List Pair × List Section
  | [] => ([], [])
  | .pair p :: rest =>
    let (pairs, found) := sections rest
    (p :: pairs, found)
  | .header repeated path name :: rest =>
    let (pairs, found) := sections rest
    ([], ⟨repeated, path, name, pairs⟩ :: found)

/-! ## Building -/

/-- Adds the table of a section to the table that its header names it in. -/
def Section.addTo (s : Section) (parent : Entries) : Option Entries :=
  match s.repeated, parent.find? s.name with
  | true, none => (Entries.defineAll [] s.pairs).map fun es => parent.put s.name (.tables [es])
  | true, some (.tables items) =>
    (Entries.defineAll [] s.pairs).map fun es => parent.put s.name (.tables (items ++ [es]))
  | false, none =>
    (Entries.defineAll [] s.pairs).map fun es => parent.put s.name (.table .header es)
  | false, some (.table .implied es) =>
    (Entries.defineAll es s.pairs).map fun es => parent.put s.name (.table .header es)
  | _, _ => none

/-- Adds a section to a document. -/
def Section.add (s : Section) (document : Entries) : Option Entries :=
  document.within s.path s.addTo

/-- The table of a document; none if the text is not a TOML document. -/
def parse? (source : String) : Option Entries := do
  let (ls, _) ← lines source.toList
  let (pairs, found) := sections ls
  let root ← Entries.defineAll [] pairs
  found.foldlM (fun document s => s.add document) root

end RegisterTransfer.Toml
