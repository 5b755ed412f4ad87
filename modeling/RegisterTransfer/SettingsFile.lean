import RegisterTransfer.FileTree
import RegisterTransfer.Settings
import RegisterTransfer.Toml.Document

/-!
# Settings files

Settings are written as a TOML document with the tables `interpreter` and `logging`. Every key may be
left out, and unknown keys are ignored; a known key with a value of the wrong kind makes the file
unreadable. Wherever a table of settings is expected, an array may list the values in order, and a
date stands for a table without any known key.
-/

namespace RegisterTransfer

open Toml (Value Entries)

/-! ## Values of settings -/

/-- The fields of a table of settings, by name or by position. -/
inductive SettingsTable where
  | named (entries : Entries)
  | listed (items : List Value)

namespace SettingsTable

/-- The fields that a value holds. -/
def ofValue : Value → Option SettingsTable
  | .table _ entries => some (named entries)
  | .array items => some (listed items)
  | .tables items => some (listed (items.map (.table .header)))
  | .dateTime => some (named [])
  | _ => none

/-- The value of a field, given by its name and its position. -/
def field? (t : SettingsTable) (name : String) (position : Nat) : Option Value :=
  match t with
  | named entries => entries.find? name
  | listed items => items[position]?

/-- The value of a field as read by `decode`, or a default if there is none. -/
def get {α : Type} (t : SettingsTable) (name : String) (position : Nat)
    (decode : Value → Option α) (default : α) : Option α :=
  match t.field? name position with
  | some v => decode v
  | none => some default

end SettingsTable

/-- Whether a value is a table or array with nothing in it. -/
def isEmptyValue : Value → Bool
  | .table _ entries => entries.isEmpty
  | .array items => items.isEmpty
  | .tables items => items.isEmpty
  | _ => false

/-- The name of a choice: a string, or the only key of a table, with nothing under it. -/
def choiceName : Value → Option String
  | .text s => some s
  | .table _ [(name, v)] => if isEmptyValue v then some name else none
  | _ => none

/-- One of several choices by name. -/
def choice {α : Type} (names : List (String × α)) (v : Value) : Option α := do
  names.lookup (← choiceName v)

/-- A number that is not negative. -/
def naturalValue : Value → Option Nat
  | .integer i => if i < 0 then none else some i.toNat
  | _ => none

/-- A truth value. -/
def truthValue : Value → Option Bool
  | .boolean b => some b
  | _ => none

/-- The names of byte orders. -/
def byteOrderNames : List (String × ByteOrder) :=
  [("big-endian", .big), ("big", .big), ("little-endian", .little), ("little", .little)]

/-- The names of what reads of undefined registers do. -/
def undefinedReadsNames : List (String × UndefinedReads) := [("fail", .fail), ("zero", .zero)]

/-- The names of what unknown opcodes do. -/
def unknownOpcodesNames : List (String × UnknownOpcodes) := [("fail", .fail), ("skip", .skip)]

/-- The names of log levels. -/
def logLevelNames : List (String × LogLevel) :=
  [("error", .error), ("warn", .warn), ("info", .info), ("debug", .debug), ("trace", .trace)]

/-! ## Tables of settings -/

/-- Reads the settings of a machine. -/
def MachineSettings.ofTable (t : SettingsTable) : Option MachineSettings := do
  let order ← t.get "endianness" 0 (choice byteOrderNames) .big
  let undefinedReads ← t.get "undefined-reads" 1 (choice undefinedReadsNames) .fail
  let unknownOpcodes ← t.get "unknown-opcodes" 2 (choice unknownOpcodesNames) .fail
  let stepLimit ← t.get "step-limit" 3 (fun v => some <$> naturalValue v) none
  return { order, undefinedReads, unknownOpcodes, stepLimit }

/-- Reads the settings of the log. -/
def LogSettings.ofTable (t : SettingsTable) : Option LogSettings := do
  let level ← t.get "level" 0 (choice logLevelNames) .warn
  let timestamps ← t.get "timestamps" 1 truthValue true
  return { level, timestamps }

/-- Reads all settings. -/
def Settings.ofTable (t : SettingsTable) : Option Settings := do
  let machine ← t.get "interpreter" 0
    (fun v => SettingsTable.ofValue v >>= MachineSettings.ofTable) {}
  let logging ← t.get "logging" 1 (fun v => SettingsTable.ofValue v >>= LogSettings.ofTable) {}
  return { machine, logging }

/-! ## Files -/

/-- Reads settings of some kind from the text of a file. -/
def readSettings {α : Type} (decode : SettingsTable → Option α) (source : String) :
    Except SettingsError α :=
  match Toml.parse? source with
  | none => .error (.unreadable "not a TOML document")
  | some entries =>
    match decode (.named entries) with
    | none => .error (.unreadable "a setting has a value of the wrong kind")
    | some a => .ok a

/-- Reads the settings of a machine from a document of their own, in which any limit may stand. -/
def MachineSettings.parse (source : String) : Except SettingsError MachineSettings :=
  readSettings MachineSettings.ofTable source

/-- Reads all settings. -/
def Settings.parse (source : String) : Except SettingsError Settings := do
  (← readSettings Settings.ofTable source).validate

/-- Reads all settings from the file at a path. -/
def Settings.load (files : FileSystem) (path : String) : Except SettingsError Settings :=
  match files.read path with
  | .error fault => .error (.fileAccess (path ++ ": " ++ fault.message))
  | .ok source => Settings.parse source

end RegisterTransfer
