import RegisterTransfer.Memory

/-!
# Settings

What a user may tune: the byte order of memory, what reads of undefined registers and instructions
without known meaning do, a limit on the number of executed instructions, and how much is logged.
-/

namespace RegisterTransfer

/-- What reading an undefined register does. -/
inductive UndefinedReads where
  | fail
  /-- The register reads as zero. -/
  | zero
  deriving DecidableEq, Repr, Inhabited

/-- What an instruction without known meaning does. -/
inductive UnknownOpcodes where
  | fail
  | skip
  deriving DecidableEq, Repr, Inhabited

/-- The settings of a machine. -/
structure MachineSettings where
  order : ByteOrder := .big
  undefinedReads : UndefinedReads := .fail
  unknownOpcodes : UnknownOpcodes := .fail
  /-- The number of instructions after which a run is given up. -/
  stepLimit : Option Nat := none
  deriving DecidableEq, Repr, Inhabited

/-- How urgent a log message is, most urgent first. -/
inductive LogLevel where
  | error
  | warn
  | info
  | debug
  | trace
  deriving DecidableEq, Repr, Inhabited

namespace LogLevel

/-- The name of a level in a log. -/
def name : LogLevel → String
  | error => "ERROR"
  | warn => "WARN"
  | info => "INFO"
  | debug => "DEBUG"
  | trace => "TRACE"

/-- The place of a level, from most to least urgent. -/
def rank : LogLevel → Nat
  | error => 0
  | warn => 1
  | info => 2
  | debug => 3
  | trace => 4

instance : Ord LogLevel := ⟨compareOn rank⟩

/-- Every level. -/
def all : List LogLevel := [error, warn, info, debug, trace]

end LogLevel

/-- What is logged and how. -/
structure LogSettings where
  level : LogLevel := .warn
  timestamps : Bool := true
  deriving DecidableEq, Repr, Inhabited

/-- All settings together. -/
structure Settings where
  machine : MachineSettings := {}
  logging : LogSettings := {}
  deriving DecidableEq, Repr, Inhabited

/-- Why settings cannot be used. -/
inductive SettingsError where
  | unreadable (reason : String)
  | fileAccess (reason : String)
  | invalidValue (key value : String)
  deriving DecidableEq, Repr

/-- The wording of a settings error. -/
def SettingsError.message : SettingsError → String
  | unreadable reason => "Configuration parsing error: " ++ reason
  | fileAccess reason => "Configuration file access error: " ++ reason
  | invalidValue key value => "Invalid configuration value: " ++ key ++ " = " ++ value

/-- Refuses a step limit of zero, with which no run could do anything. -/
def Settings.validate (s : Settings) : Except SettingsError Settings :=
  if s.machine.stepLimit = some 0 then
    .error (.invalidValue "interpreter.step-limit" "0")
  else
    .ok s

end RegisterTransfer
