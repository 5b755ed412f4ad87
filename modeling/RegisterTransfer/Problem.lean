import RegisterTransfer.Fault
import RegisterTransfer.Lifting.Error
import RegisterTransfer.Program
import RegisterTransfer.Settings

/-!
# Problems

Whatever can go wrong in any part, with the severity at which it is reported.
-/

namespace RegisterTransfer

/-- How serious a problem is. -/
inductive Severity where
  | warning
  | error
  | critical
  deriving DecidableEq, Repr, Inhabited

/-- The name of a severity in a report. -/
def Severity.name : Severity → String
  | warning => "WARNING"
  | error => "ERROR"
  | critical => "CRITICAL"

/-- A problem of any part. `Place` is how instructions are named. -/
inductive Problem (Place : Type) where
  | lifting (e : LiftingError)
  | execution (e : Fault Place)
  | assembly (e : AssemblyError Place)
  | settings (e : SettingsError)
  deriving DecidableEq, Repr

namespace Problem

variable {Place : Type}

/-- The part that has the problem, then its wording there. -/
def message [ToString Place] : Problem Place → String
  | lifting e => "Translation error: " ++ e.message
  | execution e => "Interpreter error: " ++ e.message
  | assembly e => "IR error: " ++ e.message
  | settings e => "Configuration error: " ++ e.message

/--
A read of an undefined register is the fault of the program that is run; settings that cannot be
used, and a program that cannot be run at all, are critical.
-/
def severity : Problem Place → Severity
  | lifting _ => .error
  | execution (.undefinedRead _ _) => .warning
  | execution (.unsupportedOpcode _ _) => .critical
  | execution _ => .error
  | assembly _ => .error
  | settings _ => .critical

end Problem

end RegisterTransfer
