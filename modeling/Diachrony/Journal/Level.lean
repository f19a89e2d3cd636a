/-!
# Levels of events

Events are errors, warnings, notes on progress or debugging details, in this order of
urgency.
-/

namespace Diachrony

inductive Level where
  | error
  | warning
  | info
  | debug
  deriving DecidableEq, Repr, Inhabited

namespace Level

/-- Place in the order of urgency, the most urgent first. -/
def rank : Level → Nat
  | error => 0
  | warning => 1
  | info => 2
  | debug => 3

/-- Whether events of a level are let through when the least urgent level admitted is
given. -/
def isWithin (level least : Level) : Bool :=
  level.rank ≤ least.rank

def label : Level → String
  | error => "ERROR"
  | warning => "WARN"
  | info => "INFO"
  | debug => "DEBUG"

def name : Level → String
  | error => "Error"
  | warning => "Warning"
  | info => "Info"
  | debug => "Debug"

def all : List Level :=
  [error, warning, info, debug]

/-- The level a user's setting stands for: a name in any case, or the rank. -/
def ofSetting? (setting : String) : Option Level :=
  match String.ofList (setting.toList.map Char.toLower) with
  | "error" | "0" => some error
  | "warning" | "warn" | "1" => some warning
  | "info" | "2" => some info
  | "debug" | "3" => some debug
  | _ => none

end Level

end Diachrony
