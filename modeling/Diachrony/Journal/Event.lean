import Diachrony.Journal.Code
import Diachrony.Journal.Level
import Diachrony.Journal.Timestamp
import Diachrony.Json.Basic
import Diachrony.Limits

/-!
# Events

An event reports one thing that happened: its level, its code, a message, the line of the
rule text it refers to and named details.  Events are plain values; where they go is decided
by the logs of `Diachrony.Journal.Log`.
-/

namespace Diachrony

/-- Named details, in ascending order of their names. -/
abbrev Details := List (String × String)

/-- Set a detail: a name that is there already gets the new value. -/
def Details.set : Details → String → String → Details
  | [], name, value => [(name, value)]
  | (other, old) :: rest, name, value =>
      if name == other then (name, value) :: rest
      else if name < other then (name, value) :: (other, old) :: rest
      else (other, old) :: Details.set rest name value

structure Event where
  level : Level
  code : Code
  message : String
  line : Option Nat
  details : Details
  deriving DecidableEq, Repr, Inhabited

namespace Event

/-- A message cut to the longest length allowed, with dots where something is missing. -/
def cutMessage [Limits] (message : String) : String :=
  let chars := message.toList
  if chars.length > Limits.messageLength then
    String.ofList (chars.take Limits.messageLength) ++ "..."
  else message

def plain [Limits] (level : Level) (code : Code) (message : String) : Event :=
  ⟨level, code, cutMessage message, none, []⟩

def detailed [Limits] (level : Level) (code : Code) (message : String)
    (details : List (String × String)) : Event :=
  { plain level code message with
    details := details.foldl (fun set (name, value) => Details.set set name value) [] }

def error [Limits] (code : Code) (message : String) (details : List (String × String)) : Event :=
  detailed .error code message details

def success [Limits] (code : Code) (message : String) (details : List (String × String)) : Event :=
  detailed .info code message details

def warning [Limits] (message : String) (details : List (String × String)) : Event :=
  detailed .warning Code.plainWarning message details

def info [Limits] (message : String) (details : List (String × String)) : Event :=
  detailed .info Code.plainInfo message details

def debug [Limits] (message : String) (details : List (String × String)) : Event :=
  detailed .debug Code.plainDebug message details

def atLine (event : Event) (line : Nat) : Event :=
  { event with line := some line }

def withDetail (event : Event) (name value : String) : Event :=
  { event with details := event.details.set name value }

/-- The event as it comes out of work on the given source.  An event that already names the
source it comes from keeps it, so that the innermost source counts. -/
def underSource (source : String) (event : Event) : Event :=
  if event.details.any fun detail => detail.1 == "source" then event
  else event.withDetail "source" source

def format (event : Event) : String :=
  let place := match event.line with
    | some line => s!" at line {line}"
    | none => ""
  "[" ++ event.level.label ++ "] " ++ event.code ++ " - " ++ event.message ++ place

def formatDetailed (event : Event) : String :=
  let code := event.code
  let description := code.description
  let action := code.action
  let lines :=
    ["Category: " ++ code.category, "Severity: " ++ code.severity.name] ++
    (if event.level == .error then
      ["Recoverable: " ++ toString code.isRecoverable,
       "Requires halt: " ++ toString code.requiresHalt] else []) ++
    (if description != "Unknown error" then ["Description: " ++ description] else []) ++
    (if action != "No specific action available" then ["Recommended action: " ++ action]
      else []) ++
    (if event.details.isEmpty then []
      else "Context:" :: event.details.map fun (name, value) => "  " ++ name ++ ": " ++ value)
  event.format ++ String.join (lines.map ("\n  " ++ ·))

/-- The event as a JSON object with its fields in ascending order.  A log without a clock
leaves the timestamp out. -/
def toJson (event : Event) (timestamp : Option Timestamp) : Json :=
  let code := event.code
  .object <|
    [("category", .string code.category), ("code", .string code)] ++
    (if event.details.isEmpty then []
      else [("context", .object (event.details.map fun (name, value) => (name, .string value)))]) ++
    (if event.level == .error then
      [("error_metadata", .object
        [("description", .string code.description),
         ("recommended_action", .string code.action),
         ("recoverable", .bool code.isRecoverable),
         ("requires_halt", .bool code.requiresHalt)])] else []) ++
    [("level", .string event.level.label)] ++
    (event.line.map fun line => ("line", Json.nat line)).toList ++
    [("message", .string event.message), ("severity", .string code.severity.name)] ++
    (timestamp.map fun timestamp => ("timestamp", Json.string timestamp.render)).toList

end Event

end Diachrony
