import Diachrony.Journal.Event
import Diachrony.Settings

/-!
# Events on the console

How the events of a run are written for people or for programs, and the report on the state
of logging itself.
-/

namespace Diachrony

namespace LogSettings

def openingEvent [Limits] : Event :=
  Event.success Code.journalOpened "Global logging system initialized" []

/-- The written form of an event.  For people an error comes with everything known about it
and any other event on one line; for programs an event is a JSON object. -/
def write (settings : LogSettings) (event : Event) : String :=
  if settings.structured then (event.toJson none).compact
  else if event.level == .error then event.formatDetailed
  else event.format

def writeAll (settings : LogSettings) (events : List Event) : List String :=
  if settings.console then
    (events.filter fun event => event.level.isWithin settings.least).map settings.write
  else []

def summary [Limits] (settings : LogSettings) : String :=
  "\n".intercalate
    ["Logging Configuration:",
     "=== Limits (Compile-time, " ++ Limits.name ++ ") ===",
     "- Log buffer size: " ++ toString Limits.recordedEvents,
     "- Max message length: " ++ toString Limits.messageLength,
     "=== User Preferences (Runtime) ===",
     "- Min log level: " ++ settings.least.name,
     "- Structured logging: " ++ toString settings.structured,
     "- Console logging: " ++ toString settings.console]

def diagnostics [Limits] (settings : LogSettings) (least : Level) : String :=
  "\n".intercalate
    ["=== Logging System Diagnostics ===", "Initialized: true", "Active level: " ++ least.label,
     "", settings.summary]

end LogSettings

def alreadyOpened : String :=
  "Global logger already initialized"

end Diachrony
