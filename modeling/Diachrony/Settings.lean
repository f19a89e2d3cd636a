import Diachrony.Journal.Level
import Diachrony.Json.Reader

/-!
# Settings

What a user may set, the variables of the environment that set it, and the JSON form of all
settings together.  A variable whose value cannot be read leaves the default.
-/

namespace Diachrony

abbrev Environment := List (String × String)

structure CompilerSettings where
  /-- Whether a later definition may replace an earlier one. -/
  allowRedefinition : Bool
  /-- Whether every expanded rule is reported. -/
  reportExpansion : Bool
  /-- Whether the end of every stage is reported. -/
  reportStages : Bool
  deriving DecidableEq, Repr

structure ReverserSettings where
  /-- Whether answers are remembered per word. -/
  enableCache : Bool
  /-- Whether candidates that cannot become source words are dropped at once. -/
  earlyPruning : Bool
  /-- Whether a word that violates the target patterns has no source words. -/
  checkTargetPhonotactics : Bool
  /-- Whether the number of candidates is reported after every rule. -/
  reportCandidates : Bool
  deriving DecidableEq, Repr

structure BatchSettings where
  reportProgress : Bool
  /-- Number of words between two reports. -/
  progressInterval : Nat
  deriving DecidableEq, Repr

structure LogSettings where
  /-- Whether events are written as JSON. -/
  structured : Bool
  /-- Whether events are written at all. -/
  console : Bool
  /-- The least urgent level that is written. -/
  least : Level
  deriving DecidableEq, Repr

structure Settings where
  compiler : CompilerSettings
  reverser : ReverserSettings
  batch : BatchSettings
  log : LogSettings
  deriving DecidableEq, Repr

/-! ## Reading the environment -/

namespace Environment

def names : List String :=
  ["SOUNDSHIFT_COMPILER_ALLOW_REDEFINITION", "SOUNDSHIFT_COMPILER_LOG_EXPANSION_DETAILS",
   "SOUNDSHIFT_COMPILER_LOG_PHASE_TIMINGS", "SOUNDSHIFT_REVERSER_ENABLE_CACHE",
   "SOUNDSHIFT_REVERSER_EARLY_PRUNING", "SOUNDSHIFT_REVERSER_CHECK_TARGET_PHONOTACTICS",
   "SOUNDSHIFT_REVERSER_LOG_CANDIDATE_COUNTS", "SOUNDSHIFT_BATCH_PROGRESS_REPORTING",
   "SOUNDSHIFT_BATCH_PROGRESS_INTERVAL", "SOUNDSHIFT_LOGGING_USE_STRUCTURED",
   "SOUNDSHIFT_LOGGING_ENABLE_CONSOLE", "SOUNDSHIFT_LOGGING_MIN_LEVEL"]

/-- A switch: exactly `true` or `false`. -/
def switch (environment : Environment) (name : String) (default : Bool) : Bool :=
  match environment.lookup name with
  | some "true" => true
  | some "false" => false
  | _ => default

/-- The number a text of digits spells, with an optional plus sign, if it is below 2^64. -/
def readCount? (text : String) : Option Nat :=
  let digits := match text.toList with
    | '+' :: rest => rest
    | all => all
  if digits.isEmpty || !digits.all Char.isDigit then none
  else
    let n := digits.foldl (fun n digit => 10 * n + (digit.toNat - '0'.toNat)) 0
    if n < Nat.pow 2 64 then some n else none

def settings (environment : Environment) : Settings :=
  { compiler :=
      { allowRedefinition := environment.switch "SOUNDSHIFT_COMPILER_ALLOW_REDEFINITION" true
        reportExpansion := environment.switch "SOUNDSHIFT_COMPILER_LOG_EXPANSION_DETAILS" false
        reportStages := environment.switch "SOUNDSHIFT_COMPILER_LOG_PHASE_TIMINGS" false }
    reverser :=
      { enableCache := environment.switch "SOUNDSHIFT_REVERSER_ENABLE_CACHE" true
        earlyPruning := environment.switch "SOUNDSHIFT_REVERSER_EARLY_PRUNING" true
        checkTargetPhonotactics :=
          environment.switch "SOUNDSHIFT_REVERSER_CHECK_TARGET_PHONOTACTICS" false
        reportCandidates :=
          environment.switch "SOUNDSHIFT_REVERSER_LOG_CANDIDATE_COUNTS" false }
    batch :=
      { reportProgress := environment.switch "SOUNDSHIFT_BATCH_PROGRESS_REPORTING" false
        progressInterval :=
          (((environment.lookup "SOUNDSHIFT_BATCH_PROGRESS_INTERVAL").bind readCount?).filter
            (0 < ·)).getD 1000 }
    log :=
      { structured := environment.switch "SOUNDSHIFT_LOGGING_USE_STRUCTURED" false
        console := environment.switch "SOUNDSHIFT_LOGGING_ENABLE_CONSOLE" true
        least :=
          ((environment.lookup "SOUNDSHIFT_LOGGING_MIN_LEVEL").bind Level.ofSetting?).getD
            .warning } }

end Environment

def Settings.default : Settings :=
  Environment.settings []

/-! ## The JSON form -/

namespace CompilerSettings

def fieldNames : List String :=
  ["allow_variable_redefinition", "log_expansion_details", "log_phase_timings"]

def toJson (settings : CompilerSettings) : Json :=
  .object (fieldNames.zip
    ([settings.allowRedefinition, settings.reportExpansion, settings.reportStages].map .bool))

def ofJson? (value : Json) : Option CompilerSettings :=
  match value.asRecord? fieldNames with
  | some [some a, some b, some c] =>
      return ⟨← a.asBool?, ← b.asBool?, ← c.asBool?⟩
  | _ => none

end CompilerSettings

namespace ReverserSettings

def fieldNames : List String :=
  ["enable_cache", "early_pruning", "check_target_phonotactics", "log_candidate_counts"]

def toJson (settings : ReverserSettings) : Json :=
  .object (fieldNames.zip
    ([settings.enableCache, settings.earlyPruning, settings.checkTargetPhonotactics,
      settings.reportCandidates].map .bool))

def ofJson? (value : Json) : Option ReverserSettings :=
  match value.asRecord? fieldNames with
  | some [some a, some b, some c, some d] =>
      return ⟨← a.asBool?, ← b.asBool?, ← c.asBool?, ← d.asBool?⟩
  | _ => none

end ReverserSettings

namespace BatchSettings

def fieldNames : List String :=
  ["progress_reporting", "progress_interval"]

def toJson (settings : BatchSettings) : Json :=
  .object (fieldNames.zip [.bool settings.reportProgress, Json.nat settings.progressInterval])

def ofJson? (value : Json) : Option BatchSettings :=
  match value.asRecord? fieldNames with
  | some [some a, some b] => return ⟨← a.asBool?, ← b.asCount?⟩
  | _ => none

end BatchSettings

/-- Read a level: its name, or an object with the name as its only field, which is null. -/
def Level.ofJson? : Json → Option Level
  | .string name => Level.all.find? fun level => level.name == name
  | .object [(name, .null)] => Level.all.find? fun level => level.name == name
  | _ => none

namespace LogSettings

def fieldNames : List String :=
  ["use_structured_logging", "enable_console_logging", "min_log_level"]

def toJson (settings : LogSettings) : Json :=
  .object (fieldNames.zip
    [.bool settings.structured, .bool settings.console, .string settings.least.name])

def ofJson? (value : Json) : Option LogSettings :=
  match value.asRecord? fieldNames with
  | some [some a, some b, some c] => return ⟨← a.asBool?, ← b.asBool?, ← Level.ofJson? c⟩
  | _ => none

def interactive : LogSettings :=
  ⟨false, true, .debug⟩

def automated : LogSettings :=
  ⟨true, true, .info⟩

end LogSettings

namespace Settings

def fieldNames : List String :=
  ["compiler", "reverser", "batch", "logging"]

def toJson (settings : Settings) : Json :=
  .object (fieldNames.zip
    [settings.compiler.toJson, settings.reverser.toJson, settings.batch.toJson,
     settings.log.toJson])

def ofJson? (value : Json) : Option Settings :=
  match value.asRecord? fieldNames with
  | some [some a, some b, some c, some d] =>
      return ⟨← CompilerSettings.ofJson? a, ← ReverserSettings.ofJson? b,
        ← BatchSettings.ofJson? c, ← LogSettings.ofJson? d⟩
  | _ => none

end Settings

end Diachrony
