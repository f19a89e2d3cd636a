import Diachrony.Batch
import Diachrony.Json.Reader

/-!
# JSON forms of rules, inventories and results

Rules, patterns and inventories can be read back; whatever is missing, given twice or of the
wrong kind leaves no value.  Results are written only.
-/

namespace Diachrony

namespace TokenSet

def toJson (s : TokenSet) : Json :=
  Json.strings s.toList

/-- Read a set from a JSON array; order and repetition do not matter. -/
def ofJson? (value : Json) : Option TokenSet :=
  value.asStrings?.map ofList

end TokenSet

namespace Rule

def fieldNames : List String :=
  ["from", "to", "left_context", "right_context", "line"]

def contextJson (context : Option (List Token)) : Json :=
  context.elim .null Json.strings

def fields (rule : Rule) : List (String × Json) :=
  fieldNames.zip
    [Json.strings rule.input, Json.strings rule.output, contextJson rule.left,
     contextJson rule.right, Json.nat rule.line]

def toJson (rule : Rule) : Json :=
  .object rule.fields

def contextOfJson? : Option Json → Option (Option (List Token))
  | none | some .null => some none
  | some value => value.asStrings?.map some

def ofJson? (value : Json) : Option Rule :=
  match value.asRecord? fieldNames with
  | some [some input, some output, left, right, some line] =>
      return ⟨← input.asStrings?, ← output.asStrings?, ← contextOfJson? left,
        ← contextOfJson? right, ← line.asCount?⟩
  | _ => none

end Rule

namespace Pattern

def toJson (pattern : Pattern) : Json :=
  .object [("positions", .array (pattern.slots.map TokenSet.toJson))]

def ofJson? (value : Json) : Option Pattern :=
  match value.asRecord? ["positions"] with
  | some [some slots] => return ⟨← (← slots.asArray?).mapM TokenSet.ofJson?⟩
  | _ => none

end Pattern

namespace Inventory

def fieldNames : List String :=
  ["phonemes", "patterns", "classes"]

def classesJson (classes : List (String × TokenSet)) : Json :=
  .object (classes.map fun (name, members) => (name, members.toJson))

def fields (inventory : Inventory) : List (String × Json) :=
  fieldNames.zip
    [inventory.phonemes.toJson, .array (inventory.patterns.map Pattern.toJson),
     classesJson inventory.classes]

/-- Read named classes.  Of a name given twice the later members count. -/
def classesOfJson? : Json → Option (List (String × TokenSet))
  | .object fields => do
      let classes ← fields.mapM fun (name, value) => return (name, ← TokenSet.ofJson? value)
      let latest := fun name => classes.reverse.lookup name
      some ((TokenSet.ofList (classes.map Prod.fst)).toList.filterMap fun name =>
        (latest name).map (name, ·))
  | _ => none

/-- Read an inventory.  Its phonemes are taken as they are, the empty one included. -/
def ofJson? (value : Json) : Option Inventory :=
  match value.asRecord? fieldNames with
  | some [some phonemes, some patterns, some classes] =>
      return ⟨← TokenSet.ofJson? phonemes, ← (← patterns.asArray?).mapM Pattern.ofJson?,
        ← classesOfJson? classes⟩
  | _ => none

end Inventory

def RuleText.Statistics.fields (statistics : RuleText.Statistics) : List (String × Json) :=
  [("statements", Json.nat statistics.statements), ("variables", Json.nat statistics.definitions),
   ("rule_statements", Json.nat statistics.ruleStatements),
   ("rules_emitted", Json.nat statistics.rulesEmitted),
   ("universe_size", Json.nat statistics.universeSize)]

/-- Compiled rules as a JSON object.  Compiling is a function and takes no time. -/
def RuleText.RuleSet.toJson (set : RuleText.RuleSet) : Json :=
  .object
    [("rules", .array (set.rules.map Rule.toJson)),
     ("stats", .object (set.statistics.fields ++ [("duration", .number "0.0")]))]

def TraceStep.toJson (step : TraceStep) : Json :=
  .object
    [("rule_index", Json.nat step.ruleIndex), ("rule", step.rule.toJson),
     ("word", .string step.word)]

def PhonemeRoles.fields (roles : PhonemeRoles) : List (String × Json) :=
  [("produced_only", roles.producedOnly.toJson), ("consumed_only", roles.consumedOnly.toJson),
   ("intermediate", roles.intermediate.toJson), ("persistent", roles.persistent.toJson),
   ("context_only", roles.contextOnly.toJson)]

def WordResult.fields : WordResult → List (String × Json)
  | derived output => [("status", .string "derived"), ("output", .string output)]
  | reconstructed sources => [("status", .string "reconstructed"), ("sources", sources.toJson)]
  | failed code message =>
      [("status", .string "failed"), ("code", .string code), ("message", .string message)]

def WordOutcome.toJson (outcome : WordOutcome) : Json :=
  .object ([("index", Json.nat outcome.index), ("word", .string outcome.word)] ++
    outcome.result.fields)

def BatchResults.fields (results : BatchResults) : List (String × Json) :=
  [("direction", .string results.direction.key),
   ("outcomes", .array (results.outcomes.map WordOutcome.toJson)),
   ("words_submitted", Json.nat results.submitted),
   ("threads_used", Json.nat results.workersUsed)]

end Diachrony
