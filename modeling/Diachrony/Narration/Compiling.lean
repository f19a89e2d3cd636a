import Diachrony.Journal.Event
import Diachrony.RuleText.Compile
import Diachrony.Settings

/-!
# What compiling reports

The events of a compilation follow from its text and settings: every stage that is reached
contributes its own, in order, and an error ends the list.
-/

namespace Diachrony

open RuleText

namespace RuleText

def Redefinition.event [Limits] (redefinition : Redefinition) : Event :=
  Event.warning "Variable redefined, using the later value"
    [("name", redefinition.name), ("line", toString redefinition.line),
     ("previous_line", toString redefinition.previousLine)]

/-- What entering definitions into a table reports, up to the first that is refused. -/
def redefinitionEvents [Limits] (mayRedefine : Bool) : VariableTable → List Definition → List Event
  | _, [] => []
  | table, definition :: rest =>
      match table.define definition mayRedefine with
      | .error _ => []
      | .ok next =>
          ((table.redefinition? definition).map Redefinition.event).toList ++
            redefinitionEvents mayRedefine next rest

def VariableTable.resolutionEvents [Limits] (table : VariableTable) : List Event :=
  match table.resolveAll with
  | .ok _ =>
      [Event.success Code.variablesResolved "Variables resolved"
        [("count", toString table.size)]]
  | .error _ => []

def expansionEvents [Limits] : List RuleStatement → List Event
  | [] => []
  | statement :: rest =>
      match statement.expand with
      | .error _ => []
      | .ok rules =>
          (rules.map fun rule =>
            Event.debug "Rule expanded"
              [("line", toString statement.line), ("rule", rule.render)]) ++
            expansionEvents rest

def RuleSet.event [Limits] (set : RuleSet) : Event :=
  Event.success Code.rulesCompiled "Rule compilation completed"
    [("statements", toString set.statistics.statements),
     ("variables", toString set.statistics.definitions),
     ("rules", toString set.statistics.rulesEmitted)]

def Error.event [Limits] (error : Error) : Event :=
  (Event.error error.code error.cause.message [("text", error.text)]).atLine error.line

end RuleText

def CompilerSettings.compile [Limits] (settings : CompilerSettings) (text : Text) :
    Except RuleText.Error RuleSet :=
  compileText text settings.allowRedefinition

def CompilerSettings.stageEvents [Limits] (settings : CompilerSettings) (stage : String) :
    List Event :=
  if settings.reportStages then [Event.debug "Compiler phase finished" [("phase", stage)]]
  else []

def CompilerSettings.compileEvents [Limits] (settings : CompilerSettings) (text : Text) :
    List Event :=
  settings.stageEvents "classification" ++
    match classify text with
    | .error _ => []
    | .ok statements =>
        let defined := definitions statements
        redefinitionEvents settings.allowRedefinition VariableTable.empty defined ++
          match tableOf defined settings.allowRedefinition with
          | .error _ => []
          | .ok table =>
              table.resolutionEvents ++ settings.stageEvents "resolution" ++
                match table.resolveAll with
                | .error _ => []
                | .ok resolved =>
                    settings.stageEvents "substitution" ++
                      match prepare resolved (ruleStatements statements) with
                      | .error _ => []
                      | .ok prepared =>
                          (if settings.reportExpansion then expansionEvents prepared.statements
                            else []) ++
                            match settings.compile text with
                            | .error _ => []
                            | .ok set => [set.event]

def CompilerSettings.failureEvents [Limits] (settings : CompilerSettings) (text : Text) :
    List Event :=
  match settings.compile text with
  | .error error => [error.event]
  | .ok _ => []

end Diachrony
