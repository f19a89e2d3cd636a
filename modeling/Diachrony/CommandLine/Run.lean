import Diachrony.CommandLine.Arguments
import Diachrony.Interchange
import Diachrony.Journal.Console

/-!
# Running an invocation

What an invocation prints is a function of its arguments, the environment and the files.
Results go to the output; events, notices and the failure go to the diagnostics, in this
order.
-/

namespace Diachrony.CommandLine

structure Result where
  events : List Event
  output : List String
  notices : List String
  failure : Option String

structure Outcome where
  exit : Nat
  /-- Printed texts, each followed by a line feed. -/
  output : List String
  /-- Printed diagnostics, each followed by a line feed. -/
  diagnostics : List String
  deriving DecidableEq, Repr

def misuse : Outcome :=
  ⟨2, [], []⟩

def padRight (width : Nat) (text : String) : String :=
  text ++ String.ofList (List.replicate (width - text.length) ' ')

/-! ## Compiling and deriving -/

def compileFile [Limits] (settings : CompilerSettings) (files : Files) (path : String) :
    Except String RuleText.RuleSet := do
  let file ← (SourceFile.read files path).mapError SourceFileError.message
  (settings.compile file.text).mapError RuleText.Error.message

def compileFileEvents [Limits] (settings : CompilerSettings) (files : Files) (path : String) :
    List Event :=
  SourceFile.readEvents files path ++
    match SourceFile.read files path with
    | .error _ => []
    | .ok file => (settings.compileEvents file.text).map (Event.underSource path)

def onRuleFile [Limits] (settings : Settings) (files : Files) (path : String)
    (showSet : RuleText.RuleSet → List String × List String) : Result :=
  let events := compileFileEvents settings.compiler files path
  match compileFile settings.compiler files path with
  | .error failure => ⟨events, [], [], some failure⟩
  | .ok set =>
      let (output, notices) := showSet set
      ⟨events, output, notices, none⟩

def showRules (json : Bool) (set : RuleText.RuleSet) : List String × List String :=
  if json then ([set.toJson.pretty], [])
  else
    let statistics := set.statistics
    (set.rules.map Rule.render,
      [toString statistics.rulesEmitted ++ " rules from " ++ toString statistics.ruleStatements ++
        " statements (" ++ toString statistics.definitions ++ " variables)"])

def showRoles (json : Bool) (set : RuleText.RuleSet) : List String × List String :=
  let roles := phonemeRoles set.rules
  if json then ([(Json.object roles.fields).pretty], [])
  else
    let line (label : String) (members : TokenSet) : String :=
      padRight 17 (label ++ ":") ++ " " ++ " ".intercalate members.toList
    ([line "Produced only" roles.producedOnly, line "Consumed only" roles.consumedOnly,
      line "Intermediate" roles.intermediate, line "Persistent" roles.persistent,
      line "Context only" roles.contextOnly, line "Suggested source" roles.suggestedSource,
      line "Suggested target" roles.suggestedTarget], [])

/-! ## Working on words -/

/-- The words of a word file.  A line that starts with `#` is a comment. -/
def wordList (text : Text) : List String :=
  ((Text.lines text).map Text.trim).flatMap fun line =>
    if line.head? == some '#' then [] else (Text.words line).map String.ofList

def noWords : String :=
  "no words given (pass them as arguments or with --words-file)"

def collectWords [Limits] (files : Files) (run : RunOptions) : Except String (List String) := do
  let listed ← match run.wordsFile with
    | none => .ok []
    | some path =>
        ((SourceFile.read files path).mapError SourceFileError.message).map
          (wordList ·.text)
  let words := run.words ++ listed
  if words.isEmpty then .error noWords else .ok words

def collectWordsEvents [Limits] (files : Files) (run : RunOptions) : List Event :=
  run.wordsFile.elim [] (SourceFile.readEvents files)

/-- Open the session of a run and collect its words, then work on them. -/
def onWords [Limits] (settings : Settings) (files : Files) (run : RunOptions)
    (work : Session → List String → Result) : Result :=
  let paths : Session.Paths := ⟨run.rules, run.source, run.target⟩
  let opening := Session.filesEvents settings files paths
  match Session.ofFiles settings files paths with
  | .error error => ⟨opening, [], [], some error.message⟩
  | .ok session =>
      let events := opening ++ collectWordsEvents files run
      match collectWords files run with
      | .error failure => ⟨events, [], [], some failure⟩
      | .ok words =>
          let result := work session words
          { result with events := events ++ result.events }

def failureOf (failed processed : Nat) : Option String :=
  if failed = 0 then none
  else some (toString failed ++ " of " ++ toString processed ++ " words failed")

def failedWord (word : String) (code : Code) (message : String) : String :=
  "error[" ++ code ++ "]: " ++ word ++ ": " ++ message

def showOutcome (outcome : WordOutcome) : String ⊕ String :=
  match outcome.result with
  | .derived output => .inl (outcome.word ++ " -> " ++ output)
  | .reconstructed sources =>
      let shown :=
        if sources.isEmpty then "(no source words)" else ", ".intercalate sources.toList
      .inl (outcome.word ++ " <- " ++ shown)
  | .failed code message => .inr (failedWord outcome.word code message)

def outputText? : String ⊕ String → Option String
  | .inl text => some text
  | .inr _ => none

def noticeText? : String ⊕ String → Option String
  | .inl _ => none
  | .inr text => some text

def processWords [Limits] (json : Bool) (settings : BatchSettings) (run : RunOptions)
    (direction : Direction) (session : Session) (words : List String) : Result :=
  let plan : BatchPlan := ⟨BatchPlan.clampWorkers (run.workers.getD 1), run.failFast, settings⟩
  let events := batchEvents session plan direction words
  match runBatch session plan direction words with
  | .error error => ⟨events, [], [], some error.message⟩
  | .ok results =>
      let failure := failureOf results.failures results.processed
      if json then ⟨events, [(Json.object results.fields).pretty], [], failure⟩
      else
        let shown := results.outcomes.map showOutcome
        ⟨events, shown.filterMap outputText?, shown.filterMap noticeText?, failure⟩

def traceJson (word : String) : Except SessionError (List TraceStep) → Json
  | .ok steps =>
      .object [("word", .string word), ("steps", .array (steps.map TraceStep.toJson))]
  | .error error =>
      .object
        [("word", .string word),
         ("error", .object [("code", .string error.code), ("message", .string error.message)])]

def showTrace (word : String) : Except SessionError (List TraceStep) → List (String ⊕ String)
  | .ok steps =>
      .inl word :: steps.map fun step =>
        .inl ("  " ++ padRight 24 step.word ++ " [" ++ toString step.ruleIndex ++ "] " ++
          step.rule.render)
  | .error error => [.inr (failedWord word error.code error.message)]

def traceWords (json : Bool) (session : Session) (words : List String) : Result :=
  let traced := words.map fun word => (word, session.trace word)
  let failed := (traced.filter fun (_, trace) => !trace.isOk).length
  let failure := failureOf failed traced.length
  if json then
    ⟨[], [(Json.array (traced.map fun (word, trace) => traceJson word trace)).pretty], [], failure⟩
  else
    let shown := traced.flatMap fun (word, trace) => showTrace word trace
    ⟨[], shown.filterMap outputText?, shown.filterMap noticeText?, failure⟩

/-! ## Tasks -/

def Task.run [Limits] (json : Bool) (settings : Settings) (files : Files) : Task → Result
  | compile rules => onRuleFile settings files rules (showRules json)
  | derive rules => onRuleFile settings files rules (showRoles json)
  | apply run true => onWords settings files run (traceWords json)
  | apply run false => onWords settings files run (processWords json settings.batch run .forward)
  | reverse run => onWords settings files run (processWords json settings.batch run .reverse)

/-- The settings of an invocation: those of the environment, with the level asked for. -/
def Invocation.settings (invocation : Invocation) (environment : Environment) : Settings :=
  let settings := environment.settings
  { settings with
    log := { settings.log with least := invocation.level.getD settings.log.least } }

def Invocation.run [Limits] (invocation : Invocation) (environment : Environment) (files : Files) :
    Outcome :=
  let settings := invocation.settings environment
  let result := invocation.task.run invocation.json settings files
  { exit := if result.failure.isSome then 1 else 0
    output := result.output
    diagnostics :=
      settings.log.writeAll (LogSettings.openingEvent :: result.events) ++ result.notices ++
        (result.failure.map ("Error: " ++ ·)).toList }

def run [Limits] (arguments : List String) (environment : Environment) (files : Files) : Outcome :=
  match Invocation.ofArguments? arguments with
  | none => misuse
  | some invocation => invocation.run environment files

end Diachrony.CommandLine
