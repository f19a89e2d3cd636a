import Diachrony.Settings

/-!
# Arguments of the command line

An argument list is cut into switches, settings and words according to the options a command
knows, and the parts are then read as an invocation.  There is one kind of misuse, and it
has no description: `Invocation.ofArguments?` gives no invocation.
-/

namespace Diachrony.CommandLine

structure OptionForm where
  long : String
  short : Option Char
  takesValue : Bool
  deriving DecidableEq, Repr

inductive Part where
  | switch (long : String)
  | setting (long value : String)
  | word (text : String)
  deriving DecidableEq, Repr

inductive Reading where
  | part (part : Part)
  /-- An option whose value is the next argument. -/
  | expectsValue (long : String)
  /-- Anything that is no option. -/
  | plain
  /-- The mark behind which everything is a word. -/
  | endOfOptions
  | unknown
  deriving DecidableEq, Repr

def readLong (forms : List OptionForm) (body : List Char) : Reading :=
  let name := String.ofList (body.takeWhile (· != '='))
  match forms.find? (·.long == name), body.dropWhile (· != '=') with
  | none, _ => .unknown
  | some form, [] => if form.takesValue then .expectsValue form.long else .part (.switch form.long)
  | some form, _ :: value =>
      if form.takesValue then .part (.setting form.long (String.ofList value)) else .unknown

/-- Read the body of an argument that starts with one dash.  The value may follow the letter
directly or behind an equals sign. -/
def readShort (forms : List OptionForm) (letter : Char) (behind : List Char) : Reading :=
  match forms.find? (·.short == some letter), behind with
  | none, _ => .unknown
  | some form, [] => if form.takesValue then .expectsValue form.long else .part (.switch form.long)
  | some form, '=' :: value =>
      if form.takesValue then .part (.setting form.long (String.ofList value)) else .unknown
  | some form, value =>
      if form.takesValue then .part (.setting form.long (String.ofList value)) else .unknown

/-- Read a single argument.  A lone dash is a word. -/
def readArgument (forms : List OptionForm) (argument : String) : Reading :=
  match argument.toList with
  | ['-', '-'] => .endOfOptions
  | '-' :: '-' :: body => readLong forms body
  | '-' :: letter :: behind => readShort forms letter behind
  | _ => .plain

def canBeValue (argument : String) : Bool :=
  match argument.toList with
  | '-' :: _ :: _ => false
  | _ => true

def readParts (forms : List OptionForm) : List String → Option (List Part)
  | [] => some []
  | argument :: rest =>
      match readArgument forms argument with
      | .part part => (readParts forms rest).map (part :: ·)
      | .plain => (readParts forms rest).map (.word argument :: ·)
      | .endOfOptions => some (rest.map .word)
      | .unknown => none
      | .expectsValue long =>
          match rest with
          | [] => none
          | value :: rest =>
              if canBeValue value then (readParts forms rest).map (.setting long value :: ·)
              else none

def readLeading (forms : List OptionForm) :
    List String → Option (List Part × String × List String)
  | [] => none
  | argument :: rest =>
      match readArgument forms argument with
      | .plain => some ([], argument, rest)
      | .part part => (readLeading forms rest).map fun (parts, behind) => (part :: parts, behind)
      | .endOfOptions | .unknown => none
      | .expectsValue long =>
          match rest with
          | [] => none
          | value :: rest =>
              if canBeValue value then
                (readLeading forms rest).map fun (parts, behind) =>
                  (.setting long value :: parts, behind)
              else none

/-! ## Looking into parts -/

def Part.option? : Part → Option String
  | switch long | setting long _ => some long
  | word _ => none

def givenOnce (parts : List Part) : Bool :=
  decide (parts.filterMap Part.option?).Nodup

def hasSwitch (long : String) (parts : List Part) : Bool :=
  parts.contains (.switch long)

def valueOf? (long : String) (parts : List Part) : Option String :=
  parts.findSome? fun
    | .setting other value => if other == long then some value else none
    | _ => none

def wordsOf (parts : List Part) : List String :=
  parts.filterMap fun
    | .word text => some text
    | _ => none

def path? (text : String) : Option String :=
  if text.isEmpty then none else some text

/-- Read a setting that may be missing; a value that cannot be read is misuse. -/
def optional? {α : Type} (read : String → Option α) (value : Option String) :
    Option (Option α) :=
  match value with
  | none => some none
  | some value => (read value).map some

/-! ## Invocations -/

structure RunOptions where
  rules : String
  source : String
  target : String
  words : List String
  wordsFile : Option String
  workers : Option Nat
  failFast : Bool
  deriving DecidableEq, Repr

inductive Task where
  | compile (rules : String)
  | derive (rules : String)
  | apply (run : RunOptions) (trace : Bool)
  | reverse (run : RunOptions)
  deriving DecidableEq, Repr

def RunOptions.paths (run : RunOptions) : List String :=
  [run.rules, run.source, run.target] ++ run.wordsFile.toList

def Task.paths : Task → List String
  | compile rules | derive rules => [rules]
  | apply run _ | reverse run => run.paths

structure Invocation where
  json : Bool
  level : Option Level
  task : Task
  deriving DecidableEq, Repr

def commonForms : List OptionForm :=
  [⟨"json", none, false⟩, ⟨"log-level", none, true⟩]

def runForms : List OptionForm :=
  [⟨"rules", some 'r', true⟩, ⟨"source", some 's', true⟩, ⟨"target", some 't', true⟩,
   ⟨"words-file", some 'w', true⟩, ⟨"threads", none, true⟩, ⟨"fail-fast", none, false⟩]

def level? : String → Option Level
  | "error" => some .error
  | "warning" => some .warning
  | "info" => some .info
  | "debug" => some .debug
  | _ => none

def singlePath? (parts : List Part) : Option String :=
  match wordsOf parts with
  | [path] => path? path
  | _ => none

def runOptions? (parts : List Part) : Option RunOptions := do
  some
    { rules := ← path? (← valueOf? "rules" parts)
      source := ← path? (← valueOf? "source" parts)
      target := ← path? (← valueOf? "target" parts)
      words := wordsOf parts
      wordsFile := ← optional? path? (valueOf? "words-file" parts)
      workers := ← optional? Environment.readCount? (valueOf? "threads" parts)
      failFast := hasSwitch "fail-fast" parts }

def commandParts? (forms : List OptionForm) (arguments : List String) : Option (List Part) :=
  (readParts (commonForms ++ forms) arguments).filter givenOnce

def command? (name : String) (arguments : List String) : Option (Task × List Part) :=
  match name with
  | "compile" => do
      let parts ← commandParts? [] arguments
      some (.compile (← singlePath? parts), parts)
  | "derive" => do
      let parts ← commandParts? [] arguments
      some (.derive (← singlePath? parts), parts)
  | "apply" => do
      let parts ← commandParts? (⟨"trace", none, false⟩ :: runForms) arguments
      some (.apply (← runOptions? parts) (hasSwitch "trace" parts), parts)
  | "reverse" => do
      let parts ← commandParts? runForms arguments
      some (.reverse (← runOptions? parts), parts)
  | _ => none

/-- Read an argument list.  An option that every command has may stand before and behind the
command's name; of two levels the later one counts. -/
def Invocation.ofArguments? (arguments : List String) : Option Invocation := do
  let (leading, name, rest) ← readLeading commonForms arguments
  if givenOnce leading then
    let (task, parts) ← command? name rest
    let outer ← optional? level? (valueOf? "log-level" leading)
    let inner ← optional? level? (valueOf? "log-level" parts)
    some ⟨hasSwitch "json" leading || hasSwitch "json" parts, inner.or outer, task⟩
  else none

end Diachrony.CommandLine
