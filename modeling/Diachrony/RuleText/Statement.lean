import Diachrony.Limits
import Diachrony.Text.Alphanumeric
import Diachrony.Text.Basic
import Diachrony.RuleText.Error

/-!
# Statements of a rule text

A rule text is read line by line.  Blank lines and comment lines are skipped; every other
line holds statements separated by semicolons, each of which defines a variable or states a
rule.  `classify` reads a whole text and reports the first offending line.
-/

namespace Diachrony.RuleText

inductive StatementBody where
  | definition (name value : Text)
  | rule (text : Text)
  deriving DecidableEq, Repr

structure Statement where
  line : Nat
  /-- The whole line as written, for diagnostics. -/
  source : String
  body : StatementBody
  deriving DecidableEq, Repr

/-- Whether a line is a comment: only a `#` that starts the line counts. -/
def isComment (line : Text) : Bool :=
  (Text.trimStart line).head? == some '#'

/-- Whether a statement defines a variable: it has an `=` before any `>`. -/
def isDefinition (statement : Text) : Bool :=
  match statement.find? fun c => c == '=' || c == '>' with
  | some c => c == '='
  | none => false

/-- Whether a text can name a variable: it is nonempty and purely alphanumeric. -/
def isVariableName (name : Text) : Bool :=
  !name.isEmpty && name.all Text.isAlphanumeric

def parseDefinition (statement : Text) : Except Cause (Text × Text) :=
  match Text.splitFirst? '=' statement with
  | none => .error (.malformedVariable "missing '='")
  | some (before, after) =>
      let name := Text.trim before
      let value := Text.trim after
      let shown := String.ofList name
      if name.isEmpty then .error (.malformedVariable "missing name")
      else if !isVariableName name then
        .error (.malformedVariable s!"'{shown}' is not an alphanumeric name")
      else if value.isEmpty then .error (.malformedVariable s!"'{shown}' has no value")
      else if value.contains '=' then .error (.malformedVariable "more than one '='")
      else .ok (name, value)

def parseStatement (piece : Text) : Except Cause StatementBody :=
  if isDefinition piece then
    (parseDefinition piece).map fun (name, value) => .definition name value
  else .ok (.rule piece)

/-- Statements read so far, the latest first, with their number. -/
structure Classified where
  count : Nat
  latestFirst : List Statement

namespace Classified

def empty : Classified :=
  ⟨0, []⟩

def toList (classified : Classified) : List Statement :=
  classified.latestFirst.reverse

def addPiece [Limits] (line : Nat) (source : String) (classified : Classified) (piece : Text) :
    Except Error Classified :=
  match parseStatement piece with
  | .error cause => .error ⟨line, source, cause⟩
  | .ok body =>
      let count := classified.count + 1
      if count > Limits.statements then
        .error ⟨line, source, .limitExceeded "statements" count Limits.statements⟩
      else .ok ⟨count, ⟨line, source, body⟩ :: classified.latestFirst⟩

/-- Read one line.  Its length is checked before anything else, also on a comment. -/
def addLine [Limits] (classified : Classified) : Nat × Text → Except Error Classified
  | (line, text) =>
      let source := String.ofList text
      let length := text.length
      if length > Limits.lineLength then
        .error ⟨line, source, .lineTooLong length Limits.lineLength⟩
      else if Text.isAllBlank text || isComment text then .ok classified
      else (Text.statements text).foldlM (addPiece line source) classified

end Classified

def classify [Limits] (text : Text) : Except Error (List Statement) :=
  ((Text.numberedLines text).foldlM Classified.addLine Classified.empty).map Classified.toList

end Diachrony.RuleText
