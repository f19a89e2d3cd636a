import Diachrony.Text.Nesting
import Diachrony.RuleText.Error

/-!
# The shape of a rule statement

A rule statement reads `from > to`, optionally followed by `/ left _ right`.  `parseShape`
cuts it into these parts and leaves their insides alone.
-/

namespace Diachrony.RuleText

/-- The trimmed parts of a rule statement; an empty context side is absent. -/
structure Shape where
  source : Text
  target : Text
  left : Option Text
  right : Option Text
  deriving DecidableEq, Repr

def hasParenthesis (text : Text) : Bool :=
  text.any fun c => c == '(' || c == ')'

def hasSquareBracket (text : Text) : Bool :=
  text.any fun c => c == '[' || c == ']'

def contextSide? (text : Text) : Option Text :=
  let side := Text.trim text
  if side.isEmpty then none else some side

/-- Cut a context at its single placeholder outside brackets. -/
def splitContext (context : Text) : Except Cause (Option Text × Option Text) :=
  match Text.splitTopLevel '_' context with
  | [left, right] => .ok (contextSide? left, contextSide? right)
  | [] | [_] => .error .missingPlaceholder
  | _ => .error .duplicatePlaceholder

/-- What may not stand on either side of the arrow. -/
def checkSide (side : Text) : Except Cause Unit :=
  if hasParenthesis side then .error .optionalGroupOutsideContext
  else if Text.occursTopLevel '_' side then
    .error (.malformedRule "'_' may only appear in contexts or inside classes")
  else .ok ()

def splitTarget (text : Text) : Except Cause (Text × Option Text) :=
  match Text.splitTopLevel '/' text with
  | [] | [_] => .ok (text, none)
  | [target, context] => .ok (target, some context)
  | _ => .error (.malformedRule "more than one '/' context separator")

def parseShape (statement : Text) : Except Cause Shape :=
  if !Text.isBalanced statement then
    .error (if hasParenthesis statement && !hasSquareBracket statement then
      .unclosedOptionalGroup else .unclosedClass)
  else
    match Text.splitWhere (· == '>') statement with
    | [before, after] => do
        let (target, context) ← splitTarget after
        let source := Text.trim before
        let target := Text.trim target
        if source.isEmpty then .error .emptyFrom
        else
          checkSide source
          checkSide target
          let (left, right) ← match context with
            | none => .ok (none, none)
            | some context => splitContext context
          .ok ⟨source, target, left, right⟩
    | pieces =>
        let arrows := pieces.length - 1
        .error (.malformedRule s!"expected exactly one '>', found {arrows}")

end Diachrony.RuleText
