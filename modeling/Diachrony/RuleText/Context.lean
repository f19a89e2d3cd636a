import Diachrony.Rule
import Diachrony.RuleText.Fragment
import Diachrony.RuleText.Change

/-!
# Contexts and their combination with changes

A context side stands for several token sequences: optional groups are kept or dropped and
classes are replaced by their members.  The rules of a statement are its changes combined
with the variants of either side.
-/

namespace Diachrony.RuleText

abbrev Constraint := Option (List Token)

def toConstraint (sequence : List Token) : Constraint :=
  if sequence.isEmpty then none else some sequence

/-- The text with its parentheses blanked out, so that group contents stand in line. -/
def withoutParentheses (text : Text) : Text :=
  text.map fun c => if c == '(' || c == ')' then ' ' else c

/-- The distinct constraints a context side stands for.  A side that nothing at all could
satisfy is refused; that is decided on the whole side, optional content included. -/
def expandContext [Limits] (side : ContextSide) : Option Text → Except Cause (List Constraint)
  | none => .ok [none]
  | some text => do
      let variants ← expandGroups Limits.optionalGroups text
      let whole ← parseItems (withoutParentheses text)
      if isVacuous whole then .error (.vacuousContext side)
      else
        let sequences ← variants.mapM fun variant => do
          let items ← parseItems variant
          pure (contextSequences items)
        .ok (distinct (sequences.flatten.map toConstraint))

/-- The distinct rules of a statement: for each change every left context, and for each of
these every right context. -/
def combine [Limits] (changes : List Change) (lefts rights : List Constraint) (line : Nat) :
    Except Cause (List Rule) := do
  let _ ← checkedProduct [changes.length, lefts.length, rights.length]
  let rules := changes.flatMap fun change =>
    lefts.flatMap fun left =>
      rights.map fun right => ⟨change.input, change.output, left, right, line⟩
  .ok (distinct rules)

end Diachrony.RuleText
