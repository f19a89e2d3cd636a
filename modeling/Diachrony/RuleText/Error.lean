import Diachrony.Journal.Code

/-!
# What can be wrong with a rule text

A cause says what is wrong; an error adds the line it was found on.  The wording lives in
`Cause.message` and `Error.message` only, and `Cause.code` classifies each cause.
-/

namespace Diachrony.RuleText

/-- The side of the placeholder a context stands on. -/
inductive ContextSide where
  | left
  | right
  deriving DecidableEq, Repr

def ContextSide.name : ContextSide → String
  | left => "left"
  | right => "right"

inductive Cause where
  | malformedRule (reason : String)
  | emptyFrom
  | classTargetRequiresClassSource
  | pairedClassArityMismatch (fromLength toLength : Nat)
  | unpairedTargetClass (fromClasses toClasses : Nat)
  | emptyClass
  | unclosedClass
  | unclosedOptionalGroup
  | optionalGroupOutsideContext
  | malformedNegativeSet
  | emptyNegativeSet
  | vacuousContext (side : ContextSide)
  | missingPlaceholder
  | duplicatePlaceholder
  | malformedVariable (reason : String)
  | circularReference (cycle : List String)
  | variableRedefinition (name : String) (previousLine : Nat)
  | variableDepthExceeded (name : String) (limit : Nat)
  | lineTooLong (length limit : Nat)
  | limitExceeded (what : String) (count limit : Nat)
  | expansionLimitExceeded (count limit : Nat)
  deriving DecidableEq, Repr

namespace Cause

def message : Cause → String
  | malformedRule reason => "malformed rule: " ++ reason
  | emptyFrom => "rule has an empty left-hand side"
  | classTargetRequiresClassSource =>
      "a class on the right-hand side requires a class on the left-hand side"
  | pairedClassArityMismatch fromLength toLength =>
      s!"paired classes differ in length ({fromLength} on the left, {toLength} on the right)"
  | unpairedTargetClass fromClasses toClasses =>
      s!"{toClasses} classes on the right-hand side but only {fromClasses} on the left"
  | emptyClass => "empty phoneme class"
  | unclosedClass => "unclosed or unbalanced class brackets"
  | unclosedOptionalGroup => "unclosed or unbalanced optional group"
  | optionalGroupOutsideContext => "optional groups are only allowed in contexts"
  | malformedNegativeSet => "'!' must be followed by a bracketed class"
  | emptyNegativeSet => "negative set excludes every known phoneme"
  | vacuousContext side => side.name ++ " context can be satisfied by no phoneme at all"
  | missingPlaceholder => "context has no '_' placeholder"
  | duplicatePlaceholder => "context has more than one '_' placeholder"
  | malformedVariable reason => "malformed variable definition: " ++ reason
  | circularReference cycle => "circular variable reference: " ++ " -> ".intercalate cycle
  | variableRedefinition name previousLine =>
      s!"variable '{name}' is already defined on line {previousLine}"
  | variableDepthExceeded name limit => s!"variable '{name}' nests deeper than {limit} levels"
  | lineTooLong length limit => s!"line is {length} characters long (max: {limit})"
  | limitExceeded what count limit => s!"too many {what}: {count} (max: {limit})"
  | expansionLimitExceeded count limit => s!"statement expands to {count} rules (max: {limit})"

def code : Cause → Code
  | malformedRule _ | optionalGroupOutsideContext | malformedNegativeSet => Code.malformedRule
  | emptyFrom => Code.emptySource
  | classTargetRequiresClassSource | unpairedTargetClass _ _ =>
      Code.classTargetWithoutClassSource
  | pairedClassArityMismatch _ _ => Code.pairedClassArity
  | emptyClass => Code.emptyClass
  | unclosedClass | unclosedOptionalGroup => Code.unbalancedGroup
  | emptyNegativeSet => Code.emptyNegativeSet
  | vacuousContext _ => Code.vacuousContext
  | missingPlaceholder | duplicatePlaceholder => Code.missingPlaceholder
  | malformedVariable _ | variableRedefinition _ _ => Code.malformedVariable
  | circularReference _ => Code.circularReference
  | variableDepthExceeded _ _ | lineTooLong _ _ | limitExceeded _ _ _
  | expansionLimitExceeded _ _ => Code.expansionLimit

end Cause

structure Error where
  /-- Number of the line, counted from one. -/
  line : Nat
  text : String
  cause : Cause
  deriving DecidableEq, Repr

namespace Error

/-- The wording of an error: line number, cause and the line itself. -/
def message (error : Error) : String :=
  s!"line {error.line}: " ++ error.cause.message ++ "\n  | " ++ error.text

def code (error : Error) : Code :=
  error.cause.code

end Error

end Diachrony.RuleText
