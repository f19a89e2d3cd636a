import Diachrony.RuleText.Context
import Diachrony.RuleText.NegativeSet
import Diachrony.RuleText.Shape
import Diachrony.RuleText.Statement
import Diachrony.RuleText.Variable

/-!
# Compiling a rule text

`compile` turns a rule text into its flat, ordered list of concrete rules.  The stages work
on the whole text one after another: statements are classified, variables collected and
resolved, references substituted, negative sets replaced by classes, and only then is each
statement expanded.  The first error of the earliest stage is the answer.
-/

namespace Diachrony.RuleText

structure Statistics where
  /-- Variables and rule statements together. -/
  statements : Nat
  /-- Variables, each counted once. -/
  definitions : Nat
  ruleStatements : Nat
  rulesEmitted : Nat
  /-- Phonemes that negative sets are taken from. -/
  universeSize : Nat
  deriving DecidableEq, Repr, Inhabited

structure RuleSet where
  rules : List Rule
  statistics : Statistics
  deriving DecidableEq, Repr

/-- A rule statement as it goes through the stages. -/
structure RuleStatement where
  line : Nat
  /-- The whole line as written, for diagnostics. -/
  source : String
  text : Text
  deriving DecidableEq, Repr

def RuleStatement.locate {α : Type} (statement : RuleStatement) :
    Except Cause α → Except Error α :=
  Except.mapError fun cause => ⟨statement.line, statement.source, cause⟩

def ruleStatements (statements : List Statement) : List RuleStatement :=
  statements.filterMap fun statement =>
    match statement.body with
    | .rule text => some ⟨statement.line, statement.source, text⟩
    | .definition _ _ => none

def definitions (statements : List Statement) : List Definition :=
  statements.filterMap fun statement =>
    match statement.body with
    | .rule _ => none
    | .definition name value => some ⟨name, value, statement.line, statement.source⟩

def tableOf [Limits] (definitions : List Definition) (mayRedefine : Bool) :
    Except Error VariableTable :=
  definitions.foldlM (fun table definition => table.define definition mayRedefine)
    VariableTable.empty

/-- Rule statements ready to be expanded, with the number of known phonemes. -/
structure Prepared where
  statements : List RuleStatement
  universeSize : Nat
  deriving DecidableEq, Repr

/-- Substitute variables everywhere, then replace negative sets.  The known phonemes are
those of all substituted statements and all resolved values. -/
def prepare (resolved : ResolvedVariables) (statements : List RuleStatement) :
    Except Error Prepared := do
  let substituted := statements.map fun statement =>
    { statement with text := resolved.substitute statement.text }
  let known := knownTokens (substituted.map RuleStatement.text ++ resolved.values.map Prod.snd)
  let expanded ← substituted.mapM fun statement => do
    let text ← statement.locate (expandNegativeSets known statement.text)
    pure { statement with text }
  pure ⟨expanded, known.size⟩

def RuleStatement.expand [Limits] (statement : RuleStatement) : Except Cause (List Rule) := do
  let shape ← parseShape statement.text
  let source ← parseItems shape.source
  let target ← parseItems shape.target
  let changes ← expandChanges source target
  let lefts ← expandContext .left shape.left
  let rights ← expandContext .right shape.right
  combine changes lefts rights statement.line

/-- Compile a rule text.  Redefining a variable is an error unless it is allowed. -/
def compileText [Limits] (text : Text) (mayRedefine : Bool) : Except Error RuleSet := do
  let statements ← classify text
  let table ← tableOf (definitions statements) mayRedefine
  let resolved ← table.resolveAll
  let stated := ruleStatements statements
  let prepared ← prepare resolved stated
  let expanded ← prepared.statements.mapM fun statement => statement.locate statement.expand
  let rules := expanded.flatten
  pure ⟨rules,
    { statements := table.size + stated.length
      definitions := table.size
      ruleStatements := stated.length
      rulesEmitted := rules.length
      universeSize := prepared.universeSize }⟩

end Diachrony.RuleText
