import Diachrony.Inventory.Basic
import Diachrony.Rule

/-!
# Deriving words

A rule goes through a word once, from left to right, and changes every match it meets.
The left context is read on the word as changed so far, the right context on what has not
been reached yet, and the pass goes on behind what it has put in.  A derivation applies the
rules of a list one after another.
-/

namespace Diachrony

namespace Rule

/-- The pass over the rest of a word, with the tokens before it given nearest first.  Every
step moves past a token or puts in an output, so the fuel of `apply` lasts for every rule
with an input. -/
def pass (rule : Rule) : Nat → List Token → List Token → List Token
  | 0, before, rest => before.reverse ++ rest
  | fuel + 1, before, rest =>
      if rule.matchesBetween before rest then
        pass rule fuel (rule.output.reverse ++ before) (rest.drop rule.input.length)
      else
        match rest with
        | [] => before.reverse
        | token :: rest => pass rule fuel (token :: before) rest

/-- Steps enough for a pass that ends.  A rule without an input inserts where it stands; once
it has inserted more often at one place than its left context has tokens, that context reads
nothing but outputs and holds for ever. -/
def passFuel (rule : Rule) (tokens : List Token) : Nat :=
  if rule.input.isEmpty then (tokens.length + 1) * ((rule.left.getD []).length + 2)
  else tokens.length + 1

/-- Apply a rule in one pass from left to right.  Where the pass of a rule without an input never
ends, what it has inserted when the fuel runs out stands for a result that there is not. -/
def apply (rule : Rule) (tokens : List Token) : List Token :=
  rule.pass (rule.passFuel tokens) [] tokens

end Rule

def applyRules (rules : List Rule) (tokens : List Token) : List Token :=
  rules.foldl (fun tokens rule => rule.apply tokens) tokens

structure TraceStep where
  /-- Place of the rule in its list, counted from zero. -/
  ruleIndex : Nat
  rule : Rule
  word : String
  deriving DecidableEq, Repr

/-- The steps that change the tokens, for rules numbered from `index` on; `steps` is
reversed. -/
def traceLoop : Nat → List TraceStep → List Token → List Rule → List TraceStep
  | _, steps, _, [] => steps.reverse
  | index, steps, tokens, rule :: rest =>
      let next := rule.apply tokens
      let steps := if next == tokens then steps else ⟨index, rule, spell next⟩ :: steps
      traceLoop (index + 1) steps next rest

structure Deriver where
  rules : List Rule
  source : Segmenter
  target : Segmenter
  /-- Patterns of the stage after the rules, if it has any. -/
  targetPatterns : Option (List Pattern)

namespace Deriver

def of (rules : List Rule) (source target : Inventory) : Deriver :=
  ⟨rules, source.segmenter, target.segmenter, target.phonotactics⟩

def derive (deriver : Deriver) (word : String) : Except SegmentationError String := do
  let tokens ← deriver.source.segment word
  pure (spell (applyRules deriver.rules tokens))

def trace (deriver : Deriver) (word : String) : Except SegmentationError (List TraceStep) := do
  let tokens ← deriver.source.segment word
  pure (traceLoop 0 [] tokens deriver.rules)

/-- Whether a word is one of the target stage: its tokens are phonemes of that stage and
satisfy its patterns. -/
def isTargetWord (deriver : Deriver) (word : String) : Bool :=
  match deriver.target.segment word with
  | .ok tokens => satisfiesPatterns deriver.targetPatterns tokens
  | .error _ => false

end Deriver

end Diachrony
