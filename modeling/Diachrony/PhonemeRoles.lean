import Diachrony.Rule

/-!
# Roles of phonemes in a rule list

What the rules do with each token they mention suggests the inventories of the stages before
and after them: a token that is only written belongs to the later stage, one that is only
replaced to the earlier one.
-/

namespace Diachrony

structure PhonemeRoles where
  /-- Written by some rule and never replaced. -/
  producedOnly : TokenSet
  /-- Replaced by some rule and never written. -/
  consumedOnly : TokenSet
  /-- Written, and each time replaced later on wherever it stands. -/
  intermediate : TokenSet
  /-- Written and replaced, but able to survive. -/
  persistent : TokenSet
  /-- Mentioned in contexts only. -/
  contextOnly : TokenSet
  deriving DecidableEq, Repr

namespace PhonemeRoles

def suggestedSource (roles : PhonemeRoles) : TokenSet :=
  (roles.consumedOnly.union roles.persistent).union roles.contextOnly

def suggestedTarget (roles : PhonemeRoles) : TokenSet :=
  (roles.producedOnly.union roles.persistent).union roles.contextOnly

end PhonemeRoles

def Rule.replacesEverywhere (rule : Rule) (token : Token) : Bool :=
  !rule.hasContext && rule.input == [token]

/-- Whether every rule that writes a token is followed by one that replaces it everywhere. -/
def alwaysReplacedLater (token : Token) : List Rule → Bool
  | [] => true
  | rule :: later =>
      (!rule.output.contains token || later.any fun next => next.replacesEverywhere token) &&
        alwaysReplacedLater token later

/-- The tokens in the contexts of a rule, without the word boundary. -/
def Rule.contextTokens (rule : Rule) : List Token :=
  (rule.left.getD [] ++ rule.right.getD []).filter (· != wordBoundary)

def phonemeRoles (rules : List Rule) : PhonemeRoles :=
  let produced := TokenSet.ofList (rules.flatMap Rule.output)
  let consumed := TokenSet.ofList (rules.flatMap Rule.input)
  let both := produced.filter consumed.contains
  let mentioned := TokenSet.ofList (rules.flatMap Rule.contextTokens)
  { producedOnly := produced.filter fun token => !consumed.contains token
    consumedOnly := consumed.filter fun token => !produced.contains token
    intermediate := both.filter fun token => alwaysReplacedLater token rules
    persistent := both.filter fun token => !alwaysReplacedLater token rules
    contextOnly := mentioned.filter fun token =>
      !produced.contains token && !consumed.contains token }

end Diachrony
