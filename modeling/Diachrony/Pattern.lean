import Diachrony.TokenSet

/-!
# Phonotactic patterns

A pattern is the shape of a word: one set of admissible tokens per position.  An inventory
without patterns admits every word; an empty list of patterns admits none.
-/

namespace Diachrony

structure Pattern where
  slots : List TokenSet
  deriving DecidableEq, Hashable, Repr

namespace Pattern

def size (pattern : Pattern) : Nat :=
  pattern.slots.length

def isEmpty (pattern : Pattern) : Bool :=
  pattern.slots.isEmpty

/-- Whether a word has the shape: a token per position, and every one admissible there. -/
def fits (pattern : Pattern) (tokens : List Token) : Bool :=
  tokens.length == pattern.size &&
    (tokens.zip pattern.slots).all fun (token, slot) => slot.contains token

/-- The written form, such as `[k p t][a i]`. -/
def render (pattern : Pattern) : String :=
  String.join (pattern.slots.map fun slot => "[" ++ " ".intercalate slot.toList ++ "]")

/-- The order of patterns: position by position, member by member. -/
def precedes (a b : Pattern) : Bool :=
  !List.lex (b.slots.map TokenSet.toList) (a.slots.map TokenSet.toList) fun s t =>
    List.lex s t fun x y => decide (x < y)

end Pattern

/-- Whether a word satisfies some pattern; without a list of patterns every word does. -/
def satisfiesPatterns (patterns : Option (List Pattern)) (tokens : List Token) : Bool :=
  match patterns with
  | none => true
  | some patterns => patterns.any fun pattern => pattern.fits tokens

end Diachrony
