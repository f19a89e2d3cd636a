import Diachrony.TokenSet

/-!
# Sound change rules

A rule changes one sequence of tokens into another where its contexts hold.  Contexts are
read on the tokens around the changed span; the word boundary `#` at the outer end of a
context pins it to the edge of the word.
-/

namespace Diachrony

/-- The token that marks the edge of the word. -/
def wordBoundary : Token := "#"

/-- A concrete rule: no classes, variables or optional groups remain. -/
structure Rule where
  input : List Token
  /-- Empty for a rule that deletes its input. -/
  output : List Token
  /-- What must precede the span; `none` is no constraint. -/
  left : Option (List Token)
  /-- What must follow the span; `none` is no constraint. -/
  right : Option (List Token)
  /-- Number of the line the rule was stated on. -/
  line : Nat
  deriving DecidableEq, Hashable, Repr, Inhabited

namespace Rule

def isDeletion (rule : Rule) : Bool :=
  rule.output.isEmpty

def hasContext (rule : Rule) : Bool :=
  rule.left.isSome || rule.right.isSome

/-- Whether the tokens before a span, the nearest first, satisfy the left context.  A leading
`#` asks for the rest of the context and nothing before it. -/
def leftHolds (rule : Rule) (before : List Token) : Bool :=
  match rule.left with
  | none => true
  | some [] => true
  | some (first :: rest) =>
      if first == wordBoundary then before == rest.reverse
      else (first :: rest).reverse.isPrefixOf before

/-- Whether the tokens after a span, the nearest first, satisfy the right context.  A trailing
`#` asks for the rest of the context and nothing after it. -/
def rightHolds (rule : Rule) (after : List Token) : Bool :=
  match rule.right with
  | none => true
  | some context =>
      if context.getLast? == some wordBoundary then after == context.dropLast
      else context.isPrefixOf after

def leftMatches (rule : Rule) (tokens : List Token) (start : Nat) : Bool :=
  rule.leftHolds (tokens.take start).reverse

def rightMatches (rule : Rule) (tokens : List Token) (finish : Nat) : Bool :=
  rule.rightHolds (tokens.drop finish)

def contextHolds (rule : Rule) (tokens : List Token) (start finish : Nat) : Bool :=
  rule.leftMatches tokens start && rule.rightMatches tokens finish

/-- Whether the input stands between the tokens before, the nearest first, and the rest of a
word, with both contexts satisfied around it. -/
def matchesBetween (rule : Rule) (before rest : List Token) : Bool :=
  rule.input.isPrefixOf rest && rule.leftHolds before &&
    rule.rightHolds (rest.drop rule.input.length)

def matchesAt (rule : Rule) (tokens : List Token) (start : Nat) : Bool :=
  rule.matchesBetween (tokens.take start).reverse (tokens.drop start)

theorem matchesAt_eq (rule : Rule) (tokens : List Token) (start : Nat) :
    rule.matchesAt tokens start =
      (rule.input.isPrefixOf (tokens.drop start) &&
        rule.contextHolds tokens start (start + rule.input.length)) := by
  simp [matchesAt, matchesBetween, contextHolds, leftMatches, rightMatches, Bool.and_assoc]

def tokens (rule : Rule) : List Token :=
  (rule.input ++ rule.output ++ rule.left.getD [] ++ rule.right.getD []).filter
    (· != wordBoundary)

/-- The written form of a rule, such as `a b > ∅ / c _ #`. -/
def render (rule : Rule) : String :=
  let join (tokens : List Token) := " ".intercalate tokens
  let output := if rule.output.isEmpty then "∅" else join rule.output
  let change := join rule.input ++ " > " ++ output
  if rule.hasContext then
    let sides := (rule.left.map join).toList ++ ["_"] ++ (rule.right.map join).toList
    change ++ " / " ++ join sides
  else change

end Rule

end Diachrony
