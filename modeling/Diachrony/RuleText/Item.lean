import Diachrony.Distinct
import Diachrony.Text.Nesting
import Diachrony.TokenSet
import Diachrony.RuleText.Error

/-!
# Items of a rule side

A side of a rule is a sequence of literal tokens and classes.  A class offers members to
choose from, one of which may be nothing at all; a class inside a class contributes its
members.
-/

namespace Diachrony.RuleText

/-- The empty option of a class, as written. -/
def emptyMark : Token := "_"

/-- The deletion mark, which also serves as the empty option of a class. -/
def nullMark : Token := "∅"

/-- A literal token, or a class of members with `none` for the empty option. -/
inductive Item where
  | literal (token : Token)
  | oneOf (members : List (Option Token))
  deriving DecidableEq, Repr

namespace Item

def isClass : Item → Bool
  | literal _ => false
  | oneOf _ => true

def members? : Item → Option (List (Option Token))
  | literal _ => none
  | oneOf members => some members

def contributed : Item → List (Option Token)
  | literal token => [if token == emptyMark || token == nullMark then none else some token]
  | oneOf members => members

/-- What an item contributes to a context: the sequences of at most one token. -/
def options : Item → List (List Token)
  | literal token => [[token]]
  | oneOf members => members.map Option.toList

def render : Item → String
  | literal token => token
  | oneOf members => "[" ++ " ".intercalate (members.map (·.getD emptyMark)) ++ "]"

end Item

def classMembers (items : List Item) : Except Cause (List (Option Token)) :=
  let members := items.flatMap Item.contributed
  if members.isEmpty then .error .emptyClass else .ok members

def continuesLiteral (c : Char) : Bool :=
  !(Text.isBlank c || ['[', ']', '(', ')'].contains c)

def itemLoop (items : List Item) (text : Text) : Except Cause (List Item) :=
  match text with
  | [] => .ok items.reverse
  | c :: rest =>
      if Text.isBlank c then itemLoop items rest
      else if c = '[' then
        match hclose : Text.closing? .square rest with
        | none => .error .unclosedClass
        | some (inside, after) =>
            have := Text.closing?_length hclose
            match itemLoop [] inside with
            | .error cause => .error cause
            | .ok inner =>
                match classMembers inner with
                | .error cause => .error cause
                | .ok members => itemLoop (.oneOf members :: items) after
      else if c = ']' then .error .unclosedClass
      else if c = '(' ∨ c = ')' then .error .optionalGroupOutsideContext
      else
        have := (List.dropWhile_suffix (l := rest) continuesLiteral).length_le
        itemLoop (.literal (String.ofList (c :: rest.takeWhile continuesLiteral)) :: items)
          (rest.dropWhile continuesLiteral)
termination_by text.length
decreasing_by all_goals simp only [List.length_cons]; omega

def parseItems (text : Text) : Except Cause (List Item) :=
  itemLoop [] text

def flattenClass (inside : Text) : Except Cause (List (Option Token)) := do
  classMembers (← parseItems inside)

/-- Whether a context side could be satisfied by nothing at all: it has a class, every class
offers the empty option, and no literal stands beside them. -/
def isVacuous (items : List Item) : Bool :=
  !items.isEmpty && items.all fun
    | .literal _ => false
    | .oneOf members => members.contains none

/-- Extend every given sequence by every option of the items, leftmost choice slowest. -/
def sequencesFrom (sequences : List (List Token)) : List Item → List (List Token)
  | [] => sequences
  | item :: rest =>
      let options := item.options
      sequencesFrom (sequences.flatMap fun sequence => options.map (sequence ++ ·)) rest

/-- The distinct token sequences that choosing a member of every class can give. -/
def contextSequences (items : List Item) : List (List Token) :=
  distinct (sequencesFrom [[]] items)

def renderItems (items : List Item) : String :=
  String.ofList (Text.normalizeBlanks (" ".intercalate (items.map Item.render)).toList)

end Diachrony.RuleText
