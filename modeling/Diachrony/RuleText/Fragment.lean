import Diachrony.Distinct
import Diachrony.Text.Nesting
import Diachrony.RuleText.Error

/-!
# Optional groups

A context side, and likewise a phonotactic pattern, is a sequence of fixed parts and
optional groups, which may be nested.  `enumerate` lists the sequences of fixed parts that
come about by keeping or dropping each group.
-/

namespace Diachrony.RuleText

inductive Fragment (α : Type) where
  | fixed (content : α)
  | group (inner : List (Fragment α))
  deriving Repr

namespace Fragment

variable {α β : Type}

mutual

/-- Number of groups in a fragment, nested ones included. -/
def groupCount : Fragment α → Nat
  | fixed _ => 0
  | group inner => 1 + groupCounts inner

def groupCounts : List (Fragment α) → Nat
  | [] => 0
  | fragment :: rest => groupCount fragment + groupCounts rest

end

mutual

/-- The sequences a fragment stands for; a kept group comes before the dropped one. -/
def choices : Fragment α → List (List α)
  | fixed content => [[content]]
  | group inner => enumerateFrom [[]] inner ++ [[]]

/-- Extend every given sequence by every choice of the fragments, leftmost choice slowest. -/
def enumerateFrom (variants : List (List α)) : List (Fragment α) → List (List α)
  | [] => variants
  | fragment :: rest =>
      let options := choices fragment
      enumerateFrom (variants.flatMap fun variant => options.map (variant ++ ·)) rest

end

/-- Every sequence of fixed parts that keeping or dropping each group can leave.  Dropping a
group drops everything in it.  Duplicates are kept. -/
def enumerate (fragments : List (Fragment α)) : List (List α) :=
  enumerateFrom [[]] fragments

mutual

/-- Replace the content of fixed parts by sequences, spliced into the place of the part. -/
def splice {ε : Type} (f : α → Except ε (List β)) : Fragment α → Except ε (List (Fragment β))
  | fixed content => (f content).map (List.map fixed)
  | group inner => (spliceAll f inner).map fun replaced => [group replaced]

def spliceAll {ε : Type} (f : α → Except ε (List β)) :
    List (Fragment α) → Except ε (List (Fragment β))
  | [] => .ok []
  | fragment :: rest => do
      let first ← splice f fragment
      let others ← spliceAll f rest
      .ok (first ++ others)

end

end Fragment

def pushFixed (reversed : Text) (fragments : List (Fragment Text)) : List (Fragment Text) :=
  if Text.isAllBlank reversed then fragments else .fixed reversed.reverse :: fragments

/-- Fragment loop: `depth` counts open square brackets, `piece` is the reversed current fixed
part and `fragments` the reversed fragments before it. -/
def fragmentLoop (depth : Nat) (piece : Text) (fragments : List (Fragment Text)) (text : Text) :
    Except Cause (List (Fragment Text)) :=
  match text with
  | [] => .ok (pushFixed piece fragments).reverse
  | c :: rest =>
      if c = '[' then fragmentLoop (depth + 1) (c :: piece) fragments rest
      else if c = ']' then fragmentLoop (depth - 1) (c :: piece) fragments rest
      else if depth = 0 ∧ c = '(' then
        match hclose : Text.closing? .round rest with
        | none => .error .unclosedOptionalGroup
        | some (inside, after) =>
            have := Text.closing?_length hclose
            match fragmentLoop 0 [] [] inside with
            | .error cause => .error cause
            | .ok inner => fragmentLoop 0 [] (.group inner :: pushFixed piece fragments) after
      else if depth = 0 ∧ c = ')' then .error .unclosedOptionalGroup
      else fragmentLoop depth (c :: piece) fragments rest
termination_by text.length
decreasing_by all_goals simp only [List.length_cons]; omega

/-- Cut a text into fixed parts and parenthesised groups.  Parentheses inside square brackets
are ordinary characters, and blank fixed parts are dropped. -/
def parseFragments (text : Text) : Except Cause (List (Fragment Text)) :=
  fragmentLoop 0 [] [] text

/-- The distinct texts that keeping or dropping each group can leave, with blanks
normalized; the empty text stands for a side that is dropped altogether. -/
def expandGroups (limit : Nat) (text : Text) : Except Cause (List Text) := do
  let fragments ← parseFragments text
  let count := Fragment.groupCounts fragments
  if count > limit then .error (.limitExceeded "optional groups on one side" count limit)
  else
    let variants := (Fragment.enumerate fragments).map fun parts =>
      Text.normalizeBlanks ([' '].intercalate parts)
    .ok (distinct variants)

end Diachrony.RuleText
