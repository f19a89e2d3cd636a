import Diachrony.Text.Basic

/-!
# Bracket nesting

Classes stand in square brackets and optional groups in parentheses.  Both kinds nest in
each other.  This module finds the partner of an opening bracket, the occurrences of a
character outside all brackets, and decides whether a text is well nested.
-/

namespace Diachrony

/-- The two kinds of brackets: `[ ]` and `( )`. -/
inductive Bracket where
  | square
  | round
  deriving DecidableEq, Repr

namespace Bracket

def opened? : Char → Option Bracket
  | '[' => some square
  | '(' => some round
  | _ => none

def closed? : Char → Option Bracket
  | ']' => some square
  | ')' => some round
  | _ => none

end Bracket

namespace Text

/-- Whether the rest of a text closes exactly the kinds on the stack, innermost first. -/
def closesAll : List Bracket → Text → Bool
  | pending, [] => pending.isEmpty
  | pending, c :: rest =>
      match Bracket.opened? c, Bracket.closed? c with
      | some kind, _ => closesAll (kind :: pending) rest
      | none, some kind =>
          match pending with
          | top :: below => top == kind && closesAll below rest
          | [] => false
      | none, none => closesAll pending rest

/-- Whether every bracket is closed by its own kind. -/
def isBalanced (text : Text) : Bool :=
  closesAll [] text

/-- Walk to the closer that empties the stack.  Gives the text passed on the way, after the
reversed `passed`, and the text behind the closer. -/
def closingLoop (passed : Text) : List Bracket → Text → Option (Text × Text)
  | _, [] => none
  | pending, c :: rest =>
      match Bracket.opened? c, Bracket.closed? c with
      | some kind, _ => closingLoop (c :: passed) (kind :: pending) rest
      | none, some kind =>
          match pending with
          | [] => none
          | top :: below =>
              if top ≠ kind then none
              else if below.isEmpty then some (passed.reverse, rest)
              else closingLoop (c :: passed) below rest
      | none, none => closingLoop (c :: passed) pending rest

theorem closingLoop_length {passed : Text} {pending : List Bracket} {text inside after : Text}
    (h : closingLoop passed pending text = some (inside, after)) :
    inside.length + 1 + after.length = passed.length + text.length := by
  induction text generalizing passed pending with
  | nil => simp [closingLoop] at h
  | cons c rest ih =>
      unfold closingLoop at h
      split at h
      · have := ih h
        simp only [List.length_cons] at this ⊢
        omega
      · split at h
        · exact absurd h (by simp)
        · split at h
          · exact absurd h (by simp)
          · split at h
            · simp only [Option.some.injEq, Prod.mk.injEq] at h
              obtain ⟨rfl, rfl⟩ := h
              simp
              omega
            · have := ih h
              simp only [List.length_cons] at this ⊢
              omega
      · have := ih h
        simp only [List.length_cons] at this ⊢
        omega

/-- Behind an opening bracket of the given kind: the text inside and the text after the
partner.  `none` if the text ends first or a closer of the wrong kind comes up. -/
def closing? (kind : Bracket) (text : Text) : Option (Text × Text) :=
  closingLoop [] [kind] text

theorem closing?_length {kind : Bracket} {text inside after : Text}
    (h : closing? kind text = some (inside, after)) :
    inside.length + 1 + after.length = text.length := by
  simpa using closingLoop_length h

def splitAtByte (offset : Nat) : Text → Text × Text
  | [] => ([], [])
  | c :: rest =>
      if offset = 0 then ([], c :: rest)
      else
        let (before, after) := splitAtByte (offset - c.utf8Size) rest
        (c :: before, after)

/-- Byte offset of the closer that matches the first bracket at or after a byte offset. -/
def matchingOffset? (text : Text) (offset : Nat) : Option Nat :=
  let (before, after) := splitAtByte offset text
  (closingLoop [] [] after).map fun (inside, _) => byteLength before + byteLength inside

/-- Splitting loop for characters outside all brackets.  A closer without an opener leaves
the depth at zero, and the kinds of brackets are not compared. -/
def topLevelLoop (needle : Char) : Nat → Text → Text → List Text → List Text
  | _, [], piece, pieces => (piece.reverse :: pieces).reverse
  | depth, c :: rest, piece, pieces =>
      match Bracket.opened? c, Bracket.closed? c with
      | some _, _ => topLevelLoop needle (depth + 1) rest (c :: piece) pieces
      | none, some _ => topLevelLoop needle (depth - 1) rest (c :: piece) pieces
      | none, none =>
          if c == needle && depth == 0 then
            topLevelLoop needle depth rest [] (piece.reverse :: pieces)
          else topLevelLoop needle depth rest (c :: piece) pieces

/-- The pieces between occurrences of a character outside all brackets. -/
def splitTopLevel (needle : Char) (text : Text) : List Text :=
  topLevelLoop needle 0 text [] []

def occursTopLevel (needle : Char) (text : Text) : Bool :=
  1 < (splitTopLevel needle text).length

def separatorOffsets (needle : Char) : Nat → List Text → List Nat
  | start, piece :: next :: rest =>
      let offset := start + byteLength piece
      offset :: separatorOffsets needle (offset + needle.utf8Size) (next :: rest)
  | _, _ => []

/-- Byte offsets of a character's occurrences outside all brackets, ascending. -/
def topLevelOffsets (needle : Char) (text : Text) : List Nat :=
  separatorOffsets needle 0 (splitTopLevel needle text)

end Text

end Diachrony
