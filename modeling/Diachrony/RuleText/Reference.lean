import Diachrony.Distinct
import Diachrony.Text.Alphanumeric
import Diachrony.Text.Basic

/-!
# References to names

A name occurs in a text only as a whole token: neither the character before it nor the
character after it is alphanumeric.  `scan` cuts a text into references and other
characters; what the references are replaced by is a matter of the caller, and the
replacement is never scanned again.
-/

namespace Diachrony.RuleText

/-- One step of reading a text: a name, or a character that belongs to no name. -/
inductive Piece where
  | reference (name : Text)
  | other (c : Char)
  deriving DecidableEq, Repr

/-- The order in which names are tried: longer names first, then by code point. -/
def triedBefore (a b : Text) : Bool :=
  decide (b.length < a.length) ||
    (a.length == b.length && decide (String.ofList a ≤ String.ofList b))

/-- Names in the order in which they are tried, each once. -/
def sortNames (names : List Text) : List Text :=
  (distinct names).mergeSort triedBefore

/-- Whether a name stands at the start of a text and is not continued by an alphanumeric
character.  The empty name stands nowhere. -/
def standsAtStart (text name : Text) : Bool :=
  !name.isEmpty && name.isPrefixOf text &&
    !(text.drop name.length).head?.any Text.isAlphanumeric

/-- Scanning loop: `skip` characters still belong to the name found last, `inToken` tells
whether the previous character was alphanumeric, and `pieces` is reversed. -/
def scanLoop (names : List Text) : Nat → Bool → Text → List Piece → List Piece
  | _, _, [], pieces => pieces.reverse
  | skip + 1, _, c :: rest, pieces => scanLoop names skip (Text.isAlphanumeric c) rest pieces
  | 0, inToken, c :: rest, pieces =>
      match if inToken then none else names.find? (standsAtStart (c :: rest)) with
      | some name =>
          scanLoop names (name.length - 1) (Text.isAlphanumeric c) rest
            (.reference name :: pieces)
      | none => scanLoop names 0 (Text.isAlphanumeric c) rest (.other c :: pieces)

/-- A text cut into references to the names, tried in the given order, and other
characters. -/
def scan (names : List Text) (text : Text) : List Piece :=
  scanLoop names 0 false text []

def references (names : List Text) (text : Text) : List Text :=
  (scan names text).filterMap fun
    | .reference name => some name
    | .other _ => none

def substitute (names : List Text) (value : Text → Text) (text : Text) : Text :=
  (scan names text).flatMap fun
    | .reference name => value name
    | .other c => [c]

theorem scanLoop_eq (names : List Text) (skip : Nat) (inToken : Bool) (text : Text)
    (pieces : List Piece) :
    scanLoop names skip inToken text pieces =
      pieces.reverse ++ scanLoop names skip inToken text [] := by
  induction text generalizing skip inToken pieces with
  | nil => cases skip <;> simp [scanLoop]
  | cons c rest ih =>
      cases skip with
      | succ skip => simp only [scanLoop]; exact ih ..
      | zero =>
          simp only [scanLoop]
          split
          · rename_i name _
            rw [ih _ _ (.reference name :: pieces), ih _ _ [.reference name]]
            simp
          · rw [ih _ _ (.other c :: pieces), ih _ _ [.other c]]
            simp

end Diachrony.RuleText
