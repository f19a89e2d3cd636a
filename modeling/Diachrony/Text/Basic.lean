import Diachrony.Text.Blank

/-!
# Text as a list of characters

Rule files, inventory files and words are read character by character.  This module has
the trimming, splitting and joining that every reader of the library is built from.  The
splitting loops carry their pieces in accumulators, so a long line needs no stack; the
lemmas beside them state the plain recursive equations.
-/

namespace Diachrony

/-- Text under analysis: the characters in reading order. -/
abbrev Text := List Char

instance hashableChar : Hashable Char :=
  ⟨fun c => hash c.val⟩

namespace Text

def byteLength (text : Text) : Nat :=
  text.foldl (fun total c => total + c.utf8Size) 0

def isAllBlank (text : Text) : Bool :=
  text.all isBlank

def trimStart (text : Text) : Text :=
  text.dropWhile isBlank

def trimEnd (text : Text) : Text :=
  (text.reverse.dropWhile isBlank).reverse

def trim (text : Text) : Text :=
  trimEnd (trimStart text)

theorem trimStart_length_le (text : Text) : (trimStart text).length ≤ text.length :=
  (List.dropWhile_suffix isBlank).length_le

/-- Splitting loop: `piece` is the reversed current piece, `pieces` the reversed earlier ones. -/
def splitLoop (separates : Char → Bool) : Text → Text → List Text → List Text
  | [], piece, pieces => (piece.reverse :: pieces).reverse
  | c :: rest, piece, pieces =>
      if separates c then splitLoop separates rest [] (piece.reverse :: pieces)
      else splitLoop separates rest (c :: piece) pieces

/-- The pieces between separating characters; one more piece than separators. -/
def splitWhere (separates : Char → Bool) (text : Text) : List Text :=
  splitLoop separates text [] []

theorem splitLoop_eq (separates : Char → Bool) (text piece : Text) (pieces : List Text) :
    splitLoop separates text piece pieces =
      pieces.reverse ++ splitLoop separates text piece [] := by
  induction text generalizing piece pieces with
  | nil => simp [splitLoop]
  | cons c rest ih =>
      by_cases hc : separates c = true
      · simp [splitLoop, hc, ih [] (piece.reverse :: pieces), ih [] [piece.reverse]]
      · simp [splitLoop, hc, ih (c :: piece) pieces]

theorem splitWhere_nil (separates : Char → Bool) : splitWhere separates [] = [[]] := rfl

theorem splitWhere_cons_of_separates {separates : Char → Bool} {c : Char} {rest : Text}
    (hc : separates c = true) :
    splitWhere separates (c :: rest) = [] :: splitWhere separates rest := by
  simp [splitWhere, splitLoop, hc, splitLoop_eq separates rest [] [[]]]

def words (text : Text) : List Text :=
  (splitWhere isBlank text).filter (!·.isEmpty)

/-- Words joined by single spaces: runs of blanks collapse and the ends are trimmed. -/
def normalizeBlanks (text : Text) : Text :=
  [' '].intercalate (words text)

/-- A line without the carriage return that may precede its line feed. -/
def dropReturn (line : Text) : Text :=
  if line.getLast? = some '\r' then line.dropLast else line

/-- The lines of a text.  A line ends at a line feed, which takes one carriage return before
it along; text after the last line feed is a line of its own unless it is empty. -/
def lines (text : Text) : List Text :=
  let pieces := splitWhere (· == '\n') text
  let terminated := pieces.dropLast.map dropReturn
  match pieces.getLast? with
  | none | some [] => terminated
  | some unterminated => terminated ++ [unterminated]

def numberedLines (text : Text) : List (Nat × Text) :=
  (lines text).zipIdx 1 |>.map fun (line, number) => (number, line)

def statements (line : Text) : List Text :=
  ((splitWhere (· == ';') line).map trim).filter (!·.isEmpty)

def splitFirst? (needle : Char) (text : Text) : Option (Text × Text) :=
  match text.span (· != needle) with
  | (_, []) => none
  | (before, _ :: after) => some (before, after)

end Text

end Diachrony
