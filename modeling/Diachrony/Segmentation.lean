import Std.Data.HashMap
import Diachrony.Journal.Code
import Diachrony.Text.Basic
import Diachrony.TokenSet

/-!
# Segmentation of words into tokens

A word is cut greedily: at every place the longest token that fits is taken, and among
tokens of one length the first by code point.  A `Segmenter` sorts the tokens once and
indexes them by their first character.
-/

namespace Diachrony

structure SegmentationError where
  word : String
  /-- Number of characters before the place where no token fits. -/
  position : Nat
  character : Char
  deriving DecidableEq, Repr

namespace SegmentationError

def message (error : SegmentationError) : String :=
  "Cannot tokenize '" ++ error.word ++ "': no phoneme matches '" ++ error.character.toString ++
    "' at position " ++ toString error.position

def code (_ : SegmentationError) : Code :=
  Code.untokenizableWord

end SegmentationError

structure SpelledToken where
  token : Token
  spelling : Text
  deriving DecidableEq, Repr

def SpelledToken.of (token : Token) : SpelledToken :=
  ⟨token, token.toList⟩

def SpelledToken.startsWith (c : Char) (spelled : SpelledToken) : Bool :=
  spelled.spelling.head? == some c

/-- Tokens grouped by their first character; each group keeps the order of the list. -/
def indexByInitial (tokens : List SpelledToken) : Std.HashMap Char (List SpelledToken) :=
  tokens.foldr (fun spelled index =>
    match spelled.spelling with
    | [] => index
    | c :: _ => index.insert c (spelled :: index.getD c [])) ∅

theorem getD_indexByInitial (tokens : List SpelledToken) (c : Char) :
    (indexByInitial tokens).getD c [] = tokens.filter (SpelledToken.startsWith c) := by
  induction tokens with
  | nil => simp [indexByInitial]
  | cons spelled rest ih =>
      have hstep : indexByInitial (spelled :: rest) =
          match spelled.spelling with
          | [] => indexByInitial rest
          | c :: _ =>
              (indexByInitial rest).insert c (spelled :: (indexByInitial rest).getD c []) := rfl
      rw [hstep]
      cases hs : spelled.spelling with
      | nil => simp [ih, SpelledToken.startsWith, hs]
      | cons d tail =>
          by_cases hdc : d = c
          · subst hdc
            simp [ih, SpelledToken.startsWith, hs]
          · have : (d == c) = false := by simpa using hdc
            simp [Std.HashMap.getD_insert, this, ih, SpelledToken.startsWith, hs]

structure Segmenter where
  /-- The tokens, longest first, then by code point. -/
  sorted : List SpelledToken
  index : Std.HashMap Char (List SpelledToken)
  members : Std.HashSet Token
  characters : Std.HashSet Char

namespace Segmenter

/-- Distinct nonempty tokens, longest first, then by code point. -/
def sortTokens (tokens : List Token) : List SpelledToken :=
  ((TokenSet.ofList (tokens.filter (!·.isEmpty))).toList.map SpelledToken.of).mergeSort
    fun a b => decide (b.spelling.length ≤ a.spelling.length)

/-- Prepare some tokens; empty ones are dropped. -/
def ofTokens (tokens : List Token) : Segmenter :=
  let sorted := sortTokens tokens
  { sorted
    index := indexByInitial sorted
    members := Std.HashSet.ofList (sorted.map SpelledToken.token)
    characters := Std.HashSet.ofList (sorted.flatMap SpelledToken.spelling) }

def tokens (segmenter : Segmenter) : List Token :=
  segmenter.sorted.map SpelledToken.token

def size (segmenter : Segmenter) : Nat :=
  segmenter.sorted.length

def isEmpty (segmenter : Segmenter) : Bool :=
  segmenter.sorted.isEmpty

def contains (segmenter : Segmenter) (token : Token) : Bool :=
  segmenter.members.contains token

def usesCharacter (segmenter : Segmenter) (c : Char) : Bool :=
  segmenter.characters.contains c

def longestAt? (segmenter : Segmenter) : Text → Option SpelledToken
  | [] => none
  | c :: rest =>
      (segmenter.index.getD c []).find? fun spelled => spelled.spelling.isPrefixOf (c :: rest)

/-- Cutting loop: `skip` characters still belong to the token found last, `position` counts
the characters covered by the reversed `tokens`.  Fails with the position and the character
where no token fits. -/
def cutLoop (segmenter : Segmenter) :
    Nat → Nat → List Token → Text → Except (Nat × Char) (List Token)
  | _, _, tokens, [] => .ok tokens.reverse
  | skip + 1, position, tokens, _ :: rest => cutLoop segmenter skip position tokens rest
  | 0, position, tokens, c :: rest =>
      match segmenter.longestAt? (c :: rest) with
      | none => .error (position, c)
      | some spelled =>
          let length := spelled.spelling.length
          cutLoop segmenter (length - 1) (position + length) (spelled.token :: tokens) rest

/-- The tokens of a word.  The empty word has none. -/
def segment (segmenter : Segmenter) (word : String) : Except SegmentationError (List Token) :=
  (cutLoop segmenter 0 0 [] word.toList).mapError fun (position, character) =>
    ⟨word, position, character⟩

def canSegment (segmenter : Segmenter) (word : String) : Bool :=
  (segmenter.segment word).isOk

end Segmenter

end Diachrony
