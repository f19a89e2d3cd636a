import Diachrony.Text.Nesting
import Diachrony.TokenSet
import Diachrony.RuleText.Error

/-!
# Negative sets

`![a b]` stands for the class of all known phonemes except those listed.  The known
phonemes are the literal tokens of the texts at hand.
-/

namespace Diachrony.RuleText

def isDelimiter (c : Char) : Bool :=
  Text.isBlank c || ['[', ']', '(', ')', '!', '>', '/', '_', ';', '='].contains c

/-- Tokens that mark a position and are no phonemes: the word boundary and the empty side. -/
def marks : List Token :=
  ["#", "∅"]

/-- The literal tokens of a text, in order; syntax and marks are left out. -/
def literalTokens (text : Text) : List Token :=
  (((Text.splitWhere isDelimiter text).filter (!·.isEmpty)).map String.ofList).filter
    (!marks.contains ·)

def knownTokens (texts : List Text) : TokenSet :=
  TokenSet.ofList (texts.flatMap literalTokens)

def writtenClass (tokens : List Token) : Text :=
  '[' :: (" ".intercalate tokens).toList ++ [']']

/-- Complement loop: `written` is the reversed text before the current position. -/
def complementLoop (known : TokenSet) (written text : Text) : Except Cause Text :=
  let before := text.takeWhile (· != '!')
  match htail : text.dropWhile (· != '!') with
  | [] => .ok (written.reverse ++ text)
  | _ :: behind =>
      have h₁ := (List.dropWhile_suffix (l := text) (· != '!')).length_le
      match hopen : Text.trimStart behind with
      | '[' :: body =>
          have h₂ := Text.trimStart_length_le behind
          match hclose : Text.closing? .square body with
          | none => .error .unclosedClass
          | some (inside, after) =>
              have h₃ := Text.closing?_length hclose
              let rest := known.without (literalTokens inside)
              if rest.isEmpty then .error .emptyNegativeSet
              else
                have : after.length < text.length := by
                  rw [htail] at h₁
                  rw [hopen] at h₂
                  simp only [List.length_cons] at h₁ h₂
                  omega
                complementLoop known
                  ((writtenClass rest.toList).reverse ++ (before.reverse ++ written)) after
      | _ => .error .malformedNegativeSet
termination_by text.length

/-- Replace each `![…]` by the class of the known tokens that it does not list. -/
def expandNegativeSets (known : TokenSet) (text : Text) : Except Cause Text :=
  complementLoop known [] text

end Diachrony.RuleText
