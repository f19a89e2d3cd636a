import Diachrony.Derivation
import Diachrony.Limits
import Diachrony.Settings

/-!
# Reconstructing words

Reversal undoes the rules from the last to the first and so finds every word of the source
stage that the rules could have turned into the given one.  A candidate is a token sequence;
undoing a rule replaces each candidate by its pre-images under the rule, and the candidates
left at the end are filtered by the source inventory.
-/

namespace Diachrony

/-- Separates the tokens of a candidate in its key. -/
def keySeparator : String := "\x1f"

def candidateKey (tokens : List Token) : String :=
  keySeparator.intercalate tokens

structure Candidate where
  key : String
  tokens : List Token
  deriving DecidableEq, Repr

def Candidate.of (tokens : List Token) : Candidate :=
  ⟨candidateKey tokens, tokens⟩

/-- Candidates added to those kept so far, one per key: the first with a key stays. -/
def keepFirst (seen : Std.HashSet String) (kept : List Candidate) :
    List Candidate → List Candidate
  | [] => kept.reverse
  | candidate :: rest =>
      if seen.contains candidate.key then keepFirst seen kept rest
      else keepFirst (seen.insert candidate.key) (candidate :: kept) rest

/-- One candidate per key, in ascending order of keys. -/
def mergeCandidates (candidates : List Candidate) : List Candidate :=
  (keepFirst ∅ [] candidates).mergeSort fun a b => decide (a.key ≤ b.key)

namespace Rule

/-- Positions where the output occurs with both contexts holding around it, ascending. -/
def occurrences (rule : Rule) (tokens : List Token) : List Nat :=
  let width := rule.output.length
  if width = 0 ∨ tokens.length < width then []
  else
    (List.range (tokens.length - width + 1)).filter fun start =>
      rule.output.isPrefixOf (tokens.drop start) &&
        rule.contextHolds tokens start (start + width)

/-- Put the input back at chosen positions, which are ascending and do not overlap; the
tokens given start at `position`. -/
def undoFrom (rule : Rule) (position : Nat) (tokens : List Token) : List Nat → List Token
  | [] => tokens
  | start :: rest =>
      let before := start - position
      let width := rule.output.length
      tokens.take before ++ rule.input ++
        undoFrom rule (start + width) (tokens.drop (before + width)) rest

def undoAt (rule : Rule) (tokens : List Token) (chosen : List Nat) : List Token :=
  rule.undoFrom 0 tokens chosen

end Rule

/-- The sublists of ascending positions that start at `least` or later and whose members are
at least `width` apart.  Those with the first position come before those without it. -/
def spacedSublists (width : Nat) : Nat → List Nat → List (List Nat)
  | _, [] => [[]]
  | least, start :: rest =>
      (if least ≤ start then (spacedSublists width (start + width) rest).map (start :: ·)
        else []) ++ spacedSublists width least rest

namespace Rule

/-- What a rule with an output could have been applied to: the tokens with the input put back
at any choice of occurrences. -/
def changePreimages (rule : Rule) (tokens : List Token) : List (List Token) :=
  (spacedSublists rule.output.length 0 (rule.occurrences tokens)).map (rule.undoAt tokens)

def insertAt (rule : Rule) (tokens : List Token) (position : Nat) : List Token :=
  tokens.take position ++ rule.input ++ tokens.drop position

/-- What a deletion rule could have been applied to: the tokens as they stand, if the source
stage has all that the rule deletes, and the tokens with the input inserted at one place
where the contexts hold. -/
def deletionPreimages (rule : Rule) (source : Segmenter) (tokens : List Token) :
    List (List Token) :=
  let unchanged := if rule.input.all source.contains then [tokens] else []
  let inserted := (List.range (tokens.length + 1)).filterMap fun position =>
    let candidate := rule.insertAt tokens position
    if rule.contextHolds candidate position (position + rule.input.length) then some candidate
    else none
  unchanged ++ inserted

def preimages (rule : Rule) (source : Segmenter) (tokens : List Token) : List (List Token) :=
  if rule.isDeletion then rule.deletionPreimages source tokens
  else rule.changePreimages tokens

end Rule

/-- A rule to undo, with the tokens that the rules before it can write. -/
structure UndoStep where
  rule : Rule
  producible : Std.HashSet Token

def undoSteps (produced : Std.HashSet Token) (steps : List UndoStep) :
    List Rule → List UndoStep
  | [] => steps
  | rule :: rest => undoSteps (produced.insertMany rule.output) (⟨rule, produced⟩ :: steps) rest

/-- Rules and inventories prepared for reversal, with the answers remembered so far. -/
structure Reverser where
  /-- The rules to undo, the last rule first. -/
  steps : List UndoStep
  source : Segmenter
  /-- Source phonemes and everything a deletion rule removes. -/
  effectiveSource : Segmenter
  sourcePatterns : Option (List Pattern)
  target : Segmenter
  targetPatterns : Option (List Pattern)
  settings : ReverserSettings
  remembered : Std.HashMap String TokenSet

namespace Reverser

def of (rules : List Rule) (source target : Inventory) (settings : ReverserSettings) :
    Reverser :=
  let deleted := (rules.filter Rule.isDeletion).flatMap Rule.input
  { steps := undoSteps ∅ [] rules
    source := source.segmenter
    effectiveSource := Segmenter.ofTokens (source.phonemes.toList ++ deleted)
    sourcePatterns := source.phonotactics
    target := target.segmenter
    targetPatterns := target.phonotactics
    settings
    remembered := ∅ }

def rememberedCount (reverser : Reverser) : Nat :=
  reverser.remembered.size

def forget (reverser : Reverser) : Reverser :=
  { reverser with remembered := ∅ }

def isSourceWord (reverser : Reverser) (word : String) : Bool :=
  match reverser.effectiveSource.segment word with
  | .ok tokens => satisfiesPatterns reverser.sourcePatterns tokens
  | .error _ => false

/-- Whether a candidate can never become a source word: it has a token that no rule left to
undo can write, with a character that no source phoneme uses. -/
def isDead (reverser : Reverser) (producible : Std.HashSet Token) (tokens : List Token) : Bool :=
  tokens.any fun token =>
    !producible.contains token &&
      token.toList.any fun c => !reverser.effectiveSource.usesCharacter c

def undo (reverser : Reverser) (step : UndoStep) (candidates : List Candidate) :
    List Candidate :=
  let found := candidates.flatMap fun candidate =>
    step.rule.preimages reverser.source candidate.tokens
  let alive :=
    if reverser.settings.earlyPruning then
      found.filter fun tokens => !reverser.isDead step.producible tokens
    else found
  mergeCandidates (alive.map Candidate.of)

/-- The candidates after each rule that is undone, until none are left. -/
def undoAll (reverser : Reverser) :
    List UndoStep → List Candidate → List (UndoStep × List Candidate)
  | [], _ => []
  | step :: rest, candidates =>
      let next := reverser.undo step candidates
      (step, next) :: if next.isEmpty then [] else undoAll reverser rest next

/-- Whether the settings ask for the tokens of a word to satisfy the target patterns, and
they do not. -/
def isRefused (reverser : Reverser) (tokens : List Token) : Bool :=
  reverser.settings.checkTargetPhonotactics && !satisfiesPatterns reverser.targetPatterns tokens

def sourcesOf (reverser : Reverser) (tokens : List Token) : TokenSet :=
  if reverser.isRefused tokens then TokenSet.empty
  else
    let start := [Candidate.of tokens]
    let final := match (reverser.undoAll reverser.steps start).getLast? with
      | some (_, candidates) => candidates
      | none => start
    TokenSet.ofList ((final.map fun candidate => spell candidate.tokens).filter
      reverser.isSourceWord)

def reconstruct (reverser : Reverser) (word : String) : Except SegmentationError TokenSet := do
  pure (reverser.sourcesOf (← reverser.target.segment word))

def remembered? (reverser : Reverser) (word : String) : Option TokenSet :=
  if reverser.settings.enableCache then reverser.remembered[word]? else none

def remember [Limits] (reverser : Reverser) (word : String) (sources : TokenSet) : Reverser :=
  if reverser.settings.enableCache && decide (reverser.rememberedCount < Limits.cachedWords) then
    { reverser with remembered := reverser.remembered.insert word sources }
  else reverser

def reverse [Limits] (reverser : Reverser) (word : String) :
    Except SegmentationError TokenSet × Reverser :=
  match reverser.remembered? word with
  | some sources => (.ok sources, reverser)
  | none =>
      match reverser.reconstruct word with
      | .error error => (.error error, reverser)
      | .ok sources => (.ok sources, reverser.remember word sources)

end Reverser

end Diachrony
