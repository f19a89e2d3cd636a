import Diachrony.Inventory.Reader
import Diachrony.Narration.Compiling
import Diachrony.Reversal

/-!
# What inventories, derivations and reversals report

As in compiling, the events follow from the inputs; nothing is recorded on the way.
-/

namespace Diachrony

def inventoryEvents [Limits] (text : Text) : List Event :=
  let (draft, error) := InventoryDraft.ofText text
  draft.redefinitions.reverse.map RuleText.Redefinition.event ++
    match error with
    | some _ => []
    | none =>
        draft.table.resolutionEvents ++
          match draft.finish with
          | .error _ => []
          | .ok inventory =>
              [Event.success Code.inventoryRead "Inventory parsed"
                [("phonemes", toString inventory.phonemes.size),
                 ("classes", toString inventory.classes.length),
                 ("patterns", toString inventory.patterns.length)]]

namespace Deriver

def derivedEvent [Limits] (word output : String) : Event :=
  Event.debug "Word derived" [("input", word), ("output", output)]

def deriveEvents [Limits] (deriver : Deriver) (word : String) : List Event :=
  match deriver.derive word with
  | .error _ => []
  | .ok output => [derivedEvent word output]

/-- What deriving a word on its own reports: the derivation and its completion. -/
def deriveOnceEvents [Limits] (deriver : Deriver) (word : String) : List Event :=
  match deriver.derive word with
  | .error _ => []
  | .ok output =>
      [derivedEvent word output,
       Event.success Code.wordDerived "Forward application completed"
        [("input", word), ("output", output), ("rules", toString deriver.rules.length)]]

end Deriver

namespace Reverser

def undoEvents [Limits] (reverser : Reverser) (word : String) (tokens : List Token) : List Event :=
  if reverser.isRefused tokens then
    [Event.debug "Word violates target phonotactics" [("word", word)]]
  else if reverser.settings.reportCandidates then
    (reverser.undoAll reverser.steps [Candidate.of tokens]).map fun (step, candidates) =>
      Event.debug "Rule undone"
        [("rule", step.rule.render), ("candidates", toString candidates.length)]
  else []

/-- What reversing a word reports; a remembered answer reports nothing. -/
def reverseEvents [Limits] (reverser : Reverser) (word : String) : List Event :=
  match reverser.remembered? word with
  | some _ => []
  | none =>
      match reverser.target.segment word with
      | .error _ => []
      | .ok tokens => reverser.undoEvents word tokens

/-- What reversing a word on its own reports: the reversal and its completion. -/
def reverseOnceEvents [Limits] (reverser : Reverser) (word : String) : List Event :=
  reverser.reverseEvents word ++
    match reverser.reconstruct word with
    | .error _ => []
    | .ok sources =>
        [Event.success Code.wordReversed "Reversal completed"
          [("word", word), ("sources", toString sources.size)]]

end Reverser

end Diachrony
