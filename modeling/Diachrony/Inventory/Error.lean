import Diachrony.RuleText.Error

/-!
# What can be wrong with an inventory text
-/

namespace Diachrony

inductive InventoryError where
  | invalidClass (error : RuleText.Error)
  | unknownPatternSymbol (line : Nat) (symbol : String)
  | malformedPattern (line : Nat) (reason : String)
  | unexpectedContent (line : Nat) (sectionName : String)
  | tooManyPhonemes (count limit : Nat)
  | tooManyPatterns (count limit : Nat)
  deriving DecidableEq, Repr

namespace InventoryError

def message : InventoryError → String
  | invalidClass error => "invalid class definition: " ++ error.message
  | unknownPatternSymbol line symbol =>
      s!"line {line}: '{symbol}' is neither a class name nor a phoneme"
  | malformedPattern line reason => s!"line {line}: malformed pattern: {reason}"
  | unexpectedContent line sectionName =>
      s!"line {line}: unexpected content in [{sectionName}] section"
  | tooManyPhonemes count limit => s!"inventory declares {count} phonemes (max: {limit})"
  | tooManyPatterns count limit => s!"phonotactics expand to {count} patterns (max: {limit})"

def line? : InventoryError → Option Nat
  | invalidClass error => some error.line
  | unknownPatternSymbol line _ | malformedPattern line _ | unexpectedContent line _ => some line
  | tooManyPhonemes _ _ | tooManyPatterns _ _ => none

def code : InventoryError → Code
  | invalidClass error => error.code
  | unknownPatternSymbol _ _ => Code.unknownPatternSymbol
  | malformedPattern _ _ | unexpectedContent _ _ => Code.malformedInventory
  | tooManyPhonemes _ _ | tooManyPatterns _ _ => Code.inventoryLimit

end InventoryError

end Diachrony
