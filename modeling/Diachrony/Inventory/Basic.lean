import Diachrony.Pattern
import Diachrony.Segmentation

/-!
# Phoneme inventories

An inventory lists the phonemes of a language stage, the shapes its words may have and the
named classes it was declared with.
-/

namespace Diachrony

structure Inventory where
  phonemes : TokenSet
  patterns : List Pattern
  /-- Named classes in ascending order of their names. -/
  classes : List (String × TokenSet)
  deriving DecidableEq, Repr

namespace Inventory

/-- An inventory of the nonempty tokens among those given, without phonotactics. -/
def ofPhonemes (phonemes : List Token) : Inventory :=
  ⟨TokenSet.ofList (phonemes.filter (!·.isEmpty)), [], []⟩

def isConstrained (inventory : Inventory) : Bool :=
  !inventory.patterns.isEmpty

/-- The patterns words have to follow; `none` if they need not follow any. -/
def phonotactics (inventory : Inventory) : Option (List Pattern) :=
  if inventory.isConstrained then some inventory.patterns else none

def segmenter (inventory : Inventory) : Segmenter :=
  Segmenter.ofTokens inventory.phonemes.toList

end Inventory

end Diachrony
