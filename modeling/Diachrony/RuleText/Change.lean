import Diachrony.Distinct
import Diachrony.Limits
import Diachrony.RuleText.Item

/-!
# Changes

A rule statement with classes stands for several changes, one for each choice of class
members.  The k-th class of the target follows the k-th class of the source: it contributes
the member at the same place.  A source class without a partner ranges on its own.
-/

namespace Diachrony.RuleText

structure Change where
  input : List Token
  output : List Token
  deriving DecidableEq, Hashable, Repr

/-- One choice for a source class: its member, and the member of the partner class. -/
abbrev Pick := Option Token × Option Token

/-- The product of some sizes, refused as soon as it passes the limit. -/
def checkedProduct [Limits] (sizes : List Nat) : Except Cause Nat :=
  sizes.foldlM (fun product size =>
    let count := product * size
    if count > Limits.rulesPerStatement then
      .error (.expansionLimitExceeded count Limits.rulesPerStatement)
    else .ok count) 1

/-- The choices each source class offers, paired with the target classes in order. -/
def classPicks : List (List (Option Token)) → List (List (Option Token)) → List (List Pick)
  | [], _ => []
  | source :: sources, [] => source.map (·, none) :: classPicks sources []
  | source :: sources, target :: targets => source.zip target :: classPicks sources targets

/-- One choice from every list, the last list varying fastest. -/
def choicesOf {α : Type} : List (List α) → List (List α)
  | [] => [[]]
  | options :: rest =>
      let tails := choicesOf rest
      options.flatMap fun option => tails.map (option :: ·)

/-- The tokens of a side once every class is replaced by the member picked for it, in order.
The deletion mark and the empty option contribute nothing. -/
def realize : List Item → List (Option Token) → List Token
  | [], _ => []
  | .literal token :: items, picks =>
      if token == nullMark then realize items picks else token :: realize items picks
  | .oneOf _ :: items, pick :: picks =>
      match pick with
      | some token =>
          if token == nullMark then realize items picks else token :: realize items picks
      | none => realize items picks
  | .oneOf _ :: items, [] => realize items []

def pairingCause? (sources targets : List (List (Option Token))) : Option Cause :=
  if !targets.isEmpty && sources.isEmpty then some .classTargetRequiresClassSource
  else if targets.length > sources.length then
    some (.unpairedTargetClass sources.length targets.length)
  else
    ((sources.zip targets).find? fun (source, target) => source.length != target.length).map
      fun (source, target) => .pairedClassArityMismatch source.length target.length

def expandChanges [Limits] (source target : List Item) : Except Cause (List Change) := do
  let sources := source.filterMap Item.members?
  let targets := target.filterMap Item.members?
  match pairingCause? sources targets with
  | some cause => .error cause
  | none =>
      let _ ← checkedProduct (sources.map List.length)
      let changes := (choicesOf (classPicks sources targets)).map fun picks =>
        (⟨realize source (picks.map Prod.fst), realize target (picks.map Prod.snd)⟩ : Change)
      if changes.any (·.input.isEmpty) then .error .emptyFrom
      else .ok (distinct changes)

end Diachrony.RuleText
