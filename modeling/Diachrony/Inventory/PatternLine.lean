import Diachrony.Inventory.Basic
import Diachrony.Inventory.Error
import Diachrony.Limits
import Diachrony.RuleText.Fragment
import Diachrony.RuleText.Item

/-!
# Pattern lines of an inventory

A pattern line spells the shape of a word in class names, phonemes and bracketed classes,
with parentheses around what may be missing.  Symbols need no blanks between them: at every
place the longest class name or phoneme is read, and a class name wins over a phoneme of the
same length.
-/

namespace Diachrony

open RuleText

inductive Symbol where
  | phonemeClass (members : TokenSet)
  | phoneme
  deriving DecidableEq, Repr

structure SymbolEntry where
  name : String
  spelling : Text
  symbol : Symbol
  deriving DecidableEq, Repr

/-- Everything a pattern line may refer to, in the order in which it is tried. -/
structure SymbolTable where
  entries : List SymbolEntry
  phonemes : TokenSet
  deriving DecidableEq, Repr

namespace SymbolTable

/-- The symbols of some classes, in ascending order of names, and some phonemes.  Sorting by
length keeps classes before phonemes and names in order. -/
def of (classes : List (String × TokenSet)) (phonemes : TokenSet) : SymbolTable :=
  let named := classes.map fun (name, members) =>
    (⟨name, name.toList, .phonemeClass members⟩ : SymbolEntry)
  let plain := phonemes.toList.map fun token => (⟨token, token.toList, .phoneme⟩ : SymbolEntry)
  ⟨(named ++ plain).mergeSort fun a b => decide (b.spelling.length ≤ a.spelling.length), phonemes⟩

def longestAt? (symbols : SymbolTable) (text : Text) : Option SymbolEntry :=
  symbols.entries.find? fun entry => entry.spelling.isPrefixOf text

end SymbolTable

def inlineClass (line : Nat) (symbols : SymbolTable) (inside : Text) :
    Except InventoryError TokenSet := do
  let members ← (flattenClass inside).mapError fun cause => .malformedPattern line cause.message
  let tokens ← members.mapM fun
    | none =>
        .error (.malformedPattern line
          "empty option inside a pattern class, use ( ) for optional slots")
    | some token =>
        if symbols.phonemes.contains token then .ok token
        else .error (.unknownPatternSymbol line token)
  .ok (TokenSet.ofList tokens)

def namedSlot (line : Nat) (entry : SymbolEntry) : Except InventoryError TokenSet :=
  match entry.symbol with
  | .phoneme => .ok (TokenSet.ofList [entry.name])
  | .phonemeClass members =>
      if members.isEmpty then
        .error (.malformedPattern line ("class '" ++ entry.name ++ "' has no phonemes"))
      else .ok members

/-- Slot loop: `slots` are the reversed slots read so far. -/
def slotLoop (line : Nat) (symbols : SymbolTable) (slots : List TokenSet) (text : Text) :
    Except InventoryError (List TokenSet) :=
  match text with
  | [] => .ok slots.reverse
  | c :: rest =>
      if Text.isBlank c || c == ',' then slotLoop line symbols slots rest
      else if c = '[' then
        match hclose : Text.closing? .square rest with
        | none => .error (.malformedPattern line "unclosed class")
        | some (inside, after) =>
            have := Text.closing?_length hclose
            match inlineClass line symbols inside with
            | .error error => .error error
            | .ok slot => slotLoop line symbols (slot :: slots) after
      else if c = ']' then .error (.malformedPattern line "unexpected ']'")
      else
        match symbols.longestAt? (c :: rest) with
        | none => .error (.unknownPatternSymbol line c.toString)
        | some entry =>
            match namedSlot line entry with
            | .error error => .error error
            | .ok slot =>
                slotLoop line symbols (slot :: slots) (rest.drop (entry.spelling.length - 1))
termination_by text.length
decreasing_by
  all_goals
    simp only [List.length_cons, List.length_drop]
    omega

def readSlots (line : Nat) (symbols : SymbolTable) (text : Text) :
    Except InventoryError (List TokenSet) :=
  slotLoop line symbols [] text

/-- The patterns of a pattern line, one for each way to keep or drop its optional groups.
The way that leaves no slot is no pattern. -/
def readPatternLine [Limits] (symbols : SymbolTable) (line : Nat) (text : Text) :
    Except InventoryError (List Pattern) := do
  let fragments ← (parseFragments text).mapError fun cause =>
    .malformedPattern line cause.message
  let slotted ← Fragment.spliceAll (readSlots line symbols) fragments
  if Fragment.groupCounts slotted > Limits.optionalGroups then
    let limit := Limits.optionalGroups
    .error (.malformedPattern line s!"more than {limit} optional groups")
  else
    .ok (((Fragment.enumerate slotted).filter (!·.isEmpty)).map Pattern.mk)

end Diachrony
