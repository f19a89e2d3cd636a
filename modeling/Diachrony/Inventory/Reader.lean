import Diachrony.Inventory.PatternLine
import Diachrony.RuleText.NegativeSet
import Diachrony.RuleText.Statement
import Diachrony.RuleText.Variable

/-!
# Reading an inventory text

An inventory is a plain list of phonemes, or class definitions followed by pattern lines, or
both under section headers.  Without headers, bare lines are phoneme lists until the first
definition and pattern lines from then on.
-/

namespace Diachrony

open RuleText

inductive InventorySection where
  /-- Before any header. -/
  | unsectioned
  | phonemes
  | phonotactics
  deriving DecidableEq, Repr

namespace InventorySection

def ofHeader? : Text → Option InventorySection
  | '[' :: rest =>
      if rest.getLast? == some ']' then
        match String.ofList ((Text.trim rest.dropLast).map Char.toLower) with
        | "inventory" | "phonemes" => some phonemes
        | "phonotactics" | "patterns" => some phonotactics
        | _ => none
      else none
  | _ => none

def name : InventorySection → String
  | unsectioned => "top-level"
  | phonemes => "inventory"
  | phonotactics => "phonotactics"

end InventorySection

/-- What an inventory text is made of, line by line and piece by piece. -/
inductive InventoryPart where
  | header (opened : InventorySection)
  | piece (line : Nat) (source text : Text)
  deriving DecidableEq, Repr

def InventoryPart.ofLine : Nat × Text → List InventoryPart
  | (line, source) =>
      let trimmed := Text.trim source
      if trimmed.isEmpty || isComment source then []
      else
        match InventorySection.ofHeader? trimmed with
        | some opened => [.header opened]
        | none => (Text.statements trimmed).map (.piece line source ·)

def inventoryParts (text : Text) : List InventoryPart :=
  (Text.numberedLines text).flatMap InventoryPart.ofLine

/-- The phonemes of a list; commas and blanks both separate. -/
def listedPhonemes (text : Text) : List Token :=
  (Text.splitWhere (· == ',') text).flatMap literalTokens

/-- A pattern line that waits for the symbols to be known. -/
structure PatternLine where
  line : Nat
  text : Text
  deriving DecidableEq, Repr

structure InventoryDraft where
  current : InventorySection
  table : VariableTable
  /-- Definitions that took the place of earlier ones, the latest first. -/
  redefinitions : List Redefinition
  /-- Listed phonemes, the latest first. -/
  listed : List Token
  /-- Pattern lines, the latest first. -/
  patternLines : List PatternLine
  deriving DecidableEq, Repr

namespace InventoryDraft

def empty : InventoryDraft :=
  ⟨.unsectioned, VariableTable.empty, [], [], []⟩

/-- Whether a bare piece is a list of phonemes rather than a pattern. -/
def takesLists (draft : InventoryDraft) : Bool :=
  match draft.current with
  | .phonemes => true
  | .phonotactics => false
  | .unsectioned => draft.table.definitions.isEmpty && draft.patternLines.isEmpty

def define [Limits] (draft : InventoryDraft) (definition : Definition) :
    Except InventoryError InventoryDraft :=
  match draft.table.define definition true with
  | .error error => .error (.invalidClass error)
  | .ok table =>
      .ok { draft with
        table
        redefinitions := (draft.table.redefinition? definition).toList ++ draft.redefinitions }

def add [Limits] (draft : InventoryDraft) : InventoryPart → Except InventoryError InventoryDraft
  | .header opened => .ok { draft with current := opened }
  | .piece line source text =>
      if isDefinition text then
        let source := String.ofList source
        match parseDefinition text with
        | .error cause => .error (.invalidClass ⟨line, source, cause⟩)
        | .ok (name, value) => draft.define ⟨name, value, line, source⟩
      else if draft.takesLists then
        if text.any fun c => c == '(' || c == ')' then
          .error (.unexpectedContent line draft.current.name)
        else .ok { draft with listed := (listedPhonemes text).reverse ++ draft.listed }
      else .ok { draft with patternLines := ⟨line, text⟩ :: draft.patternLines }

/-- Read parts as long as there is nothing wrong with them.  Gives what was read, and the
error that stopped the reading. -/
def addAll [Limits] : InventoryDraft → List InventoryPart → InventoryDraft × Option InventoryError
  | draft, [] => (draft, none)
  | draft, part :: rest =>
      match draft.add part with
      | .error error => (draft, some error)
      | .ok draft => addAll draft rest

def ofText [Limits] (text : Text) : InventoryDraft × Option InventoryError :=
  empty.addAll (inventoryParts text)

def classes (draft : InventoryDraft) (resolved : ResolvedVariables) : List (String × TokenSet) :=
  let members := draft.table.names.map fun name =>
    (String.ofList name, TokenSet.ofList (literalTokens ((resolved.find? name).getD [])))
  members.mergeSort fun a b => TokenSet.precedes a.1 b.1

/-- Collect the patterns of the pattern lines; the limit is checked after every line. -/
def patterns [Limits] (draft : InventoryDraft) (symbols : SymbolTable) :
    Except InventoryError (List Pattern) := do
  let collected ← draft.patternLines.reverse.foldlM (fun collector pending => do
    let collector := Collector.pushAll collector
      (← readPatternLine symbols pending.line pending.text)
    if collector.size > Limits.patterns then
      .error (.tooManyPatterns (Limits.patterns + 1) Limits.patterns)
    else .ok collector) Collector.empty
  pure collected.toList

def finish [Limits] (draft : InventoryDraft) : Except InventoryError Inventory := do
  let resolved ← draft.table.resolveAll.mapError .invalidClass
  let classes := draft.classes resolved
  let phonemes := TokenSet.ofList
    (draft.listed.reverse ++ classes.flatMap fun (_, members) => members.toList)
  if phonemes.size > Limits.phonemes then
    .error (.tooManyPhonemes phonemes.size Limits.phonemes)
  else
    let patterns ← draft.patterns (SymbolTable.of classes phonemes)
    .ok ⟨phonemes, patterns, classes⟩

end InventoryDraft

def readInventory [Limits] (text : Text) : Except InventoryError Inventory :=
  match InventoryDraft.ofText text with
  | (_, some error) => .error error
  | (draft, none) => draft.finish

end Diachrony
