import Diachrony.Limits
import Diachrony.RuleText.Error
import Diachrony.RuleText.Reference

/-!
# Variables and their resolution

A table holds the definitions in order of declaration; a later definition of a name takes
the place of the earlier one.  Resolving replaces references inside values, depth first, and
fails on a cycle or on a chain that is too deep.
-/

namespace Diachrony.RuleText

structure Definition where
  name : Text
  value : Text
  line : Nat
  source : String
  deriving DecidableEq, Repr

def Definition.error (definition : Definition) (cause : Cause) : Error :=
  ⟨definition.line, definition.source, cause⟩

structure Redefinition where
  name : String
  line : Nat
  previousLine : Nat
  deriving DecidableEq, Repr

/-- Definitions in order of declaration, each to be looked up by its name.  The index, which is
kept apart from the list, has the place where each name came. -/
structure VariableTable where
  definitions : List Definition
  index : List (Text × Nat)
  index_def : ∀ name, index.lookup name = (definitions.map Definition.name).idxOf? name
  deriving DecidableEq, Repr

namespace VariableTable

def empty : VariableTable :=
  ⟨[], [], fun _ => rfl⟩

def names (table : VariableTable) : List Text :=
  table.definitions.map Definition.name

def size (table : VariableTable) : Nat :=
  table.definitions.length

theorem getElem?_names_of_lookup {table : VariableTable} {name : Text} {place : Nat}
    (h : table.index.lookup name = some place) : table.names[place]? = some name := by
  rw [table.index_def] at h
  obtain ⟨hplace, hname, -⟩ := List.idxOf?_eq_some_iff.1 h
  exact List.getElem?_eq_some_iff.2 ⟨hplace, hname⟩

theorem lt_length_of_lookup {table : VariableTable} {name : Text} {place : Nat}
    (h : table.index.lookup name = some place) : place < table.definitions.length := by
  obtain ⟨hplace, -⟩ := List.getElem?_eq_some_iff.1 (getElem?_names_of_lookup h)
  rwa [names, List.length_map] at hplace

def find? (table : VariableTable) (name : Text) : Option Definition :=
  match hplace : table.index.lookup name with
  | some place => some (table.definitions.get ⟨place, lt_length_of_lookup hplace⟩)
  | none => none

/-- The table with a definition in place of the earlier one of its name: the index stays. -/
def replace (table : VariableTable) (definition : Definition) {place : Nat}
    (hplace : table.index.lookup definition.name = some place) : VariableTable where
  definitions := table.definitions.set place definition
  index := table.index
  index_def name := by
    obtain ⟨hlt, hname⟩ := List.getElem?_eq_some_iff.1 (getElem?_names_of_lookup hplace)
    rw [table.index_def, List.map_set, ← hname]
    exact congrArg _ (List.set_getElem_self hlt).symm

/-- The table with a definition of a new name behind the others. -/
def append (table : VariableTable) (definition : Definition)
    (hnew : table.index.lookup definition.name = none) : VariableTable where
  definitions := table.definitions ++ [definition]
  index := (definition.name, table.size) :: table.index
  index_def name := by
    rw [List.lookup_cons, Bool.beq_comm, table.index_def, List.idxOf?, List.map_append,
      List.findIdx?_append, List.map_singleton, List.findIdx?_singleton, List.length_map]
    cases hname : definition.name == name with
    | false => simp
    | true =>
        rw [table.index_def, beq_iff_eq.1 hname, List.idxOf?] at hnew
        simp [hnew, size]

/-- Add a definition, or replace the one with its name where that is allowed.  Gives the table
also where the definition is refused. -/
def enter [Limits] (table : VariableTable) (definition : Definition) (mayReplace : Bool) :
    Except Error Unit × VariableTable :=
  match hplace : table.index.lookup definition.name with
  | some place =>
      let previous := table.definitions.get ⟨place, lt_length_of_lookup hplace⟩
      if mayReplace then (.ok (), table.replace definition hplace)
      else
        (.error (definition.error
          (.variableRedefinition (String.ofList definition.name) previous.line)), table)
  | none =>
      if table.size ≥ Limits.definitions then
        (.error (definition.error
          (.limitExceeded "variables" (table.size + 1) Limits.definitions)), table)
      else (.ok (), table.append definition hplace)

def define [Limits] (table : VariableTable) (definition : Definition) (mayReplace : Bool) :
    Except Error VariableTable :=
  let (result, later) := table.enter definition mayReplace
  result.map fun () => later

def redefinition? (table : VariableTable) (definition : Definition) : Option Redefinition :=
  (table.find? definition.name).map fun previous =>
    ⟨String.ofList definition.name, definition.line, previous.line⟩

end VariableTable

/-- Resolved values by name, the latest first. -/
abbrev Resolution := List (Text × Text)

/-- A resolved value together with everything resolved on the way. -/
structure Resolved where
  value : Text
  known : Resolution

/-- Resolve one name.  `visiting` are the names being expanded, innermost first, and the
number is how many more may be entered below them.  A name that is met while it is being
expanded closes a cycle. -/
def resolve [Limits] (table : VariableTable) (names : List Text) :
    Nat → List Text → Resolution → Text → Except Error Resolved
  | depth, visiting, known, name =>
      match known.lookup name with
      | some value => .ok ⟨value, known⟩
      | none =>
          match table.find? name with
          | none => .ok ⟨name, known⟩
          | some definition =>
              if visiting.contains name then
                let chain := name :: (visiting.takeWhile (· != name)).reverse ++ [name]
                .error (definition.error (.circularReference (chain.map String.ofList)))
              else
                match depth with
                | 0 =>
                    .error (definition.error
                      (.variableDepthExceeded (String.ofList name) Limits.variableDepth))
                | depth + 1 => do
                    let expanded ← (scan names definition.value).foldlM (fun state piece =>
                      match piece with
                      | .other c => .ok ⟨c :: state.value, state.known⟩
                      | .reference inner => do
                          let result ←
                            resolve table names depth (name :: visiting) state.known inner
                          .ok ⟨result.value.reverse ++ state.value, result.known⟩)
                      (⟨[], known⟩ : Resolved)
                    let value := expanded.value.reverse
                    .ok ⟨value, (name, value) :: expanded.known⟩

structure ResolvedVariables where
  /-- The names in the order in which they are tried. -/
  names : List Text
  values : Resolution
  deriving DecidableEq, Repr

namespace ResolvedVariables

def find? (resolved : ResolvedVariables) (name : Text) : Option Text :=
  resolved.values.lookup name

def substitute (resolved : ResolvedVariables) (text : Text) : Text :=
  RuleText.substitute resolved.names (fun name => (resolved.find? name).getD name) text

end ResolvedVariables

def VariableTable.resolveAll [Limits] (table : VariableTable) : Except Error ResolvedVariables := do
  let names := sortNames table.names
  let values ← table.definitions.foldlM (fun known definition => do
    let result ← resolve table names Limits.variableDepth [] known definition.name
    pure result.known) []
  pure ⟨names, values⟩

end Diachrony.RuleText
