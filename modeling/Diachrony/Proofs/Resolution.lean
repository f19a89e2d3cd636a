import Diachrony.Proofs.CompiledRules
import Diachrony.Proofs.Substitution

/-!
# Resolved variables

Resolving a name fills in the references of its value from the values found on the way, which
are kept and never change.  What filling in one value keeps of all that is known therefore holds
in the end, and every variable has a value then.
-/

namespace Diachrony.RuleText

/-! ## Tables -/

namespace VariableTable

theorem find?_of_lookup {table : VariableTable} {name : Text} {place : Nat}
    (hplace : table.index.lookup name = some place) :
    table.find? name = table.definitions[place]? := by
  have hlt : place < table.definitions.length := lt_length_of_lookup hplace
  rw [List.getElem?_eq_getElem hlt, find?]
  split
  · rename_i found hfound
    cases hplace.symm.trans hfound
    rfl
  · rename_i hnone
    cases hplace.symm.trans hnone

theorem find?_of_lookup_eq_none {table : VariableTable} {name : Text}
    (hnone : table.index.lookup name = none) : table.find? name = none := by
  rw [find?]
  split
  · rename_i hplace
    cases hnone.symm.trans hplace
  · rfl

/-- Looking a name up by its place gives the first definition of it in the list. -/
theorem find?_eq (table : VariableTable) (name : Text) :
    table.find? name = table.definitions.find? fun definition => definition.name == name := by
  have hindex := table.index_def name
  rw [List.idxOf?, List.findIdx?_map] at hindex
  cases hplace : table.index.lookup name with
  | none =>
      rw [hplace, eq_comm, List.findIdx?_eq_none_iff] at hindex
      rw [find?_of_lookup_eq_none hplace, eq_comm, List.find?_eq_none]
      exact fun definition hmem => by simpa using hindex definition hmem
  | some place =>
      rw [hplace, eq_comm, List.findIdx?_eq_some_iff_findIdx_eq] at hindex
      rw [find?_of_lookup hplace, List.find?_eq_getElem?_findIdx]
      exact congrArg (table.definitions[·]?) hindex.2.symm

theorem find?_eq_none_iff {table : VariableTable} {name : Text} :
    table.find? name = none ↔ name ∉ table.names := by
  simp [find?_eq, names, List.find?_eq_none]

theorem lookup_eq_none_iff {table : VariableTable} {name : Text} :
    table.index.lookup name = none ↔ name ∉ table.names := by
  rw [table.index_def]
  exact List.idxOf?_eq_none_iff

theorem find?_eq_some {table : VariableTable} {name : Text} {definition : Definition}
    (h : table.find? name = some definition) :
    definition ∈ table.definitions ∧ definition.name = name := by
  rw [find?_eq] at h
  exact ⟨List.mem_of_find?_eq_some h, by simpa using List.find?_some h⟩

theorem names_replace (table : VariableTable) (definition : Definition) {place : Nat}
    (hplace : table.index.lookup definition.name = some place) :
    (table.replace definition hplace).names = table.names := by
  obtain ⟨hlt, hname⟩ := List.getElem?_eq_some_iff.1 (getElem?_names_of_lookup hplace)
  rw [names, replace, List.map_set, ← hname]
  exact List.set_getElem_self hlt

theorem names_append (table : VariableTable) (definition : Definition)
    (hnew : table.index.lookup definition.name = none) :
    (table.append definition hnew).names = table.names ++ [definition.name] := by
  rw [names, append, List.map_append]
  rfl

section Enter

variable {table : VariableTable} {definition : Definition} {mayReplace : Bool}

theorem enter_of_lookup [Limits] {place : Nat}
    (hplace : table.index.lookup definition.name = some place) :
    table.enter definition mayReplace =
      if mayReplace then (.ok (), table.replace definition hplace)
      else
        (.error (definition.error (.variableRedefinition (String.ofList definition.name)
          (table.definitions.get ⟨place, lt_length_of_lookup hplace⟩).line)), table) := by
  unfold enter
  split
  · rename_i found hfound
    cases hplace.symm.trans hfound
    rfl
  · rename_i hnone
    cases hplace.symm.trans hnone

theorem enter_of_lookup_eq_none [Limits] (hnew : table.index.lookup definition.name = none) :
    table.enter definition mayReplace =
      if table.size ≥ Limits.definitions then
        (.error (definition.error
          (.limitExceeded "variables" (table.size + 1) Limits.definitions)), table)
      else (.ok (), table.append definition hnew) := by
  unfold enter
  split
  · rename_i hfound
    cases hnew.symm.trans hfound
  · rfl

end Enter

/-- What a definition does to a table: it replaces the earlier one of its name, comes behind the
others, or is refused, and then the table is the one there was. -/
theorem enter_cases [Limits] (table : VariableTable) (definition : Definition) (mayReplace : Bool) :
    (∃ (place : Nat) (hplace : table.index.lookup definition.name = some place),
        mayReplace = true ∧
        table.enter definition mayReplace = (.ok (), table.replace definition hplace)) ∨
      (∃ hnew : table.index.lookup definition.name = none, table.size < Limits.definitions ∧
        table.enter definition mayReplace = (.ok (), table.append definition hnew)) ∨
      (∃ previous, table.find? definition.name = some previous ∧ mayReplace = false ∧
        table.enter definition mayReplace =
          (.error (definition.error
            (.variableRedefinition (String.ofList definition.name) previous.line)), table)) ∨
      (definition.name ∉ table.names ∧ Limits.definitions ≤ table.size ∧
        table.enter definition mayReplace =
          (.error (definition.error
            (.limitExceeded "variables" (table.size + 1) Limits.definitions)), table)) := by
  rcases Option.eq_none_or_eq_some (table.index.lookup definition.name) with
    hnew | ⟨place, hplace⟩
  · rw [enter_of_lookup_eq_none hnew]
    by_cases hfull : table.size ≥ Limits.definitions
    · rw [if_pos hfull]
      exact .inr (.inr (.inr ⟨lookup_eq_none_iff.1 hnew, hfull, rfl⟩))
    · rw [if_neg hfull]
      exact .inr (.inl ⟨hnew, Nat.lt_of_not_le hfull, rfl⟩)
  · rw [enter_of_lookup hplace]
    cases mayReplace with
    | true => exact .inl ⟨place, hplace, rfl, rfl⟩
    | false =>
        refine .inr (.inr (.inl ⟨_, ?_, rfl, rfl⟩))
        rw [find?_of_lookup hplace, List.getElem?_eq_getElem (lt_length_of_lookup hplace)]
        rfl

theorem mem_names_of_lookup {table : VariableTable} {name : Text} {place : Nat}
    (hplace : table.index.lookup name = some place) : name ∈ table.names :=
  List.mem_of_getElem? (getElem?_names_of_lookup hplace)

theorem define_eq_ok [Limits] {table later : VariableTable} {definition : Definition}
    {mayReplace : Bool} (h : table.define definition mayReplace = .ok later) :
    (∃ (place : Nat) (hplace : table.index.lookup definition.name = some place),
        later = table.replace definition hplace) ∨
      ∃ hnew : table.index.lookup definition.name = none,
        table.size < Limits.definitions ∧ later = table.append definition hnew := by
  unfold define at h
  rcases table.enter_cases definition mayReplace with
    ⟨place, hplace, -, henter⟩ | ⟨hnew, hroom, henter⟩ | ⟨_, -, -, henter⟩ | ⟨-, -, henter⟩
  · rw [henter] at h
    cases h
    exact .inl ⟨place, hplace, rfl⟩
  · rw [henter] at h
    cases h
    exact .inr ⟨hnew, hroom, rfl⟩
  · rw [henter] at h
    cases h
  · rw [henter] at h
    cases h

theorem of_mem_define [Limits] {table later : VariableTable} {definition : Definition}
    {mayReplace : Bool} (h : table.define definition mayReplace = .ok later) {entry : Definition}
    (hentry : entry ∈ later.definitions) : entry ∈ table.definitions ∨ entry = definition := by
  rcases define_eq_ok h with ⟨place, hplace, rfl⟩ | ⟨hnew, -, rfl⟩
  · exact List.mem_or_eq_of_mem_set hentry
  · simpa [append] using hentry

/-- A new name comes behind the others, and one that is there keeps its place. -/
theorem names_define [Limits] {table later : VariableTable} {definition : Definition}
    {mayReplace : Bool} (h : table.define definition mayReplace = .ok later) :
    later.names =
      if definition.name ∈ table.names then table.names else table.names ++ [definition.name] := by
  rcases define_eq_ok h with ⟨place, hplace, rfl⟩ | ⟨hnew, -, rfl⟩
  · rw [if_pos (mem_names_of_lookup hplace), names_replace]
  · rw [if_neg (lookup_eq_none_iff.1 hnew), names_append]

theorem mem_names_define [Limits] {table later : VariableTable} {definition : Definition}
    {mayReplace : Bool} (h : table.define definition mayReplace = .ok later) {name : Text} :
    name ∈ later.names ↔ name ∈ table.names ∨ name = definition.name := by
  rw [names_define h]
  split
  · rename_i hmem
    constructor
    · exact .inl
    · rintro (hname | rfl)
      · exact hname
      · exact hmem
  · rw [List.mem_append, List.mem_singleton]

end VariableTable

theorem of_foldlM_define [Limits] {mayRedefine : Bool} {entered : List Definition}
    {start table : VariableTable}
    (h : entered.foldlM (fun table definition => table.define definition mayRedefine) start =
      .ok table) :
    (∀ definition ∈ table.definitions, definition ∈ start.definitions ∨ definition ∈ entered) ∧
      ∀ name, name ∈ table.names ↔ name ∈ start.names ∨ name ∈ entered.map Definition.name := by
  induction entered generalizing start with
  | nil =>
      cases h
      simp
  | cons definition entered ih =>
      rw [List.foldlM_cons] at h
      obtain ⟨next, hnext, h⟩ := bind_eq_ok.1 h
      obtain ⟨hentries, hnames⟩ := ih h
      constructor
      · intro entry hentry
        rcases hentries entry hentry with hin | hin
        · rcases VariableTable.of_mem_define hnext hin with hin | rfl
          · exact .inl hin
          · exact .inr List.mem_cons_self
        · exact .inr (List.mem_cons_of_mem definition hin)
      · intro name
        rw [hnames, VariableTable.mem_names_define hnext, List.map_cons, List.mem_cons, or_assoc]

theorem of_tableOf [Limits] {mayRedefine : Bool} {entered : List Definition} {table : VariableTable}
    (h : tableOf entered mayRedefine = .ok table) :
    (∀ definition ∈ table.definitions, definition ∈ entered) ∧
      ∀ name, name ∈ table.names ↔ name ∈ entered.map Definition.name := by
  obtain ⟨hentries, hnames⟩ := of_foldlM_define h
  simp only [VariableTable.empty, VariableTable.names, List.map_nil, List.not_mem_nil,
    false_or] at hentries hnames
  exact ⟨hentries, hnames⟩

/-! ## Resolving one name -/

def Resolution.All (holds : Text → Prop) (known : Resolution) : Prop :=
  ∀ entry ∈ known, holds entry.2

theorem Resolution.All.of_lookup {holds : Text → Prop} {known : Resolution}
    (h : known.All holds) {name value : Text} (hlookup : known.lookup name = some value) :
    holds value := by
  obtain ⟨before, after, hknown, -⟩ := List.lookup_eq_some_iff.1 hlookup
  exact h (name, value) (by simp [hknown])

def Resolution.Keeps (known later : Resolution) : Prop :=
  ∀ name value, known.lookup name = some value → later.lookup name = some value

/-- Reading one piece of a value, with a way to look up the names it refers to. -/
def fillStep (lookUp : Resolution → Text → Except Error Resolved) (state : Resolved) :
    Piece → Except Error Resolved
  | .other c => .ok ⟨c :: state.value, state.known⟩
  | .reference inner => do
      let result ← lookUp state.known inner
      .ok ⟨result.value.reverse ++ state.value, result.known⟩

/-- What a successful look-up has done: it has kept what was known, and whatever holds of it. -/
structure Resolves (holds : Resolution → Prop) (known : Resolution) (name : Text)
    (result : Resolved) : Prop where
  keeps : known.Keeps result.known
  holds : holds result.known
  found : result.known.lookup name = some result.value

theorem exists_filled_of_foldlM {holds : Resolution → Prop} {names : List Text}
    {lookUp : Resolution → Text → Except Error Resolved}
    (hlookUp : ∀ known name result, name ∈ names → holds known →
      lookUp known name = .ok result → Resolves holds known name result)
    {pieces : List Piece} (hpieces : ∀ name, .reference name ∈ pieces → name ∈ names)
    (state : Resolved) {final : Resolved} (hstate : holds state.known)
    (h : pieces.foldlM (fillStep lookUp) state = .ok final) :
    state.known.Keeps final.known ∧ holds final.known ∧
      ∃ text, final.value = text.reverse ++ state.value ∧
        Filled (fun name value => final.known.lookup name = some value) pieces text := by
  induction pieces generalizing state with
  | nil =>
      cases h
      exact ⟨fun _ _ h => h, hstate, [], rfl, .nil⟩
  | cons piece pieces ih =>
      rw [List.foldlM_cons] at h
      obtain ⟨next, hnext, h⟩ := bind_eq_ok.1 h
      have hlater : ∀ name, .reference name ∈ pieces → name ∈ names :=
        fun name hmem => hpieces name (List.mem_cons_of_mem piece hmem)
      cases piece with
      | other c =>
          cases hnext
          obtain ⟨hkeeps, hfinal, text, hvalue, hfilled⟩ :=
            ih hlater ⟨c :: state.value, state.known⟩ hstate h
          exact ⟨hkeeps, hfinal, c :: text, by simp [hvalue], .other hfilled⟩
      | reference name =>
          obtain ⟨result, hresult, hnext⟩ := bind_eq_ok.1 hnext
          cases hnext
          have hresolves := hlookUp _ _ _ (hpieces name List.mem_cons_self) hstate hresult
          obtain ⟨hkeeps, hfinal, text, hvalue, hfilled⟩ :=
            ih hlater ⟨result.value.reverse ++ state.value, result.known⟩ hresolves.holds h
          refine ⟨fun inner value hinner => hkeeps inner value (hresolves.keeps inner value hinner),
            hfinal, result.value ++ text, by simp [hvalue], ?_⟩
          exact .reference (hkeeps name result.value hresolves.found) hfilled

section Resolve

variable {table : VariableTable} {names : List Text}

/-- A name that is resolved is known already, or its value is read below it. -/
theorem resolve_eq_ok [Limits] {depth : Nat} {visiting : List Text} {known : Resolution}
    {name : Text} {result : Resolved} (hname : name ∈ table.names)
    (h : resolve table names depth visiting known name = .ok result) :
    known.lookup name = some result.value ∧ result.known = known ∨
      known.lookup name = none ∧ ∃ definition, table.find? name = some definition ∧
        ∃ below expanded, depth = below + 1 ∧
        (scan names definition.value).foldlM
          (fillStep (resolve table names below (name :: visiting))) ⟨[], known⟩ = .ok expanded ∧
        result = ⟨expanded.value.reverse, (name, expanded.value.reverse) :: expanded.known⟩ := by
  unfold resolve at h
  cases hlookup : known.lookup name with
  | some value =>
      simp only [hlookup] at h
      cases h
      exact .inl ⟨rfl, rfl⟩
  | none =>
      simp only [hlookup] at h
      cases hfind : table.find? name with
      | none => exact absurd hname (VariableTable.find?_eq_none_iff.1 hfind)
      | some definition =>
          simp only [hfind] at h
          split at h
          · cases h
          · cases depth with
            | zero => cases h
            | succ below =>
                obtain ⟨expanded, hexpanded, h⟩ := bind_eq_ok.1 h
                cases h
                exact .inr ⟨rfl, definition, rfl, below, expanded, rfl, hexpanded, rfl⟩

/-- The names from a name that is being expanded back to itself, the innermost last. -/
def closedWalk (name : Text) (visiting : List Text) : List Text :=
  name :: (visiting.takeWhile (· != name)).reverse ++ [name]

/-- A name that cannot be resolved is being expanded already, or is too deep, or its value refers
to one that cannot be resolved below it. -/
theorem resolve_eq_error [Limits] {depth : Nat} {visiting : List Text} {known : Resolution}
    {name : Text} {failure : Error}
    (h : resolve table names depth visiting known name = .error failure) :
    ∃ definition, table.find? name = some definition ∧
      (name ∈ visiting ∧ failure = definition.error
          (.circularReference ((closedWalk name visiting).map String.ofList)) ∨
        name ∉ visiting ∧
          (depth = 0 ∧ failure = definition.error
              (.variableDepthExceeded (String.ofList name) Limits.variableDepth) ∨
            ∃ below known inner, depth = below + 1 ∧
              .reference inner ∈ scan names definition.value ∧
              resolve table names below (name :: visiting) known inner = .error failure)) := by
  unfold resolve at h
  cases hlookup : known.lookup name with
  | some value =>
      simp only [hlookup] at h
      cases h
  | none =>
      simp only [hlookup] at h
      cases hfind : table.find? name with
      | none =>
          simp only [hfind] at h
          cases h
      | some definition =>
          simp only [hfind] at h
          refine ⟨definition, rfl, ?_⟩
          split at h
          · rename_i hvisited
            cases h
            exact .inl ⟨List.contains_iff_mem.1 hvisited, rfl⟩
          · rename_i hvisited
            refine .inr ⟨fun hmem => hvisited (List.contains_iff_mem.2 hmem), ?_⟩
            cases depth with
            | zero =>
                cases h
                exact .inl ⟨rfl, rfl⟩
            | succ below =>
                rcases bind_eq_error.1 h with h | ⟨expanded, -, h⟩
                · obtain ⟨piece, hpiece, state, hstep⟩ := exists_of_foldlM_eq_error h
                  cases piece with
                  | other c => cases hstep
                  | reference inner =>
                      rcases bind_eq_error.1 hstep with hstep | ⟨result, -, hstep⟩
                      · exact .inr ⟨below, state.known, inner, rfl, hpiece, hstep⟩
                      · cases hstep
                · cases h

variable {holds : Resolution → Prop} (hnames : ∀ name ∈ names, isVariableName name = true)
  (hdefined : ∀ name ∈ names, name ∈ table.names)
  (hentry : ∀ known name definition text, holds known → table.find? name = some definition →
    Filled (fun inner value => known.lookup inner = some value) (scan names definition.value) text →
    holds ((name, text) :: known))
include hnames hdefined hentry

theorem resolves_of_resolve [Limits] {depth : Nat} {visiting : List Text} {known : Resolution}
    {name : Text} {result : Resolved} (hname : name ∈ table.names) (hknown : holds known)
    (h : resolve table names depth visiting known name = .ok result) :
    Resolves holds known name result := by
  -- The names a value refers to are looked up one level below, with all that is known by then.
  induction depth generalizing visiting known name result with
  | zero =>
      rcases resolve_eq_ok hname h with ⟨hlookup, hsame⟩ | ⟨-, _, -, _, _, hdepth, -⟩
      · exact ⟨fun _ _ h => hsame ▸ h, hsame ▸ hknown, hsame ▸ hlookup⟩
      · cases hdepth
  | succ below ih =>
      rcases resolve_eq_ok hname h with
        ⟨hlookup, hsame⟩ | ⟨hlookup, definition, hfind, _, expanded, hdepth, hexpanded, rfl⟩
      · exact ⟨fun _ _ h => hsame ▸ h, hsame ▸ hknown, hsame ▸ hlookup⟩
      · cases hdepth
        obtain ⟨hkeeps, hfinal, text, hvalue, htext⟩ := exists_filled_of_foldlM
          (fun known name result hin hknown h => ih (hdefined name hin) hknown h)
          (fun name => mem_of_reference_mem_scan hnames) ⟨[], known⟩ hknown hexpanded
        have hreverse : expanded.value.reverse = text := by simp [hvalue]
        rw [hreverse]
        refine ⟨fun inner value hinner => ?_, hentry _ name definition text hfinal hfind htext,
          by simp⟩
        -- The new entry hides no older one: the name was not known before.
        have hother : inner ≠ name := by
          rintro rfl
          rw [hlookup] at hinner
          cases hinner
        rw [List.lookup_cons, beq_false_of_ne hother]
        exact hkeeps inner value hinner

end Resolve

/-! ## Resolving all names -/

theorem mem_sortNames {name : Text} {names : List Text} :
    name ∈ sortNames names ↔ name ∈ names := by
  rw [sortNames, List.mem_mergeSort, mem_distinct]

theorem names_of_resolveAll [Limits] {table : VariableTable} {resolved : ResolvedVariables}
    (h : table.resolveAll = .ok resolved) : resolved.names = sortNames table.names := by
  obtain ⟨values, -, h⟩ := bind_eq_ok.1 h
  cases h
  rfl

section ResolveAll

variable {table : VariableTable} {holds : Resolution → Prop}
  (hnames : ∀ name ∈ table.names, isVariableName name = true)
  (hentry : ∀ known name definition text, holds known → table.find? name = some definition →
    Filled (fun inner value => known.lookup inner = some value)
      (scan (sortNames table.names) definition.value) text →
    holds ((name, text) :: known))
include hnames hentry

theorem of_foldlM_resolve [Limits] {definitions : List Definition} {known values : Resolution}
    (hdefined : ∀ definition ∈ definitions, definition.name ∈ table.names)
    (hknown : holds known)
    (h : definitions.foldlM (fun known definition => do
      let result ←
        resolve table (sortNames table.names) Limits.variableDepth [] known definition.name
      pure result.known) known = .ok values) :
    known.Keeps values ∧ holds values ∧
      ∀ definition ∈ definitions, ∃ value, values.lookup definition.name = some value := by
  induction definitions generalizing known with
  | nil =>
      cases h
      exact ⟨fun _ _ h => h, hknown, by simp⟩
  | cons definition definitions ih =>
      obtain ⟨hfirst, hlater⟩ := List.forall_mem_cons.1 hdefined
      rw [List.foldlM_cons] at h
      obtain ⟨next, hnext, h⟩ := bind_eq_ok.1 h
      obtain ⟨result, hresult, hnext⟩ := bind_eq_ok.1 hnext
      cases hnext
      have hresolves : Resolves holds known definition.name result :=
        resolves_of_resolve (fun name hin => hnames name (mem_sortNames.1 hin))
          (fun name hin => mem_sortNames.1 hin) hentry hfirst hknown hresult
      obtain ⟨hkeeps, hvalues, hfound⟩ := ih hlater hresolves.holds h
      refine ⟨fun name value hname => hkeeps name value (hresolves.keeps name value hname),
        hvalues, List.forall_mem_cons.2 ⟨?_, hfound⟩⟩
      exact ⟨result.value, hkeeps _ _ hresolves.found⟩

/-- What a value filled in from the known ones keeps holds of all values, and every variable has
one. -/
theorem of_resolveAll [Limits] {resolved : ResolvedVariables} (hstart : holds [])
    (h : table.resolveAll = .ok resolved) :
    holds resolved.values ∧ ∀ name ∈ table.names, ∃ value, resolved.find? name = some value := by
  obtain ⟨values, hvalues, h⟩ := bind_eq_ok.1 h
  cases h
  obtain ⟨-, hholds, hfound⟩ := of_foldlM_resolve hnames hentry
    (fun definition hmem => List.mem_map.2 ⟨definition, hmem, rfl⟩) hstart hvalues
  refine ⟨hholds, fun name hname => ?_⟩
  obtain ⟨definition, hmem, rfl⟩ := List.mem_map.1 hname
  exact hfound definition hmem

end ResolveAll

/-- Every variable has a value, and a property that filling in hands on is one of all values. -/
theorem all_of_resolveAll [Limits] {table : VariableTable} {holds : Text → Prop}
    (hnames : ∀ name ∈ table.names, isVariableName name = true)
    (hfilled : ∀ definition ∈ table.definitions, ∀ (fits : Text → Text → Prop) (filled : Text),
      (∀ name ∈ sortNames table.names, ∀ replacement, fits name replacement → holds replacement) →
      Filled fits (scan (sortNames table.names) definition.value) filled → holds filled)
    {resolved : ResolvedVariables} (h : table.resolveAll = .ok resolved) :
    resolved.names = sortNames table.names ∧ resolved.values.All holds ∧
      ∀ name ∈ table.names, ∃ value, resolved.find? name = some value := by
  refine ⟨names_of_resolveAll h, of_resolveAll hnames ?_ (by simp [Resolution.All]) h⟩
  intro known name definition text hknown hfind htext
  have hholds : holds text :=
    hfilled definition (VariableTable.find?_eq_some hfind).1 _ text
      (fun _ _ _ hinner => hknown.of_lookup hinner) htext
  exact List.forall_mem_cons.2 ⟨hholds, hknown⟩

end Diachrony.RuleText
