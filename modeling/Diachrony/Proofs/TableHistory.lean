import Mathlib.Data.List.Nodup
import Diachrony.Proofs.Resolution

/-!
# Tables after any definitions

A table is offered definitions one after another, each with leave to replace an earlier one or
without.  Whatever it has been offered, it has the names it has taken, each once and in the order
in which they first came, and for each of them the definition it has taken last.  The index leads
to the place of every name, where it stays whatever comes later.
-/

namespace Diachrony.RuleText.VariableTable

/-! ## One definition -/

variable {table : VariableTable} {definition : Definition}

theorem find?_replace {place : Nat} (hplace : table.index.lookup definition.name = some place)
    (name : Text) :
    (table.replace definition hplace).find? name =
      if definition.name = name then some definition else table.find? name := by
  have hlt : place < table.definitions.length := lt_length_of_lookup hplace
  by_cases hname : definition.name = name
  · subst hname
    have hfound : (table.replace definition hplace).index.lookup definition.name = some place :=
      hplace
    rw [if_pos rfl, find?_of_lookup hfound]
    exact List.getElem?_set_self hlt
  · rw [if_neg hname]
    rcases Option.eq_none_or_eq_some (table.index.lookup name) with hnone | ⟨other, hother⟩
    · have hstill : (table.replace definition hplace).index.lookup name = none := hnone
      rw [find?_of_lookup_eq_none hstill, find?_of_lookup_eq_none hnone]
    · have hstill : (table.replace definition hplace).index.lookup name = some other := hother
      have hplaces : place ≠ other := by
        rintro rfl
        exact hname (Option.some.inj
          ((getElem?_names_of_lookup hplace).symm.trans (getElem?_names_of_lookup hother)))
      rw [find?_of_lookup hstill, find?_of_lookup hother]
      exact List.getElem?_set_ne hplaces

theorem find?_append (hnew : table.index.lookup definition.name = none) (name : Text) :
    (table.append definition hnew).find? name =
      if definition.name = name then some definition else table.find? name := by
  have hlookup : (table.append definition hnew).index.lookup name =
      if definition.name = name then some table.size else table.index.lookup name := by
    rw [append, List.lookup_cons]
    by_cases hname : definition.name = name
    · simp [hname]
    · rw [if_neg hname, beq_false_of_ne (Ne.symm hname)]
  by_cases hname : definition.name = name
  · rw [if_pos hname] at hlookup ⊢
    rw [find?_of_lookup hlookup]
    exact List.getElem?_concat_length
  · rw [if_neg hname] at hlookup ⊢
    rcases Option.eq_none_or_eq_some (table.index.lookup name) with hnone | ⟨place, hplace⟩
    · rw [find?_of_lookup_eq_none (hlookup.trans hnone), find?_of_lookup_eq_none hnone]
    · rw [find?_of_lookup (hlookup.trans hplace), find?_of_lookup hplace]
      exact List.getElem?_append_left (lt_length_of_lookup hplace)

theorem find?_of_define [Limits] {later : VariableTable} {mayReplace : Bool}
    (h : table.define definition mayReplace = .ok later) (name : Text) :
    later.find? name =
      if definition.name = name then some definition else table.find? name := by
  rcases define_eq_ok h with ⟨place, hplace, rfl⟩ | ⟨hnew, -, rfl⟩
  · exact find?_replace hplace name
  · exact find?_append hnew name

theorem size_le_of_define [Limits] {later : VariableTable} {mayReplace : Bool}
    (h : table.define definition mayReplace = .ok later) (hsize : table.size ≤ Limits.definitions) :
    later.size ≤ Limits.definitions := by
  rcases define_eq_ok h with ⟨place, hplace, rfl⟩ | ⟨hnew, hroom, rfl⟩
  · rwa [size, replace, List.length_set]
  · rw [size, append, List.length_append]
    exact hroom

/-! ## Runs of calls -/

/-- A definition offered to a table, and whether it may replace an earlier one. -/
structure Call where
  definition : Definition
  mayReplace : Bool
  deriving DecidableEq, Repr

/-- Whether a table takes what it is offered: a name it has needs leave, a new one room. -/
def Takes [Limits] (table : VariableTable) (call : Call) : Prop :=
  if call.definition.name ∈ table.names then call.mayReplace = true
  else table.size < Limits.definitions

def call [Limits] (table : VariableTable) (call : Call) : VariableTable :=
  (table.enter call.definition call.mayReplace).2

def afterCalls [Limits] (table : VariableTable) (calls : List Call) : VariableTable :=
  calls.foldl VariableTable.call table

/-- The definitions that a table takes in a run of calls, in order. -/
def taken [Limits] (table : VariableTable) : List Call → List Definition
  | [] => []
  | call :: calls =>
      match table.enter call.definition call.mayReplace with
      | (.ok (), later) => call.definition :: later.taken calls
      | (.error _, later) => later.taken calls

/-- A call either takes effect or fails and gives the table back as it is. -/
theorem call_cases [Limits] (table : VariableTable) (call : Call) :
    table.Takes call ∧
        table.enter call.definition call.mayReplace = (.ok (), table.call call) ∨
      ¬ table.Takes call ∧ ∃ failure,
        table.enter call.definition call.mayReplace = (.error failure, table) := by
  unfold Takes VariableTable.call
  rcases table.enter_cases call.definition call.mayReplace with
    ⟨place, hplace, hmay, henter⟩ | ⟨hnew, hroom, henter⟩ | ⟨previous, hfind, hmay, henter⟩ |
      ⟨hnew, hfull, henter⟩
  · exact .inl ⟨by rwa [if_pos (mem_names_of_lookup hplace)], by rw [henter]⟩
  · exact .inl ⟨by rwa [if_neg (lookup_eq_none_iff.1 hnew)], by rw [henter]⟩
  · have hmem : call.definition.name ∈ table.names := by
      by_contra hnot
      exact absurd (hfind.symm.trans (find?_eq_none_iff.2 hnot)) (Option.some_ne_none previous)
    exact .inr ⟨by simp [hmem, hmay], _, henter⟩
  · exact .inr ⟨by simpa [hnew] using hfull, _, henter⟩

theorem define_of_enter [Limits] {later : VariableTable} {mayReplace : Bool}
    (h : table.enter definition mayReplace = (.ok (), later)) :
    table.define definition mayReplace = .ok later := by
  rw [define, h]
  rfl

theorem names_prefix_call [Limits] (table : VariableTable) (call : Call) :
    table.names <+: (table.call call).names := by
  rcases table.call_cases call with ⟨-, henter⟩ | ⟨-, failure, henter⟩
  · rw [names_define (define_of_enter henter)]
    split
    · exact List.prefix_rfl
    · exact List.prefix_append table.names _
  · have hsame : table.call call = table := congrArg Prod.snd henter
    exact hsame.symm ▸ List.prefix_rfl

theorem names_prefix_afterCalls [Limits] (table : VariableTable) (calls : List Call) :
    table.names <+: (table.afterCalls calls).names := by
  induction calls generalizing table with
  | nil => exact List.prefix_rfl
  | cons first calls ih => exact (table.names_prefix_call first).trans (ih (table.call first))

/-- Whether a table has what some definitions, taken one after another, leave in it. -/
structure Holds [Limits] (table : VariableTable) (history : List Definition) : Prop where
  names_eq : table.names = distinct (history.map Definition.name)
  size_le : table.size ≤ Limits.definitions
  find?_eq : ∀ name,
    table.find? name = history.reverse.find? fun definition => definition.name == name

theorem holds_empty [Limits] : empty.Holds [] :=
  ⟨rfl, Nat.zero_le _, fun _ => rfl⟩

theorem Holds.define [Limits] {later : VariableTable} {history : List Definition}
    {mayReplace : Bool} (h : table.Holds history)
    (hlater : table.define definition mayReplace = .ok later) :
    later.Holds (history ++ [definition]) := by
  refine ⟨?_, size_le_of_define hlater h.size_le, fun name => ?_⟩
  · have hmem : definition.name ∈ table.names ↔ definition.name ∈ history.map Definition.name := by
      rw [h.names_eq, mem_distinct]
    rw [names_define hlater, List.map_append, List.map_singleton, distinct_concat, ← h.names_eq]
    simp only [hmem]
  · rw [find?_of_define hlater, h.find?_eq, List.reverse_append, List.reverse_singleton,
      List.singleton_append]
    by_cases hname : definition.name = name
    · rw [if_pos hname, List.find?_cons_of_pos (by simpa using hname)]
    · rw [if_neg hname, List.find?_cons_of_neg (by simpa using hname)]

theorem Holds.afterCalls [Limits] {history : List Definition} (h : table.Holds history)
    (calls : List Call) : (table.afterCalls calls).Holds (history ++ table.taken calls) := by
  induction calls generalizing table history with
  | nil => simpa [VariableTable.afterCalls, taken] using h
  | cons first calls ih =>
      have hrun : table.afterCalls (first :: calls) = (table.call first).afterCalls calls := rfl
      rw [hrun, taken]
      rcases table.call_cases first with ⟨-, henter⟩ | ⟨-, failure, henter⟩
      · rw [henter]
        simpa using ih (h.define (define_of_enter henter))
      · rw [VariableTable.call, henter]
        exact ih h

/-- The index of a table without repeated names leads to the place of a name and no other. -/
theorem lookup_eq_some_iff_of_nodup (hdistinct : table.names.Nodup) {name : Text} {place : Nat} :
    table.index.lookup name = some place ↔ table.names[place]? = some name := by
  refine ⟨getElem?_names_of_lookup, fun hname => ?_⟩
  obtain ⟨hlt, rfl⟩ := List.getElem?_eq_some_iff.1 hname
  rw [table.index_def]
  refine List.idxOf?_eq_some_iff.2 ⟨hlt, rfl, fun other hother hsame => ?_⟩
  exact absurd ((List.Nodup.getElem_inj_iff hdistinct).1 hsame) (Nat.ne_of_lt hother)

/-- Whatever a table has been offered, it has the names it has taken, each once, in the order in
which they first came and within the limit; it answers a name with the definition of it that it
has taken last.  Its index leads from each name to its place and from nowhere else, the definition
there is the answer, and no later call moves a name.  A call takes effect exactly if its name is
there and it may replace, or its name is new and there is room; otherwise it fails, and the table
it leaves is the one there was. -/
theorem consistent_afterCalls [Limits] (calls : List Call) :
    let table := empty.afterCalls calls
    let history := empty.taken calls
    table.names.Nodup ∧ table.names = distinct (history.map Definition.name) ∧
      table.size ≤ Limits.definitions ∧
      (∀ name, table.find? name =
        history.reverse.find? fun definition => definition.name == name) ∧
      (∀ name place,
        table.index.lookup name = some place ↔ table.names[place]? = some name) ∧
      (∀ name place, table.index.lookup name = some place →
        place < table.size ∧ table.find? name = table.definitions[place]?) ∧
      (∀ later, table.names <+: (table.afterCalls later).names) ∧
      ∀ call : Call,
        table.Takes call ∧
            table.enter call.definition call.mayReplace = (.ok (), table.call call) ∨
          ¬ table.Takes call ∧ ∃ failure,
            table.enter call.definition call.mayReplace = (.error failure, table) := by
  intro table history
  have hholds : table.Holds history := holds_empty.afterCalls calls
  have hdistinct : table.names.Nodup := by
    rw [hholds.names_eq]
    exact distinct_nodup _
  exact ⟨hdistinct, hholds.names_eq, hholds.size_le, hholds.find?_eq,
    fun name place => lookup_eq_some_iff_of_nodup hdistinct,
    fun name place hplace => ⟨lt_length_of_lookup hplace, find?_of_lookup hplace⟩,
    table.names_prefix_afterCalls, table.call_cases⟩

/-- A definition that replaces an earlier one stays at its place, and one that may not is
refused. -/
example :
    let offered : List Call := [⟨⟨"V".toList, "[a]".toList, 1, "V = [a]"⟩, false⟩,
      ⟨⟨"C".toList, "[p]".toList, 2, "C = [p]"⟩, false⟩,
      ⟨⟨"V".toList, "[i]".toList, 3, "V = [i]"⟩, true⟩,
      ⟨⟨"C".toList, "[t]".toList, 4, "C = [t]"⟩, false⟩]
    let table := empty.afterCalls offered
    table.index = [("C".toList, 1), ("V".toList, 0)] ∧
      table.definitions = [⟨"V".toList, "[i]".toList, 3, "V = [i]"⟩,
        ⟨"C".toList, "[p]".toList, 2, "C = [p]"⟩] := by
  decide

end Diachrony.RuleText.VariableTable
