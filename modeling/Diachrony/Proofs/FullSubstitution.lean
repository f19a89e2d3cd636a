import Mathlib
import Diachrony.Proofs.Preparation
import Diachrony.Proofs.References

/-!
# Substitution leaves nothing to substitute

Once all variables are resolved, the value of each is what substituting into its definition gives.
No variable is left in a text that was substituted into, neither in what the text said nor where a
value meets its neighbours, so substituting once more changes nothing.
-/

namespace Diachrony.RuleText

section Resolved

variable [Limits] {table : VariableTable} {resolved : ResolvedVariables}
  (hnames : ∀ name ∈ table.names, isVariableName name = true)
  (h : table.resolveAll = .ok resolved)
include hnames h

/-- A value is filled in from values known before it, and these are the ones known in the end. -/
theorem find?_eq_substitute_of_resolveAll {name : Text} {definition : Definition}
    (hfind : table.find? name = some definition) :
    resolved.find? name = some (resolved.substitute definition.value) := by
  obtain ⟨hstratified, hfound⟩ := isStratified_of_resolveAll hnames h
  have hname : name ∈ table.names := by
    by_contra hnot
    rw [VariableTable.find?_eq_none_iff.2 hnot] at hfind
    cases hfind
  obtain ⟨value, hvalue⟩ := hfound name hname
  obtain ⟨earlier, hearlier, pieces, hpieces, hfilled⟩ := hstratified.exists_filled hvalue
  have hsubstituted := filled_substitute resolved.names
    (fun inner => (resolved.find? inner).getD inner) definition.value
  rw [names_of_resolveAll h] at hsubstituted
  rw [VariableTable.pieces?, hfind, Option.map_some, Option.mem_some_iff] at hpieces
  rw [← hpieces] at hfilled
  rw [hvalue, ResolvedVariables.substitute, names_of_resolveAll h]
  congr 1
  refine hfilled.eq_of_agree hsubstituted fun inner first second hfirst hsecond => ?_
  obtain ⟨final, hfinal⟩ := hfound inner (hearlier.mem_names hfirst)
  rw [hsecond, hfinal, Option.getD_some]
  exact hearlier.eq_of_lookup hstratified hfirst hfinal

theorem runs_substitute_of_resolveAll (text : Text) :
    ∀ run ∈ Text.runs Text.isAlphanumeric (resolved.substitute text), run ∉ table.names := by
  have hvalues : ∀ definition ∈ table.definitions, ∀ c ∈ definition.value, c ∉ ([] : List Char) :=
    fun _ _ _ _ => List.not_mem_nil
  obtain ⟨-, hfree⟩ := freeOf_of_resolveAll hnames hvalues h
  exact (hfree text (by simp)).names

/-- The value of each variable is its definition with everything substituted, no variable occurs
as a whole token in what substituting leaves, and substituting twice is substituting once. -/
theorem substitute_complete :
    (∀ name ∈ table.names, ∃ definition, table.find? name = some definition ∧
      resolved.find? name = some (resolved.substitute definition.value)) ∧
    (∀ text : Text, ∀ name ∈ table.names, ¬ OccursWhole name (resolved.substitute text)) ∧
    ∀ text : Text, resolved.substitute (resolved.substitute text) = resolved.substitute text := by
  have hruns := runs_substitute_of_resolveAll hnames h
  refine ⟨?_, ?_, ?_⟩
  · intro name hname
    obtain ⟨definition, hfind⟩ := VariableTable.exists_find?_of_mem_names hname
    exact ⟨definition, hfind, find?_eq_substitute_of_resolveAll hnames h hfind⟩
  · intro text name hname hwhole
    exact hruns text name ((occursWhole_iff_mem_runs (hnames name hname)).1 hwhole) hname
  · intro text
    have hsorted : ∀ name ∈ resolved.names, isVariableName name = true := by
      rw [names_of_resolveAll h]
      exact fun name hmem => hnames name (mem_sortNames.1 hmem)
    refine substitute_of_forall_not_mem hsorted (fun run hrun hmem => ?_) _
    rw [names_of_resolveAll h, mem_sortNames] at hmem
    exact hruns text run hrun hmem

end Resolved

/-- Values that meet a hyphen, a bracket and each other do not grow into a name. -/
theorem substitute_complete_syllable :
    let entered : List Definition := [⟨"S".toList, "[C-V VC]".toList, 1, "S = [C-V VC]"⟩,
      ⟨"C".toList, "V_".toList, 2, "C = V_"⟩, ⟨"V".toList, "a".toList, 3, "V = a"⟩]
    let resolved : ResolvedVariables := ⟨["C".toList, "S".toList, "V".toList],
      [("S".toList, "[a_-a VC]".toList), ("C".toList, "a_".toList), ("V".toList, "a".toList)]⟩
    let written : Text := "[a_-a VC] > a / a__a".toList
    ∃ table, tableOf entered false = .ok table ∧
      ((∀ name ∈ table.names, isVariableName name = true) ∧ table.resolveAll = .ok resolved) ∧
      resolved.substitute "S > V / C_V".toList = written ∧
      (∀ name ∈ table.names, ¬ OccursWhole name written) ∧
      resolved.substitute written = written := by
  intro entered resolved written
  have hread : tableOf entered false >>= VariableTable.resolveAll = .ok resolved := by cbv
  obtain ⟨table, htable, hresolved⟩ := bind_eq_ok.1 hread
  have hnames : ∀ name ∈ table.names, isVariableName name = true := by
    intro name hname
    have hentered : ∀ name ∈ entered.map Definition.name, isVariableName name = true := by decide
    exact hentered name (((of_tableOf htable).2 name).1 hname)
  have hwritten : resolved.substitute "S > V / C_V".toList = written := by cbv
  obtain ⟨-, hnone, htwice⟩ := substitute_complete hnames hresolved
  refine ⟨table, htable, ⟨hnames, hresolved⟩, hwritten, ?_, ?_⟩
  · intro name hname
    rw [← hwritten]
    exact hnone _ name hname
  · rw [← hwritten]
    exact htwice _

end Diachrony.RuleText
