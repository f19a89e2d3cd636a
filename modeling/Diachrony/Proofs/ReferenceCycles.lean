import Mathlib
import Diachrony.Proofs.References

/-!
# Cycles of references

A variable mentions the variables that stand in its value as whole tokens.  Variables that mention
themselves by way of others do not resolve, and where the failure is a cycle it shows one: a closed
walk along mentions that meets no name twice but the one it returns to.  Without a cycle only a
path of too many names stands in the way.
-/

namespace Diachrony.RuleText

namespace VariableTable

/-- Whether a variable occurs as a whole token in the value of another. -/
def Mentions (table : VariableTable) (name inner : Text) : Prop :=
  inner ∈ table.names ∧
    ∃ definition, table.find? name = some definition ∧ OccursWhole inner definition.value

/-- What a variable mentions is what resolving it looks up. -/
theorem mentions_eq_refers {table : VariableTable}
    (hnames : ∀ name ∈ table.names, isVariableName name = true) :
    table.Mentions = table.Refers := by
  have hsorted : ∀ name ∈ sortNames table.names, isVariableName name = true :=
    fun name hmem => hnames name (mem_sortNames.1 hmem)
  have hoccurs : ∀ inner text, inner ∈ table.names ∧ OccursWhole inner text ↔
      .reference inner ∈ scan (sortNames table.names) text := by
    intro inner text
    rw [reference_mem_scan_iff hsorted, mem_sortNames]
    exact and_congr_right fun hmem => occursWhole_iff_mem_runs (hnames inner hmem)
  funext name inner
  rw [Mentions, Refers, pieces?, eq_iff_iff]
  constructor
  · rintro ⟨hmem, definition, hfind, hwhole⟩
    exact ⟨_, by rw [hfind]; rfl, (hoccurs inner definition.value).1 ⟨hmem, hwhole⟩⟩
  · rintro ⟨pieces, hpieces, hreference⟩
    obtain ⟨definition, hfind, rfl⟩ := Option.map_eq_some_iff.1 hpieces
    obtain ⟨hmem, hwhole⟩ := (hoccurs inner definition.value).2 hreference
    exact ⟨hmem, definition, hfind, hwhole⟩

/-- A failure that shows a cycle shows a closed walk along mentions, of different names; variables
with a cycle do not resolve; and without one they do, unless a path of names is too long. -/
theorem resolveAll_cycles [Limits] {table : VariableTable}
    (hnames : ∀ name ∈ table.names, isVariableName name = true) :
    (∀ failure shown, table.resolveAll = .error failure →
      failure.cause = .circularReference shown →
      ∃ name others, shown = (name :: others ++ [name]).map String.ofList ∧
        (name :: others).Nodup ∧ (name :: others ++ [name]).IsChain table.Mentions) ∧
    ((∃ name, Relation.TransGen table.Mentions name name) →
      ∃ failure, table.resolveAll = .error failure) ∧
    ((∀ name, ¬ Relation.TransGen table.Mentions name name) →
      (∀ path : List Text, path.Nodup → path.IsChain table.Mentions →
        path.length ≤ Limits.variableDepth) →
      ∃ resolved, table.resolveAll = .ok resolved) := by
  rw [mentions_eq_refers hnames]
  refine ⟨?_, ?_, ?_⟩
  · intro failure shown h hshown
    cases explains_of_resolveAll_eq_error h with
    | @cycle name others hcause hcycle =>
        rw [hcause] at hshown
        cases hshown
        exact ⟨name, others, rfl, hcycle.distinct, hcycle.refers⟩
    | depth chain hcause hchain hlength =>
        rw [hcause] at hshown
        cases hshown
  · rintro ⟨name, hcycle⟩
    cases h : table.resolveAll with
    | ok resolved => exact absurd hcycle (not_transGen_of_resolveAll hnames h name)
    | error failure => exact ⟨failure, rfl⟩
  · intro hacyclic hpaths
    exact (exists_resolved_iff_of_chains hnames fun chain hchain =>
      hpaths chain hchain.distinct hchain.refers).2 hacyclic

/-- A class made of a class that contains itself by way of a third: the walk shown starts where
the cycle does. -/
theorem resolveAll_cycles_coda :
    let entered : List Definition := [⟨"S".toList, "[C V]".toList, 1, "S = [C V]"⟩,
      ⟨"V".toList, "[a]".toList, 2, "V = [a]"⟩, ⟨"C".toList, "[p K]".toList, 3, "C = [p K]"⟩,
      ⟨"K".toList, "[C_V]".toList, 4, "K = [C_V]"⟩]
    ∃ table, tableOf entered false = .ok table ∧
      (∀ name ∈ table.names, isVariableName name = true) ∧
      (∃ failure, table.resolveAll = .error failure ∧
        failure.cause = .circularReference ["C", "K", "C"]) ∧
      ["C".toList, "K".toList, "C".toList].IsChain table.Mentions := by
  intro entered
  have hfailure : tableOf entered false >>= VariableTable.resolveAll = .error
      ⟨3, "C = [p K]", .circularReference ["C", "K", "C"]⟩ := by cbv
  obtain ⟨table, htable⟩ : ∃ table, tableOf entered false = .ok table := ⟨_, rfl⟩
  rw [htable, ok_bind] at hfailure
  have hnames : ∀ name ∈ table.names, isVariableName name = true := by
    intro name hname
    have hentered : ∀ name ∈ entered.map Definition.name, isVariableName name = true := by decide
    exact hentered name (((of_tableOf htable).2 name).1 hname)
  refine ⟨table, htable, hnames, ⟨_, hfailure, rfl⟩, ?_⟩
  obtain ⟨name, others, hshown, -, hmentions⟩ :=
    (resolveAll_cycles hnames).1 _ _ hfailure rfl
  have hwritten : ["C".toList, "K".toList, "C".toList].map String.ofList = ["C", "K", "C"] := by
    decide
  have hwalk : ["C".toList, "K".toList, "C".toList] = name :: others ++ [name] :=
    List.map_injective_iff.2 (fun _ _ => String.ofList_injective) (hwritten.trans hshown)
  rw [hwalk]
  exact hmentions

end VariableTable

end Diachrony.RuleText
