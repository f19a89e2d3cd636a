import Mathlib.Data.List.Chain
import Mathlib.Data.List.Nodup
import Mathlib.Data.List.Perm.Subperm
import Mathlib.Logic.Relation
import Diachrony.Proofs.Resolution

/-!
# References among variables

The value of a variable refers to other variables.  Resolving fills every value in from values
that are known already, so where it succeeds no variable refers to itself by way of others, and
there is one value that a name can have.  Where it fails, the names on the way to the failure are
a cycle of references, or a chain of them that is too long.
-/

namespace Diachrony.RuleText

namespace VariableTable

def pieces? (table : VariableTable) (name : Text) : Option (List Piece) :=
  (table.find? name).map fun definition => scan (sortNames table.names) definition.value

def Refers (table : VariableTable) (name inner : Text) : Prop :=
  ∃ pieces ∈ table.pieces? name, .reference inner ∈ pieces

/-- Whether some names are different and each refers to the next. -/
structure IsReferenceChain (table : VariableTable) (chain : List Text) : Prop where
  distinct : chain.Nodup
  refers : chain.IsChain table.Refers

theorem mem_names_of_pieces? {table : VariableTable} {name : Text} {pieces : List Piece}
    (h : table.pieces? name = some pieces) : name ∈ table.names := by
  by_contra hnot
  rw [pieces?, find?_eq_none_iff.2 hnot] at h
  cases h

theorem exists_find?_of_mem_names {table : VariableTable} {name : Text} (h : name ∈ table.names) :
    ∃ definition, table.find? name = some definition :=
  Option.ne_none_iff_exists'.1 fun hnone => find?_eq_none_iff.1 hnone h

theorem mem_names_of_refers {table : VariableTable}
    (hnames : ∀ name ∈ table.names, isVariableName name = true) {name inner : Text}
    (h : table.Refers name inner) : inner ∈ table.names := by
  obtain ⟨pieces, hpieces, hmem⟩ := h
  obtain ⟨definition, -, rfl⟩ := Option.map_eq_some_iff.1 hpieces
  exact mem_sortNames.1
    (mem_of_reference_mem_scan (fun name hname => hnames name (mem_sortNames.1 hname)) hmem)

/-- All names of a chain but the last are variables. -/
theorem IsReferenceChain.length_le {table : VariableTable} {chain : List Text}
    (h : table.IsReferenceChain chain) : chain.length ≤ table.size + 1 := by
  have hmem : ∀ name ∈ chain.dropLast, name ∈ table.names := by
    have hrefers := h.refers
    clear h
    induction chain with
    | nil => simp
    | cons first chain ih =>
        cases chain with
        | nil => simp
        | cons second rest =>
            obtain ⟨⟨pieces, hpieces, -⟩, hrest⟩ := List.isChain_cons_cons.1 hrefers
            rw [List.dropLast_cons_cons]
            exact List.forall_mem_cons.2 ⟨mem_names_of_pieces? hpieces, ih hrest⟩
  have hdistinct : chain.dropLast.Nodup := h.distinct.sublist (List.dropLast_sublist chain)
  have hlength := (List.subperm_of_subset hdistinct fun name => hmem name).length_le
  rw [List.length_dropLast, names, List.length_map] at hlength
  rw [size]
  omega

end VariableTable

/-! ## Values filled in -/

theorem Filled.exists_of_mem {fits : Text → Text → Prop} {pieces : List Piece} {text name : Text}
    (h : Filled fits pieces text) (hmem : .reference name ∈ pieces) :
    ∃ replacement, fits name replacement := by
  induction h with
  | nil => cases hmem
  | other hrest ih => exact ih (by simpa using hmem)
  | @reference inner replacement pieces text hfits hrest ih =>
      rcases List.mem_cons.1 hmem with hsame | hmem
      · cases hsame
        exact ⟨replacement, hfits⟩
      · exact ih hmem

/-- Filling in the same pieces alike leaves the same text. -/
theorem Filled.eq_of_agree {fits otherFits : Text → Text → Prop} {pieces : List Piece}
    {text other : Text} (h : Filled fits pieces text) (hother : Filled otherFits pieces other)
    (hagree : ∀ name replacement otherReplacement, fits name replacement →
      otherFits name otherReplacement → replacement = otherReplacement) : text = other := by
  induction h generalizing other with
  | nil =>
      cases hother
      rfl
  | other hrest ih =>
      cases hother with
      | other hotherRest => rw [ih hotherRest]
  | reference hfits hrest ih =>
      cases hother with
      | reference hotherFits hotherRest => rw [hagree _ _ _ hfits hotherFits, ih hotherRest]

/-- Whether every value is filled in from the values that were known before it. -/
def Resolution.IsStratified (table : VariableTable) : Resolution → Prop
  | [] => True
  | (name, value) :: earlier =>
      (∃ pieces ∈ table.pieces? name,
          Filled (fun inner value => earlier.lookup inner = some value) pieces value) ∧
        IsStratified table earlier

namespace Resolution.IsStratified

variable {table : VariableTable} {known : Resolution} (h : known.IsStratified table)
include h

theorem exists_filled {name value : Text} (hlookup : known.lookup name = some value) :
    ∃ earlier : Resolution, earlier.IsStratified table ∧ ∃ pieces ∈ table.pieces? name,
      Filled (fun inner value => earlier.lookup inner = some value) pieces value := by
  induction known with
  | nil => cases hlookup
  | cons entry earlier ih =>
      obtain ⟨key, keyValue⟩ := entry
      obtain ⟨hfilled, hearlier⟩ := h
      rw [List.lookup_cons] at hlookup
      by_cases hsame : name = key
      · rw [hsame, beq_self_eq_true] at hlookup
        cases hlookup
        exact ⟨earlier, hearlier, hsame ▸ hfilled⟩
      · rw [beq_false_of_ne hsame] at hlookup
        exact ih hearlier hlookup

theorem mem_names {name value : Text} (hlookup : known.lookup name = some value) :
    name ∈ table.names := by
  obtain ⟨-, -, pieces, hpieces, -⟩ := h.exists_filled hlookup
  exact VariableTable.mem_names_of_pieces? hpieces

theorem eq_of_lookup {other : Resolution} (hother : other.IsStratified table)
    {name value otherValue : Text} (hlookup : known.lookup name = some value)
    (hotherLookup : other.lookup name = some otherValue) : value = otherValue := by
  -- Both values are filled in from the same pieces, with values that were known before them.
  induction known generalizing other name value otherValue with
  | nil => cases hlookup
  | cons entry earlier ih =>
      obtain ⟨key, keyValue⟩ := entry
      obtain ⟨⟨pieces, hpieces, hfilled⟩, hearlier⟩ := h
      rw [List.lookup_cons] at hlookup
      by_cases hsame : name = key
      · rw [hsame, beq_self_eq_true] at hlookup
        cases hlookup
        obtain ⟨otherEarlier, hotherEarlier, otherPieces, hotherPieces, hotherFilled⟩ :=
          hother.exists_filled hotherLookup
        rw [hsame] at hotherPieces
        cases Option.some.inj (hpieces.symm.trans hotherPieces)
        exact hfilled.eq_of_agree hotherFilled fun inner first second hfirst hsecond =>
          ih hearlier hotherEarlier hfirst hsecond
      · rw [beq_false_of_ne hsame] at hlookup
        exact ih hearlier hother hlookup hotherLookup

theorem acc {name value : Text} (hlookup : known.lookup name = some value) :
    Acc (fun inner outer => table.Refers outer inner) name := by
  induction known generalizing name value with
  | nil => cases hlookup
  | cons entry earlier ih =>
      obtain ⟨key, keyValue⟩ := entry
      obtain ⟨⟨pieces, hpieces, hfilled⟩, hearlier⟩ := h
      rw [List.lookup_cons] at hlookup
      by_cases hsame : name = key
      · refine Acc.intro name fun inner hrefers => ?_
        obtain ⟨otherPieces, hotherPieces, hmem⟩ := hrefers
        rw [hsame] at hotherPieces
        cases Option.some.inj (hpieces.symm.trans hotherPieces)
        obtain ⟨innerValue, hinner⟩ := hfilled.exists_of_mem hmem
        exact ih hearlier hinner
      · rw [beq_false_of_ne hsame] at hlookup
        exact ih hearlier hlookup

theorem not_transGen {name value : Text} (hlookup : known.lookup name = some value) :
    ¬ Relation.TransGen table.Refers name name := by
  intro hcycle
  have hacc := (h.acc hlookup).transGen
  rw [← Relation.transGen_swap] at hcycle
  clear hlookup
  induction hacc with
  | intro name _ ih => exact ih name hcycle hcycle

end Resolution.IsStratified

theorem isStratified_of_resolveAll [Limits] {table : VariableTable} {resolved : ResolvedVariables}
    (hnames : ∀ name ∈ table.names, isVariableName name = true)
    (h : table.resolveAll = .ok resolved) :
    resolved.values.IsStratified table ∧
      ∀ name ∈ table.names, ∃ value, resolved.find? name = some value := by
  refine of_resolveAll hnames ?_ trivial h
  intro known name definition text hknown hfind hfilled
  exact ⟨⟨_, by rw [VariableTable.pieces?, hfind]; rfl, hfilled⟩, hknown⟩

/-- Where all variables resolve there is no cycle of references. -/
theorem not_transGen_of_resolveAll [Limits] {table : VariableTable} {resolved : ResolvedVariables}
    (hnames : ∀ name ∈ table.names, isVariableName name = true)
    (h : table.resolveAll = .ok resolved) (name : Text) :
    ¬ Relation.TransGen table.Refers name name := by
  intro hcycle
  obtain ⟨hstratified, hfound⟩ := isStratified_of_resolveAll hnames h
  obtain ⟨inner, ⟨pieces, hpieces, -⟩, -⟩ := Relation.TransGen.head'_iff.1 hcycle
  obtain ⟨value, hvalue⟩ := hfound name (VariableTable.mem_names_of_pieces? hpieces)
  exact hstratified.not_transGen hvalue hcycle

/-! ## Failures -/

namespace VariableTable

/-- Whether references lead from a name by way of others back to it, all of them different. -/
structure IsReferenceCycle (table : VariableTable) (name : Text) (others : List Text) : Prop where
  distinct : (name :: others).Nodup
  refers : (name :: others ++ [name]).IsChain table.Refers

theorem IsReferenceCycle.transGen {table : VariableTable} {name : Text} {others : List Text}
    (h : table.IsReferenceCycle name others) : Relation.TransGen table.Refers name name := by
  have hleads : (name :: others ++ [name]).IsChain (Relation.TransGen table.Refers) :=
    h.refers.imp fun _ _ => .single
  exact (List.pairwise_cons.1 hleads.pairwise).1 name (List.mem_append_right _ List.mem_cons_self)

/-- Whether a table gives the reason for a failure: a cycle of references, which the failure
shows, or a chain of more references than may be followed. -/
inductive Explains [Limits] (table : VariableTable) (failure : Error) : Prop
  | cycle {name : Text} {others : List Text}
      (hcause : failure.cause =
        .circularReference ((name :: others ++ [name]).map String.ofList))
      (hcycle : table.IsReferenceCycle name others)
  | depth {shown : String} (chain : List Text)
      (hcause : failure.cause = .variableDepthExceeded shown Limits.variableDepth)
      (hchain : table.IsReferenceChain chain)
      (hlength : chain.length = Limits.variableDepth + 1)

/-- Whether the names being expanded, the innermost first, lead by their references to a name
below which some more may be entered. -/
structure IsWay [Limits] (table : VariableTable) (depth : Nat) (visiting : List Text)
    (name : Text) : Prop where
  refers : (name :: visiting).IsChain fun inner outer => table.Refers outer inner
  distinct : visiting.Nodup
  length : visiting.length + depth = Limits.variableDepth

namespace IsWay

variable {table : VariableTable} {depth : Nat} {visiting : List Text} {name : Text}

theorem start [Limits] (table : VariableTable) (name : Text) :
    table.IsWay Limits.variableDepth [] name :=
  ⟨.singleton name, .nil, Nat.zero_add _⟩

theorem below [Limits] (h : table.IsWay (depth + 1) visiting name) (hnot : name ∉ visiting)
    {inner : Text} (hrefers : table.Refers name inner) :
    table.IsWay depth (name :: visiting) inner := by
  refine ⟨List.isChain_cons_cons.2 ⟨hrefers, h.refers⟩, List.nodup_cons.2 ⟨hnot, h.distinct⟩, ?_⟩
  have hlength := h.length
  rw [List.length_cons]
  omega

theorem isReferenceCycle [Limits] (h : table.IsWay depth visiting name) (hmem : name ∈ visiting) :
    table.IsReferenceCycle name (visiting.takeWhile (· != name)).reverse := by
  obtain ⟨before, after, rfl, hnot⟩ := List.eq_append_cons_of_mem hmem
  have htake : (before ++ name :: after).takeWhile (· != name) = before := by
    rw [List.takeWhile_append_of_pos fun other hother => ?_, List.takeWhile_cons_of_neg (by simp),
      List.append_nil]
    rw [bne_iff_ne]
    rintro rfl
    exact hnot hother
  rw [htake]
  constructor
  · rw [List.nodup_cons, List.mem_reverse, List.nodup_reverse]
    exact ⟨hnot, (List.nodup_append.1 h.distinct).1⟩
  · have hwalk : (name :: before ++ [name]) <+: name :: (before ++ name :: after) :=
      ⟨after, by simp⟩
    have hshown := List.IsChain.prefix h.refers hwalk
    simpa using List.isChain_reverse.2 hshown

theorem isReferenceChain [Limits] (h : table.IsWay 0 visiting name) (hnot : name ∉ visiting) :
    table.IsReferenceChain (name :: visiting).reverse ∧
      (name :: visiting).reverse.length = Limits.variableDepth + 1 := by
  refine ⟨⟨List.nodup_reverse.2 (List.nodup_cons.2 ⟨hnot, h.distinct⟩), ?_⟩, ?_⟩
  · exact List.isChain_reverse.2 h.refers
  · have hlength := h.length
    rw [List.length_reverse, List.length_cons]
    omega

end IsWay

theorem explains_of_resolve_eq_error [Limits] {table : VariableTable} {depth : Nat}
    {visiting : List Text} {known : Resolution} {name : Text} {failure : Error}
    (hway : table.IsWay depth visiting name)
    (h : resolve table (sortNames table.names) depth visiting known name = .error failure) :
    table.Explains failure := by
  induction depth generalizing visiting known name with
  | zero =>
      obtain ⟨definition, -, ⟨hmem, rfl⟩ | ⟨hnot, ⟨-, rfl⟩ | ⟨_, _, _, hdepth, -⟩⟩⟩ :=
        resolve_eq_error h
      · exact .cycle rfl (hway.isReferenceCycle hmem)
      · obtain ⟨hchain, hlength⟩ := hway.isReferenceChain hnot
        exact .depth _ rfl hchain hlength
      · cases hdepth
  | succ below ih =>
      obtain ⟨definition, hfind, ⟨hmem, rfl⟩ | ⟨hnot, ⟨hdepth, -⟩ | hbelow⟩⟩ :=
        resolve_eq_error h
      · exact .cycle rfl (hway.isReferenceCycle hmem)
      · cases hdepth
      · obtain ⟨_, known, inner, hdepth, hreference, hbelow⟩ := hbelow
        cases hdepth
        have hrefers : table.Refers name inner :=
          ⟨_, by rw [pieces?, hfind]; rfl, hreference⟩
        exact ih (hway.below hnot hrefers) hbelow

/-- Variables that cannot be resolved have a cycle of references, or a chain that is too long. -/
theorem explains_of_resolveAll_eq_error [Limits] {table : VariableTable} {failure : Error}
    (h : table.resolveAll = .error failure) : table.Explains failure := by
  rcases bind_eq_error.1 h with h | ⟨values, -, h⟩
  · obtain ⟨definition, -, known, hstep⟩ := exists_of_foldlM_eq_error h
    rcases bind_eq_error.1 hstep with hstep | ⟨result, -, hstep⟩
    · exact explains_of_resolve_eq_error (.start table definition.name) hstep
    · cases hstep
  · cases h

/-- Unless a chain of references is too long, variables resolve if there is no cycle of them. -/
theorem exists_resolved_iff_of_chains [Limits] {table : VariableTable}
    (hnames : ∀ name ∈ table.names, isVariableName name = true)
    (hchains : ∀ chain, table.IsReferenceChain chain → chain.length ≤ Limits.variableDepth) :
    (∃ resolved, table.resolveAll = .ok resolved) ↔
      ∀ name, ¬ Relation.TransGen table.Refers name name := by
  constructor
  · rintro ⟨resolved, h⟩
    exact not_transGen_of_resolveAll hnames h
  · intro hacyclic
    cases h : table.resolveAll with
    | ok resolved => exact ⟨resolved, rfl⟩
    | error failure =>
        cases explains_of_resolveAll_eq_error h with
        | cycle hcause hcycle => exact absurd hcycle.transGen (hacyclic _)
        | depth chain hcause hchain hlength =>
            have hshort := hchains chain hchain
            omega

end VariableTable

end Diachrony.RuleText
