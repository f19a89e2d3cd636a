import Mathlib
import Diachrony.Proofs.References

/-!
# The order of declaration

Variables declared in another order have the same references, so they have the same values.  How
deep resolving goes does depend on the order: a chain of references declared from its end is never
followed further than by one step, and declared from its start it is followed to its end.  That
chain may be longer than is allowed, and nothing else can tell two orders apart.
-/

namespace Diachrony.RuleText

/-! ## Declaring variables -/

theorem VariableTable.exists_define_eq_ok [Limits] {table : VariableTable} {definition : Definition}
    (hnew : definition.name ∉ table.names) (hroom : table.size < Limits.definitions)
    (mayReplace : Bool) :
    ∃ later, table.define definition mayReplace = .ok later ∧
      later.definitions = table.definitions ++ [definition] := by
  unfold define
  rcases table.enter_cases definition mayReplace with
    ⟨_, hplace, -⟩ | ⟨_, -, henter⟩ | ⟨_, hfind, -⟩ | ⟨-, hfull, -⟩
  · exact absurd (mem_names_of_lookup hplace) hnew
  · rw [henter]
    exact ⟨_, rfl, rfl⟩
  · exact absurd (hfind.symm.trans (find?_eq_none_iff.2 hnew)) (Option.some_ne_none _)
  · exact absurd hroom (Nat.not_lt.2 hfull)

theorem exists_foldlM_define_of_nodup [Limits] {start : VariableTable}
    {definitions : List Definition} {mayRedefine : Bool}
    (hdistinct : ((start.definitions ++ definitions).map Definition.name).Nodup)
    (hsize : (start.definitions ++ definitions).length ≤ Limits.definitions) :
    ∃ table, definitions.foldlM (fun table definition => table.define definition mayRedefine)
        start = (.ok table : Except Error VariableTable) ∧
      table.definitions = start.definitions ++ definitions := by
  induction definitions generalizing start with
  | nil => exact ⟨start, rfl, (List.append_nil _).symm⟩
  | cons definition definitions ih =>
      have hnew : definition.name ∉ start.names := by
        rw [List.map_append, List.map_cons] at hdistinct
        exact fun hmem => (List.nodup_append.1 hdistinct).2.2 _ hmem _ List.mem_cons_self rfl
      have hroom : start.size < Limits.definitions := by
        rw [List.length_append, List.length_cons] at hsize
        exact Nat.lt_of_lt_of_le (by simp [VariableTable.size]) hsize
      obtain ⟨later, hdefine, hlater⟩ :=
        VariableTable.exists_define_eq_ok hnew hroom mayRedefine
      rw [List.append_cons, ← hlater] at hdistinct hsize ⊢
      rw [List.foldlM_cons, hdefine]
      exact ih hdistinct hsize

theorem exists_tableOf_of_nodup [Limits] {definitions : List Definition}
    (hdistinct : (definitions.map Definition.name).Nodup)
    (hsize : definitions.length ≤ Limits.definitions) (mayRedefine : Bool) :
    ∃ table, tableOf definitions mayRedefine = .ok table ∧ table.definitions = definitions :=
  exists_foldlM_define_of_nodup (by simpa [VariableTable.empty] using hdistinct)
    (by simpa [VariableTable.empty] using hsize)

/-! ## Orders -/

theorem triedBefore_iff {a b : Text} :
    triedBefore a b = true ↔
      b.length < a.length ∨ a.length = b.length ∧ String.ofList a ≤ String.ofList b := by
  simp [triedBefore]

theorem triedBefore_trans {a b c : Text} (hab : triedBefore a b = true)
    (hbc : triedBefore b c = true) : triedBefore a c = true := by
  rw [triedBefore_iff] at hab hbc ⊢
  rcases hab with hab | ⟨hab, hle⟩
  · exact .inl (by omega)
  · rcases hbc with hbc | ⟨hbc, hle'⟩
    · exact .inl (by omega)
    · exact .inr ⟨hab.trans hbc, String.le_trans hle hle'⟩

theorem triedBefore_total (a b : Text) : triedBefore a b = true ∨ triedBefore b a = true := by
  rw [triedBefore_iff, triedBefore_iff]
  rcases Nat.lt_trichotomy a.length b.length with hlt | heq | hlt
  · exact .inr (.inl hlt)
  · rcases String.le_total (String.ofList a) (String.ofList b) with hle | hle
    · exact .inl (.inr ⟨heq, hle⟩)
    · exact .inr (.inr ⟨heq.symm, hle⟩)
  · exact .inl (.inl hlt)

theorem triedBefore_antisymm {a b : Text} (hab : triedBefore a b = true)
    (hba : triedBefore b a = true) : a = b := by
  rw [triedBefore_iff] at hab hba
  rcases hab with hab | ⟨hlength, hle⟩
  · omega
  · rcases hba with hba | ⟨-, hge⟩
    · omega
    · exact String.ofList_injective (String.le_antisymm hle hge)

theorem pairwise_sortNames (names : List Text) :
    (sortNames names).Pairwise fun a b => triedBefore a b = true := by
  apply List.pairwise_mergeSort
  · exact fun a b c hab hbc => triedBefore_trans hab hbc
  · exact fun a b => Bool.or_eq_true_iff.2 (triedBefore_total a b)

theorem sortNames_eq_of_perm {names others : List Text} (h : names.Perm others) :
    sortNames names = sortNames others := by
  have hdistinct : (distinct names).Perm (distinct others) :=
    (List.perm_ext_iff_of_nodup (distinct_nodup names) (distinct_nodup others)).2 fun name => by
      rw [mem_distinct, mem_distinct, h.mem_iff]
  have hperm : (sortNames names).Perm (sortNames others) :=
    ((List.mergeSort_perm _ _).trans hdistinct).trans (List.mergeSort_perm _ _).symm
  exact hperm.eq_of_pairwise (fun a b _ _ => triedBefore_antisymm) (pairwise_sortNames names)
    (pairwise_sortNames others)

namespace VariableTable

theorem find?_eq_some_iff {table : VariableTable} (hdistinct : table.names.Nodup) {name : Text}
    {definition : Definition} :
    table.find? name = some definition ↔
      definition ∈ table.definitions ∧ definition.name = name := by
  refine ⟨find?_eq_some, ?_⟩
  rintro ⟨hmem, rfl⟩
  cases hfind : table.find? definition.name with
  | none => exact absurd (List.mem_map_of_mem hmem) (find?_eq_none_iff.1 hfind)
  | some other =>
      obtain ⟨hother, hname⟩ := find?_eq_some hfind
      rw [List.inj_on_of_nodup_map hdistinct hother hmem hname]

theorem pieces?_eq_of_perm {table other : VariableTable}
    (h : table.definitions.Perm other.definitions) (hdistinct : table.names.Nodup) :
    table.pieces? = other.pieces? := by
  have hnames : table.names.Perm other.names := h.map Definition.name
  funext name
  have hfind : table.find? name = other.find? name := by
    ext definition
    rw [find?_eq_some_iff hdistinct, find?_eq_some_iff (hnames.nodup_iff.1 hdistinct), h.mem_iff]
  rw [pieces?, pieces?, hfind, sortNames_eq_of_perm hnames]

theorem refers_eq_of_pieces? {table other : VariableTable} (h : table.pieces? = other.pieces?) :
    table.Refers = other.Refers := by
  funext name inner
  rw [Refers, Refers, h]

theorem IsReferenceChain.of_pieces? {table other : VariableTable}
    (h : table.pieces? = other.pieces?) {chain : List Text}
    (hchain : table.IsReferenceChain chain) : other.IsReferenceChain chain :=
  ⟨hchain.distinct, refers_eq_of_pieces? h ▸ hchain.refers⟩

end VariableTable

theorem Resolution.IsStratified.of_pieces? {table other : VariableTable}
    (h : table.pieces? = other.pieces?) {known : Resolution} (hknown : known.IsStratified table) :
    known.IsStratified other := by
  induction known with
  | nil => trivial
  | cons entry earlier ih => exact ⟨h ▸ hknown.1, ih hknown.2⟩

/-! ## Resolving in two orders -/

section Orders

variable {table other : VariableTable} (hnames : ∀ name ∈ table.names, isVariableName name = true)
  (hpieces : table.pieces? = other.pieces?)
include hnames hpieces

theorem find?_eq_of_resolveAll [Limits] (hmem : ∀ name, name ∈ other.names ↔ name ∈ table.names)
    {resolved otherResolved : ResolvedVariables} (h : table.resolveAll = .ok resolved)
    (hother : other.resolveAll = .ok otherResolved) (name : Text) :
    resolved.find? name = otherResolved.find? name := by
  obtain ⟨hstratified, hfound⟩ := isStratified_of_resolveAll hnames h
  obtain ⟨hotherStratified, hotherFound⟩ :=
    isStratified_of_resolveAll (fun name hname => hnames name ((hmem name).1 hname)) hother
  replace hotherStratified := hotherStratified.of_pieces? hpieces.symm
  by_cases hname : name ∈ table.names
  · obtain ⟨value, hvalue⟩ := hfound name hname
    obtain ⟨otherValue, hotherValue⟩ := hotherFound name ((hmem name).2 hname)
    rw [hvalue, hotherValue, hstratified.eq_of_lookup hotherStratified hvalue hotherValue]
  · have hnone : ∀ {known : Resolution}, known.IsStratified table → known.lookup name = none := by
      intro known hknown
      by_contra hsome
      obtain ⟨value, hvalue⟩ := Option.ne_none_iff_exists'.1 hsome
      exact hname (hknown.mem_names hvalue)
    exact (hnone hstratified).trans (hnone hotherStratified).symm

/-- Where one order resolves and the other fails, the other has gone too deep. -/
theorem variableDepthExceeded_of_resolveAll [Limits] {resolved : ResolvedVariables}
    {failure : Error} (h : table.resolveAll = .ok resolved)
    (hother : other.resolveAll = .error failure) :
    ∃ shown, failure.cause = .variableDepthExceeded shown Limits.variableDepth := by
  cases VariableTable.explains_of_resolveAll_eq_error hother with
  | cycle hcause hcycle =>
      have hwalk := hcycle.transGen
      rw [← VariableTable.refers_eq_of_pieces? hpieces] at hwalk
      exact absurd hwalk (not_transGen_of_resolveAll hnames h _)
  | depth chain hcause hchain hlength => exact ⟨_, hcause⟩

end Orders

/-- In every order variables are declared alike.  Unless a chain of references is too long, they
resolve in every order or in none, as there is no cycle or one; where they resolve in two orders
the values are the same, and where they resolve in one of two the other is refused for its
depth. -/
theorem resolveAll_of_perm [Limits] {definitions others : List Definition}
    (hperm : definitions.Perm others) (hdistinct : (definitions.map Definition.name).Nodup)
    (hnames : ∀ definition ∈ definitions, isVariableName definition.name = true)
    (hsize : definitions.length ≤ Limits.definitions) (mayRedefine : Bool) :
    ∃ table other : VariableTable,
      tableOf definitions mayRedefine = .ok table ∧ tableOf others mayRedefine = .ok other ∧
      ((∀ chain, table.IsReferenceChain chain → chain.length ≤ Limits.variableDepth) →
        ((∃ resolved, table.resolveAll = .ok resolved) ↔
            ∃ resolved, other.resolveAll = .ok resolved) ∧
          ((∃ resolved, table.resolveAll = .ok resolved) ↔
            ∀ name, ¬ Relation.TransGen table.Refers name name)) ∧
      (∀ resolved otherResolved, table.resolveAll = .ok resolved →
        other.resolveAll = .ok otherResolved →
        ∀ name, resolved.find? name = otherResolved.find? name) ∧
      ∀ resolved failure, table.resolveAll = .ok resolved → other.resolveAll = .error failure →
        ∃ shown, failure.cause = .variableDepthExceeded shown Limits.variableDepth := by
  obtain ⟨table, htable, hdefinitions⟩ := exists_tableOf_of_nodup hdistinct hsize mayRedefine
  obtain ⟨other, hother, hothers⟩ :=
    exists_tableOf_of_nodup ((hperm.map Definition.name).nodup_iff.1 hdistinct)
      (hperm.length_eq ▸ hsize) mayRedefine
  subst hdefinitions hothers
  have hmem : ∀ name, name ∈ other.names ↔ name ∈ table.names :=
    fun name => (hperm.map Definition.name).mem_iff.symm
  have hvalid : ∀ name ∈ table.names, isVariableName name = true := by
    intro name hname
    obtain ⟨definition, hdefinition, rfl⟩ := List.mem_map.1 hname
    exact hnames definition hdefinition
  have hotherValid : ∀ name ∈ other.names, isVariableName name = true :=
    fun name hname => hvalid name ((hmem name).1 hname)
  have hpieces : table.pieces? = other.pieces? :=
    VariableTable.pieces?_eq_of_perm hperm hdistinct
  refine ⟨table, other, htable, hother, ?_, ?_, ?_⟩
  · intro hchains
    have hiff := VariableTable.exists_resolved_iff_of_chains hvalid hchains
    have hotherIff := VariableTable.exists_resolved_iff_of_chains hotherValid fun chain hchain =>
      hchains chain (hchain.of_pieces? hpieces.symm)
    rw [← VariableTable.refers_eq_of_pieces? hpieces] at hotherIff
    exact ⟨hiff.trans hotherIff.symm, hiff⟩
  · intro resolved otherResolved h hother
    exact find?_eq_of_resolveAll hvalid hpieces hmem h hother
  · intro resolved failure h hother
    exact variableDepthExceeded_of_resolveAll hvalid hpieces h hother

/-- A syllable declared before what it is made of, and after it. -/
theorem resolveAll_of_perm_syllable :
    let syllable : Definition := ⟨"S".toList, "[C V]".toList, 1, "S = [C V]"⟩
    let onset : Definition := ⟨"C".toList, "[p t]".toList, 2, "C = [p t]"⟩
    let nucleus : Definition := ⟨"V".toList, "[a]".toList, 3, "V = [a]"⟩
    let definitions := [syllable, onset, nucleus]
    let others := [nucleus, onset, syllable]
    (definitions.Perm others ∧ (definitions.map Definition.name).Nodup ∧
      (∀ definition ∈ definitions, isVariableName definition.name = true) ∧
      definitions.length ≤ Limits.definitions) ∧
    ∃ table other : VariableTable,
      tableOf definitions false = .ok table ∧ tableOf others false = .ok other ∧
      (∀ chain, table.IsReferenceChain chain → chain.length ≤ Limits.variableDepth) ∧
      ∃ resolved otherResolved, table.resolveAll = .ok resolved ∧
        other.resolveAll = .ok otherResolved ∧
        resolved.find? "S".toList = some "[[p t] [a]]".toList ∧
        ∀ name, resolved.find? name = otherResolved.find? name := by
  intro syllable onset nucleus definitions others
  have hperm : definitions.Perm others := by decide
  have hdistinct : (definitions.map Definition.name).Nodup := by decide
  have hnames : ∀ definition ∈ definitions, isVariableName definition.name = true := by decide
  have hsize : definitions.length ≤ Limits.definitions := by decide
  have hresolved : tableOf definitions false >>= VariableTable.resolveAll = .ok
      ⟨["C".toList, "S".toList, "V".toList], [("S".toList, "[[p t] [a]]".toList),
        ("V".toList, "[a]".toList), ("C".toList, "[p t]".toList)]⟩ := by cbv
  obtain ⟨table, other, htable, hotherDefined, hiff, hvalues, -⟩ :=
    resolveAll_of_perm hperm hdistinct hnames hsize false
  rw [htable, ok_bind] at hresolved
  have hchains : ∀ chain, table.IsReferenceChain chain → chain.length ≤ Limits.variableDepth := by
    obtain ⟨defined, hdefined, hdefinitions⟩ := exists_tableOf_of_nodup hdistinct hsize false
    cases htable.symm.trans hdefined
    have hfew : table.size + 1 ≤ Limits.variableDepth := by
      rw [VariableTable.size, hdefinitions]
      decide
    exact fun chain hchain => Nat.le_trans hchain.length_le hfew
  obtain ⟨otherResolved, hother⟩ := (hiff hchains).1.1 ⟨_, hresolved⟩
  exact ⟨⟨hperm, hdistinct, hnames, hsize⟩, table, other, htable, hotherDefined, hchains,
    _, otherResolved, hresolved, hother, rfl, hvalues _ _ hresolved hother⟩

/-! ## How deep an order leads -/

def VariableTable.IsAlias (table : VariableTable) (name inner : Text) : Prop :=
  table.pieces? name = some [.reference inner]

section Resolve

variable {table : VariableTable} {names : List Text} {depth : Nat} {visiting : List Text}
  {known : Resolution} {name : Text} {definition : Definition}

theorem resolve_of_find? [Limits] (hlookup : known.lookup name = none)
    (hfind : table.find? name = some definition) (hvisited : name ∉ visiting) :
    resolve table names (depth + 1) visiting known name = (do
      let expanded ← (scan names definition.value).foldlM
        (fillStep (resolve table names depth (name :: visiting))) ⟨[], known⟩
      .ok ⟨expanded.value.reverse, (name, expanded.value.reverse) :: expanded.known⟩) := by
  have hcontains : ¬ visiting.contains name = true := fun h => hvisited (List.contains_iff_mem.1 h)
  rw [resolve]
  simp only [hlookup, hfind, hcontains]
  rfl

/-- A value whose references are known is read without learning anything. -/
theorem exists_foldlM_fillStep_eq_ok {lookUp : Resolution → Text → Except Error Resolved}
    {pieces : List Piece}
    (hknown : ∀ inner, .reference inner ∈ pieces →
      ∃ value, lookUp known inner = .ok ⟨value, known⟩) (text : Text) :
    ∃ final, pieces.foldlM (fillStep lookUp) ⟨text, known⟩ = .ok ⟨final, known⟩ := by
  induction pieces generalizing text with
  | nil => exact ⟨text, rfl⟩
  | cons piece pieces ih =>
      replace ih := ih fun inner hmem => hknown inner (List.mem_cons_of_mem piece hmem)
      rw [List.foldlM_cons]
      cases piece with
      | other c => exact ih (c :: text)
      | reference inner =>
          obtain ⟨value, hvalue⟩ := hknown inner List.mem_cons_self
          obtain ⟨final, hfinal⟩ := ih (value.reverse ++ text)
          refine ⟨final, ?_⟩
          rw [fillStep, hvalue]
          exact hfinal

theorem exists_resolve_eq_ok_of_known [Limits] (hname : name ∈ table.names)
    (hknown : ∀ inner, table.Refers name inner → ∃ value, known.lookup inner = some value) :
    ∃ result, resolve table (sortNames table.names) (depth + 1) [] known name = .ok result := by
  cases hlookup : known.lookup name with
  | some value =>
      rw [resolve, hlookup]
      exact ⟨_, rfl⟩
  | none =>
      obtain ⟨definition, hfind⟩ := VariableTable.exists_find?_of_mem_names hname
      rw [resolve_of_find? hlookup hfind List.not_mem_nil]
      have hreferences : ∀ inner,
          .reference inner ∈ scan (sortNames table.names) definition.value →
          ∃ value, resolve table (sortNames table.names) depth [name] known inner =
            .ok ⟨value, known⟩ := by
        intro inner hmem
        obtain ⟨value, hvalue⟩ := hknown inner ⟨_, by rw [VariableTable.pieces?, hfind]; rfl, hmem⟩
        refine ⟨value, ?_⟩
        rw [resolve, hvalue]
      obtain ⟨final, hfinal⟩ := exists_foldlM_fillStep_eq_ok hreferences []
      rw [hfinal]
      exact ⟨_, rfl⟩

/-- A name at the start of as many references as may be followed cannot be resolved, if each value
is nothing but the next reference. -/
theorem exists_resolve_eq_error_of_isAlias [Limits]
    (hnames : ∀ name ∈ table.names, isVariableName name = true) {chain : List Text}
    (hname : name ∈ table.names) (haliases : (name :: chain).IsChain table.IsAlias)
    (hlength : depth ≤ chain.length) :
    ∃ failure, resolve table (sortNames table.names) depth visiting [] name = .error failure := by
  -- On the way down nothing is known yet, so every name is entered, or met a second time.
  induction depth generalizing visiting name chain with
  | zero =>
      obtain ⟨definition, hfind⟩ := VariableTable.exists_find?_of_mem_names hname
      rw [resolve, List.lookup_nil]
      simp only [hfind]
      split
      · exact ⟨_, rfl⟩
      · exact ⟨_, rfl⟩
  | succ depth ih =>
      obtain ⟨definition, hfind⟩ := VariableTable.exists_find?_of_mem_names hname
      by_cases hvisited : name ∈ visiting
      · rw [resolve, List.lookup_nil]
        simp only [hfind, List.contains_iff_mem.2 hvisited, if_true]
        exact ⟨_, rfl⟩
      · cases chain with
        | nil => exact absurd hlength (Nat.not_succ_le_zero depth)
        | cons inner chain =>
            obtain ⟨hinner, haliases⟩ := List.isChain_cons_cons.1 haliases
            have hscan : scan (sortNames table.names) definition.value = [.reference inner] := by
              rw [VariableTable.IsAlias, VariableTable.pieces?, hfind] at hinner
              exact Option.some.inj hinner
            have hmem : inner ∈ table.names :=
              VariableTable.mem_names_of_refers hnames ⟨_, hinner, List.mem_singleton_self _⟩
            obtain ⟨failure, hfailure⟩ : ∃ failure, resolve table (sortNames table.names) depth
                (name :: visiting) [] inner = .error failure :=
              ih hmem haliases (Nat.le_of_succ_le_succ hlength)
            rw [resolve_of_find? List.lookup_nil hfind hvisited, hscan, List.foldlM_cons, fillStep,
              hfailure]
            exact ⟨failure, rfl⟩

end Resolve

/-- Whether variables refer only to ones declared before them. -/
structure VariableTable.DeclaresBeforeUse (table : VariableTable) : Prop where
  notSelf : ∀ name, ¬ table.Refers name name
  notLater : table.definitions.Pairwise fun earlier later => ¬ table.Refers earlier.name later.name

section ResolveAll

variable {table : VariableTable} (hnames : ∀ name ∈ table.names, isVariableName name = true)
include hnames

theorem VariableTable.DeclaresBeforeUse.mem_of_refers (h : table.DeclaresBeforeUse)
    {before after : List Definition} {definition : Definition}
    (hdefinitions : table.definitions = before ++ definition :: after) {inner : Text}
    (hrefers : table.Refers definition.name inner) : inner ∈ before.map Definition.name := by
  have hinner := mem_names_of_refers hnames hrefers
  have hlater := h.notLater
  rw [hdefinitions] at hlater
  rw [names, hdefinitions, List.map_append, List.map_cons, List.mem_append, List.mem_cons] at hinner
  rcases hinner with hbefore | rfl | hafter
  · exact hbefore
  · exact absurd hrefers (h.notSelf _)
  · obtain ⟨later, hmem, rfl⟩ := List.mem_map.1 hafter
    exact absurd hrefers ((List.pairwise_cons.1 (List.pairwise_append.1 hlater).2.1).1 later hmem)

theorem exists_foldlM_resolve_eq_ok [Limits] (h : table.DeclaresBeforeUse)
    {before after : List Definition} {known : Resolution}
    (hdefinitions : table.definitions = before ++ after)
    (hknown : ∀ definition ∈ before, ∃ value, known.lookup definition.name = some value) :
    ∃ values, after.foldlM (fun known definition => do
      let result ←
        resolve table (sortNames table.names) Limits.variableDepth [] known definition.name
      pure result.known) known = .ok values := by
  -- What has been declared before a variable is known by then, and nothing else is referred to.
  induction after generalizing before known with
  | nil => exact ⟨known, rfl⟩
  | cons definition after ih =>
      have hname : definition.name ∈ table.names := by
        rw [VariableTable.names, hdefinitions]
        exact List.mem_map_of_mem (List.mem_append_right before List.mem_cons_self)
      have hreferences : ∀ inner, table.Refers definition.name inner →
          ∃ value, known.lookup inner = some value := by
        intro inner hrefers
        obtain ⟨earlier, hearlier, rfl⟩ :=
          List.mem_map.1 (h.mem_of_refers hnames hdefinitions hrefers)
        exact hknown earlier hearlier
      obtain ⟨result, hresult⟩ : ∃ result, resolve table (sortNames table.names)
          Limits.variableDepth [] known definition.name = .ok result := by
        obtain ⟨depth, hdepth⟩ := Nat.exists_eq_add_one.2 Limits.variableDepth_pos
        rw [hdepth]
        exact exists_resolve_eq_ok_of_known hname hreferences
      have hresolves : Resolves (fun _ => True) known definition.name result :=
        resolves_of_resolve (fun name hin => hnames name (mem_sortNames.1 hin))
          (fun name hin => mem_sortNames.1 hin) (fun _ _ _ _ _ _ _ => trivial) hname trivial hresult
      rw [List.append_cons] at hdefinitions
      rw [List.foldlM_cons, hresult]
      refine ih hdefinitions fun earlier hearlier => ?_
      rcases List.mem_append.1 hearlier with hearlier | hsame
      · obtain ⟨value, hvalue⟩ := hknown earlier hearlier
        exact ⟨value, hresolves.keeps _ _ hvalue⟩
      · rw [List.mem_singleton.1 hsame]
        exact ⟨_, hresolves.found⟩

/-- Variables declared before they are used resolve, however long the chains of references. -/
theorem exists_resolveAll_eq_ok_of_declaresBeforeUse [Limits] (h : table.DeclaresBeforeUse) :
    ∃ resolved, table.resolveAll = .ok resolved := by
  obtain ⟨values, hvalues⟩ :=
    exists_foldlM_resolve_eq_ok hnames h (List.nil_append _).symm (by simp)
  exact ⟨_, bind_eq_ok.2 ⟨values, hvalues, rfl⟩⟩

/-- As many references as may be followed, declared from their start, are too many. -/
theorem exists_resolveAll_eq_error_of_isAlias [Limits] {first : Text} {rest chain : List Text}
    (hfirst : table.names = first :: rest) (haliases : (first :: chain).IsChain table.IsAlias)
    (hlength : Limits.variableDepth ≤ chain.length) :
    ∃ failure, table.resolveAll = .error failure := by
  have hname : first ∈ table.names := hfirst ▸ List.mem_cons_self
  obtain ⟨failure, hfailure⟩ : ∃ failure, resolve table (sortNames table.names)
      Limits.variableDepth [] [] first = .error failure :=
    exists_resolve_eq_error_of_isAlias hnames hname haliases hlength
  obtain ⟨definition, definitions, hdefinitions, rfl, -⟩ := List.map_eq_cons_iff.1 hfirst
  refine ⟨failure, bind_eq_error.2 (.inl ?_)⟩
  rw [hdefinitions, List.foldlM_cons, hfailure]
  rfl

end ResolveAll

/-! ## Names that stand for one another -/

def aliasName (k : Nat) : Text :=
  List.replicate (k + 1) 'a'

/-- Some of these names, each of which stands for the next. -/
def aliases (count : Nat) : List Definition :=
  (List.range count).map fun k => ⟨aliasName k, aliasName (k + 1), k + 1, ""⟩

theorem aliasName_injective : Function.Injective aliasName := by
  intro i j hsame
  simpa [aliasName] using congrArg List.length hsame

theorem isVariableName_aliasName (k : Nat) : isVariableName (aliasName k) = true := by
  refine isVariableName_iff.2 ⟨List.cons_ne_nil _ _, fun c hc => ?_⟩
  rw [List.eq_of_mem_replicate hc]
  decide

theorem names_aliases (count : Nat) :
    (aliases count).map Definition.name = (List.range count).map aliasName := by
  simp [aliases]

theorem nodup_names_aliases (count : Nat) : ((aliases count).map Definition.name).Nodup := by
  rw [names_aliases]
  exact List.nodup_range.map aliasName_injective

section Aliases

variable {table : VariableTable} {count : Nat} (hperm : table.definitions.Perm (aliases count))
include hperm

theorem mem_names_aliases_iff {name : Text} :
    name ∈ table.names ↔ ∃ k < count, aliasName k = name := by
  rw [VariableTable.names, (hperm.map Definition.name).mem_iff, names_aliases]
  simp

theorem isVariableName_of_mem_aliases : ∀ name ∈ table.names, isVariableName name = true := by
  intro name hname
  obtain ⟨k, -, rfl⟩ := (mem_names_aliases_iff hperm).1 hname
  exact isVariableName_aliasName k

theorem pieces?_aliases {k : Nat} (hk : k < count) :
    table.pieces? (aliasName k) =
      some (if k + 1 < count then [.reference (aliasName (k + 1))]
        else (aliasName (k + 1)).map Piece.other) := by
  have hdistinct : table.names.Nodup :=
    (hperm.map Definition.name).nodup_iff.2 (nodup_names_aliases count)
  have hfind : table.find? (aliasName k) = some ⟨aliasName k, aliasName (k + 1), k + 1, ""⟩ := by
    refine (VariableTable.find?_eq_some_iff hdistinct).2 ⟨hperm.mem_iff.2 ?_, rfl⟩
    exact List.mem_map.2 ⟨k, List.mem_range.2 hk, rfl⟩
  have hmem : aliasName (k + 1) ∈ sortNames table.names ↔ k + 1 < count := by
    rw [mem_sortNames, mem_names_aliases_iff hperm]
    constructor
    · rintro ⟨j, hj, hsame⟩
      exact aliasName_injective hsame ▸ hj
    · exact fun hlt => ⟨k + 1, hlt, rfl⟩
  obtain ⟨hne, halphanumeric⟩ := isVariableName_iff.1 (isVariableName_aliasName (k + 1))
  have hscan : scan (sortNames table.names) (aliasName (k + 1) ++ []) =
      (if aliasName (k + 1) ∈ sortNames table.names then [.reference (aliasName (k + 1))]
        else (aliasName (k + 1)).map Piece.other) ++ [] :=
    scan_append_of_run
      (fun name hname => isVariableName_of_mem_aliases hperm name (mem_sortNames.1 hname))
      hne halphanumeric (by simp)
  simp only [List.append_nil, hmem] at hscan
  rw [VariableTable.pieces?, hfind, Option.map_some, hscan]

theorem isAlias_aliasName {k : Nat} (hk : k + 1 < count) :
    table.IsAlias (aliasName k) (aliasName (k + 1)) := by
  rw [VariableTable.IsAlias, pieces?_aliases hperm (Nat.lt_of_succ_lt hk), if_pos hk]

theorem exists_of_refers_aliases {name inner : Text} (h : table.Refers name inner) :
    ∃ k, name = aliasName k ∧ inner = aliasName (k + 1) := by
  obtain ⟨pieces, hpieces, hmem⟩ := h
  obtain ⟨k, hk, rfl⟩ :=
    (mem_names_aliases_iff hperm).1 (VariableTable.mem_names_of_pieces? hpieces)
  cases Option.some.inj (hpieces.symm.trans (pieces?_aliases hperm hk))
  split at hmem
  · exact ⟨k, rfl, by simpa using hmem⟩
  · simp at hmem

end Aliases

theorem exists_resolveAll_eq_error_of_aliases [Limits] {table : VariableTable} {count : Nat}
    (hdefinitions : table.definitions = aliases count) (hcount : Limits.variableDepth < count) :
    ∃ failure, table.resolveAll = .error failure := by
  have hperm : table.definitions.Perm (aliases count) := hdefinitions ▸ .refl _
  have hnames : table.names = (List.range count).map aliasName := by
    rw [VariableTable.names, hdefinitions, names_aliases]
  have haliases : table.names.IsChain table.IsAlias := by
    rw [hnames, List.isChain_map, List.isChain_range]
    exact fun k hk => isAlias_aliasName hperm (Nat.add_lt_of_lt_sub hk)
  cases count with
  | zero => exact absurd hcount (Nat.not_lt_zero _)
  | succ count =>
      rw [List.range_succ_eq_map, List.map_cons] at hnames
      refine exists_resolveAll_eq_error_of_isAlias (isVariableName_of_mem_aliases hperm) hnames
        (hnames ▸ haliases) ?_
      rw [List.length_map, List.length_map, List.length_range]
      exact Nat.le_of_lt_succ hcount

theorem exists_resolveAll_eq_ok_of_aliases_reverse [Limits] {table : VariableTable} {count : Nat}
    (hdefinitions : table.definitions = (aliases count).reverse) :
    ∃ resolved, table.resolveAll = .ok resolved := by
  have hperm : table.definitions.Perm (aliases count) := hdefinitions ▸ List.reverse_perm _
  refine exists_resolveAll_eq_ok_of_declaresBeforeUse (isVariableName_of_mem_aliases hperm) ⟨?_, ?_⟩
  · intro name hrefers
    obtain ⟨k, rfl, hsame⟩ := exists_of_refers_aliases hperm hrefers
    exact Nat.succ_ne_self k (aliasName_injective hsame).symm
  · rw [hdefinitions]
    refine List.pairwise_reverse.2 (List.pairwise_map.2 (List.pairwise_lt_range.imp ?_))
    intro i j hlt hrefers
    obtain ⟨k, hj, hi⟩ := exists_of_refers_aliases hperm hrefers
    have hj := aliasName_injective hj
    have hi := aliasName_injective hi
    omega

/-- One name more than may be followed: whether the aliases resolve is a matter of their order. -/
theorem resolveAll_aliases_reverse :
    (aliases 65).Perm (aliases 65).reverse ∧ ((aliases 65).map Definition.name).Nodup ∧
      (∀ definition ∈ aliases 65, isVariableName definition.name = true) ∧
      (aliases 65).length ≤ Limits.definitions ∧
      (∃ table failure, tableOf (aliases 65) false = .ok table ∧
        table.resolveAll = .error failure) ∧
      ∃ table resolved, tableOf (aliases 65).reverse false = .ok table ∧
        table.resolveAll = .ok resolved := by
  have hlength : (aliases 65).length ≤ Limits.definitions := by decide
  have hreverse : ((aliases 65).reverse.map Definition.name).Nodup := by
    rw [List.map_reverse, List.nodup_reverse]
    exact nodup_names_aliases 65
  obtain ⟨table, htable, hdefinitions⟩ :=
    exists_tableOf_of_nodup (nodup_names_aliases 65) hlength false
  obtain ⟨other, hother, hothers⟩ :=
    exists_tableOf_of_nodup hreverse (List.length_reverse ▸ hlength) false
  obtain ⟨failure, hfailure⟩ := exists_resolveAll_eq_error_of_aliases hdefinitions (by decide)
  obtain ⟨resolved, hresolved⟩ := exists_resolveAll_eq_ok_of_aliases_reverse hothers
  refine ⟨(List.reverse_perm _).symm, nodup_names_aliases 65, fun definition hmem => ?_, hlength,
    ⟨table, failure, htable, hfailure⟩, other, resolved, hother, hresolved⟩
  obtain ⟨k, -, rfl⟩ := List.mem_map.1 hmem
  exact isVariableName_aliasName k

end Diachrony.RuleText
