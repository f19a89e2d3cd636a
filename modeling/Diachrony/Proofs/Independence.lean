import Mathlib
import Diachrony.Proofs.Preparation
import Diachrony.Proofs.Stages

/-!
# Rule statements are independent

Statements share the variables and, if there are negative sets, the phonemes known.  Without
negative sets a clause that states a rule expands by itself once the variables are resolved: what
stands around it decides neither whether it can be expanded nor to what.  Only the number of its
line is a matter of the lines before it.
-/

namespace Diachrony

/-- A rule as it would be some lines further down. -/
def Rule.moved (offset : Nat) (rule : Rule) : Rule :=
  { rule with line := rule.line + offset }

namespace RuleText

/-! ## Clauses that define and clauses that state rules -/

/-- The variables that some clauses define, resolved. -/
def resolveClauses [Limits] (mayRedefine : Bool) (clauses : List Clause) :
    Except Error ResolvedVariables := do
  let statements ← clauses.mapM Clause.read
  let table ← tableOf (definitions statements) mayRedefine
  table.resolveAll

def Clause.stated (clause : Clause) : RuleStatement :=
  ⟨clause.line, String.ofList clause.source, clause.text⟩

def Clause.rule (clause : Clause) : Statement :=
  ⟨clause.line, String.ofList clause.source, .rule clause.text⟩

/-- The rules of a clause without negative sets, given the variables. -/
def Clause.expand [Limits] (resolved : ResolvedVariables) (clause : Clause) :
    Except Cause (List Rule) :=
  (clause.stated.substituted resolved).expand

theorem mem_of_mem_statedPieces {line piece : Text} (h : piece ∈ statedPieces line) {c : Char}
    (hc : c ∈ piece) : c ∈ line := by
  have hstated : piece ∈ Text.statements line := by
    unfold statedPieces at h
    split at h
    · simp at h
    · exact h
  obtain ⟨part, hpart, rfl⟩ := List.mem_map.1 (List.mem_of_mem_filter hstated)
  have hwhole : Text.IsWholePart (· != ';') part line :=
    .of_mem_splitWhere (fun _ hc => by rw [bne, hc]; rfl) hpart
  exact hwhole.mem (Text.mem_of_mem_trim hc)

theorem forall_clausesFrom {holds : Text → Prop} {lines : List Text}
    (h : ∀ line ∈ lines, ∀ piece ∈ statedPieces line, holds piece) (number : Nat) :
    ∀ clause ∈ clausesFrom number lines, holds clause.text := by
  intro clause hmem
  have hpiece : clause.text ∈ lines.flatMap statedPieces :=
    map_text_clausesFrom number lines ▸ List.mem_map_of_mem hmem
  obtain ⟨line, hline, hpiece⟩ := List.mem_flatMap.1 hpiece
  exact h line hline clause.text hpiece

section Definitions

variable {clauses : List Clause} {statements : List Statement}
  (h : clauses.mapM Clause.read = .ok statements)
include h

theorem exists_clause_of_mem_definitions {definition : Definition}
    (hmem : definition ∈ definitions statements) :
    ∃ clause ∈ clauses, parseDefinition clause.text = .ok (definition.name, definition.value) := by
  obtain ⟨statement, hstatement, hbody⟩ := List.mem_filterMap.1 hmem
  obtain ⟨clause, hclause, hread⟩ := exists_of_mem_mapM h hstatement
  obtain ⟨body, hparse, rfl⟩ := read_eq_ok_iff.1 hread
  cases body with
  | rule text => simp at hbody
  | definition name value =>
      simp only [Option.some.injEq] at hbody
      subst hbody
      exact ⟨clause, hclause, (parseStatement_eq_ok_definition_iff.1 hparse).2⟩

theorem ruleStatements_of_definitions
    (hdefinitions : ∀ clause ∈ clauses, isDefinition clause.text = true) :
    ruleStatements statements = [] := by
  refine List.filterMap_eq_nil_iff.2 fun statement hmem => ?_
  obtain ⟨clause, hclause, hread⟩ := exists_of_mem_mapM h hmem
  obtain ⟨body, hparse, rfl⟩ := read_eq_ok_iff.1 hread
  cases body with
  | definition name value => rfl
  | rule text =>
      have hnot := (parseStatement_eq_ok_rule_iff.1 hparse).1
      rw [hdefinitions clause hclause] at hnot
      cases hnot

end Definitions

/-- Variables without negation marks put none into a text. -/
theorem not_mem_substitute_of_resolveClauses [Limits] {clauses : List Clause} {mayRedefine : Bool}
    {resolved : ResolvedVariables} (hplain : ∀ clause ∈ clauses, '!' ∉ clause.text)
    (h : resolveClauses mayRedefine clauses = .ok resolved) {text : Text} (htext : '!' ∉ text) :
    '!' ∉ resolved.substitute text := by
  obtain ⟨statements, hstatements, h⟩ := bind_eq_ok.1 h
  obtain ⟨table, htable, h⟩ := bind_eq_ok.1 h
  obtain ⟨hentered, hnames⟩ := of_tableOf htable
  have hnamed : ∀ name ∈ table.names, isVariableName name = true := by
    intro name hname
    obtain ⟨definition, hdefinition, rfl⟩ := List.mem_map.1 ((hnames name).1 hname)
    obtain ⟨clause, -, hparse⟩ := exists_clause_of_mem_definitions hstatements hdefinition
    exact (of_parseDefinition hparse).1
  have hvalues : ∀ definition ∈ table.definitions, ∀ c ∈ definition.value, c ∉ ['!'] := by
    intro definition hmem c hc hmark
    obtain ⟨clause, hclause, hparse⟩ :=
      exists_clause_of_mem_definitions hstatements (hentered definition hmem)
    rw [List.mem_singleton.1 hmark] at hc
    exact hplain clause hclause ((of_parseDefinition hparse).2 _ hc)
  have hfree := (freeOf_of_resolveAll hnamed hvalues h).2 text fun c hc hmark =>
    htext (List.mem_singleton.1 hmark ▸ hc)
  exact fun hmem => hfree.characters _ hmem (List.mem_singleton_self '!')

theorem mapM_read_of_rules {clauses : List Clause}
    (hrules : ∀ clause ∈ clauses, isDefinition clause.text = false) :
    clauses.mapM Clause.read = .ok (clauses.map Clause.rule) := by
  rw [mapM_eq_ok_iff, List.forall₂_map_right_iff, List.forall₂_same]
  intro clause hmem
  exact read_eq_ok_iff.2
    ⟨.rule clause.text, parseStatement_eq_ok_rule_iff.2 ⟨hrules clause hmem, rfl⟩, rfl⟩

theorem definitions_append_map_rule (statements : List Statement) (clauses : List Clause) :
    definitions (statements ++ clauses.map Clause.rule) = definitions statements := by
  have hnone : definitions (clauses.map Clause.rule) = [] := by
    refine List.filterMap_eq_nil_iff.2 fun statement hmem => ?_
    obtain ⟨clause, -, rfl⟩ := List.mem_map.1 hmem
    rfl
  rw [definitions, List.filterMap_append, ← definitions, ← definitions, hnone, List.append_nil]

theorem ruleStatements_append_map_rule (statements : List Statement) (clauses : List Clause) :
    ruleStatements (statements ++ clauses.map Clause.rule) =
      ruleStatements statements ++ clauses.map Clause.stated := by
  rw [ruleStatements, List.filterMap_append, List.filterMap_map, ← List.filterMap_eq_map]
  rfl

theorem prepare_of_not_mem {resolved : ResolvedVariables} {statements : List RuleStatement}
    (hplain : ∀ statement ∈ statements, '!' ∉ resolved.substitute statement.text) :
    ∃ size, prepare resolved statements =
      .ok ⟨statements.map (RuleStatement.substituted resolved), size⟩ := by
  let substituted := statements.map (RuleStatement.substituted resolved)
  let known := knownPhonemes resolved substituted
  have hsame : substituted.mapM (RuleStatement.complemented known) = .ok substituted := by
    rw [mapM_eq_ok_iff, List.forall₂_same]
    intro statement hmem
    obtain ⟨stated, hstated, rfl⟩ := List.mem_map.1 hmem
    have hnone : '!' ∉ (stated.substituted resolved).text := hplain stated hstated
    rw [RuleStatement.complemented, expandNegativeSets_of_not_mem hnone]
    rfl
  exact ⟨known.size, bind_eq_ok.2 ⟨substituted, hsame, rfl⟩⟩

theorem forall₂_expand_iff [Limits] {resolved : ResolvedVariables} {clauses : List Clause}
    {groups : List (List Rule)} :
    List.Forall₂ (fun statement rules => RuleStatement.expand statement = .ok rules)
        ((clauses.map Clause.stated).map (RuleStatement.substituted resolved)) groups ↔
      clauses.mapM (Clause.expand resolved) = .ok groups := by
  rw [mapM_eq_ok_iff, List.forall₂_map_left_iff, List.forall₂_map_left_iff]
  rfl

/-! ## Definitions followed by rule statements -/

/-- Whether a text has some definitions followed by some rule statements, none of them with a
negative set and not too many of them. -/
structure HasBlocks [Limits] (text : Text) (defs block : List Text) : Prop where
  lines : Text.lines text = defs ++ block
  defines : ∀ line ∈ defs, ∀ piece ∈ statedPieces line, isDefinition piece = true
  states : ∀ line ∈ block, ∀ piece ∈ statedPieces line, isDefinition piece = false
  plain : ∀ line ∈ defs ++ block, '!' ∉ line
  count : ((defs ++ block).flatMap statedPieces).length ≤ Limits.statements

section Blocks

variable [Limits] {text : Text} {defs block : List Text} (h : HasBlocks text defs block)
include h

theorem HasBlocks.classify_eq_ok_iff {statements : List Statement} :
    classify text = .ok statements ↔
      (∀ line ∈ defs ++ block, line.length ≤ Limits.lineLength) ∧
        ∃ defined, (clausesFrom 1 defs).mapM Clause.read = .ok defined ∧
          statements = defined ++ (clausesFrom (1 + defs.length) block).map Clause.rule := by
  have hrules := mapM_read_of_rules (forall_clausesFrom h.states (1 + defs.length))
  have hread : (clauses text).mapM Clause.read = .ok statements ↔
      ∃ defined, (clausesFrom 1 defs).mapM Clause.read = .ok defined ∧
        statements = defined ++ (clausesFrom (1 + defs.length) block).map Clause.rule := by
    rw [clauses, h.lines, clausesFrom_append, List.mapM_append, hrules, bind_eq_ok]
    exact exists_congr fun defined => and_congr_right fun _ =>
      ⟨fun hsame => (Except.ok.inj hsame).symm, fun hsame => congrArg Except.ok hsame.symm⟩
  have hfits : (clauses text).mapM Clause.read = .ok statements →
      statements.length ≤ Limits.statements := by
    intro hstatements
    rw [← (mapM_eq_ok_iff.1 hstatements).length_eq, clauses, ← List.length_map Clause.text,
      map_text_clausesFrom, h.lines]
    exact h.count
  rw [RuleText.classify_eq_ok_iff, h.lines, ← hread]
  exact and_congr_right fun _ =>
    ⟨And.left, fun hstatements => ⟨hstatements, hfits hstatements⟩⟩

theorem HasBlocks.ruleStatements_eq {defined : List Statement}
    (hdefined : (clausesFrom 1 defs).mapM Clause.read = .ok defined) :
    ruleStatements (defined ++ (clausesFrom (1 + defs.length) block).map Clause.rule) =
      (clausesFrom (1 + defs.length) block).map Clause.stated := by
  rw [ruleStatements_append_map_rule,
    ruleStatements_of_definitions hdefined (forall_clausesFrom h.defines 1), List.nil_append]

theorem HasBlocks.prepare_eq {mayRedefine : Bool} {resolved : ResolvedVariables}
    (hresolved : resolveClauses mayRedefine (clausesFrom 1 defs) = .ok resolved) :
    ∃ size, prepare resolved ((clausesFrom (1 + defs.length) block).map Clause.stated) =
      .ok ⟨((clausesFrom (1 + defs.length) block).map Clause.stated).map
        (RuleStatement.substituted resolved), size⟩ := by
  have hmark : ∀ line ∈ defs ++ block, ∀ piece ∈ statedPieces line, '!' ∉ piece :=
    fun line hline piece hpiece hmem => h.plain line hline (mem_of_mem_statedPieces hpiece hmem)
  obtain ⟨hdefining, hstating⟩ := List.forall_mem_append.1 hmark
  refine prepare_of_not_mem fun statement hmem => ?_
  obtain ⟨clause, hclause, rfl⟩ := List.mem_map.1 hmem
  exact not_mem_substitute_of_resolveClauses (forall_clausesFrom hdefining 1) hresolved
    (forall_clausesFrom hstating _ clause hclause)

/-- The rules of definitions followed by rule statements are those of the statements one by one,
given what the definitions resolve to. -/
theorem HasBlocks.rules_compileText_eq_ok_iff {mayRedefine : Bool} {rules : List Rule} :
    (compileText text mayRedefine).map RuleSet.rules = .ok rules ↔
      (∀ line ∈ defs ++ block, line.length ≤ Limits.lineLength) ∧
        ∃ resolved, resolveClauses mayRedefine (clausesFrom 1 defs) = .ok resolved ∧
          ∃ groups, (clausesFrom (1 + defs.length) block).mapM (Clause.expand resolved) =
            .ok groups ∧ rules = groups.flatten := by
  rw [RuleText.rules_compileText_eq_ok_iff]
  constructor
  · rintro ⟨statements, table, resolved, prepared, groups, hstaged, rfl⟩
    obtain ⟨hshort, defined, hdefined, rfl⟩ := h.classify_eq_ok_iff.1 hstaged.classify
    have htable := hstaged.tableOf
    rw [definitions_append_map_rule] at htable
    have hresolved : resolveClauses mayRedefine (clausesFrom 1 defs) = .ok resolved :=
      bind_eq_ok.2 ⟨defined, hdefined, bind_eq_ok.2 ⟨table, htable, hstaged.resolveAll⟩⟩
    obtain ⟨size, hprepared⟩ := h.prepare_eq hresolved
    rw [← h.ruleStatements_eq hdefined, hstaged.prepare, h.ruleStatements_eq hdefined] at hprepared
    cases hprepared
    exact ⟨hshort, resolved, hresolved, groups, forall₂_expand_iff.1 hstaged.expand, rfl⟩
  · rintro ⟨hshort, resolved, hresolved, groups, hgroups, rfl⟩
    obtain ⟨defined, hdefined, htable⟩ := bind_eq_ok.1 hresolved
    obtain ⟨table, htable, hresolveAll⟩ := bind_eq_ok.1 htable
    obtain ⟨size, hprepared⟩ := h.prepare_eq hresolved
    have hstatements := h.classify_eq_ok_iff.2 ⟨hshort, defined, hdefined, rfl⟩
    rw [← h.ruleStatements_eq hdefined] at hprepared
    have hstaged : IsStaged text mayRedefine _ table resolved _ groups :=
      { classify := hstatements
        tableOf := by rw [definitions_append_map_rule, htable]
        resolveAll := hresolveAll
        prepare := hprepared
        expand := by
          rw [h.ruleStatements_eq hdefined]
          exact forall₂_expand_iff.2 hgroups }
    exact ⟨_, _, _, _, _, hstaged, rfl⟩

end Blocks

/-! ## Moved lines -/

def Clause.moved (offset : Nat) (clause : Clause) : Clause :=
  { clause with line := clause.line + offset }

theorem clausesFrom_add (number offset : Nat) (lines : List Text) :
    clausesFrom (number + offset) lines =
      (clausesFrom number lines).map (Clause.moved offset) := by
  induction lines generalizing number with
  | nil => rfl
  | cons line lines ih =>
      rw [clausesFrom_cons, clausesFrom_cons, List.map_append, ← ih, Nat.add_right_comm,
        lineClauses, lineClauses, List.map_map]
      rfl

theorem eraseDups_map_of_injective {α β : Type} [BEq α] [LawfulBEq α] [BEq β] [LawfulBEq β]
    {f : α → β} (hf : Function.Injective f) (elements : List α) :
    (elements.map f).eraseDups = elements.eraseDups.map f := by
  induction hlength : elements.length using Nat.strongRecOn generalizing elements with
  | ind length ih =>
      subst hlength
      cases elements with
      | nil => simp
      | cons a rest =>
          have hother : ((fun b => !b == f a) ∘ f) = fun b => !b == a := by
            funext b
            rw [Function.comp_apply, Bool.eq_iff_iff]
            simp [hf.eq_iff]
          rw [List.map_cons, List.eraseDups_cons, List.eraseDups_cons, List.filter_map, hother,
            ih _ (Nat.lt_succ_of_le (List.length_filter_le _ _)) _ rfl, List.map_cons]

theorem moved_injective (offset : Nat) : Function.Injective (Rule.moved offset) := by
  intro rule other h
  obtain ⟨input, output, left, right, line⟩ := rule
  simp only [Rule.moved, Rule.mk.injEq, Nat.add_right_cancel_iff] at h
  obtain ⟨rfl, rfl, rfl, rfl, rfl⟩ := h
  rfl

theorem agree_combine_moved [Limits] (changes : List Change) (lefts rights : List Constraint)
    (line offset : Nat) :
    Agree (fun rules moved => moved = rules.map (Rule.moved offset))
      (combine changes lefts rights line) (combine changes lefts rights (line + offset)) := by
  refine .bind_same _ fun _ => .ok ?_
  rw [distinct_eq_eraseDups, distinct_eq_eraseDups, ← eraseDups_map_of_injective (moved_injective _)]
  simp only [List.map_flatMap, List.map_map]
  rfl

theorem agree_expand_moved [Limits] (resolved : ResolvedVariables) (offset : Nat)
    (clause : Clause) :
    Agree (fun rules moved => moved = rules.map (Rule.moved offset))
      (clause.expand resolved) ((clause.moved offset).expand resolved) := by
  refine .bind_same _ fun shape => .bind_same _ fun source => .bind_same _ fun target => ?_
  refine .bind_same _ fun changes => .bind_same _ fun lefts => .bind_same _ fun rights => ?_
  exact agree_combine_moved changes lefts rights clause.line offset

/-- The clauses of two blocks expand to what the blocks expand to, the second of them moved behind
the first. -/
theorem mapM_expand_append_eq_ok_iff [Limits] {resolved : ResolvedVariables} {number : Nat}
    {first second : List Text} {groups : List (List Rule)} :
    (clausesFrom number (first ++ second)).mapM (Clause.expand resolved) = .ok groups ↔
      ∃ firstGroups secondGroups,
        (clausesFrom number first).mapM (Clause.expand resolved) = .ok firstGroups ∧
          (clausesFrom number second).mapM (Clause.expand resolved) = .ok secondGroups ∧
          groups = firstGroups ++ secondGroups.map (List.map (Rule.moved first.length)) := by
  have hmoved : Agree (fun groups moved =>
      moved = groups.map (List.map (Rule.moved first.length)))
        ((clausesFrom number second).mapM (Clause.expand resolved))
        (((clausesFrom number second).map (Clause.moved first.length)).mapM
          (Clause.expand resolved)) :=
    .mapM_map (agree_expand_moved resolved first.length) _
  rw [clausesFrom_append, clausesFrom_add number, List.mapM_append]
  constructor
  · intro h
    obtain ⟨firstGroups, hfirst, h⟩ := bind_eq_ok.1 h
    obtain ⟨movedGroups, hmovedGroups, h⟩ := bind_eq_ok.1 h
    cases h
    rw [hmovedGroups] at hmoved
    obtain ⟨secondGroups, hsecond, rfl⟩ := hmoved.exists_of_ok_right
    exact ⟨firstGroups, secondGroups, hfirst, hsecond, rfl⟩
  · rintro ⟨firstGroups, secondGroups, hfirst, hsecond, rfl⟩
    rw [hsecond] at hmoved
    obtain ⟨movedGroups, hmovedGroups, rfl⟩ := hmoved.exists_of_ok_left
    exact bind_eq_ok.2 ⟨firstGroups, hfirst, bind_eq_ok.2 ⟨_, hmovedGroups, rfl⟩⟩

/-! ## Independence -/

section Independence

variable [Limits] {whole one other : Text} {defs first second : List Text}
  (h : HasBlocks whole defs (first ++ second))
include h

theorem HasBlocks.of_sublist {part : List Text} (hpart : part.Sublist (first ++ second))
    (hone : Text.lines one = defs ++ part) : HasBlocks one defs part := by
  have hlines := (List.Sublist.refl defs).append hpart
  exact
    { lines := hone
      defines := h.defines
      states := fun line hline => h.states line (hpart.subset hline)
      plain := fun line hline => h.plain line (hlines.subset hline)
      count := (hlines.flatMap statedPieces).length_le.trans h.count }

/-- A text with two blocks of rule statements behind its definitions compiles exactly if the
texts with only one of the blocks do.  Its rules are theirs, with the lines of the second block
further down by the length of the first. -/
theorem rules_compileText_append (hone : Text.lines one = defs ++ first)
    (hother : Text.lines other = defs ++ second) (mayRedefine : Bool) (rules : List Rule) :
    (compileText whole mayRedefine).map RuleSet.rules = .ok rules ↔
      ∃ firstRules secondRules,
        (compileText one mayRedefine).map RuleSet.rules = .ok firstRules ∧
          (compileText other mayRedefine).map RuleSet.rules = .ok secondRules ∧
          rules = firstRules ++ secondRules.map (Rule.moved first.length) := by
  have hleft := h.of_sublist (List.sublist_append_left first second) hone
  have hright := h.of_sublist (List.sublist_append_right first second) hother
  rw [h.rules_compileText_eq_ok_iff]
  simp only [hleft.rules_compileText_eq_ok_iff, hright.rules_compileText_eq_ok_iff,
    mapM_expand_append_eq_ok_iff, List.forall_mem_append]
  constructor
  · rintro ⟨⟨hdefs, hfirst, hsecond⟩, resolved, hresolved, -,
      ⟨firstGroups, secondGroups, hfirstGroups, hsecondGroups, rfl⟩, rfl⟩
    refine ⟨firstGroups.flatten, secondGroups.flatten,
      ⟨⟨hdefs, hfirst⟩, resolved, hresolved, firstGroups, hfirstGroups, rfl⟩,
      ⟨⟨hdefs, hsecond⟩, resolved, hresolved, secondGroups, hsecondGroups, rfl⟩, ?_⟩
    rw [List.flatten_append, List.map_flatten]
  · rintro ⟨-, -, ⟨⟨hdefs, hfirst⟩, resolved, hresolved, firstGroups, hfirstGroups, rfl⟩,
      ⟨⟨-, hsecond⟩, otherResolved, hother, secondGroups, hsecondGroups, rfl⟩, rfl⟩
    rw [hresolved] at hother
    cases hother
    refine ⟨⟨hdefs, hfirst, hsecond⟩, resolved, hresolved, _,
      ⟨firstGroups, secondGroups, hfirstGroups, hsecondGroups, rfl⟩, ?_⟩
    rw [List.flatten_append, List.map_flatten]

end Independence

/-- Two rules that share a class: the second is found a line earlier where it stands alone. -/
theorem rules_compileText_append_vowel :
    HasBlocks "V = a\n[V e] > i\nb > c / _ V".toList ["V = a".toList]
        (["[V e] > i".toList] ++ ["b > c / _ V".toList]) ∧
      (compileText "V = a\nb > c / _ V".toList false).map RuleSet.rules =
        .ok [⟨["b"], ["c"], none, some ["a"], 2⟩] ∧
      (compileText "V = a\n[V e] > i\nb > c / _ V".toList false).map RuleSet.rules =
        .ok [⟨["a"], ["i"], none, none, 2⟩, ⟨["e"], ["i"], none, none, 2⟩,
          ⟨["b"], ["c"], none, some ["a"], 3⟩] := by
  have hblocks : HasBlocks "V = a\n[V e] > i\nb > c / _ V".toList ["V = a".toList]
      (["[V e] > i".toList] ++ ["b > c / _ V".toList]) :=
    { lines := by decide
      defines := by decide
      states := by decide
      plain := by decide
      count := by decide }
  have hone : (compileText "V = a\n[V e] > i".toList false).map RuleSet.rules =
      .ok [⟨["a"], ["i"], none, none, 2⟩, ⟨["e"], ["i"], none, none, 2⟩] := by cbv
  have hother : (compileText "V = a\nb > c / _ V".toList false).map RuleSet.rules =
      .ok [⟨["b"], ["c"], none, some ["a"], 2⟩] := by cbv
  have hlines : Text.lines "V = a\n[V e] > i".toList = ["V = a".toList] ++ ["[V e] > i".toList] ∧
      Text.lines "V = a\nb > c / _ V".toList = ["V = a".toList] ++ ["b > c / _ V".toList] := by
    decide
  exact ⟨hblocks, hother,
    (rules_compileText_append hblocks hlines.1 hlines.2 false _).2 ⟨_, _, hone, hother, rfl⟩⟩

end RuleText

end Diachrony
