import Mathlib
import Diachrony.Proofs.Resolution
import Diachrony.Proofs.Stages

/-!
# Where errors and rules point to

Statements and definitions take the number and the wording of their line along through all stages
of compiling.  An error is found on a line that is read, on a definition that the table has or on
a statement, and so it quotes a line of the text; a rule has the number of the line its statement
stands on.
-/

namespace Diachrony.RuleText

/-! ## Lines as they are quoted -/

def quotedLines (text : Text) : List (Nat × String) :=
  (Text.numberedLines text).map fun (number, line) => (number, String.ofList line)

theorem mem_numberedLines_iff {text line : Text} {number : Nat} :
    (number, line) ∈ Text.numberedLines text ↔
      1 ≤ number ∧ (Text.lines text)[number - 1]? = some line := by
  simp only [Text.numberedLines, List.mem_map, Prod.mk.injEq, Prod.exists]
  constructor
  · rintro ⟨line, number, hmem, rfl, rfl⟩
    exact List.mem_zipIdx_iff_le_and_getElem?_sub.1 hmem
  · intro h
    exact ⟨line, number, List.mem_zipIdx_iff_le_and_getElem?_sub.2 h, rfl, rfl⟩

def Clause.quote (clause : Clause) : Nat × String :=
  (clause.line, String.ofList clause.source)

def Error.quote (failure : Error) : Nat × String :=
  (failure.line, failure.text)

def Statement.quote (statement : Statement) : Nat × String :=
  (statement.line, statement.source)

def RuleStatement.quote (statement : RuleStatement) : Nat × String :=
  (statement.line, statement.source)

def Definition.quote (definition : Definition) : Nat × String :=
  (definition.line, definition.source)

/-! ## Reading lines -/

theorem quote_of_addPiece_eq_error [Limits] {number : Nat} {source : String}
    {classified : Classified} {piece : Text} {failure : Error}
    (h : classified.addPiece number source piece = .error failure) :
    failure.quote = (number, source) := by
  unfold Classified.addPiece at h
  split at h
  · cases h
    rfl
  · dsimp only at h
    split at h
    · cases h
      rfl
    · cases h

theorem quote_of_addLine_eq_error [Limits] {classified : Classified} {number : Nat} {line : Text}
    {failure : Error} (h : classified.addLine (number, line) = .error failure) :
    failure.quote = (number, String.ofList line) := by
  rw [addLine_eq] at h
  split at h
  · cases h
    rfl
  · obtain ⟨clause, hclause, state, hstep⟩ := exists_of_foldlM_eq_error h
    obtain ⟨piece, -, rfl⟩ := List.mem_map.1 hclause
    exact quote_of_addPiece_eq_error hstep

theorem quote_of_classify_eq_error [Limits] {text : Text} {failure : Error}
    (h : classify text = .error failure) : failure.quote ∈ quotedLines text := by
  rcases hfold : (Text.numberedLines text).foldlM Classified.addLine .empty with other | classified
  · rw [classify, hfold] at h
    cases h
    obtain ⟨⟨number, line⟩, hline, state, hstep⟩ := exists_of_foldlM_eq_error hfold
    rw [quote_of_addLine_eq_error hstep]
    exact List.mem_map.2 ⟨(number, line), hline, rfl⟩
  · rw [classify, hfold] at h
    cases h

theorem quote_mem_of_mem_clauses {text : Text} {clause : Clause} (h : clause ∈ clauses text) :
    clause.quote ∈ quotedLines text :=
  List.mem_map.2 ⟨(clause.line, clause.source), (mem_clauses_iff.1 h).1, rfl⟩

theorem map_quote_of_classify [Limits] {text : Text} {statements : List Statement}
    (h : classify text = .ok statements) :
    (clauses text).map Clause.quote = statements.map Statement.quote := by
  refine map_eq_map_of_mapM (classify_eq_ok_iff.1 h).2.1 fun clause statement hread => ?_
  obtain ⟨body, -, rfl⟩ := read_eq_ok_iff.1 hread
  rfl

theorem sublist_map_quote_definitions (statements : List Statement) :
    ((definitions statements).map Definition.quote).Sublist
      (statements.map Statement.quote) := by
  induction statements with
  | nil => exact .slnil
  | cons statement statements ih =>
      obtain ⟨line, source, body⟩ := statement
      cases body with
      | definition name value => exact ih.cons_cons (line, source)
      | rule text => exact ih.cons (line, source)

theorem sublist_map_quote_ruleStatements (statements : List Statement) :
    ((ruleStatements statements).map RuleStatement.quote).Sublist
      (statements.map Statement.quote) := by
  induction statements with
  | nil => exact .slnil
  | cons statement statements ih =>
      obtain ⟨line, source, body⟩ := statement
      cases body with
      | definition name value => exact ih.cons (line, source)
      | rule text => exact ih.cons_cons (line, source)

/-! ## Variables -/

theorem quote_of_define_eq_error [Limits] {table : VariableTable} {definition : Definition}
    {mayReplace : Bool} {failure : Error}
    (h : table.define definition mayReplace = .error failure) :
    failure.quote = definition.quote := by
  unfold VariableTable.define at h
  rcases table.enter_cases definition mayReplace with
    ⟨_, _, -, henter⟩ | ⟨_, -, henter⟩ | ⟨_, -, -, henter⟩ | ⟨-, -, henter⟩ <;>
      rw [henter] at h <;> cases h <;> rfl

theorem quote_of_tableOf_eq_error [Limits] {entered : List Definition} {mayRedefine : Bool}
    {failure : Error} (h : tableOf entered mayRedefine = .error failure) :
    ∃ definition ∈ entered, failure.quote = definition.quote := by
  obtain ⟨definition, hmem, table, hstep⟩ := exists_of_foldlM_eq_error h
  exact ⟨definition, hmem, quote_of_define_eq_error hstep⟩

/-- A cycle or a chain that is too deep is reported on a definition of the table, however deep
below a name it is met. -/
theorem quote_of_resolve_eq_error [Limits] {table : VariableTable} {names : List Text} {depth : Nat}
    {visiting : List Text} {known : Resolution} {name : Text} {failure : Error}
    (h : resolve table names depth visiting known name = .error failure) :
    ∃ definition ∈ table.definitions, failure.quote = definition.quote := by
  induction depth generalizing visiting known name with
  | zero =>
      obtain ⟨definition, hfind, ⟨-, rfl⟩ | ⟨-, ⟨-, rfl⟩ | ⟨_, _, _, hdepth, -⟩⟩⟩ :=
        resolve_eq_error h
      · exact ⟨definition, (VariableTable.find?_eq_some hfind).1, rfl⟩
      · exact ⟨definition, (VariableTable.find?_eq_some hfind).1, rfl⟩
      · cases hdepth
  | succ below ih =>
      obtain ⟨definition, hfind,
        ⟨-, rfl⟩ | ⟨-, ⟨hdepth, -⟩ | ⟨_, _, _, hdepth, -, hbelow⟩⟩⟩ := resolve_eq_error h
      · exact ⟨definition, (VariableTable.find?_eq_some hfind).1, rfl⟩
      · cases hdepth
      · cases hdepth
        exact ih hbelow

theorem quote_of_resolveAll_eq_error [Limits] {table : VariableTable} {failure : Error}
    (h : table.resolveAll = .error failure) :
    ∃ definition ∈ table.definitions, failure.quote = definition.quote := by
  rcases bind_eq_error.1 h with h | ⟨values, -, h⟩
  · obtain ⟨definition, -, known, hstep⟩ := exists_of_foldlM_eq_error h
    rcases bind_eq_error.1 hstep with hstep | ⟨result, -, hstep⟩
    · exact quote_of_resolve_eq_error hstep
    · cases hstep
  · cases h

/-! ## Statements -/

theorem locate_eq_error_iff {α : Type} {statement : RuleStatement} {x : Except Cause α}
    {failure : Error} :
    statement.locate x = .error failure ↔
      ∃ cause, x = .error cause ∧ failure = ⟨statement.line, statement.source, cause⟩ := by
  cases x with
  | error cause => simp [RuleStatement.locate, Except.mapError, eq_comm]
  | ok a => simp [RuleStatement.locate, Except.mapError]

theorem quote_of_locate_eq_error {α : Type} {statement : RuleStatement} {x : Except Cause α}
    {failure : Error} (h : statement.locate x = .error failure) :
    failure.quote = statement.quote := by
  obtain ⟨cause, -, rfl⟩ := locate_eq_error_iff.1 h
  rfl

theorem quote_of_prepare_eq_error {resolved : ResolvedVariables} {statements : List RuleStatement}
    {failure : Error} (h : prepare resolved statements = .error failure) :
    ∃ statement ∈ statements, failure.quote = statement.quote := by
  rw [prepare_eq] at h
  rcases bind_eq_error.1 h with h | ⟨expanded, -, h⟩
  · obtain ⟨substituted, hsubstituted, hstep⟩ := exists_of_mapM_eq_error h
    obtain ⟨statement, hstatement, rfl⟩ := List.mem_map.1 hsubstituted
    rcases bind_eq_error.1 hstep with hstep | ⟨text, -, hstep⟩
    · exact ⟨statement, hstatement, quote_of_locate_eq_error hstep⟩
    · cases hstep
  · cases h

theorem map_quote_of_prepare {resolved : ResolvedVariables} {statements : List RuleStatement}
    {prepared : Prepared} (h : prepare resolved statements = .ok prepared) :
    prepared.statements.map RuleStatement.quote = statements.map RuleStatement.quote := by
  rw [prepare_eq] at h
  obtain ⟨expanded, hexpanded, h⟩ := bind_eq_ok.1 h
  cases h
  have hsame : (statements.map (RuleStatement.substituted resolved)).map RuleStatement.quote =
      expanded.map RuleStatement.quote := by
    refine map_eq_map_of_mapM hexpanded fun statement complemented hcomplement => ?_
    obtain ⟨text, -, hcomplement⟩ := bind_eq_ok.1 hcomplement
    cases hcomplement
    rfl
  rw [← hsame, List.map_map]
  rfl

theorem line_of_mem_expand [Limits] {statement : RuleStatement} {rules : List Rule}
    (h : statement.expand = .ok rules) {rule : Rule} (hmem : rule ∈ rules) :
    rule.line = statement.line := by
  obtain ⟨-, -, -, -, -, -, -, -, -, -, -, -, -, -, -, -, -, -, rfl⟩ := exists_of_mem_expand h hmem
  rfl

/-- If every group holds elements of its owner's key only, the elements of all groups stand in
the order of their owners. -/
theorem pairwise_flatten_of_forall₂ {α β : Type} {key : α → Nat} {keyOf : β → Nat}
    {owners : List α} {groups : List (List β)}
    (h : List.Forall₂ (fun owner group => ∀ b ∈ group, keyOf b = key owner) owners groups)
    (hsorted : owners.Pairwise fun owner other => key owner ≤ key other) :
    groups.flatten.Pairwise fun b other => keyOf b ≤ keyOf other := by
  have howned : ∀ {owners : List α} {groups : List (List β)},
      List.Forall₂ (fun owner group => ∀ b ∈ group, keyOf b = key owner) owners groups →
        ∀ b ∈ groups.flatten, ∃ owner ∈ owners, keyOf b = key owner := by
    intro owners groups h b hmem
    induction h with
    | nil => simp at hmem
    | cons hfirst hrest ih =>
        rcases List.mem_append.1 hmem with hmem | hmem
        · exact ⟨_, List.mem_cons_self, hfirst b hmem⟩
        · obtain ⟨owner, howner, hkey⟩ := ih hmem
          exact ⟨owner, List.mem_cons_of_mem _ howner, hkey⟩
  induction h with
  | nil => exact .nil
  | cons hfirst hrest ih =>
      obtain ⟨hleast, hsorted⟩ := List.pairwise_cons.1 hsorted
      rw [List.flatten_cons, List.pairwise_append]
      refine ⟨List.pairwise_of_forall_mem_list fun b hb other hother => ?_, ih hsorted,
        fun b hb other hother => ?_⟩
      · rw [hfirst b hb, hfirst other hother]
      · obtain ⟨owner, howner, hkey⟩ := howned hrest other hother
        rw [hfirst b hb, hkey]
        exact hleast owner howner

/-! ## Compiling -/

/-- Whatever goes wrong quotes a line of the text. -/
theorem quote_of_compileText_eq_error [Limits] {text : Text} {mayRedefine : Bool} {failure : Error}
    (h : compileText text mayRedefine = .error failure) : failure.quote ∈ quotedLines text := by
  rcases bind_eq_error.1 h with h | ⟨statements, hstatements, h⟩
  · exact quote_of_classify_eq_error h
  have hstated : ∀ {quote : Nat × String}, quote ∈ statements.map Statement.quote →
      quote ∈ quotedLines text := by
    intro quote hmem
    rw [← map_quote_of_classify hstatements] at hmem
    obtain ⟨clause, hclause, rfl⟩ := List.mem_map.1 hmem
    exact quote_mem_of_mem_clauses hclause
  have hdefinition : ∀ {definition : Definition}, definition ∈ definitions statements →
      definition.quote ∈ quotedLines text :=
    fun hmem => hstated
      ((sublist_map_quote_definitions statements).subset (List.mem_map_of_mem hmem))
  have hrule : ∀ {statement : RuleStatement}, statement ∈ ruleStatements statements →
      statement.quote ∈ quotedLines text :=
    fun hmem => hstated
      ((sublist_map_quote_ruleStatements statements).subset (List.mem_map_of_mem hmem))
  rcases bind_eq_error.1 h with h | ⟨table, htable, h⟩
  · obtain ⟨definition, hmem, hquote⟩ := quote_of_tableOf_eq_error h
    exact hquote ▸ hdefinition hmem
  rcases bind_eq_error.1 h with h | ⟨resolved, -, h⟩
  · obtain ⟨definition, hmem, hquote⟩ := quote_of_resolveAll_eq_error h
    exact hquote ▸ hdefinition ((of_tableOf htable).1 definition hmem)
  rcases bind_eq_error.1 h with h | ⟨prepared, hprepared, h⟩
  · obtain ⟨statement, hmem, hquote⟩ := quote_of_prepare_eq_error h
    exact hquote ▸ hrule hmem
  rcases bind_eq_error.1 h with h | ⟨expanded, -, h⟩
  · obtain ⟨statement, hmem, hstep⟩ := exists_of_mapM_eq_error h
    have hquote : statement.quote ∈ (ruleStatements statements).map RuleStatement.quote :=
      map_quote_of_prepare hprepared ▸ List.mem_map_of_mem hmem
    rw [quote_of_locate_eq_error hstep]
    exact hstated ((sublist_map_quote_ruleStatements statements).subset hquote)
  · cases h

theorem line_of_rules_compileText [Limits] {text : Text} {mayRedefine : Bool} {rules : List Rule}
    (h : (compileText text mayRedefine).map RuleSet.rules = .ok rules) :
    rules.Pairwise (fun rule other => rule.line ≤ other.line) ∧
      ∀ rule ∈ rules, ∃ clause ∈ clauses text, rule.line = clause.line := by
  obtain ⟨statements, table, resolved, prepared, expanded, hstaged, rfl⟩ :=
    rules_compileText_eq_ok_iff.1 h
  have hsublist : (prepared.statements.map RuleStatement.quote).Sublist
      ((clauses text).map Clause.quote) := by
    rw [map_quote_of_prepare hstaged.prepare, map_quote_of_classify hstaged.classify]
    exact sublist_map_quote_ruleStatements statements
  constructor
  · have hquotes : ((clauses text).map Clause.quote).Pairwise
        fun quote other => quote.1 ≤ other.1 :=
      List.pairwise_map.2 (pairwise_line_clausesFrom 1 (Text.lines text))
    have hsorted : (prepared.statements.map RuleStatement.quote).Pairwise
        fun quote other => quote.1 ≤ other.1 := hquotes.sublist hsublist
    rw [List.pairwise_map] at hsorted
    exact pairwise_flatten_of_forall₂
      (hstaged.expand.imp fun statement rules hexpand rule => line_of_mem_expand hexpand) hsorted
  · intro rule hmem
    obtain ⟨rules, hrules, hrule⟩ := List.mem_flatten.1 hmem
    obtain ⟨statement, hstatement, hexpand⟩ :=
      exists_of_mem_mapM (mapM_eq_ok_iff.2 hstaged.expand) hrules
    obtain ⟨clause, hclause, hquote⟩ :=
      List.mem_map.1 (hsublist.subset (List.mem_map_of_mem hstatement))
    refine ⟨clause, hclause, ?_⟩
    rw [line_of_mem_expand hexpand hrule]
    exact (congrArg Prod.fst hquote).symm

/-- An error quotes a line of the text, and the rules of a text stand in the order of their
lines, none of which is blank or a comment. -/
theorem compileText_quotes_lines [Limits] (text : Text) (mayRedefine : Bool) :
    (∀ failure, compileText text mayRedefine = .error failure →
        1 ≤ failure.line ∧ failure.line ≤ (Text.lines text).length ∧
          (Text.lines text)[failure.line - 1]?.map String.ofList = some failure.text) ∧
      ∀ compiled, compileText text mayRedefine = .ok compiled →
        compiled.rules.Pairwise (fun rule other => rule.line ≤ other.line) ∧
          ∀ rule ∈ compiled.rules, 1 ≤ rule.line ∧ ∃ line,
            (Text.lines text)[rule.line - 1]? = some line ∧
              Text.isAllBlank line = false ∧ isComment line = false := by
  constructor
  · intro failure h
    obtain ⟨⟨number, line⟩, hmem, hquote⟩ := List.mem_map.1 (quote_of_compileText_eq_error h)
    obtain ⟨hfirst, hline⟩ := mem_numberedLines_iff.1 hmem
    have hnumber : number = failure.line := congrArg Prod.fst hquote
    have hwording : String.ofList line = failure.text := congrArg Prod.snd hquote
    have hlast := (List.getElem?_eq_some_iff.1 hline).1
    rw [← hnumber, ← hwording, hline]
    exact ⟨hfirst, by omega, rfl⟩
  · intro compiled h
    obtain ⟨hsorted, hlines⟩ := line_of_rules_compileText (map_eq_ok.2 ⟨compiled, h, rfl⟩)
    refine ⟨hsorted, fun rule hmem => ?_⟩
    obtain ⟨clause, hclause, hline⟩ := hlines rule hmem
    obtain ⟨hnumbered, hpiece⟩ := mem_clauses_iff.1 hclause
    obtain ⟨hfirst, hwritten⟩ := mem_numberedLines_iff.1 hnumbered
    have hread : (Text.isAllBlank clause.source || isComment clause.source) = false := by
      cases hskipped : Text.isAllBlank clause.source || isComment clause.source with
      | false => rfl
      | true => simp [statedPieces, hskipped] at hpiece
    rw [hline]
    exact ⟨hfirst, clause.source, hwritten, Bool.or_eq_false_iff.1 hread⟩

/-- A cycle is reported on a definition, and a rule behind a comment has the number of its own
line. -/
theorem compileText_quotes_lines_cycle :
    (∃ failure, compileText "# cycle
V = W
W = V; V > a".toList false = .error failure ∧
      failure.line = 2 ∧ failure.text = "V = W" ∧
      1 ≤ failure.line ∧ failure.line ≤ 3) ∧
    ∃ compiled, compileText "# shift

a > b; b > c".toList false = .ok compiled ∧
      compiled.rules.map Rule.line = [3, 3] ∧
      compiled.rules.Pairwise (fun rule other => rule.line ≤ other.line) := by
  have hfailure : compileText "# cycle
V = W
W = V; V > a".toList false =
      .error ⟨2, "V = W", .circularReference ["V", "W", "V"]⟩ := by cbv
  have hcompiled : compileText "# shift

a > b; b > c".toList false =
      .ok ⟨[⟨["a"], ["b"], none, none, 3⟩, ⟨["b"], ["c"], none, none, 3⟩],
        ⟨2, 0, 2, 2, 3⟩⟩ := by cbv
  obtain ⟨hfirst, hlast, -⟩ := (compileText_quotes_lines _ false).1 _ hfailure
  obtain ⟨hsorted, -⟩ := (compileText_quotes_lines _ false).2 _ hcompiled
  exact ⟨⟨_, hfailure, rfl, rfl, hfirst, hlast⟩, _, hcompiled, rfl, hsorted⟩

end Diachrony.RuleText
