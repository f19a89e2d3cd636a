import Diachrony.Proofs.Computation
import Diachrony.Proofs.CompiledRules

/-!
# The stages of compiling

Reading a text line by line comes to reading its clauses, the pieces of its lines, each with the
line it stands on.  A text is read if no line is too long, every clause can be read and there are
not too many of them.  Its rules are what every single statement expands to once the variables
are put in and the negative sets replaced.
-/

namespace Diachrony.RuleText

/-! ## Clauses -/

/-- The pieces of a line that are read: there are none on a blank line and in a comment. -/
def statedPieces (line : Text) : List Text :=
  if Text.isAllBlank line || isComment line then [] else Text.statements line

/-- A piece of a line, with the line and its number. -/
structure Clause where
  line : Nat
  source : Text
  text : Text
  deriving DecidableEq, Repr

def lineClauses (number : Nat) (line : Text) : List Clause :=
  (statedPieces line).map (⟨number, line, ·⟩)

/-- The clauses of some lines, of which the first has the number given. -/
def clausesFrom (number : Nat) (lines : List Text) : List Clause :=
  (lines.zipIdx number).flatMap fun (line, number) => lineClauses number line

def clauses (text : Text) : List Clause :=
  clausesFrom 1 (Text.lines text)

def Clause.read (clause : Clause) : Except Error Statement :=
  match parseStatement clause.text with
  | .error cause => .error ⟨clause.line, String.ofList clause.source, cause⟩
  | .ok body => .ok ⟨clause.line, String.ofList clause.source, body⟩

theorem clausesFrom_cons (number : Nat) (line : Text) (lines : List Text) :
    clausesFrom number (line :: lines) =
      lineClauses number line ++ clausesFrom (number + 1) lines := by
  simp [clausesFrom, List.zipIdx_cons]

theorem clausesFrom_append (number : Nat) (lines others : List Text) :
    clausesFrom number (lines ++ others) =
      clausesFrom number lines ++ clausesFrom (number + lines.length) others := by
  simp [clausesFrom, List.zipIdx_append]

theorem map_text_clausesFrom (number : Nat) (lines : List Text) :
    (clausesFrom number lines).map Clause.text = lines.flatMap statedPieces := by
  induction lines generalizing number with
  | nil => rfl
  | cons line lines ih =>
      rw [clausesFrom_cons, List.map_append, ih, List.flatMap_cons, lineClauses, List.map_map,
        show Clause.text ∘ (⟨number, line, ·⟩) = id from rfl, List.map_id]

theorem mem_clauses_iff {text : Text} {clause : Clause} :
    clause ∈ clauses text ↔
      (clause.line, clause.source) ∈ Text.numberedLines text ∧
        clause.text ∈ statedPieces clause.source := by
  simp only [clauses, clausesFrom, lineClauses, Text.numberedLines, List.mem_flatMap, List.mem_map,
    Prod.exists]
  constructor
  · rintro ⟨line, number, hline, piece, hpiece, rfl⟩
    exact ⟨⟨line, number, hline, rfl⟩, hpiece⟩
  · rintro ⟨⟨line, number, hline, hsame⟩, hpiece⟩
    cases hsame
    exact ⟨clause.source, clause.line, hline, clause.text, hpiece, rfl⟩

theorem pairwise_line_clausesFrom (number : Nat) (lines : List Text) :
    (clausesFrom number lines).Pairwise fun clause other => clause.line ≤ other.line := by
  have hfirst : ∀ {number : Nat} {line : Text} {clause : Clause},
      clause ∈ lineClauses number line → clause.line = number := by
    intro number line clause hmem
    obtain ⟨piece, -, rfl⟩ := List.mem_map.1 hmem
    rfl
  have hlater : ∀ {number : Nat} {lines : List Text} {clause : Clause},
      clause ∈ clausesFrom number lines → number ≤ clause.line := by
    intro number lines clause hmem
    obtain ⟨⟨line, position⟩, hline, hclause⟩ := List.mem_flatMap.1 hmem
    rw [hfirst hclause]
    exact (List.mem_zipIdx_iff_le_and_getElem?_sub.1 hline).1
  induction lines generalizing number with
  | nil => exact .nil
  | cons line lines ih =>
      rw [clausesFrom_cons, List.pairwise_append]
      refine ⟨List.pairwise_of_forall_mem_list fun clause hclause other hother => ?_,
        ih (number + 1), fun clause hclause other hother => ?_⟩
      · rw [hfirst hclause, hfirst hother]
      · rw [hfirst hclause]
        exact Nat.le_of_succ_le (hlater hother)

/-! ## Reading clauses -/

theorem read_eq_ok_iff {clause : Clause} {statement : Statement} :
    clause.read = .ok statement ↔
      ∃ body, parseStatement clause.text = .ok body ∧
        statement = ⟨clause.line, String.ofList clause.source, body⟩ := by
  unfold Clause.read
  cases parseStatement clause.text with
  | error cause => simp
  | ok body => simp [eq_comm]

def Classified.addClause [Limits] (classified : Classified) (clause : Clause) :
    Except Error Classified :=
  classified.addPiece clause.line (String.ofList clause.source) clause.text

def Classified.extend (classified : Classified) (statements : List Statement) : Classified :=
  ⟨classified.count + statements.length, statements.reverse ++ classified.latestFirst⟩

theorem Classified.extend_extend (classified : Classified) (statements others : List Statement) :
    (classified.extend statements).extend others = classified.extend (statements ++ others) := by
  simp [extend, Nat.add_assoc]

theorem addClause_eq_ok_iff [Limits] {classified next : Classified} {clause : Clause} :
    classified.addClause clause = .ok next ↔
      ∃ statement, clause.read = .ok statement ∧
        classified.count + 1 ≤ Limits.statements ∧ next = classified.extend [statement] := by
  unfold Classified.addClause Classified.addPiece Clause.read
  cases parseStatement clause.text with
  | error cause => simp
  | ok body =>
      dsimp only
      split
      · rename_i hcount
        simp only [reduceCtorEq, Except.ok.injEq, false_iff, not_exists]
        omega
      · rename_i hcount
        simp only [Except.ok.injEq, exists_eq_left', Classified.extend, List.length_singleton,
          List.reverse_singleton, List.singleton_append]
        exact ⟨fun h => ⟨by omega, h.symm⟩, fun h => h.2.symm⟩

/-- A count within the limit stays within it exactly if everything read fits in. -/
theorem foldlM_addClause_eq_ok_iff [Limits] {clauses : List Clause} {classified final : Classified}
    (hcount : classified.count ≤ Limits.statements) :
    clauses.foldlM Classified.addClause classified = .ok final ↔
      ∃ statements, clauses.mapM Clause.read = .ok statements ∧
        classified.count + statements.length ≤ Limits.statements ∧
        final = classified.extend statements := by
  simp only [mapM_eq_ok_iff]
  induction clauses generalizing classified with
  | nil =>
      simp only [List.foldlM_nil, List.forall₂_nil_left_iff, exists_eq_left, Classified.extend]
      exact ⟨fun h => ⟨hcount, (Except.ok.inj h).symm⟩, fun h => congrArg Except.ok h.2.symm⟩
  | cons clause clauses ih =>
      rw [List.foldlM_cons]
      constructor
      · intro h
        obtain ⟨next, hnext, h⟩ := bind_eq_ok.1 h
        obtain ⟨statement, hread, hroom, rfl⟩ := addClause_eq_ok_iff.1 hnext
        obtain ⟨statements, hstatements, hfits, rfl⟩ := (ih hroom).1 h
        refine ⟨statement :: statements, .cons hread hstatements, ?_,
          classified.extend_extend [statement] statements⟩
        simp only [Classified.extend, List.length_cons, List.length_nil] at hfits ⊢
        omega
      · rintro ⟨_, hall, hfits, rfl⟩
        obtain ⟨statement, statements, hread, hstatements, rfl⟩ := List.forall₂_cons_left_iff.1 hall
        rw [List.length_cons] at hfits
        have hroom : classified.count + 1 ≤ Limits.statements := by omega
        rw [addClause_eq_ok_iff.2 ⟨statement, hread, hroom, rfl⟩, ok_bind]
        refine (ih hroom).2 ⟨statements, hstatements, ?_,
          (classified.extend_extend [statement] statements).symm⟩
        simp only [Classified.extend, List.length_cons, List.length_nil]
        omega

theorem addLine_eq [Limits] (classified : Classified) (number : Nat) (line : Text) :
    classified.addLine (number, line) =
      if line.length > Limits.lineLength then
        .error ⟨number, String.ofList line, .lineTooLong line.length Limits.lineLength⟩
      else (lineClauses number line).foldlM Classified.addClause classified := by
  unfold Classified.addLine lineClauses statedPieces
  dsimp only
  split
  · rfl
  · split
    · rfl
    · rw [List.foldlM_map]
      rfl

theorem foldlM_addLine_eq_ok_iff [Limits] {number : Nat} {lines : List Text}
    {classified final : Classified} :
    ((lines.zipIdx number).map fun (line, number) => (number, line)).foldlM
        Classified.addLine classified = .ok final ↔
      (∀ line ∈ lines, line.length ≤ Limits.lineLength) ∧
        (clausesFrom number lines).foldlM Classified.addClause classified = .ok final := by
  induction lines generalizing number classified with
  | nil => simp [clausesFrom]
  | cons line lines ih =>
      rw [List.zipIdx_cons, List.map_cons, List.foldlM_cons, clausesFrom_cons, List.foldlM_append,
        addLine_eq, List.forall_mem_cons]
      split
      · rename_i hlong
        constructor
        · intro h
          cases h
        · intro h
          have hshort := h.1.1
          omega
      · rename_i hshort
        simp only [bind_eq_ok, ih]
        constructor
        · rintro ⟨next, hnext, hlines, h⟩
          exact ⟨⟨by omega, hlines⟩, next, hnext, h⟩
        · rintro ⟨⟨-, hlines⟩, next, hnext, h⟩
          exact ⟨next, hnext, hlines, h⟩

/-- What a text is read as: its clauses one by one, if no line is too long and there are not too
many clauses. -/
theorem classify_eq_ok_iff [Limits] {text : Text} {statements : List Statement} :
    classify text = .ok statements ↔
      (∀ line ∈ Text.lines text, line.length ≤ Limits.lineLength) ∧
        (clauses text).mapM Clause.read = .ok statements ∧
        statements.length ≤ Limits.statements := by
  have hempty : Classified.empty.count ≤ Limits.statements := Nat.zero_le _
  have hlist : ∀ statements, (Classified.empty.extend statements).toList = statements := by
    intro statements
    simp [Classified.extend, Classified.toList, Classified.empty]
  rw [classify, map_eq_ok, Text.numberedLines]
  simp only [foldlM_addLine_eq_ok_iff, foldlM_addClause_eq_ok_iff hempty]
  constructor
  · rintro ⟨classified, ⟨hshort, statements, hread, hfits, rfl⟩, rfl⟩
    rw [hlist]
    exact ⟨hshort, hread, by simpa [Classified.empty] using hfits⟩
  · rintro ⟨hshort, hread, hfits⟩
    exact ⟨_, ⟨hshort, statements, hread, by simpa [Classified.empty] using hfits, rfl⟩,
      hlist statements⟩

/-! ## Prepared statements -/

def RuleStatement.substituted (resolved : ResolvedVariables) (statement : RuleStatement) :
    RuleStatement :=
  { statement with text := resolved.substitute statement.text }

def RuleStatement.complemented (known : TokenSet) (statement : RuleStatement) :
    Except Error RuleStatement := do
  let text ← statement.locate (expandNegativeSets known statement.text)
  pure { statement with text }

/-- The phonemes that the negative sets of some statements are taken from. -/
def knownPhonemes (resolved : ResolvedVariables) (statements : List RuleStatement) : TokenSet :=
  knownTokens (statements.map RuleStatement.text ++ resolved.values.map Prod.snd)

theorem prepare_eq (resolved : ResolvedVariables) (statements : List RuleStatement) :
    prepare resolved statements = (do
      let substituted := statements.map (RuleStatement.substituted resolved)
      let known := knownPhonemes resolved substituted
      let expanded ← substituted.mapM (RuleStatement.complemented known)
      pure ⟨expanded, known.size⟩) :=
  rfl

/-! ## Rules -/

/-- What the stages of compiling a text give one after another, if none of them fails. -/
structure IsStaged [Limits] (text : Text) (mayRedefine : Bool) (statements : List Statement)
    (table : VariableTable) (resolved : ResolvedVariables) (prepared : Prepared)
    (expanded : List (List Rule)) : Prop where
  classify : classify text = .ok statements
  tableOf : tableOf (definitions statements) mayRedefine = .ok table
  resolveAll : table.resolveAll = .ok resolved
  prepare : prepare resolved (ruleStatements statements) = .ok prepared
  expand : List.Forall₂ (fun statement rules => RuleStatement.expand statement = .ok rules)
    prepared.statements expanded

/-- A text has the rules that its statements expand to, in the order of the statements. -/
theorem rules_compileText_eq_ok_iff [Limits] {text : Text} {mayRedefine : Bool}
    {rules : List Rule} :
    (compileText text mayRedefine).map RuleSet.rules = .ok rules ↔
      ∃ statements table resolved prepared expanded,
        IsStaged text mayRedefine statements table resolved prepared expanded ∧
          rules = expanded.flatten := by
  have hexpanded : ∀ {statements : List RuleStatement} {expanded : List (List Rule)},
      statements.mapM (fun statement => statement.locate statement.expand) = .ok expanded ↔
        List.Forall₂ (fun statement rules => RuleStatement.expand statement = .ok rules)
          statements expanded := by
    intro statements expanded
    simp only [mapM_eq_ok_iff, RuleStatement.locate, mapError_eq_ok]
  constructor
  · intro h
    obtain ⟨compiled, hcompiled, rfl⟩ := map_eq_ok.1 h
    obtain ⟨statements, hstatements, h⟩ := bind_eq_ok.1 hcompiled
    obtain ⟨table, htable, h⟩ := bind_eq_ok.1 h
    obtain ⟨resolved, hresolved, h⟩ := bind_eq_ok.1 h
    obtain ⟨prepared, hprepared, h⟩ := bind_eq_ok.1 h
    obtain ⟨expanded, hexpand, h⟩ := bind_eq_ok.1 h
    cases h
    exact ⟨statements, table, resolved, prepared, expanded,
      ⟨hstatements, htable, hresolved, hprepared, hexpanded.1 hexpand⟩, rfl⟩
  · rintro ⟨statements, table, resolved, prepared, expanded, h, rfl⟩
    simp only [compileText, h.classify, h.tableOf, h.resolveAll, h.prepare, hexpanded.2 h.expand,
      ok_bind]
    rfl

end Diachrony.RuleText
