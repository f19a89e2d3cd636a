import Mathlib
import Diachrony.Proofs.Preparation
import Diachrony.Proofs.RespacedStatements
import Diachrony.Proofs.RespacedVariables
import Diachrony.Proofs.Stages

/-!
# Layout does not matter

Two texts whose clauses stand on the same lines and are the same up to their blanks go through all
stages of compiling alike.  Normalizing the blanks of every line leaves such clauses, so it changes
neither whether a text compiles nor to what, as long as no line is too long to be read.
-/

namespace Diachrony.RuleText

open Text (Respaced isBlank)

variable {text other : Text}

/-! ## Pieces of a line -/

theorem isComment_eq_of_respaced (h : Respaced text other) : isComment text = isComment other := by
  have htrim := h.trimStart
  unfold isComment
  generalize Text.trimStart text = start at htrim ⊢
  generalize Text.trimStart other = otherStart at htrim ⊢
  cases htrim with
  | nil => rfl
  | char c h => rfl
  | blanks hrun hother h =>
      obtain ⟨c, rest, rfl, hc, -⟩ := hrun.exists_cons
      obtain ⟨d, otherRest, rfl, hd, -⟩ := hother.exists_cons
      have hne : ∀ e, isBlank e = true → e ≠ '#' := fun e he => Text.ne_of_isBlank he (by decide)
      simp [hne c hc, hne d hd]

theorem respaced_statements (h : Respaced text other) :
    List.Forall₂ Respaced (Text.statements text) (Text.statements other) := by
  have hseparates : ∀ c, isBlank c = true → (c == ';') = false :=
    fun c hc => beq_false_of_ne (Text.ne_of_isBlank hc (by decide))
  have hpieces := h.splitWhere hseparates
  unfold Text.statements
  generalize Text.splitWhere (· == ';') text = pieces at hpieces ⊢
  generalize Text.splitWhere (· == ';') other = others at hpieces ⊢
  induction hpieces with
  | nil => exact .nil
  | cons hpiece hpieces ih =>
      rw [List.map_cons, List.map_cons, List.filter_cons, List.filter_cons,
        hpiece.trim.isEmpty_eq]
      split
      · exact .cons hpiece.trim ih
      · exact ih

theorem respaced_statedPieces (h : Respaced text other) :
    List.Forall₂ Respaced (statedPieces text) (statedPieces other) := by
  unfold statedPieces
  rw [h.isAllBlank_eq, isComment_eq_of_respaced h]
  split
  · exact .nil
  · exact respaced_statements h

theorem isComment_trim (line : Text) : isComment (Text.trim line) = isComment line := by
  refine Text.eq_trim_of_ends isComment (fun c line hc => ?_) (fun c line hc => ?_) line
  · rw [isComment, Text.trimStart_cons hc, ← isComment]
  · rw [isComment, Text.trimStart_concat hc, isComment]
    split
    · rename_i hblank
      rw [Text.isAllBlank, List.all_eq_true] at hblank
      rw [Text.trimStart, List.dropWhile_eq_nil_iff.2 hblank]
    · rename_i hblank
      have hstart : Text.trimStart line ≠ [] := by
        intro hnil
        exact hblank (List.all_eq_true.2 (List.dropWhile_eq_nil_iff.1 hnil))
      rw [List.head?_append_of_ne_nil _ hstart]

theorem statedPieces_trim (line : Text) : statedPieces (Text.trim line) = statedPieces line := by
  rw [statedPieces, Text.isAllBlank_trim, isComment_trim, Text.statements_trim, ← statedPieces]

theorem respaced_statedPieces_normalizeBlanks (line : Text) :
    List.Forall₂ Respaced (statedPieces line) (statedPieces (Text.normalizeBlanks line)) := by
  rw [← statedPieces_trim line]
  exact respaced_statedPieces (Text.respaced_normalizeBlanks line)

/-! ## Clauses -/

structure Clause.Respaced (clause other : Clause) : Prop where
  line : clause.line = other.line
  text : Text.Respaced clause.text other.text

structure RuleStatement.Respaced (statement other : RuleStatement) : Prop where
  line : statement.line = other.line
  text : Text.Respaced statement.text other.text

/-- Whether two statements define the same name or state a rule each, with respaced texts. -/
inductive StatementBody.Respaced : StatementBody → StatementBody → Prop
  | rule {text other : Text} (h : Text.Respaced text other) :
      StatementBody.Respaced (.rule text) (.rule other)
  | definition (name : Text) {value otherValue : Text} (h : Text.Respaced value otherValue) :
      StatementBody.Respaced (.definition name value) (.definition name otherValue)

structure Statement.Respaced (statement other : Statement) : Prop where
  line : statement.line = other.line
  body : statement.body.Respaced other.body

theorem isDefinition_eq_of_respaced (h : Respaced text other) :
    isDefinition text = isDefinition other := by
  have hmarks : ∀ c, isBlank c = true → (c == '=' || c == '>') = false := by
    intro c hc
    rw [beq_false_of_ne (Text.ne_of_isBlank hc (by decide)),
      beq_false_of_ne (Text.ne_of_isBlank hc (by decide))]
    rfl
  rw [isDefinition, isDefinition, h.find?_eq hmarks]

/-- A name has no blanks, so respaced definitions have the same name. -/
theorem agree_parseDefinition (h : Respaced text other) :
    Agree (fun read otherRead => read.1 = otherRead.1 ∧ Respaced read.2 otherRead.2)
      (parseDefinition text) (parseDefinition other) := by
  have hneedle : isBlank '=' = false := by decide
  have hcut := h.splitFirst? hneedle
  unfold parseDefinition
  generalize Text.splitFirst? '=' text = cut at hcut ⊢
  generalize Text.splitFirst? '=' other = otherCut at hcut ⊢
  cases hcut with
  | none => exact .error _ _
  | @some cut otherCut hboth =>
      have hname := hboth.1.trim
      have hvalue := hboth.2.trim
      have hvariable : isVariableName (Text.trim cut.1) = isVariableName (Text.trim otherCut.1) := by
        rw [isVariableName, isVariableName, hname.isEmpty_eq,
          hname.all_eq fun c hc => Text.isAlphanumeric_of_isBlank hc]
      have hequals : (Text.trim cut.2).contains '=' = (Text.trim otherCut.2).contains '=' := by
        rw [Bool.eq_iff_iff, List.contains_iff_mem, List.contains_iff_mem]
        exact hvalue.mem_iff hneedle
      dsimp only
      rw [hname.isEmpty_eq, hvariable, hvalue.isEmpty_eq, hequals]
      split
      · exact .error _ _
      · split
        · exact .error _ _
        · rename_i hnamed
          rw [← hvariable, Bool.not_eq_true, Bool.not_eq_false'] at hnamed
          have hletters : ∀ c ∈ Text.trim cut.1, isBlank c = false := by
            intro c hc
            by_contra hblank
            have hno := Text.isAlphanumeric_of_isBlank (eq_true_of_ne_false hblank)
            rw [(isVariableName_iff.1 hnamed).2 c hc] at hno
            cases hno
          split
          · exact .error _ _
          · split
            · exact .error _ _
            · exact .ok ⟨hname.eq_of_not_blank hletters, hvalue⟩

theorem agree_parseStatement (h : Respaced text other) :
    Agree StatementBody.Respaced (parseStatement text) (parseStatement other) := by
  unfold parseStatement
  rw [isDefinition_eq_of_respaced h]
  split
  · refine (agree_parseDefinition h).map fun read otherRead hread => ?_
    obtain ⟨name, value⟩ := read
    obtain ⟨otherName, otherValue⟩ := otherRead
    obtain ⟨rfl, hvalue⟩ := hread
    exact .definition name hvalue
  · exact .ok (.rule h)

theorem agree_read {clause otherClause : Clause} (h : clause.Respaced otherClause) :
    Agree Statement.Respaced clause.read otherClause.read := by
  have hbody := agree_parseStatement h.text
  unfold Clause.read
  generalize parseStatement clause.text = body at hbody ⊢
  generalize parseStatement otherClause.text = otherBody at hbody ⊢
  cases hbody with
  | ok hbody => exact .ok ⟨h.line, hbody⟩
  | error => exact .error _ _

/-! ## Reading -/

theorem agree_classify [Limits] (h : List.Forall₂ Clause.Respaced (clauses text) (clauses other))
    (hshort : ∀ line ∈ Text.lines text, line.length ≤ Limits.lineLength)
    (hotherShort : ∀ line ∈ Text.lines other, line.length ≤ Limits.lineLength) :
    Agree (List.Forall₂ Statement.Respaced) (classify text) (classify other) := by
  have hread : Agree (List.Forall₂ Statement.Respaced) ((clauses text).mapM Clause.read)
      ((clauses other).mapM Clause.read) := .mapM h fun _ _ => agree_read
  refine .of_forall (fun statements hstatements => ?_) (fun statements hstatements => ?_)
  · obtain ⟨-, hstatements, hfits⟩ := classify_eq_ok_iff.1 hstatements
    rw [hstatements] at hread
    obtain ⟨others, hothers, hrespaced⟩ := hread.exists_of_ok_left
    refine ⟨others, classify_eq_ok_iff.2 ⟨hotherShort, hothers, ?_⟩, hrespaced⟩
    exact hrespaced.length_eq ▸ hfits
  · obtain ⟨-, hstatements, hfits⟩ := classify_eq_ok_iff.1 hstatements
    rw [hstatements] at hread
    obtain ⟨others, hothers, hrespaced⟩ := hread.exists_of_ok_right
    refine ⟨others, classify_eq_ok_iff.2 ⟨hshort, hothers, ?_⟩, hrespaced⟩
    exact hrespaced.length_eq.symm ▸ hfits

theorem respaced_ruleStatements {statements others : List Statement}
    (h : List.Forall₂ Statement.Respaced statements others) :
    List.Forall₂ RuleStatement.Respaced (ruleStatements statements) (ruleStatements others) := by
  induction h with
  | nil => exact .nil
  | @cons statement otherStatement statements others hfirst hrest ih =>
      obtain ⟨line, source, body⟩ := statement
      obtain ⟨otherLine, otherSource, otherBody⟩ := otherStatement
      obtain ⟨hline, hbody⟩ := hfirst
      cases hbody with
      | rule htext => exact .cons ⟨hline, htext⟩ ih
      | definition name hvalue => exact ih

theorem respaced_definitions {statements others : List Statement}
    (h : List.Forall₂ Statement.Respaced statements others) :
    List.Forall₂ (fun definition otherDefinition =>
        definition.name = otherDefinition.name ∧
          Respaced definition.value otherDefinition.value)
      (definitions statements) (definitions others) := by
  induction h with
  | nil => exact .nil
  | @cons statement otherStatement statements others hfirst hrest ih =>
      obtain ⟨line, source, body⟩ := statement
      obtain ⟨otherLine, otherSource, otherBody⟩ := otherStatement
      obtain ⟨hline, hbody⟩ := hfirst
      cases hbody with
      | rule htext => exact ih
      | definition name hvalue => exact .cons ⟨rfl, hvalue⟩ ih

theorem agree_tableOf [Limits] {entered others : List Definition}
    (h : List.Forall₂ (fun definition otherDefinition =>
      definition.name = otherDefinition.name ∧
        Respaced definition.value otherDefinition.value) entered others) (mayRedefine : Bool) :
    Agree (VariableTable.Corresponds Respaced) (tableOf entered mayRedefine)
      (tableOf others mayRedefine) :=
  .foldlM h .nil fun _ _ hboth _ _ htable => htable.agree_define hboth.1 hboth.2 mayRedefine

/-! ## Preparing -/

theorem respaced_substituted {resolved otherResolved : ResolvedVariables}
    (h : resolved.Respaced otherResolved)
    (hnames : ∀ name ∈ resolved.names, isVariableName name = true)
    {statements others : List RuleStatement}
    (hstatements : List.Forall₂ RuleStatement.Respaced statements others) :
    List.Forall₂ RuleStatement.Respaced (statements.map (RuleStatement.substituted resolved))
      (others.map (RuleStatement.substituted otherResolved)) := by
  refine List.forall₂_map_left_iff.2 (List.forall₂_map_right_iff.2 (hstatements.imp ?_))
  intro statement otherStatement hboth
  exact ⟨hboth.line, h.substitute (respacedPieces_scan hnames hboth.text)⟩

theorem knownPhonemes_eq_of_respaced {resolved otherResolved : ResolvedVariables}
    (h : resolved.Respaced otherResolved) {statements others : List RuleStatement}
    (hstatements : List.Forall₂ RuleStatement.Respaced statements others) :
    knownPhonemes resolved statements = knownPhonemes otherResolved others := by
  have hliterals : ∀ {texts otherTexts : List Text}, List.Forall₂ Respaced texts otherTexts →
      texts.flatMap literalTokens = otherTexts.flatMap literalTokens := by
    intro texts otherTexts htexts
    induction htexts with
    | nil => rfl
    | cons hfirst hrest ih =>
        rw [List.flatMap_cons, List.flatMap_cons, literalTokens_eq_of_respaced hfirst, ih]
  have htexts : List.Forall₂ Respaced (statements.map RuleStatement.text)
      (others.map RuleStatement.text) :=
    List.forall₂_map_left_iff.2 (List.forall₂_map_right_iff.2
      (hstatements.imp fun _ _ hboth => hboth.text))
  have hvalues : List.Forall₂ Respaced (resolved.values.map Prod.snd)
      (otherResolved.values.map Prod.snd) :=
    List.forall₂_map_left_iff.2 (List.forall₂_map_right_iff.2
      (List.Forall₂.imp (fun _ _ hboth => hboth.2) h.values))
  rw [knownPhonemes, knownPhonemes, knownTokens, knownTokens,
    hliterals (List.rel_append htexts hvalues)]

theorem agree_complemented {statement otherStatement : RuleStatement}
    (h : statement.Respaced otherStatement) (known : TokenSet) :
    Agree RuleStatement.Respaced (statement.complemented known)
      (otherStatement.complemented known) := by
  refine Agree.bind ((agree_expandNegativeSets h.text known).mapError _ _) fun text other htext => ?_
  exact .ok ⟨h.line, htext⟩

theorem agree_prepare {resolved otherResolved : ResolvedVariables}
    (h : resolved.Respaced otherResolved)
    (hnames : ∀ name ∈ resolved.names, isVariableName name = true)
    {statements others : List RuleStatement}
    (hstatements : List.Forall₂ RuleStatement.Respaced statements others) :
    Agree (fun prepared otherPrepared =>
        List.Forall₂ RuleStatement.Respaced prepared.statements otherPrepared.statements ∧
          prepared.universeSize = otherPrepared.universeSize)
      (prepare resolved statements) (prepare otherResolved others) := by
  have hsubstituted := respaced_substituted h hnames hstatements
  rw [prepare_eq, prepare_eq]
  dsimp only
  rw [knownPhonemes_eq_of_respaced h hsubstituted]
  refine (Agree.mapM hsubstituted fun _ _ hboth => agree_complemented hboth _).bind ?_
  exact fun expanded otherExpanded hexpanded => .ok ⟨hexpanded, rfl⟩

/-! ## Compiling -/

theorem agree_locate_expand [Limits] {statement otherStatement : RuleStatement}
    (h : statement.Respaced otherStatement) :
    Agree Eq (statement.locate statement.expand) (otherStatement.locate otherStatement.expand) := by
  obtain ⟨line, source, text⟩ := statement
  obtain ⟨otherLine, otherSource, otherText⟩ := otherStatement
  obtain ⟨rfl, htext⟩ := h
  exact (agree_expand htext line source otherSource).mapError _ _

/-- Texts whose lines all have room compile alike if their clauses are respaced. -/
theorem agree_compileText [Limits] (h : List.Forall₂ Clause.Respaced (clauses text) (clauses other))
    (hshort : ∀ line ∈ Text.lines text, line.length ≤ Limits.lineLength)
    (hotherShort : ∀ line ∈ Text.lines other, line.length ≤ Limits.lineLength)
    (mayRedefine : Bool) :
    Agree Eq (compileText text mayRedefine) (compileText other mayRedefine) := by
  refine (agree_classify h hshort hotherShort).keep.bind fun statements others hread => ?_
  obtain ⟨hstatements, -, hread⟩ := hread
  have hstated := respaced_ruleStatements hread
  refine (agree_tableOf (respaced_definitions hread) mayRedefine).keep.bind
    fun table otherTable htables => ?_
  obtain ⟨htable, -, htables⟩ := htables
  have hnamed : ∀ name ∈ sortNames table.names, isVariableName name = true := by
    intro name hname
    rw [mem_sortNames, (of_tableOf htable).2] at hname
    obtain ⟨definition, hdefinition, rfl⟩ := List.mem_map.1 hname
    exact (definition_of_classify hstatements hdefinition).1
  have hpieces : table.Respaced otherTable :=
    htables.mono fun _ _ hvalue => respacedPieces_scan hnamed hvalue
  refine (agree_resolveAll hpieces).keep.bind fun resolved otherResolved hresolved => ?_
  obtain ⟨hresolved, -, hvalues⟩ := hresolved
  rw [← names_of_resolveAll hresolved] at hnamed
  refine (agree_prepare hvalues hnamed hstated).bind fun prepared otherPrepared hprepared => ?_
  refine (Agree.mapM hprepared.1 fun _ _ => agree_locate_expand).bind
    fun expanded otherExpanded hexpanded => .ok ?_
  have hsame : expanded = otherExpanded := List.forall₂_eq_eq_eq ▸ hexpanded
  rw [hsame, htables.size_eq, hstated.length_eq, hprepared.2]

/-! ## Normalized lines -/

/-- A text with the blanks of every line normalized. -/
def normalizeLines (text : Text) : Text :=
  ['\n'].intercalate ((Text.lines text).map Text.normalizeBlanks)

theorem not_mem_normalizeBlanks {c : Char} (hc : isBlank c = true) (hne : c ≠ ' ') (text : Text) :
    c ∉ Text.normalizeBlanks text := by
  suffices ∀ parts : List Text, (∀ part ∈ parts, c ∉ part) → c ∉ [' '].intercalate parts by
    refine this _ fun word hword hmem => ?_
    rw [Text.words_eq_runs, Text.mem_runs_iff] at hword
    simpa [hc] using hword.2.1 c hmem
  intro parts hparts
  induction parts with
  | nil => simp
  | cons part parts ih =>
      obtain ⟨hpart, hparts⟩ := List.forall_mem_cons.1 hparts
      cases parts with
      | nil => simpa using hpart
      | cons next parts =>
          rw [List.intercalate_cons_cons]
          simpa [hpart, hne] using ih hparts

/-- Joined lines are read as they are, but for a blank one at the end, which is no line. -/
theorem lines_intercalate {lines : List Text} (hfeed : ∀ line ∈ lines, '\n' ∉ line)
    (hreturn : ∀ line ∈ lines, '\r' ∉ line) :
    Text.lines (['\n'].intercalate lines) = lines ∨
      Text.lines (['\n'].intercalate lines) ++ [[]] = lines := by
  rcases List.eq_nil_or_concat lines with rfl | ⟨earlier, last, rfl⟩
  · exact .inl rfl
  · rw [List.concat_eq_append] at hfeed hreturn ⊢
    have hpieces : Text.splitWhere (· == '\n') (['\n'].intercalate (earlier ++ [last])) =
        earlier ++ [last] := by
      rw [Text.splitWhere_eq_splitOnP]
      exact List.splitOn_intercalate '\n' hfeed (by simp)
    have hkept : earlier.map Text.dropReturn = earlier := by
      refine (List.map_congr_left fun line hline => ?_).trans (List.map_id earlier)
      refine if_neg fun hlast => hreturn line (List.mem_append_left _ hline) ?_
      exact List.mem_of_getLast? hlast
    unfold Text.lines
    dsimp only
    rw [hpieces, List.getLast?_concat, List.dropLast_concat, hkept]
    cases last with
    | nil => exact .inr rfl
    | cons c rest => exact .inl rfl

theorem lines_normalizeLines (text : Text) :
    Text.lines (normalizeLines text) = (Text.lines text).map Text.normalizeBlanks ∨
      Text.lines (normalizeLines text) ++ [[]] = (Text.lines text).map Text.normalizeBlanks := by
  refine lines_intercalate (fun line hline => ?_) (fun line hline => ?_)
  · obtain ⟨written, -, rfl⟩ := List.mem_map.1 hline
    exact not_mem_normalizeBlanks (by decide) (by decide) written
  · obtain ⟨written, -, rfl⟩ := List.mem_map.1 hline
    exact not_mem_normalizeBlanks (by decide) (by decide) written

theorem respaced_clausesFrom_normalizeBlanks (number : Nat) (lines : List Text) :
    List.Forall₂ Clause.Respaced (clausesFrom number lines)
      (clausesFrom number (lines.map Text.normalizeBlanks)) := by
  induction lines generalizing number with
  | nil => exact .nil
  | cons line lines ih =>
      rw [List.map_cons, clausesFrom_cons, clausesFrom_cons]
      refine List.rel_append ?_ (ih (number + 1))
      refine List.forall₂_map_left_iff.2 (List.forall₂_map_right_iff.2
        ((respaced_statedPieces_normalizeBlanks line).imp ?_))
      exact fun piece otherPiece hpiece => ⟨rfl, hpiece⟩

theorem respaced_clauses_normalizeLines (text : Text) :
    List.Forall₂ Clause.Respaced (clauses text) (clauses (normalizeLines text)) := by
  have hclauses : clauses (normalizeLines text) =
      clausesFrom 1 ((Text.lines text).map Text.normalizeBlanks) := by
    rcases lines_normalizeLines text with hlines | hlines
    · rw [clauses, hlines]
    · rw [clauses, ← hlines, clausesFrom_append]
      exact (List.append_nil _).symm
  rw [hclauses]
  exact respaced_clausesFrom_normalizeBlanks 1 (Text.lines text)

/-- Layout does not matter: a text that compiles still does with its lines normalized, to the
same rules.  The other way round it only takes lines that have room before they are. -/
theorem compileText_normalizeLines [Limits] (text : Text) (mayRedefine : Bool) :
    (∀ compiled, compileText text mayRedefine = .ok compiled →
        compileText (normalizeLines text) mayRedefine = .ok compiled) ∧
      ((∀ line ∈ Text.lines text, line.length ≤ Limits.lineLength) →
        ∀ compiled, compileText (normalizeLines text) mayRedefine = .ok compiled →
          compileText text mayRedefine = .ok compiled) := by
  have hagree : (∀ line ∈ Text.lines text, line.length ≤ Limits.lineLength) →
      Agree Eq (compileText text mayRedefine) (compileText (normalizeLines text) mayRedefine) := by
    intro hshort
    refine agree_compileText (respaced_clauses_normalizeLines text) hshort ?_ mayRedefine
    have hnormalized : ∀ line ∈ (Text.lines text).map Text.normalizeBlanks,
        line.length ≤ Limits.lineLength := by
      intro line hline
      obtain ⟨written, hwritten, rfl⟩ := List.mem_map.1 hline
      exact (Text.length_normalizeBlanks_le written).trans (hshort written hwritten)
    rcases lines_normalizeLines text with hlines | hlines
    · rwa [hlines]
    · exact fun line hline => hnormalized line (hlines ▸ List.mem_append_left _ hline)
  constructor
  · intro compiled h
    obtain ⟨statements, hstatements, -⟩ := bind_eq_ok.1 h
    have hsame := hagree (classify_eq_ok_iff.1 hstatements).1
    rw [h] at hsame
    obtain ⟨_, hnormalized, rfl⟩ := hsame.exists_of_ok_left
    exact hnormalized
  · intro hshort compiled h
    have hsame := hagree hshort
    rw [h] at hsame
    obtain ⟨_, hwritten, rfl⟩ := hsame.exists_of_ok_right
    exact hwritten

/-- Tabs, a carriage return and the blanks in a class are all the same to the compiler. -/
theorem compileText_normalizeLines_tabs :
    normalizeLines "\tV =  a \r\nb\t>o / [ V\t c ]_ ".toList =
        "V = a\nb >o / [ V c ]_".toList ∧
      ∃ compiled, compileText "\tV =  a \r\nb\t>o / [ V\t c ]_ ".toList false = .ok compiled ∧
        compiled.rules.map Rule.left = [some ["a"], some ["c"]] ∧
        compileText (normalizeLines "\tV =  a \r\nb\t>o / [ V\t c ]_ ".toList) false =
          .ok compiled := by
  have hshort : ∀ line ∈ Text.lines "\tV =  a \r\nb\t>o / [ V\t c ]_ ".toList,
      line.length ≤ Limits.lineLength := by decide
  have hlines : normalizeLines "\tV =  a \r\nb\t>o / [ V\t c ]_ ".toList =
      "V = a\nb >o / [ V c ]_".toList := by decide
  have hcompiled : compileText "V = a\nb >o / [ V c ]_".toList false =
      .ok ⟨[⟨["b"], ["o"], some ["a"], none, 2⟩, ⟨["b"], ["o"], some ["c"], none, 2⟩],
        ⟨2, 1, 1, 2, 4⟩⟩ := by cbv
  rw [← hlines] at hcompiled
  have hwritten := (compileText_normalizeLines _ false).2 hshort _ hcompiled
  exact ⟨hlines, _, hwritten, rfl, (compileText_normalizeLines _ false).1 _ hwritten⟩

end Diachrony.RuleText
