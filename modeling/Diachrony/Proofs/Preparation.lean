import Mathlib.Data.List.TakeDrop
import Diachrony.Proofs.Resolution

/-!
# What the preparation of a rule text leaves

A statement has no semicolon, and once variables are substituted and negative sets replaced it
has no variable and no negation mark either.  The classes put in for negative sets are built
from the words of texts that are free of variables themselves.
-/

namespace Diachrony

namespace Text

theorem eq_append_of_dropWhile {needle c : Char} {text rest : Text}
    (h : text.dropWhile (· != needle) = c :: rest) :
    text = text.takeWhile (· != needle) ++ needle :: rest := by
  have hhead : c ∈ (text.dropWhile (· != needle)).head? := by
    rw [h]
    exact rfl
  have hc : c = needle := by simpa using eq_false_of_mem_head?_dropWhile hhead
  rw [hc] at h
  rw [← h]
  exact List.takeWhile_append_dropWhile.symm

theorem eq_append_of_splitFirst? {needle : Char} {text before after : Text}
    (h : splitFirst? needle text = some (before, after)) : text = before ++ needle :: after := by
  unfold splitFirst? at h
  rw [List.span_eq_takeWhile_dropWhile] at h
  cases hdrop : text.dropWhile (· != needle) with
  | nil => simp [hdrop] at h
  | cons c rest =>
      simp only [hdrop, Option.some.injEq, Prod.mk.injEq] at h
      obtain ⟨rfl, rfl⟩ := h
      exact eq_append_of_dropWhile hdrop

theorem mem_of_mem_trim {text : Text} {c : Char} (h : c ∈ trim text) : c ∈ text :=
  (IsWholePart.trim (fun _ => isAlphanumeric_of_isBlank) text).mem h

theorem not_separates_of_mem_splitWhere {separates : Char → Bool} {text part : Text}
    (h : part ∈ splitWhere separates text) {c : Char} (hc : c ∈ part) : separates c = false := by
  have hrun : part ∈ runs (fun c => !separates c) text := by
    simp only [runs, Bool.not_not, List.mem_filter]
    exact ⟨h, by simpa using List.ne_nil_of_mem hc⟩
  simpa using (mem_runs_iff.1 hrun).2.1 c hc

end Text

namespace RuleText

/-! ## Statements -/

/-- What is known of a statement that was read: it has no semicolon, and what it defines can be
named. -/
def StatementBody.IsRead : StatementBody → Prop
  | .rule text => ';' ∉ text
  | .definition name value => isVariableName name = true ∧ ';' ∉ value

/-- A definition has a name before its first `=` and a value behind it. -/
theorem of_parseDefinition {piece name value : Text}
    (h : parseDefinition piece = .ok (name, value)) :
    isVariableName name = true ∧ ∀ c ∈ value, c ∈ piece := by
  unfold parseDefinition at h
  cases hsplit : Text.splitFirst? '=' piece with
  | none =>
      simp only [hsplit] at h
      cases h
  | some cut =>
      obtain ⟨before, after⟩ := cut
      simp only [hsplit] at h
      by_cases hname : isVariableName (Text.trim before) = true
      · split at h
        · cases h
        · simp only [hname, Bool.not_true, Bool.false_eq_true, if_false] at h
          split at h
          · cases h
          · split at h
            · cases h
            · cases h
              refine ⟨hname, fun c hc => ?_⟩
              rw [Text.eq_append_of_splitFirst? hsplit]
              exact List.mem_append_right _ (List.mem_cons_of_mem _ (Text.mem_of_mem_trim hc))
      · split at h
        · cases h
        · simp only [hname, Bool.not_false, if_true] at h
          cases h

theorem parseStatement_eq_ok_rule_iff {piece text : Text} :
    parseStatement piece = .ok (.rule text) ↔ isDefinition piece = false ∧ text = piece := by
  unfold parseStatement
  split
  · rename_i hdefinition
    simp [hdefinition, map_eq_ok]
  · rename_i hnot
    simp [hnot, eq_comm]

theorem parseStatement_eq_ok_definition_iff {piece name value : Text} :
    parseStatement piece = .ok (.definition name value) ↔
      isDefinition piece = true ∧ parseDefinition piece = .ok (name, value) := by
  unfold parseStatement
  split
  · rename_i hdefinition
    simp [hdefinition, map_eq_ok]
  · rename_i hnot
    simp [hnot]

theorem isRead_of_parseStatement {piece : Text} {body : StatementBody} (hpiece : ';' ∉ piece)
    (h : parseStatement piece = .ok body) : body.IsRead := by
  cases body with
  | definition name value =>
      obtain ⟨hname, hvalue⟩ := of_parseDefinition (parseStatement_eq_ok_definition_iff.1 h).2
      exact ⟨hname, fun hmem => hpiece (hvalue _ hmem)⟩
  | rule text =>
      obtain ⟨-, rfl⟩ := parseStatement_eq_ok_rule_iff.1 h
      exact hpiece

theorem isRead_of_addLine [Limits] {line : Nat × Text} {classified next : Classified}
    (h : classified.addLine line = .ok next)
    (hread : ∀ statement ∈ classified.latestFirst, statement.body.IsRead) :
    ∀ statement ∈ next.latestFirst, statement.body.IsRead := by
  unfold Classified.addLine at h
  dsimp only at h
  split at h
  · cases h
  · split at h
    · cases h
      exact hread
    · refine of_foldlM (fun classified : Classified =>
        ∀ statement ∈ classified.latestFirst, statement.body.IsRead) hread ?_ h
      intro piece hpiece classified next hread hstep
      have hsemicolon : ';' ∉ piece := by
        obtain ⟨part, hpart, rfl⟩ := List.mem_map.1 (List.mem_of_mem_filter hpiece)
        intro hmem
        have hnot := Text.not_separates_of_mem_splitWhere hpart (Text.mem_of_mem_trim hmem)
        simp at hnot
      unfold Classified.addPiece at hstep
      split at hstep
      · cases hstep
      · rename_i body hbody
        dsimp only at hstep
        split at hstep
        · cases hstep
        · cases hstep
          exact List.forall_mem_cons.2 ⟨isRead_of_parseStatement hsemicolon hbody, hread⟩

theorem isRead_of_classify [Limits] {text : Text} {statements : List Statement}
    (h : classify text = .ok statements) : ∀ statement ∈ statements, statement.body.IsRead := by
  unfold classify at h
  cases hfold : (Text.numberedLines text).foldlM Classified.addLine Classified.empty with
  | error failure =>
      rw [hfold] at h
      cases h
  | ok classified =>
      rw [hfold] at h
      cases h
      intro statement hmem
      have hread : ∀ statement ∈ classified.latestFirst, statement.body.IsRead :=
        of_foldlM (fun classified : Classified =>
          ∀ statement ∈ classified.latestFirst, statement.body.IsRead) (by simp [Classified.empty])
          (fun line _ classified next hread hstep => isRead_of_addLine hstep hread) hfold
      exact hread statement (List.mem_reverse.1 hmem)

theorem semicolon_not_mem_of_classify [Limits] {text : Text} {statements : List Statement}
    (h : classify text = .ok statements) {statement : RuleStatement}
    (hmem : statement ∈ ruleStatements statements) : ';' ∉ statement.text := by
  obtain ⟨source, hsource, hbody⟩ := List.mem_filterMap.1 hmem
  have hread := isRead_of_classify h source hsource
  cases hcase : source.body with
  | definition name value => simp [hcase] at hbody
  | rule written =>
      simp only [hcase, Option.some.injEq] at hbody
      rw [← hbody]
      simpa [hcase, StatementBody.IsRead] using hread

theorem definition_of_classify [Limits] {text : Text} {statements : List Statement}
    (h : classify text = .ok statements) {definition : Definition}
    (hmem : definition ∈ definitions statements) :
    isVariableName definition.name = true ∧ ';' ∉ definition.value := by
  obtain ⟨source, hsource, hbody⟩ := List.mem_filterMap.1 hmem
  have hread := isRead_of_classify h source hsource
  cases hcase : source.body with
  | rule written => simp [hcase] at hbody
  | definition name value =>
      simp only [hcase, Option.some.injEq] at hbody
      rw [← hbody]
      simpa [hcase, StatementBody.IsRead] using hread

/-! ## Substitution -/

/-- Resolved values are free of the variables and of a character that no value was written
with, and so is what they are substituted into. -/
theorem freeOf_of_resolveAll [Limits] {table : VariableTable} {resolved : ResolvedVariables}
    {characters : List Char} (hnames : ∀ name ∈ table.names, isVariableName name = true)
    (hvalues : ∀ definition ∈ table.definitions, ∀ c ∈ definition.value, c ∉ characters)
    (h : table.resolveAll = .ok resolved) :
    resolved.values.All (Text.FreeOf characters table.names) ∧
      ∀ text : Text, (∀ c ∈ text, c ∉ characters) →
        Text.FreeOf characters table.names (resolved.substitute text) := by
  have hsorted : ∀ name ∈ sortNames table.names, isVariableName name = true :=
    fun name hin => hnames name (mem_sortNames.1 hin)
  have hsame : ∀ {text : Text}, Text.FreeOf characters (sortNames table.names) text →
      Text.FreeOf characters table.names text :=
    fun hfree => ⟨hfree.characters, fun run hrun hin => hfree.names run hrun (mem_sortNames.2 hin)⟩
  obtain ⟨hresolved, hall, hfound⟩ := all_of_resolveAll hnames
    (fun definition hmem fits filled hfits hfilled =>
      hfilled.freeOf hsorted hfits (hvalues definition hmem)) h
  refine ⟨fun entry hentry => hsame (hall entry hentry), fun text htext => hsame ?_⟩
  unfold ResolvedVariables.substitute
  rw [hresolved]
  have hfilled := filled_substitute (sortNames table.names)
    (fun name => (resolved.find? name).getD name) text
  refine hfilled.freeOf hsorted (fun name hin replacement hreplacement => ?_) htext
  obtain ⟨value, hvalue⟩ := hfound name (mem_sortNames.1 hin)
  rw [hreplacement, hvalue]
  exact hall.of_lookup hvalue

/-! ## Negative sets -/

theorem complementLoop_of_not_mem {text : Text} (h : '!' ∉ text) (known : TokenSet)
    (written : Text) : complementLoop known written text = .ok (written.reverse ++ text) := by
  have hnone : text.dropWhile (· != '!') = [] := by
    refine List.dropWhile_eq_nil_iff.2 fun c hc => ?_
    rw [bne_iff_ne]
    rintro rfl
    exact h hc
  rw [complementLoop]
  split
  · rfl
  · rename_i hsome
    rw [hnone] at hsome
    cases hsome

theorem expandNegativeSets_of_not_mem {known : TokenSet} {text : Text} (h : '!' ∉ text) :
    expandNegativeSets known text = .ok text :=
  complementLoop_of_not_mem h known []

theorem not_isDelimiter_of_mem_literalTokens {text : Text} {token : Token}
    (h : token ∈ literalTokens text) :
    Text.IsWholePart Text.isAlphanumeric token.toList text ∧
      ∀ c ∈ token.toList, isDelimiter c = false := by
  have hdelimiter : ∀ c, isDelimiter c = true → Text.isAlphanumeric c = false := by
    intro c hc
    simp only [isDelimiter, Bool.or_eq_true, List.contains_iff_mem] at hc
    rcases hc with hc | hc
    · exact Text.isAlphanumeric_of_isBlank hc
    · have hmarks : ∀ d ∈ ['[', ']', '(', ')', '!', '>', '/', '_', ';', '='],
          Text.isAlphanumeric d = false := forall_mem_of_all (by decide)
      exact hmarks c hc
  obtain ⟨part, hpart, rfl⟩ := List.mem_map.1 (List.mem_of_mem_filter h)
  have hsplit := List.mem_of_mem_filter hpart
  rw [String.toList_ofList]
  exact ⟨.of_mem_splitWhere hdelimiter hsplit,
    fun c hc => Text.not_separates_of_mem_splitWhere hsplit hc⟩

section NegativeSets

variable {characters : List Char} {names : List Text}

theorem freeOf_of_mem_knownTokens {texts : List Text}
    (htexts : ∀ text ∈ texts, Text.FreeOf characters names text) {token : Token}
    (h : token ∈ (knownTokens texts).toList) :
    Text.FreeOf ('!' :: characters) names token.toList := by
  obtain ⟨text, htext, hmem⟩ := List.mem_flatMap.1 (TokenSet.mem_ofList.1 h)
  obtain ⟨hpart, hplain⟩ := not_isDelimiter_of_mem_literalTokens hmem
  refine .cons_characters_iff.2 ⟨fun hc => ?_, (htexts text htext).of_isWholePart hpart⟩
  have hdelimiter := hplain '!' hc
  revert hdelimiter
  decide

theorem freeOf_append_writtenClass {before after : Text} {tokens : List Token}
    (hplain : ∀ c ∈ ['[', ']', ' '], c ∉ characters)
    (htokens : ∀ token ∈ tokens, Text.FreeOf characters names token.toList)
    (hbefore : Text.FreeOf characters names before)
    (hafter : Text.FreeOf characters names after) :
    Text.FreeOf characters names (before ++ writtenClass tokens ++ after) := by
  have hwords : Text.FreeOf characters names (" ".intercalate tokens).toList := by
    rw [String.toList_intercalate]
    refine .intercalate (hplain ' ' (by simp)) fun part hpart => ?_
    obtain ⟨token, htoken, rfl⟩ := List.mem_map.1 hpart
    exact htokens token htoken
  have hinside : Text.FreeOf characters names
      ((" ".intercalate tokens).toList ++ ']' :: after) :=
    .append_cons (by decide) (hplain ']' (by simp)) hwords hafter
  have hclass : Text.FreeOf characters names
      (before ++ '[' :: ((" ".intercalate tokens).toList ++ ']' :: after)) :=
    .append_cons (by decide) (hplain '[' (by simp)) hbefore hinside
  simpa [writtenClass] using hclass

/-- The loop keeps what is written so far together with what is still to be read free of
everything but the negation mark, and takes the marks out one after another. -/
theorem freeOf_complementLoop {known : TokenSet} {written text result : Text}
    (hplain : ∀ c ∈ ['[', ']', ' '], c ∉ '!' :: characters)
    (hknown : ∀ token ∈ known.toList, Text.FreeOf ('!' :: characters) names token.toList)
    (hwritten : '!' ∉ written) (hfree : Text.FreeOf characters names (written.reverse ++ text))
    (h : complementLoop known written text = .ok result) :
    Text.FreeOf ('!' :: characters) names result := by
  fun_induction complementLoop known written text generalizing result with
  | case1 written text hnone =>
      cases h
      refine .cons_characters_iff.2 ⟨fun hc => ?_, hfree⟩
      rcases List.mem_append.1 hc with hc | hc
      · exact hwritten (List.mem_reverse.1 hc)
      · simpa using List.dropWhile_eq_nil_iff.1 hnone '!' hc
  | case2 => cases h
  | case3 => cases h
  | case4 written text before head behind hmark _ body hopen _ inside after hclose =>
      rename_i rest _ _ ih
      have htext : text = before ++ '!' :: behind := Text.eq_append_of_dropWhile hmark
      have hbody := Text.eq_append_of_closing? hclose
      rw [htext, ← List.append_assoc] at hfree
      have hbefore : Text.FreeOf characters names (written.reverse ++ before) :=
        hfree.of_isWholePart (.left_of_cons (by decide) _ behind)
      have hafter : Text.FreeOf characters names after := by
        have hbehind : Text.FreeOf characters names (Text.trimStart behind) :=
          (hfree.of_isWholePart (.right_of_cons (by decide) _ behind)).of_isWholePart
            (.trimStart (fun _ => Text.isAlphanumeric_of_isBlank) behind)
        rw [hopen, hbody, ← List.cons_append] at hbehind
        exact hbehind.of_isWholePart (.right_of_cons (by decide) _ after)
      have hrest : ∀ token ∈ rest.toList, Text.FreeOf ('!' :: characters) names token.toList :=
        fun token htoken => hknown token (TokenSet.mem_without.1 htoken).1
      have hclass : Text.FreeOf ('!' :: characters) names ([] ++ writtenClass rest.toList ++ []) :=
        freeOf_append_writtenClass hplain hrest .nil .nil
      -- The class goes to what is written; with the text behind it, it is free as a whole.
      refine ih ?_ ?_ h
      · simp only [List.nil_append, List.append_nil] at hclass
        simp only [List.mem_append, List.mem_reverse, not_or]
        refine ⟨(Text.FreeOf.cons_characters_iff.1 hclass).1, fun hin => ?_, hwritten⟩
        simpa using List.mem_takeWhile_imp hin
      · have hround := freeOf_append_writtenClass
          (fun c hc hin => hplain c hc (List.mem_cons_of_mem '!' hin))
          (fun token htoken => (Text.FreeOf.cons_characters_iff.1 (hrest token htoken)).2)
          hbefore hafter
        simpa using hround
  | case5 => cases h

theorem freeOf_expandNegativeSets {known : TokenSet} {text result : Text}
    (hplain : ∀ c ∈ ['[', ']', ' '], c ∉ '!' :: characters)
    (hknown : ∀ token ∈ known.toList, Text.FreeOf ('!' :: characters) names token.toList)
    (hfree : Text.FreeOf characters names text)
    (h : expandNegativeSets known text = .ok result) :
    Text.FreeOf ('!' :: characters) names result :=
  freeOf_complementLoop hplain hknown (by simp) (by simpa using hfree) h

end NegativeSets

/-! ## Prepared statements -/

/-- What is substituted into some statements is free of names and of a character, and so the
prepared statements are, which have lost their negation marks as well. -/
theorem freeOf_of_prepare {characters : List Char} {names : List Text}
    {resolved : ResolvedVariables} {statements : List RuleStatement} {prepared : Prepared}
    (hplain : ∀ c ∈ ['[', ']', ' '], c ∉ '!' :: characters)
    (hvalues : resolved.values.All (Text.FreeOf characters names))
    (hstatements : ∀ statement ∈ statements,
      Text.FreeOf characters names (resolved.substitute statement.text))
    (h : prepare resolved statements = .ok prepared) :
    ∀ statement ∈ prepared.statements, Text.FreeOf ('!' :: characters) names statement.text := by
  unfold prepare at h
  obtain ⟨expanded, hexpanded, h⟩ := bind_eq_ok.1 h
  cases h
  intro statement hmem
  obtain ⟨substituted, hsubstituted, hstep⟩ := exists_of_mem_mapM hexpanded hmem
  obtain ⟨text, htext, hstep⟩ := bind_eq_ok.1 hstep
  cases hstep
  obtain ⟨written, hwritten, rfl⟩ := List.mem_map.1 hsubstituted
  refine freeOf_expandNegativeSets hplain ?_ (hstatements written hwritten) (mapError_eq_ok.1 htext)
  refine fun token htoken => freeOf_of_mem_knownTokens (fun text hin => ?_) htoken
  rcases List.mem_append.1 hin with hin | hin
  · simp only [List.map_map, List.mem_map] at hin
    obtain ⟨other, hother, rfl⟩ := hin
    exact hstatements other hother
  · obtain ⟨entry, hentry, rfl⟩ := List.mem_map.1 hin
    exact hvalues entry hentry

end RuleText

end Diachrony
