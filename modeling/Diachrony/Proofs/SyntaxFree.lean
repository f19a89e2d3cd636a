import Mathlib
import Diachrony.Proofs.OptionalGroups
import Diachrony.Proofs.Preparation

/-!
# Compiled rules are free of syntax

Every stage hands on texts that are free of the variables and of the marks that earlier stages
dealt with, and the last stage reads tokens that have no blanks and no brackets either.  So
nothing of the rule language is left in a rule.
-/

namespace Diachrony

namespace RuleText

/-! ## The parts of a statement -/

def Shape.parts (shape : Shape) : List Text :=
  [shape.source, shape.target] ++ shape.left.toList ++ shape.right.toList

theorem isWholePart_of_splitTarget {text target : Text} {context : Option Text}
    (h : splitTarget text = .ok (target, context)) :
    Text.IsWholePart Text.isAlphanumeric target text ∧
      ∀ part ∈ context, Text.IsWholePart Text.isAlphanumeric part text := by
  have hpiece : ∀ {part}, part ∈ Text.splitTopLevel '/' text →
      Text.IsWholePart Text.isAlphanumeric part text :=
    Text.isWholePart_of_mem_splitTopLevel (by decide)
  unfold splitTarget at h
  split at h
  · cases h
    exact ⟨.refl _, by simp⟩
  · cases h
    exact ⟨.refl _, by simp⟩
  · rename_i first second hsplit
    cases h
    refine ⟨hpiece (by simp [hsplit]), fun part hpart => ?_⟩
    cases hpart
    exact hpiece (by simp [hsplit])
  · cases h

theorem isWholePart_of_contextSide? {text side : Text} (h : contextSide? text = some side) :
    Text.IsWholePart Text.isAlphanumeric side text := by
  unfold contextSide? at h
  dsimp only at h
  split at h
  · cases h
  · cases h
    exact .trim (fun _ => Text.isAlphanumeric_of_isBlank) text

theorem isWholePart_of_splitContext {context : Text} {left right : Option Text}
    (h : splitContext context = .ok (left, right)) :
    ∀ side ∈ left.toList ++ right.toList, Text.IsWholePart Text.isAlphanumeric side context := by
  have hpiece : ∀ {part}, part ∈ Text.splitTopLevel '_' context →
      Text.IsWholePart Text.isAlphanumeric part context :=
    Text.isWholePart_of_mem_splitTopLevel (by decide)
  unfold splitContext at h
  split at h
  · rename_i first second hsplit
    cases h
    intro side hside
    rcases List.mem_append.1 hside with hside | hside
    · exact (isWholePart_of_contextSide? (Option.mem_toList.1 hside)).trans
        (hpiece (by simp [hsplit]))
    · exact (isWholePart_of_contextSide? (Option.mem_toList.1 hside)).trans
        (hpiece (by simp [hsplit]))
  · cases h
  · cases h
  · cases h

theorem topLevelCount_of_checkSide {side : Text} (h : checkSide side = .ok ()) :
    Text.topLevelCount '_' 0 side = 0 := by
  unfold checkSide at h
  split at h
  · cases h
  · split at h
    · cases h
    · rename_i hoccurs
      exact Text.topLevelCount_eq_zero (by simpa using hoccurs)

theorem isWholePart_of_mem_sides {context : Option Text} {left right : Option Text}
    (h : context.elim (.ok (none, none)) splitContext = .ok (left, right)) :
    ∀ side ∈ left.toList ++ right.toList,
      ∃ text ∈ context, Text.IsWholePart Text.isAlphanumeric side text := by
  cases context with
  | none =>
      cases h
      simp
  | some text =>
      exact fun side hside => ⟨text, rfl, isWholePart_of_splitContext h side hside⟩

/-- The parts of a statement are cut out of it beside its marks and have no arrow; the change
has no placeholder outside its classes. -/
theorem of_parseShape {statement : Text} {shape : Shape} (h : parseShape statement = .ok shape) :
    (∀ part ∈ shape.parts,
      Text.IsWholePart Text.isAlphanumeric part statement ∧ '>' ∉ part) ∧
      Text.topLevelCount '_' 0 shape.source = 0 ∧ Text.topLevelCount '_' 0 shape.target = 0 := by
  obtain ⟨before, after, target, context, hcut⟩ := parseShape_eq_ok_iff.1 h
  have hhalf : ∀ {half part : Text}, half ∈ [before, after] →
      Text.IsWholePart Text.isAlphanumeric part half →
      Text.IsWholePart Text.isAlphanumeric part statement ∧ '>' ∉ part := by
    intro half part hmem hpart
    rw [← hcut.arrow] at hmem
    refine ⟨hpart.trans (.of_mem_splitWhere ?_ hmem), fun hin => ?_⟩
    · intro c hc
      rw [show c = '>' by simpa using hc]
      decide
    · simpa using Text.not_separates_of_mem_splitWhere hmem (hpart.mem hin)
  have htrim : ∀ text, Text.IsWholePart Text.isAlphanumeric (Text.trim text) text :=
    Text.IsWholePart.trim fun _ => Text.isAlphanumeric_of_isBlank
  obtain ⟨htarget, hcontext⟩ := isWholePart_of_splitTarget hcut.slash
  refine ⟨fun part hmem => ?_, topLevelCount_of_checkSide hcut.source_checked,
    topLevelCount_of_checkSide hcut.target_checked⟩
  rw [Shape.parts, hcut.source_eq, hcut.target_eq, List.append_assoc] at hmem
  rcases List.mem_append.1 hmem with hmem | hmem
  · rcases List.mem_pair.1 hmem with rfl | rfl
    · exact hhalf (by simp) (htrim before)
    · exact hhalf (by simp) ((htrim target).trans htarget)
  · obtain ⟨text, htext, hpart⟩ := isWholePart_of_mem_sides hcut.placeholder part hmem
    exact hhalf (by simp) (hpart.trans (hcontext text htext))

/-! ## Tokens of a context -/

theorem all_of_mem_options {holds : Token → Prop} {item : Item} (hitem : item.All holds)
    {sequence : List Token} (hmem : sequence ∈ item.options) : ∀ token ∈ sequence, holds token := by
  cases item with
  | literal written =>
      rw [List.mem_singleton.1 hmem]
      intro token htoken
      rw [List.mem_singleton.1 htoken]
      exact hitem
  | oneOf members =>
      obtain ⟨member, hmember, rfl⟩ := List.mem_map.1 hmem
      intro token htoken
      exact hitem token (by rwa [← Option.mem_toList.1 htoken])

theorem all_of_mem_sequencesFrom {holds : Token → Prop} {items : List Item}
    (hitems : ∀ item ∈ items, item.All holds) {sequences : List (List Token)}
    (hsequences : ∀ sequence ∈ sequences, ∀ token ∈ sequence, holds token) :
    ∀ sequence ∈ sequencesFrom sequences items, ∀ token ∈ sequence, holds token := by
  induction items generalizing sequences with
  | nil => exact hsequences
  | cons item items ih =>
      obtain ⟨hitem, hitems⟩ := List.forall_mem_cons.1 hitems
      refine ih hitems fun sequence hmem token htoken => ?_
      obtain ⟨before, hbefore, hextended⟩ := List.mem_flatMap.1 hmem
      obtain ⟨option, hoption, rfl⟩ := List.mem_map.1 hextended
      rcases List.mem_append.1 htoken with htoken | htoken
      · exact hsequences before hbefore token htoken
      · exact all_of_mem_options hitem hoption token htoken

/-- A context is never an empty sequence, and a property of the words of texts that are free of
some characters and names is one of its tokens. -/
theorem of_mem_expandContext [Limits] {characters : List Char} {names : List Text}
    {holds : Token → Prop} (hblank : ' ' ∉ characters)
    (hword : ∀ word, Text.FreeOf characters names word → word ≠ [] →
      (∀ c ∈ word, continuesLiteral c = true) → holds (String.ofList word))
    {side : ContextSide} {text : Option Text}
    (hfree : ∀ part ∈ text, Text.FreeOf characters names part) {constraints : List Constraint}
    (h : expandContext side text = .ok constraints) {constraint : Constraint}
    (hmem : constraint ∈ constraints) :
    constraint ≠ some [] ∧ ∀ token ∈ constraint.getD [], holds token := by
  cases text with
  | none =>
      cases h
      rw [List.mem_singleton.1 hmem]
      simp
  | some text =>
      obtain ⟨variants, hvariants, h⟩ := bind_eq_ok.1 h
      obtain ⟨whole, -, h⟩ := bind_eq_ok.1 h
      split at h
      · cases h
      · obtain ⟨sequences, hsequences, h⟩ := bind_eq_ok.1 h
        cases h
        obtain ⟨sequence, hsequence, rfl⟩ := List.mem_map.1 (mem_distinct.1 hmem)
        obtain ⟨found, hfound, hin⟩ := List.mem_flatten.1 hsequence
        obtain ⟨variant, hvariant, hstep⟩ := exists_of_mem_mapM hsequences hfound
        obtain ⟨items, hitems, hstep⟩ := bind_eq_ok.1 hstep
        cases hstep
        have hvariantFree : Text.FreeOf characters names variant :=
          freeOf_of_mem_expandGroups hblank (hfree text rfl) hvariants hvariant
        have hall : ∀ item ∈ items, item.All holds :=
          (parseItems_eq_ok_iff.1 hitems).all (fun _ => continuesLiteral_of_isAlphanumeric)
            fun word hpart => hword word (hvariantFree.of_isWholePart hpart)
        have htokens : ∀ token ∈ sequence, holds token :=
          all_of_mem_sequencesFrom hall (by simp) sequence (mem_distinct.1 hin)
        unfold toConstraint
        split
        · simp
        · rename_i hne
          exact ⟨fun hempty => hne (by simpa using hempty), htokens⟩

end RuleText

/-! ## Rules -/

open RuleText

/-- Whether a token has no character of the rule language and none of the names. -/
structure IsFreeToken (names : List Text) (token : Token) : Prop where
  ne_empty : token ≠ ""
  not_blank : ∀ c ∈ token.toList, Text.isBlank c = false
  not_syntax : ∀ c ∈ token.toList, c ∉ ['[', ']', '(', ')', '!', '>', ';']
  not_name : ∀ run ∈ Text.runs Text.isAlphanumeric token.toList, run ∉ names

/-- Whether nothing of the rule language and none of the names is left in a rule. -/
structure Rule.IsSyntaxFree (names : List Text) (rule : Rule) : Prop where
  input_ne_nil : rule.input ≠ []
  left_ne_nil : rule.left ≠ some []
  right_ne_nil : rule.right ≠ some []
  tokens : ∀ token ∈ rule.input ++ rule.output ++ rule.left.getD [] ++ rule.right.getD [],
    IsFreeToken names token
  ne_mark : ∀ token ∈ rule.input ++ rule.output, token ≠ emptyMark ∧ token ≠ nullMark

theorem isFreeToken_of_word {names : List Text} {word : Text}
    (hfree : Text.FreeOf ['>', '!', ';'] names word) (hne : word ≠ [])
    (hword : ∀ c ∈ word, continuesLiteral c = true) :
    IsFreeToken names (String.ofList word) := by
  have hempty : String.ofList word ≠ "" :=
    fun h => hne (by simpa using congrArg String.toList h)
  refine ⟨hempty, ?_, ?_, ?_⟩
  · intro c hc
    rw [String.toList_ofList] at hc
    exact (continuesLiteral_eq_true_iff.1 (hword c hc)).1
  · intro c hc
    rw [String.toList_ofList] at hc
    have hbracket := (continuesLiteral_eq_true_iff.1 (hword c hc)).2
    have hmark := hfree.characters c hc
    simp only [List.mem_cons, List.not_mem_nil, or_false, not_or] at hbracket hmark ⊢
    exact ⟨hbracket.1, hbracket.2.1, hbracket.2.2.1, hbracket.2.2.2, hmark.2.1, hmark.1, hmark.2.2⟩
  · rw [String.toList_ofList]
    exact hfree.names

/-- The items of a side that has no placeholder outside its classes have no empty option left
as a token. -/
theorem isFreeToken_of_reads {names : List Text} {side : Text} {items : List Item}
    (hfree : Text.FreeOf ['>', '!', ';'] names side)
    (hcount : Text.topLevelCount '_' 0 side = 0) (h : Reads side items) :
    ∀ item ∈ items, item.All fun token => IsFreeToken names token ∧ token ≠ emptyMark := by
  have hall : ∀ item ∈ items, item.All (IsFreeToken names) :=
    h.all (fun _ => continuesLiteral_of_isAlphanumeric)
      fun word hpart => isFreeToken_of_word (hfree.of_isWholePart hpart)
  intro item hmem
  cases item with
  | literal token =>
      refine ⟨hall _ hmem, ?_⟩
      rintro rfl
      exact h.not_mem_literal hcount hmem (by decide)
  | oneOf members =>
      intro token htoken
      exact ⟨hall _ hmem token htoken, (h.member_ne_mark hmem htoken).1⟩

theorem isSyntaxFree_of_mem_expand [Limits] {names : List Text} {statement : RuleStatement}
    (hfree : Text.FreeOf ['!', ';'] names statement.text) {rules : List Rule}
    (h : statement.expand = .ok rules) {rule : Rule} (hmem : rule ∈ rules) :
    rule.IsSyntaxFree names := by
  obtain ⟨shape, source, target, changes, lefts, rights, hshape, hsource, htarget, hchanges,
    hlefts, hrights, change, hchange, left, hleft, right, hright, rfl⟩ :=
    exists_of_mem_expand h hmem
  obtain ⟨hparts, hsourceCount, htargetCount⟩ := of_parseShape hshape
  have hpart : ∀ part ∈ shape.parts, Text.FreeOf ['>', '!', ';'] names part := by
    intro part hpart
    obtain ⟨hwhole, harrow⟩ := hparts part hpart
    exact .cons_characters_iff.2 ⟨harrow, hfree.of_isWholePart hwhole⟩
  obtain ⟨hinput, htokens⟩ := of_mem_expandChanges
    (isFreeToken_of_reads (hpart _ (by simp [Shape.parts])) hsourceCount hsource)
    (isFreeToken_of_reads (hpart _ (by simp [Shape.parts])) htargetCount htarget)
    hchanges hchange
  obtain ⟨hleftNe, hleftTokens⟩ := of_mem_expandContext (by decide)
    (fun word => isFreeToken_of_word)
    (fun part hin => hpart part (by simp [Shape.parts, Option.mem_toList.2 hin])) hlefts hleft
  obtain ⟨hrightNe, hrightTokens⟩ := of_mem_expandContext (by decide)
    (fun word => isFreeToken_of_word)
    (fun part hin => hpart part (by simp [Shape.parts, Option.mem_toList.2 hin])) hrights hright
  refine ⟨hinput, hleftNe, hrightNe, fun token htoken => ?_, fun token htoken => ?_⟩
  · simp only [List.mem_append] at htoken
    rcases htoken with (htoken | htoken) | htoken
    · exact (htokens token (List.mem_append.2 htoken)).1.1
    · exact hleftTokens token htoken
    · exact hrightTokens token htoken
  · exact ⟨(htokens token htoken).1.2, (htokens token htoken).2⟩

/-- No rule of a compiled text has anything of the rule language left in it, nor a variable
that the text defines. -/
theorem isSyntaxFree_of_compileText [Limits] {text : Text} {mayRedefine : Bool} {compiled : RuleSet}
    (h : compileText text mayRedefine = .ok compiled) :
    ∃ statements, classify text = .ok statements ∧
      ∀ rule ∈ compiled.rules,
        rule.IsSyntaxFree ((definitions statements).map Definition.name) := by
  obtain ⟨statements, table, resolved, prepared, hstatements, htable, hresolved, hprepared,
    hrules⟩ := exists_of_mem_compileText h
  refine ⟨statements, hstatements, fun rule hmem => ?_⟩
  obtain ⟨statement, hstatement, rules, hexpand, hrule⟩ := hrules rule hmem
  obtain ⟨hentered, hnames⟩ := of_tableOf htable
  have hsemicolon : ∀ {text : Text}, ';' ∉ text → ∀ c ∈ text, c ∉ [';'] := by
    intro text hnot c hc hin
    rw [List.mem_singleton.1 hin] at hc
    exact hnot hc
  have hnamed : ∀ name ∈ table.names, isVariableName name = true := by
    intro name hname
    obtain ⟨definition, hdefinition, rfl⟩ := List.mem_map.1 ((hnames name).1 hname)
    exact (definition_of_classify hstatements hdefinition).1
  have hdefined : ∀ definition ∈ table.definitions, ∀ c ∈ definition.value, c ∉ [';'] :=
    fun definition hin =>
      hsemicolon (definition_of_classify hstatements (hentered definition hin)).2
  obtain ⟨hvalues, hsubstitute⟩ := freeOf_of_resolveAll hnamed hdefined hresolved
  have hfree : Text.FreeOf ['!', ';'] table.names statement.text :=
    freeOf_of_prepare (forall_mem_of_all (by decide)) hvalues
      (fun stated hstated =>
        hsubstitute _ (hsemicolon (semicolon_not_mem_of_classify hstatements hstated)))
      hprepared statement hstatement
  refine isSyntaxFree_of_mem_expand ⟨hfree.characters, fun run hrun hin => ?_⟩ hexpand hrule
  exact hfree.names run hrun ((hnames run).2 hin)

/-- A variable in a class with an empty option and in an optional group leaves four rules. -/
theorem isSyntaxFree_vowel_before_boundary :
    ∃ compiled statements,
      compileText "V = a\n[V _] e > o / (V) _ #".toList true = .ok compiled ∧
      compiled.rules.length = 4 ∧
      classify "V = a\n[V _] e > o / (V) _ #".toList = .ok statements ∧
      (definitions statements).map Definition.name = ["V".toList] ∧
      ∀ rule ∈ compiled.rules, rule.IsSyntaxFree ["V".toList] := by
  have hcompiled : compileText "V = a\n[V _] e > o / (V) _ #".toList true =
      .ok ⟨[⟨["a", "e"], ["o"], some ["a"], some ["#"], 2⟩,
        ⟨["a", "e"], ["o"], none, some ["#"], 2⟩,
        ⟨["e"], ["o"], some ["a"], some ["#"], 2⟩,
        ⟨["e"], ["o"], none, some ["#"], 2⟩], ⟨2, 1, 1, 4, 3⟩⟩ := by cbv
  have hclassified : classify "V = a\n[V _] e > o / (V) _ #".toList =
      .ok [⟨1, "V = a", .definition ['V'] ['a']⟩,
        ⟨2, "[V _] e > o / (V) _ #", .rule "[V _] e > o / (V) _ #".toList⟩] := by cbv
  obtain ⟨statements, hstatements, hfree⟩ := isSyntaxFree_of_compileText hcompiled
  rw [hclassified] at hstatements
  cases hstatements
  exact ⟨_, _, hcompiled, rfl, hclassified, rfl, hfree⟩

end Diachrony
