import Diachrony.Proofs.Computation
import Diachrony.Proofs.ItemGrammar
import Diachrony.RuleText.Compile

/-!
# Compiled rules

What a rule that compiling a text emits is put together from, and what holds of every such
rule: it has an input, and no token of its input is empty.
-/

namespace Diachrony.RuleText

/-! ## Shapes -/

/-- The way from a rule statement to its shape: the text before and the one behind its arrow, and
the target and the context that the latter is cut into. -/
structure IsCut (statement before after target : Text) (context : Option Text) (shape : Shape) :
    Prop where
  balanced : Text.isBalanced statement = true
  arrow : Text.splitWhere (· == '>') statement = [before, after]
  slash : splitTarget after = .ok (target, context)
  placeholder : context.elim (.ok (none, none)) splitContext = .ok (shape.left, shape.right)
  source_eq : shape.source = Text.trim before
  target_eq : shape.target = Text.trim target
  source_ne_nil : shape.source ≠ []
  source_checked : checkSide shape.source = .ok ()
  target_checked : checkSide shape.target = .ok ()

theorem parseShape_eq_ok_iff {statement : Text} {shape : Shape} :
    parseShape statement = .ok shape ↔
      ∃ before after target context, IsCut statement before after target context shape := by
  constructor
  · intro h
    unfold parseShape at h
    split at h
    · cases h
    · rename_i hbalanced
      split at h
      · rename_i before after harrow
        obtain ⟨⟨target, context⟩, hslash, h⟩ := bind_eq_ok.1 h
        dsimp only at h
        split at h
        · cases h
        · rename_i hsource
          obtain ⟨⟨⟩, hsourceChecked, h⟩ := bind_eq_ok.1 h
          obtain ⟨⟨⟩, htargetChecked, h⟩ := bind_eq_ok.1 h
          have hsides : ∃ sides : Option Text × Option Text,
              context.elim (.ok (none, none)) splitContext = .ok sides ∧
                shape = ⟨Text.trim before, Text.trim target, sides.1, sides.2⟩ := by
            cases context with
            | none =>
                cases h
                exact ⟨(none, none), rfl, rfl⟩
            | some text =>
                obtain ⟨sides, hsides, h⟩ := bind_eq_ok.1 h
                cases h
                exact ⟨sides, hsides, rfl⟩
          obtain ⟨⟨left, right⟩, hsides, rfl⟩ := hsides
          exact ⟨before, after, target, context, by simpa using hbalanced, harrow, hslash, hsides,
            rfl, rfl, by simpa using hsource, hsourceChecked, htargetChecked⟩
      · cases h
  · rintro ⟨before, after, target, context, h⟩
    have hsource : shape.source.isEmpty = false := List.isEmpty_eq_false_iff.2 h.source_ne_nil
    have hplaceholder := h.placeholder
    simp only [parseShape, h.balanced, h.arrow, h.slash, ok_bind, Bool.not_true,
      Bool.false_eq_true, if_false, ← h.source_eq, ← h.target_eq, hsource, h.source_checked,
      h.target_checked]
    cases context with
    | none =>
        cases shape
        cases hplaceholder
        rfl
    | some text =>
        rw [Option.elim_some] at hplaceholder
        simp only [hplaceholder, ok_bind]

/-! ## Changes -/

/-- The tokens of a side come from its literals and from what is picked for its classes; the
deletion mark is dropped. -/
theorem all_of_mem_realize {holds : Token → Prop} {items : List Item}
    {picks : List (Option Token)} (hitems : ∀ item ∈ items, item.All holds)
    (hpicks : ∀ token, some token ∈ picks → holds token) {token : Token}
    (h : token ∈ realize items picks) : holds token ∧ token ≠ nullMark := by
  have hrest : ∀ {item : Item} {items : List Item}, (∀ other ∈ item :: items, other.All holds) →
      ∀ other ∈ items, other.All holds :=
    fun hall other hmem => hall other (List.mem_cons_of_mem _ hmem)
  have hlater : ∀ {pick : Option Token} {picks : List (Option Token)},
      (∀ token, some token ∈ pick :: picks → holds token) →
        ∀ token, some token ∈ picks → holds token :=
    fun hall other hmem => hall other (List.mem_cons_of_mem _ hmem)
  fun_induction realize items picks with
  | case1 => simp at h
  | case2 _ items picks _ ih => exact ih (hrest hitems) hpicks h
  | case3 written items picks hmark ih =>
      rcases List.mem_cons.1 h with rfl | h
      · exact ⟨hitems (.literal token) List.mem_cons_self, by simpa using hmark⟩
      · exact ih (hrest hitems) hpicks h
  | case4 _ items picks _ _ ih => exact ih (hrest hitems) (hlater hpicks) h
  | case5 _ items picks picked hmark ih =>
      rcases List.mem_cons.1 h with rfl | h
      · exact ⟨hpicks token List.mem_cons_self, by simpa using hmark⟩
      · exact ih (hrest hitems) (hlater hpicks) h
  | case6 _ items picks ih => exact ih (hrest hitems) (hlater hpicks) h
  | case7 _ items ih => exact ih (hrest hitems) hpicks h

theorem exists_of_mem_choicesOf {α : Type} {lists : List (List α)} {choice : List α}
    (h : choice ∈ choicesOf lists) {a : α} (hmem : a ∈ choice) :
    ∃ options ∈ lists, a ∈ options := by
  induction lists generalizing choice with
  | nil =>
      rw [choicesOf, List.mem_singleton] at h
      simp [h] at hmem
  | cons options rest ih =>
      simp only [choicesOf, List.mem_flatMap, List.mem_map] at h
      obtain ⟨option, hoption, tail, htail, rfl⟩ := h
      rcases List.mem_cons.1 hmem with rfl | hmem
      · exact ⟨options, List.mem_cons_self, hoption⟩
      · obtain ⟨other, hother, ha⟩ := ih htail hmem
        exact ⟨other, List.mem_cons_of_mem options hother, ha⟩

theorem mem_classes_of_mem_classPicks {sources targets : List (List (Option Token))}
    {picks : List Pick} (h : picks ∈ classPicks sources targets) {pick : Pick}
    (hmem : pick ∈ picks) :
    (∃ members ∈ sources, pick.1 ∈ members) ∧
      ∀ token, pick.2 = some token → ∃ members ∈ targets, some token ∈ members := by
  fun_induction classPicks sources targets with
  | case1 => simp at h
  | case2 source sources ih =>
      rcases List.mem_cons.1 h with rfl | h
      · obtain ⟨member, hmember, rfl⟩ := List.mem_map.1 hmem
        exact ⟨⟨source, List.mem_cons_self, hmember⟩, by simp⟩
      · obtain ⟨⟨members, hmembers, hpick⟩, htarget⟩ := ih h
        exact ⟨⟨members, List.mem_cons_of_mem source hmembers, hpick⟩, htarget⟩
  | case3 source sources target targets ih =>
      rcases List.mem_cons.1 h with rfl | h
      · have hboth := List.of_mem_zip hmem
        exact ⟨⟨source, List.mem_cons_self, hboth.1⟩,
          fun token htoken => ⟨target, List.mem_cons_self, htoken ▸ hboth.2⟩⟩
      · obtain ⟨⟨members, hmembers, hpick⟩, htarget⟩ := ih h
        refine ⟨⟨members, List.mem_cons_of_mem source hmembers, hpick⟩, fun token htoken => ?_⟩
        obtain ⟨others, hothers, hother⟩ := htarget token htoken
        exact ⟨others, List.mem_cons_of_mem target hothers, hother⟩

theorem Item.all_members {holds : Token → Prop} {items : List Item}
    (h : ∀ item ∈ items, item.All holds) {members : List (Option Token)}
    (hmembers : members ∈ items.filterMap members?) {token : Token}
    (hmem : some token ∈ members) : holds token := by
  obtain ⟨item, hitem, hsome⟩ := List.mem_filterMap.1 hmembers
  cases item with
  | literal written => cases hsome
  | oneOf others =>
      cases hsome
      exact h _ hitem token hmem

/-- A change has an input, and a property of the tokens of both sides is one of its tokens. -/
theorem of_mem_expandChanges [Limits] {holds : Token → Prop} {source target : List Item}
    (hsource : ∀ item ∈ source, item.All holds) (htarget : ∀ item ∈ target, item.All holds)
    {changes : List Change} (h : expandChanges source target = .ok changes) {change : Change}
    (hmem : change ∈ changes) :
    change.input ≠ [] ∧
      ∀ token ∈ change.input ++ change.output, holds token ∧ token ≠ nullMark := by
  unfold expandChanges at h
  dsimp only at h
  split at h
  · cases h
  · obtain ⟨-, -, h⟩ := bind_eq_ok.1 h
    split at h
    · cases h
    · rename_i hinput
      cases h
      rw [mem_distinct] at hmem
      simp only [List.any_eq_true, not_exists, not_and, List.isEmpty_iff] at hinput
      refine ⟨hinput change hmem, ?_⟩
      obtain ⟨picks, hpicks, rfl⟩ := List.mem_map.1 hmem
      intro token htoken
      rcases List.mem_append.1 htoken with htoken | htoken
      · refine all_of_mem_realize hsource (fun picked hpicked => ?_) htoken
        obtain ⟨pick, hpick, hfst⟩ := List.mem_map.1 hpicked
        obtain ⟨options, hoptions, hin⟩ := exists_of_mem_choicesOf hpicks hpick
        obtain ⟨members, hmembers, hmember⟩ := (mem_classes_of_mem_classPicks hoptions hin).1
        exact Item.all_members hsource hmembers (hfst ▸ hmember)
      · refine all_of_mem_realize htarget (fun picked hpicked => ?_) htoken
        obtain ⟨pick, hpick, hsnd⟩ := List.mem_map.1 hpicked
        obtain ⟨options, hoptions, hin⟩ := exists_of_mem_choicesOf hpicks hpick
        obtain ⟨members, hmembers, hmember⟩ :=
          (mem_classes_of_mem_classPicks hoptions hin).2 picked hsnd
        exact Item.all_members htarget hmembers hmember

/-! ## Rules -/

theorem mem_combine_iff [Limits] {changes : List Change} {lefts rights : List Constraint}
    {line : Nat} {rules : List Rule} (h : combine changes lefts rights line = .ok rules)
    {rule : Rule} :
    rule ∈ rules ↔ ∃ change ∈ changes, ∃ left ∈ lefts, ∃ right ∈ rights,
      rule = ⟨change.input, change.output, left, right, line⟩ := by
  obtain ⟨-, -, h⟩ := bind_eq_ok.1 h
  cases h
  simp only [mem_distinct, List.mem_flatMap, List.mem_map, eq_comm]

/-- The rules of a statement are its changes, each between one variant of either context. -/
theorem exists_of_expand [Limits] {statement : RuleStatement} {rules : List Rule}
    (h : statement.expand = .ok rules) :
    ∃ shape source target changes lefts rights, parseShape statement.text = .ok shape ∧
      Reads shape.source source ∧ Reads shape.target target ∧
      expandChanges source target = .ok changes ∧
      expandContext .left shape.left = .ok lefts ∧
      expandContext .right shape.right = .ok rights ∧
      ∀ rule, rule ∈ rules ↔ ∃ change ∈ changes, ∃ left ∈ lefts, ∃ right ∈ rights,
        rule = ⟨change.input, change.output, left, right, statement.line⟩ := by
  obtain ⟨shape, hshape, h⟩ := bind_eq_ok.1 h
  obtain ⟨source, hsource, h⟩ := bind_eq_ok.1 h
  obtain ⟨target, htarget, h⟩ := bind_eq_ok.1 h
  obtain ⟨changes, hchanges, h⟩ := bind_eq_ok.1 h
  obtain ⟨lefts, hlefts, h⟩ := bind_eq_ok.1 h
  obtain ⟨rights, hrights, h⟩ := bind_eq_ok.1 h
  exact ⟨shape, source, target, changes, lefts, rights, hshape, parseItems_eq_ok_iff.1 hsource,
    parseItems_eq_ok_iff.1 htarget, hchanges, hlefts, hrights, fun rule => mem_combine_iff h⟩

theorem exists_of_mem_expand [Limits] {statement : RuleStatement} {rules : List Rule}
    (h : statement.expand = .ok rules) {rule : Rule} (hmem : rule ∈ rules) :
    ∃ shape source target changes lefts rights, parseShape statement.text = .ok shape ∧
      Reads shape.source source ∧ Reads shape.target target ∧
      expandChanges source target = .ok changes ∧
      expandContext .left shape.left = .ok lefts ∧
      expandContext .right shape.right = .ok rights ∧
      ∃ change ∈ changes, ∃ left ∈ lefts, ∃ right ∈ rights,
        rule = ⟨change.input, change.output, left, right, statement.line⟩ := by
  obtain ⟨shape, source, target, changes, lefts, rights, hshape, hsource, htarget, hchanges,
    hlefts, hrights, hrules⟩ := exists_of_expand h
  exact ⟨shape, source, target, changes, lefts, rights, hshape, hsource, htarget, hchanges,
    hlefts, hrights, (hrules rule).1 hmem⟩

theorem exists_of_mem_compileText [Limits] {text : Text} {mayRedefine : Bool} {compiled : RuleSet}
    (h : compileText text mayRedefine = .ok compiled) :
    ∃ statements table resolved prepared, classify text = .ok statements ∧
      tableOf (definitions statements) mayRedefine = .ok table ∧
      table.resolveAll = .ok resolved ∧
      prepare resolved (ruleStatements statements) = .ok prepared ∧
      ∀ rule ∈ compiled.rules, ∃ statement ∈ prepared.statements, ∃ rules,
        statement.expand = .ok rules ∧ rule ∈ rules := by
  obtain ⟨statements, hstatements, h⟩ := bind_eq_ok.1 h
  obtain ⟨table, htable, h⟩ := bind_eq_ok.1 h
  obtain ⟨resolved, hresolved, h⟩ := bind_eq_ok.1 h
  obtain ⟨prepared, hprepared, h⟩ := bind_eq_ok.1 h
  obtain ⟨expanded, hexpanded, h⟩ := bind_eq_ok.1 h
  cases h
  refine ⟨statements, table, resolved, prepared, hstatements, htable, hresolved, hprepared, ?_⟩
  intro rule hmem
  obtain ⟨rules, hrules, hrule⟩ := List.mem_flatten.1 hmem
  obtain ⟨statement, hstatement, hexpand⟩ := exists_of_mem_mapM hexpanded hrules
  exact ⟨statement, hstatement, rules, mapError_eq_ok.1 hexpand, hrule⟩

/-- Every rule of a text has an input, and a property of all literal tokens that can be
written is one of all tokens the rule reads and writes. -/
theorem of_mem_compileText [Limits] {holds : Token → Prop}
    (hword : ∀ word : Text, word ≠ [] → (∀ c ∈ word, continuesLiteral c = true) →
      holds (String.ofList word))
    {text : Text} {mayRedefine : Bool} {compiled : RuleSet}
    (h : compileText text mayRedefine = .ok compiled) {rule : Rule}
    (hmem : rule ∈ compiled.rules) :
    rule.input ≠ [] ∧ ∀ token ∈ rule.input ++ rule.output, holds token := by
  obtain ⟨-, -, -, prepared, -, -, -, -, hrules⟩ := exists_of_mem_compileText h
  obtain ⟨statement, -, rules, hexpand, hrule⟩ := hrules rule hmem
  obtain ⟨shape, source, target, changes, lefts, rights, -, hsource, htarget, hchanges, -, -,
    change, hchange, left, -, right, -, rfl⟩ := exists_of_mem_expand hexpand hrule
  have hread : ∀ {side : Text} {items : List Item}, Reads side items →
      ∀ item ∈ items, item.All holds :=
    fun hreads => hreads.all (fun _ hc => hc) fun word _ => hword word
  obtain ⟨hinput, htokens⟩ :=
    of_mem_expandChanges (hread hsource) (hread htarget) hchanges hchange
  exact ⟨hinput, fun token htoken => (htokens token htoken).1⟩

theorem input_ne_nil_of_compileText [Limits] {text : Text} {mayRedefine : Bool} {compiled : RuleSet}
    (h : compileText text mayRedefine = .ok compiled) {rule : Rule}
    (hmem : rule ∈ compiled.rules) : rule.input ≠ [] := by
  have htokens : rule.input ≠ [] ∧ ∀ token ∈ rule.input ++ rule.output, True :=
    of_mem_compileText (fun _ _ _ => trivial) h hmem
  exact htokens.1

theorem ne_empty_of_compileText [Limits] {text : Text} {mayRedefine : Bool} {compiled : RuleSet}
    (h : compileText text mayRedefine = .ok compiled) {rule : Rule}
    (hmem : rule ∈ compiled.rules) {token : Token}
    (htoken : token ∈ rule.input ++ rule.output) : token ≠ "" := by
  have hword : ∀ word : Text, word ≠ [] → (∀ c ∈ word, continuesLiteral c = true) →
      String.ofList word ≠ "" := by
    intro word hne _ hempty
    exact hne (by simpa using congrArg String.toList hempty)
  have htokens : rule.input ≠ [] ∧ ∀ token ∈ rule.input ++ rule.output, token ≠ "" :=
    of_mem_compileText hword h hmem
  exact htokens.2 token htoken

end Diachrony.RuleText
