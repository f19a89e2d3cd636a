import Diachrony.Proofs.ClassPairing
import Diachrony.Proofs.ContextMeaning
import Diachrony.Proofs.Stages
import Diachrony.Proofs.SyntaxFree

/-!
# Marks in compiled contexts

A context is cut at its one placeholder outside all brackets, and a class reads the placeholder
and the deletion mark as its empty option.  Between the two, in an optional group for instance,
both marks are words like any other: they reach the contexts of compiled rules exactly if they
stand beside the classes of a context side.
-/

namespace Diachrony

/-- The tokens of both contexts of a rule, the word boundary included. -/
def Rule.surrounding (rule : Rule) : List Token :=
  rule.left.getD [] ++ rule.right.getD []

namespace RuleText

/-! ## What stands beside the classes -/

/-- A text with its brackets and everything inside its classes blanked out, behind a number of
classes that are open. -/
def besideClasses : Nat → Text → Text
  | _, [] => []
  | depth, c :: rest =>
      if c = '[' then ' ' :: besideClasses (depth + 1) rest
      else if c = ']' then ' ' :: besideClasses (depth - 1) rest
      else (if depth = 0 ∧ c ≠ '(' ∧ c ≠ ')' then c else ' ') :: besideClasses depth rest

/-- The words that stand beside the classes of a text, in groups or not. -/
def wordsBesideClasses (text : Text) : List Text :=
  Text.words (besideClasses 0 text)

theorem besideClasses_append {depth behind : Nat} {text : Text}
    (h : openClasses? depth text = some behind) (rest : Text) :
    besideClasses depth (text ++ rest) = besideClasses depth text ++ besideClasses behind rest := by
  fun_induction openClasses? depth text with
  | case1 depth =>
      cases h
      rfl
  | case2 depth text ih =>
      rw [List.cons_append, besideClasses, if_pos rfl, besideClasses, if_pos rfl, ih h]
      rfl
  | case3 => cases h
  | case4 depth text hdepth hopen ih =>
      rw [List.cons_append, besideClasses, if_neg hopen, if_pos rfl, besideClasses, if_neg hopen,
        if_pos rfl, ih h]
      rfl
  | case5 depth c text hopen hclose ih =>
      rw [List.cons_append, besideClasses, if_neg hopen, if_neg hclose, besideClasses,
        if_neg hopen, if_neg hclose, ih h]
      rfl

theorem isAllBlank_besideClasses_succ {depth behind : Nat} {text : Text}
    (h : openClasses? depth text = some behind) :
    Text.isAllBlank (besideClasses (depth + 1) text) = true := by
  rw [Text.isAllBlank]
  fun_induction openClasses? depth text with
  | case1 => rfl
  | case2 depth text ih =>
      rw [besideClasses, if_pos rfl, List.all_cons, ih h]
      rfl
  | case3 => cases h
  | case4 depth text hdepth hopen ih =>
      obtain ⟨below, rfl⟩ := Nat.exists_eq_succ_of_ne_zero hdepth
      rw [besideClasses, if_neg hopen, if_pos rfl, List.all_cons]
      exact ih h
  | case5 depth c text hopen hclose ih =>
      have hinside : ¬ (depth + 1 = 0 ∧ c ≠ '(' ∧ c ≠ ')') := by omega
      rw [besideClasses, if_neg hopen, if_neg hclose, if_neg hinside, List.all_cons, ih h]
      rfl

theorem besideClasses_cons_of_not_mem {c : Char} (hc : c ∉ ['[', ']', '(', ')']) (rest : Text) :
    besideClasses 0 (c :: rest) = c :: besideClasses 0 rest := by
  simp only [List.mem_cons, List.not_mem_nil, or_false, not_or] at hc
  rw [besideClasses, if_neg hc.1, if_neg hc.2.1, if_pos ⟨rfl, hc.2.2⟩]

theorem besideClasses_cons_of_isBlank {c : Char} (hc : Text.isBlank c = true) (rest : Text) :
    besideClasses 0 (c :: rest) = c :: besideClasses 0 rest := by
  refine besideClasses_cons_of_not_mem (fun hmem => ?_) rest
  have hbrackets : ∀ d ∈ ['[', ']', '(', ')'], Text.isBlank d = false :=
    forall_mem_of_all (by decide)
  rw [hbrackets c hmem] at hc
  cases hc

theorem besideClasses_word_append {word : Text} (hword : ∀ c ∈ word, continuesLiteral c = true)
    (rest : Text) : besideClasses 0 (word ++ rest) = word ++ besideClasses 0 rest := by
  induction word with
  | nil => rfl
  | cons c word ih =>
      obtain ⟨hc, hword⟩ := List.forall_mem_cons.1 hword
      rw [List.cons_append, besideClasses_cons_of_not_mem (continuesLiteral_eq_true_iff.1 hc).2,
        ih hword, List.cons_append]

theorem isBlank_of_mem_head?_besideClasses {text : Text}
    (h : ∀ c ∈ text.head?, continuesLiteral c = false) :
    ∀ c ∈ (besideClasses 0 text).head?, Text.isBlank c = true := by
  cases text with
  | nil => simp [besideClasses]
  | cons d rest =>
      have hd := h d rfl
      simp only [continuesLiteral, Bool.not_eq_false', Bool.or_eq_true,
        List.contains_iff_mem] at hd
      intro c hc
      rcases hd with hblank | hbracket
      · rw [besideClasses_cons_of_isBlank hblank] at hc
        cases hc
        exact hblank
      · have hcases : d = '[' ∨ d = ']' ∨ d = '(' ∨ d = ')' := by simpa using hbracket
        rcases hcases with rfl | rfl | rfl | rfl
        all_goals
          cases hc
          decide

/-! ## The words beside the classes, part by part -/

theorem wordsBesideClasses_cons_of_isBlank {c : Char} (hc : Text.isBlank c = true)
    (rest : Text) : wordsBesideClasses (c :: rest) = wordsBesideClasses rest := by
  rw [wordsBesideClasses, besideClasses_cons_of_isBlank hc, Text.words_cons_of_isBlank hc]
  rfl

theorem wordsBesideClasses_word_append {word rest : Text} (hne : word ≠ [])
    (hword : ∀ c ∈ word, continuesLiteral c = true)
    (hend : ∀ c ∈ rest.head?, continuesLiteral c = false) :
    wordsBesideClasses (word ++ rest) = word :: wordsBesideClasses rest := by
  have hletters : ∀ c ∈ word, Text.isBlank c = false :=
    fun c hc => (continuesLiteral_eq_true_iff.1 (hword c hc)).1
  rw [wordsBesideClasses, besideClasses_word_append hword,
    Text.words_word_append hne hletters (isBlank_of_mem_head?_besideClasses hend)]
  rfl

theorem wordsBesideClasses_class {inside : Text} (hinside : openClasses? 0 inside = some 0)
    (after : Text) :
    wordsBesideClasses ('[' :: (inside ++ ']' :: after)) = wordsBesideClasses after := by
  have hcut := besideClasses_append (openClasses?_succ hinside) (']' :: after)
  rw [wordsBesideClasses, besideClasses, if_pos rfl, hcut, Text.words_cons_of_isBlank (by decide),
    besideClasses, if_neg (by decide), if_pos rfl, Text.words_append_cons (by decide),
    Text.words_of_isAllBlank (isAllBlank_besideClasses_succ hinside), List.nil_append]
  rfl

theorem wordsBesideClasses_group {inside : Text} (hinside : openClasses? 0 inside = some 0)
    (after : Text) :
    wordsBesideClasses ('(' :: (inside ++ ')' :: after)) =
      wordsBesideClasses inside ++ wordsBesideClasses after := by
  have hcut := besideClasses_append hinside (')' :: after)
  rw [wordsBesideClasses, besideClasses, if_neg (by decide), if_neg (by decide), if_neg (by decide),
    hcut, Text.words_cons_of_isBlank (by decide), besideClasses, if_neg (by decide),
    if_neg (by decide), if_neg (by decide), Text.words_append_cons (by decide)]
  rfl

/-! ## Marks in what a context side stands for -/

theorem Lists.openClasses?_eq {inside : Text} {members : List (Option Token)}
    (h : Lists inside members) : openClasses? 0 inside = some 0 := by
  obtain ⟨inner, hinner, -⟩ := lists_iff.1 h
  exact hinner.openClasses?_eq 0

theorem StandsFor.openClasses?_eq {text : Text} {sequence : List Token}
    (h : StandsFor text sequence) : openClasses? 0 text = some 0 := by
  induction h with
  | nil => rfl
  | blank hc hrest ih => rw [openClasses?_cons_of_isPlain (Text.isPlain_of_isBlank hc), ih]
  | word hne hword hend hrest ih =>
      rw [openClasses?_append,
        openClasses?_of_forall fun c hc => isPlain_of_continuesLiteral (hword c hc)]
      exact ih
  | oneOf hinside hmember hafter ih =>
      exact (openClasses?_bracketed (openClasses?_succ hinside.openClasses?_eq) _).trans ih
  | kept hinside hafter ihinside ihafter
  | dropped hinside hafter ihinside ihafter =>
      rw [openClasses?, if_neg (by decide), if_neg (by decide), openClasses?_append, ihinside]
      exact ihafter

/-- No member of a class is a mark: a class reads them as the empty option. -/
theorem Lists.memberOf_eq {inside : Text} {members : List (Option Token)}
    (h : Lists inside members) {token : Token} (hmem : some token ∈ members) :
    memberOf token = some token := by
  induction h with
  | nil => cases hmem
  | blank hc hrest ih => exact ih hmem
  | @word word rest members hne hword hend hrest ih =>
      rcases List.mem_cons.1 hmem with hfirst | hmem
      · have hsame : String.ofList word = token := by
          rw [memberOf] at hfirst
          split at hfirst
          · cases hfirst
          · exact (Option.some.inj hfirst).symm
        rw [hsame] at hfirst
        exact hfirst.symm
      · exact ih hmem
  | oneOf hne hinside hafter ihinside ihafter =>
      rcases List.mem_append.1 hmem with hmem | hmem
      · exact ihinside hmem
      · exact ihafter hmem

theorem StandsFor.mem_wordsBesideClasses {text : Text} {sequence : List Token}
    (h : StandsFor text sequence) {mark : Token} (hmark : memberOf mark = none)
    (hmem : mark ∈ sequence) : mark.toList ∈ wordsBesideClasses text := by
  induction h with
  | nil => cases hmem
  | blank hc hrest ih =>
      rw [wordsBesideClasses_cons_of_isBlank hc]
      exact ih hmem
  | word hne hword hend hrest ih =>
      rw [wordsBesideClasses_word_append hne hword hend]
      rcases List.mem_cons.1 hmem with rfl | hmem
      · rw [String.toList_ofList]
        exact List.mem_cons_self
      · exact List.mem_cons_of_mem _ (ih hmem)
  | oneOf hinside hmember hafter ih =>
      rw [wordsBesideClasses_class hinside.openClasses?_eq]
      rcases List.mem_append.1 hmem with hmem | hmem
      · rw [Option.mem_toList.1 hmem] at hmember
        rw [hinside.memberOf_eq hmember] at hmark
        cases hmark
      · exact ih hmem
  | kept hinside hafter ihinside ihafter =>
      rw [wordsBesideClasses_group hinside.openClasses?_eq]
      rcases List.mem_append.1 hmem with hmem | hmem
      · exact List.mem_append_left _ (ihinside hmem)
      · exact List.mem_append_right _ (ihafter hmem)
  | dropped hinside hafter ihinside ihafter =>
      rw [wordsBesideClasses_group hinside.openClasses?_eq]
      exact List.mem_append_right _ (ihafter hmem)

/-- Every word beside the classes is in some sequence: the one that keeps the groups around it. -/
theorem StandsFor.exists_of_mem_wordsBesideClasses {text : Text} {sequence : List Token}
    (h : StandsFor text sequence) {word : Text} (hmem : word ∈ wordsBesideClasses text) :
    ∃ other, StandsFor text other ∧ String.ofList word ∈ other := by
  induction h with
  | nil => cases hmem
  | blank hc hrest ih =>
      rw [wordsBesideClasses_cons_of_isBlank hc] at hmem
      obtain ⟨other, hother, hword⟩ := ih hmem
      exact ⟨other, .blank hc hother, hword⟩
  | word hne hword hend hrest ih =>
      rw [wordsBesideClasses_word_append hne hword hend] at hmem
      rcases List.mem_cons.1 hmem with rfl | hmem
      · exact ⟨_, .word hne hword hend hrest, List.mem_cons_self⟩
      · obtain ⟨other, hother, hin⟩ := ih hmem
        exact ⟨_, .word hne hword hend hother, List.mem_cons_of_mem _ hin⟩
  | oneOf hinside hmember hafter ih =>
      rw [wordsBesideClasses_class hinside.openClasses?_eq] at hmem
      obtain ⟨other, hother, hin⟩ := ih hmem
      exact ⟨_, .oneOf hinside hmember hother, List.mem_append_right _ hin⟩
  | kept hinside hafter ihinside ihafter
  | dropped hinside hafter ihinside ihafter =>
      rw [wordsBesideClasses_group hinside.openClasses?_eq] at hmem
      rcases List.mem_append.1 hmem with hmem | hmem
      · obtain ⟨other, hother, hin⟩ := ihinside hmem
        exact ⟨_, .kept hother hafter, List.mem_append_left _ hin⟩
      · obtain ⟨other, hother, hin⟩ := ihafter hmem
        exact ⟨_, .kept hinside hother, List.mem_append_right _ hin⟩

/-! ## Marks in compiled contexts -/

theorem ne_nil_of_expandContext [Limits] {side : ContextSide} {text : Option Text}
    {constraints : List Constraint} (h : expandContext side text = .ok constraints) :
    constraints ≠ [] := by
  cases text with
  | none =>
      cases h
      exact List.cons_ne_nil none []
  | some text =>
      obtain ⟨sequence, hstands⟩ := exists_standsFor_of_expandContext h
      obtain ⟨-, -, -, -, hmem⟩ := exists_of_expandContext h
      exact List.ne_nil_of_mem ((hmem _).2 ⟨sequence, hstands, rfl⟩)

theorem getD_toConstraint (sequence : List Token) : (toConstraint sequence).getD [] = sequence := by
  cases sequence with
  | nil => rfl
  | cons token rest => rfl

theorem mark_mem_expandContext_iff [Limits] {side : ContextSide} {text : Option Text}
    {constraints : List Constraint} (h : expandContext side text = .ok constraints) {mark : Token}
    (hmark : memberOf mark = none) :
    (∃ constraint ∈ constraints, mark ∈ constraint.getD []) ↔
      ∃ part ∈ text, mark.toList ∈ wordsBesideClasses part := by
  cases text with
  | none =>
      cases h
      simp
  | some text =>
      obtain ⟨-, -, -, -, hmem⟩ := exists_of_expandContext h
      simp only [hmem, Option.mem_some_iff, exists_eq_left']
      constructor
      · rintro ⟨_, ⟨sequence, hstands, rfl⟩, hin⟩
        rw [getD_toConstraint] at hin
        exact hstands.mem_wordsBesideClasses hmark hin
      · intro hword
        obtain ⟨sequence, hstands⟩ := exists_standsFor_of_expandContext h
        obtain ⟨other, hother, hin⟩ := hstands.exists_of_mem_wordsBesideClasses hword
        rw [String.ofList_toList] at hin
        refine ⟨_, ⟨other, hother, rfl⟩, ?_⟩
        rwa [getD_toConstraint]

/-- Whether a token stands beside the classes on either side of the placeholder of a statement. -/
def RuleStatement.ShowsBeside (statement : RuleStatement) (token : Token) : Prop :=
  ∃ shape, parseShape statement.text = .ok shape ∧
    ∃ side ∈ shape.left.toList ++ shape.right.toList, token.toList ∈ wordsBesideClasses side

theorem mark_mem_surrounding_iff [Limits] {statement : RuleStatement} {rules : List Rule}
    (h : statement.expand = .ok rules) {mark : Token} (hmark : memberOf mark = none) :
    (∃ rule ∈ rules, mark ∈ rule.surrounding) ↔ statement.ShowsBeside mark := by
  obtain ⟨shape, source, target, changes, lefts, rights, hshape, hsource, htarget, hchanges,
    hlefts, hrights, hrules⟩ := exists_of_expand h
  obtain ⟨change, hchange⟩ := List.exists_mem_of_ne_nil _ (ne_nil_of_expandChanges hsource hchanges)
  obtain ⟨left, hleft⟩ := List.exists_mem_of_ne_nil _ (ne_nil_of_expandContext hlefts)
  obtain ⟨right, hright⟩ := List.exists_mem_of_ne_nil _ (ne_nil_of_expandContext hrights)
  have hsides : statement.ShowsBeside mark ↔
      (∃ part ∈ shape.left, mark.toList ∈ wordsBesideClasses part) ∨
        ∃ part ∈ shape.right, mark.toList ∈ wordsBesideClasses part := by
    simp only [RuleStatement.ShowsBeside, hshape, Except.ok.injEq, exists_eq_left',
      List.mem_append, Option.mem_toList, or_and_right, exists_or]
    rfl
  rw [hsides, ← mark_mem_expandContext_iff hlefts hmark, ← mark_mem_expandContext_iff hrights hmark]
  constructor
  · rintro ⟨rule, hrule, hin⟩
    obtain ⟨other, -, first, hfirst, second, hsecond, rfl⟩ := (hrules rule).1 hrule
    rcases List.mem_append.1 hin with hin | hin
    · exact .inl ⟨first, hfirst, hin⟩
    · exact .inr ⟨second, hsecond, hin⟩
  · rintro (⟨first, hfirst, hin⟩ | ⟨second, hsecond, hin⟩)
    · refine ⟨_, (hrules _).2 ⟨change, hchange, first, hfirst, right, hright, rfl⟩, ?_⟩
      exact List.mem_append_left _ hin
    · refine ⟨_, (hrules _).2 ⟨change, hchange, left, hleft, second, hsecond, rfl⟩, ?_⟩
      exact List.mem_append_right _ hin

theorem of_splitContext {context : Text} {left right : Option Text}
    (h : splitContext context = .ok (left, right)) :
    Text.topLevelCount '_' 0 context = 1 ∧
      ∀ side ∈ left.toList ++ right.toList, Text.topLevelCount '_' 0 side = 0 := by
  have hside : ∀ {piece side : Text}, piece ∈ Text.splitTopLevel '_' context →
      contextSide? piece = some side → Text.topLevelCount '_' 0 side = 0 := by
    intro piece side hpiece hside
    unfold contextSide? at hside
    dsimp only at hside
    split at hside
    · cases hside
    · cases hside
      exact Text.topLevelCount_trim_eq_zero (Text.topLevelCount_of_mem_splitTopLevel hpiece)
  have hlength : (Text.splitTopLevel '_' context).length =
      0 + 1 + Text.topLevelCount '_' 0 context := Text.length_topLevelLoop 0 context [] []
  unfold splitContext at h
  split at h
  · rename_i first second hsplit
    cases h
    rw [hsplit, List.length_cons, List.length_singleton] at hlength
    refine ⟨by omega, fun side hmem => ?_⟩
    rcases List.mem_append.1 hmem with hmem | hmem
    · exact hside (by simp [hsplit]) (Option.mem_toList.1 hmem)
    · exact hside (by simp [hsplit]) (Option.mem_toList.1 hmem)
  · cases h
  · cases h
  · cases h

theorem count_besideClasses {needle : Char} (hneedle : needle ≠ ' ') {text : Text}
    (htext : hasParenthesis text = false) (depth : Nat) :
    (besideClasses depth text).count needle = Text.topLevelCount needle depth text := by
  have hspace : ∀ rest : Text, (' ' :: rest).count needle = rest.count needle :=
    fun rest => List.count_cons_of_ne hneedle.symm
  induction text generalizing depth with
  | nil => rfl
  | cons c rest ih =>
      simp only [hasParenthesis, List.any_cons, Bool.or_eq_false_iff, beq_eq_false_iff_ne] at htext
      obtain ⟨⟨hopen, hclose⟩, hrest⟩ := htext
      rw [besideClasses, Text.topLevelCount]
      by_cases hleft : c = '['
      · rw [if_pos hleft, hspace, ih hrest, hleft]
        rfl
      by_cases hright : c = ']'
      · rw [if_neg hleft, if_pos hright, hspace, ih hrest, hright]
        rfl
      obtain ⟨hopened, hclosed⟩ : Bracket.IsPlain c :=
        Bracket.isPlain_of_not_mem (by simp [hleft, hright, hopen, hclose])
      rw [if_neg hleft, if_neg hright, hopened, hclosed]
      by_cases hdepth : depth = 0
      · rw [if_pos ⟨hdepth, hopen, hclose⟩, List.count_cons, ih hrest]
        by_cases hc : c = needle
        · simp [hc, hdepth]
        · simp [hc]
      · rw [if_neg fun h => hdepth h.1, hspace, ih hrest]
        simp [hdepth]

theorem hasParenthesis_of_placeholder {side : Text} (hside : Text.topLevelCount '_' 0 side = 0)
    (h : emptyMark.toList ∈ wordsBesideClasses side) : hasParenthesis side = true := by
  by_contra hnone
  rw [wordsBesideClasses, Text.words_eq_runs] at h
  have hmem : '_' ∈ besideClasses 0 side :=
    (Text.IsWholePart.of_mem_runs (fun _ hc => hc) h).mem (by decide)
  have hcount : (besideClasses 0 side).count '_' = Text.topLevelCount '_' 0 side :=
    count_besideClasses (by decide) (by simpa using hnone) 0
  rw [hside, List.count_eq_zero] at hcount
  exact hcount hmem

structure IsReadable (token : Token) : Prop where
  ne_empty : token ≠ ""
  continuesLiteral : ∀ c ∈ token.toList, continuesLiteral c = true

theorem isReadable_of_mem_surrounding [Limits] {statement : RuleStatement} {rules : List Rule}
    (h : statement.expand = .ok rules) {rule : Rule} (hrule : rule ∈ rules) {token : Token}
    (htoken : token ∈ rule.surrounding) : IsReadable token := by
  obtain ⟨shape, source, target, changes, lefts, rights, -, -, -, -, hlefts, hrights, change, -,
    left, hleft, right, hright, rfl⟩ := exists_of_mem_expand h hrule
  have hword : ∀ word, Text.FreeOf [] [] word → word ≠ [] →
      (∀ c ∈ word, RuleText.continuesLiteral c = true) → IsReadable (String.ofList word) := by
    intro word _ hne hcontinues
    refine ⟨fun hempty => hne (by simpa using congrArg String.toList hempty), ?_⟩
    rwa [String.toList_ofList]
  have hside : ∀ {side : ContextSide} {text : Option Text} {constraints : List Constraint},
      expandContext side text = .ok constraints → ∀ constraint ∈ constraints,
        ∀ token ∈ constraint.getD [], IsReadable token := fun hexpanded _ hmem =>
    (of_mem_expandContext (by decide) hword (fun part _ => .of_nil part) hexpanded hmem).2
  rcases List.mem_append.1 htoken with htoken | htoken
  · exact hside hlefts left hleft token htoken
  · exact hside hrights right hright token htoken

theorem exists_isCut_of_expand [Limits] {statement : RuleStatement} {rules : List Rule}
    (h : statement.expand = .ok rules) :
    ∃ before after target context shape, IsCut statement.text before after target context shape ∧
      (∀ text ∈ context, Text.topLevelCount '_' 0 text = 1) ∧
      ∀ side ∈ shape.left.toList ++ shape.right.toList,
        emptyMark.toList ∈ wordsBesideClasses side → hasParenthesis side = true := by
  obtain ⟨shape, -, -, -, -, -, hshape, -⟩ := exists_of_expand h
  obtain ⟨before, after, target, context, hcut⟩ := parseShape_eq_ok_iff.1 hshape
  refine ⟨before, after, target, context, shape, hcut, ?_⟩
  have hsides := hcut.placeholder
  cases context with
  | none =>
      rw [Option.elim_none, Except.ok.injEq, Prod.mk.injEq] at hsides
      simp [← hsides.1, ← hsides.2]
  | some text =>
      obtain ⟨hcount, hzero⟩ := of_splitContext hsides
      refine ⟨fun other hother => ?_, fun side hside hmark => ?_⟩
      · cases hother
        exact hcount
      · exact hasParenthesis_of_placeholder (hzero side hside) hmark

/-- What can stand in the contexts of compiled rules.  Every context is cut at the one placeholder
it has outside all brackets, and every token of a compiled context is a word; but `_` and `∅` are
such words too.  They reach a context exactly if they stand beside the classes of a context side,
where `_` is inside an optional group. -/
theorem mark_mem_surrounding_iff_of_compileText [Limits] {text : Text} {mayRedefine : Bool}
    {compiled : RuleSet} (h : compileText text mayRedefine = .ok compiled) :
    ∃ statements table resolved prepared expanded,
      IsStaged text mayRedefine statements table resolved prepared expanded ∧
      compiled.rules = expanded.flatten ∧
      (∀ statement ∈ prepared.statements, ∃ before after target context shape,
        IsCut statement.text before after target context shape ∧
        (∀ text ∈ context, Text.topLevelCount '_' 0 text = 1) ∧
        ∀ side ∈ shape.left.toList ++ shape.right.toList,
          emptyMark.toList ∈ wordsBesideClasses side → hasParenthesis side = true) ∧
      (∀ rule ∈ compiled.rules, ∀ token ∈ rule.surrounding, IsReadable token) ∧
      ∀ mark ∈ [emptyMark, nullMark], (∃ rule ∈ compiled.rules, mark ∈ rule.surrounding) ↔
        ∃ statement ∈ prepared.statements, statement.ShowsBeside mark := by
  have hrules : (compileText text mayRedefine).map RuleSet.rules = .ok compiled.rules :=
    map_eq_ok.2 ⟨compiled, h, rfl⟩
  obtain ⟨statements, table, resolved, prepared, expanded, hstaged, hflatten⟩ :=
    rules_compileText_eq_ok_iff.1 hrules
  have hstatement : ∀ {rule}, rule ∈ compiled.rules → ∃ statement ∈ prepared.statements,
      ∃ rules, statement.expand = .ok rules ∧ rule ∈ rules := by
    intro rule hrule
    rw [hflatten] at hrule
    obtain ⟨rules, hmem, hin⟩ := List.mem_flatten.1 hrule
    obtain ⟨statement, hstatement, hexpand⟩ := exists_left_of_forall₂ hstaged.expand hmem
    exact ⟨statement, hstatement, rules, hexpand, hin⟩
  refine ⟨statements, table, resolved, prepared, expanded, hstaged, hflatten,
    fun statement hmem => ?_, fun rule hrule token htoken => ?_, fun mark hmark => ⟨?_, ?_⟩⟩
  · obtain ⟨rules, -, hexpand⟩ := exists_right_of_forall₂ hstaged.expand hmem
    exact exists_isCut_of_expand hexpand
  · obtain ⟨statement, -, rules, hexpand, hin⟩ := hstatement hrule
    exact isReadable_of_mem_surrounding hexpand hin htoken
  · have hoption : memberOf mark = none := if_pos (List.mem_pair.1 hmark)
    rintro ⟨rule, hrule, hin⟩
    obtain ⟨statement, hmem, rules, hexpand, hrules⟩ := hstatement hrule
    exact ⟨statement, hmem, (mark_mem_surrounding_iff hexpand hoption).1 ⟨rule, hrules, hin⟩⟩
  · have hoption : memberOf mark = none := if_pos (List.mem_pair.1 hmark)
    rintro ⟨statement, hmem, hshows⟩
    obtain ⟨rules, hrules, hexpand⟩ := exists_right_of_forall₂ hstaged.expand hmem
    obtain ⟨rule, hrule, hin⟩ := (mark_mem_surrounding_iff hexpand hoption).2 hshows
    refine ⟨rule, ?_, hin⟩
    rw [hflatten]
    exact List.mem_flatten.2 ⟨rules, hrules, hrule⟩

/-- A placeholder inside a class does not stand beside it, so it is in none of these rules. -/
theorem mark_mem_surrounding_iff_of_compileText_class :
    ∃ compiled, compileText "a > b / (a [c _]) _".toList true = .ok compiled ∧
      compiled.rules.length = 3 ∧
      ∃ statements table resolved prepared expanded,
        IsStaged "a > b / (a [c _]) _".toList true statements table resolved prepared expanded ∧
        ¬ ∃ statement ∈ prepared.statements, statement.ShowsBeside emptyMark := by
  have hcompiled : compileText "a > b / (a [c _]) _".toList true =
      .ok ⟨[⟨["a"], ["b"], some ["a", "c"], none, 1⟩, ⟨["a"], ["b"], some ["a"], none, 1⟩,
        ⟨["a"], ["b"], none, none, 1⟩], ⟨1, 0, 1, 3, 3⟩⟩ := by cbv
  obtain ⟨statements, table, resolved, prepared, expanded, hstaged, -, -, -, hmarks⟩ :=
    mark_mem_surrounding_iff_of_compileText hcompiled
  refine ⟨_, hcompiled, rfl, statements, table, resolved, prepared, expanded, hstaged, ?_⟩
  rw [← hmarks emptyMark (by decide)]
  decide

/-- A placeholder in an optional group is a second one beside the classes of its context; kept,
it is a token of the right context.  The deletion mark needs no group to get into a context. -/
theorem mark_mem_surrounding_group :
    (besideClasses 0 " _ (_)".toList).count '_' = 2 ∧
    (∃ compiled, compileText "a > b / _ (_)".toList true = .ok compiled ∧
      ∃ rule ∈ compiled.rules, emptyMark ∈ rule.surrounding) ∧
    ∃ compiled, compileText "a > b / ∅ _".toList true = .ok compiled ∧
      ∃ rule ∈ compiled.rules, nullMark ∈ rule.surrounding := by
  have hgroup : compileText "a > b / _ (_)".toList true =
      .ok ⟨[⟨["a"], ["b"], none, some ["_"], 1⟩, ⟨["a"], ["b"], none, none, 1⟩],
        ⟨1, 0, 1, 2, 2⟩⟩ := by cbv
  have hnull : compileText "a > b / ∅ _".toList true =
      .ok ⟨[⟨["a"], ["b"], some ["∅"], none, 1⟩], ⟨1, 0, 1, 1, 2⟩⟩ := by
    set_option maxRecDepth 4000 in cbv
  exact ⟨by decide, ⟨_, hgroup, by decide⟩, _, hnull, by decide⟩

end RuleText

end Diachrony
