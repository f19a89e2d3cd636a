import Diachrony.Proofs.OptionalGroups
import Diachrony.Proofs.Preparation
import Diachrony.Proofs.SpacedWords

/-!
# Compiling a written rule

The written form of a rule is a sequence of words joined by spaces.  Every stage of compiling
leaves such a text as it is or finds its words again, so a rule that can be written down is what
its written form compiles to.
-/

namespace Diachrony

namespace RuleText

/-- Whether a token can be written: it is nonempty and has no character that ends a token. -/
structure IsWritable (token : Token) : Prop where
  ne_empty : token ≠ ""
  not_delimiter : ∀ c ∈ token.toList, isDelimiter c = false

theorem isDelimiter_eq_false_iff {c : Char} :
    isDelimiter c = false ↔
      Text.isBlank c = false ∧ c ∉ ['[', ']', '(', ')', '!', '>', '/', '_', ';', '='] := by
  simp [isDelimiter]

theorem IsWritable.isWord {token : Token} (h : IsWritable token) : Text.IsWord token :=
  ⟨h.ne_empty, fun c hc => (isDelimiter_eq_false_iff.1 (h.not_delimiter c hc)).1⟩

theorem IsWritable.not_mem {token : Token} (h : IsWritable token) {c : Char}
    (hc : isDelimiter c = true) : c ∉ token.toList := by
  intro hmem
  rw [h.not_delimiter c hmem] at hc
  cases hc

/-! ## A text of one statement -/

theorem numberedLines_of_single {text : Text} (hne : text ≠ []) (hline : '\n' ∉ text) :
    Text.numberedLines text = [(1, text)] := by
  have hsplit : Text.splitWhere (· == '\n') text = [text] := Text.splitWhere_of_not_mem hline
  simp [Text.numberedLines, Text.lines, hsplit]

theorem isDefinition_of_not_mem {text : Text} (h : '=' ∉ text) : isDefinition text = false := by
  unfold isDefinition
  split
  · rename_i c hfind
    have hmem := List.mem_of_find?_eq_some hfind
    rw [beq_eq_false_iff_ne]
    rintro rfl
    exact h hmem
  · rfl

/-- A trimmed line without semicolons and equals signs is a rule statement. -/
theorem classify_of_single [Limits] {text : Text} (htrim : Text.trim text = text) (hne : text ≠ [])
    (hhead : ∀ c ∈ text.head?, Text.isBlank c = false ∧ c ≠ '#')
    (hplain : ∀ c ∈ text, c ∉ ['\n', ';', '=']) (hlength : text.length ≤ Limits.lineLength) :
    classify text = .ok [⟨1, String.ofList text, .rule text⟩] := by
  have hnot : ∀ c ∈ ['\n', ';', '='], c ∉ text := fun c hc hmem => hplain c hmem hc
  obtain ⟨first, rest, rfl⟩ := List.exists_cons_of_ne_nil hne
  obtain ⟨hblank, hhash⟩ := hhead first rfl
  have hall : Text.isAllBlank (first :: rest) = false := by simp [Text.isAllBlank, hblank]
  have hcomment : isComment (first :: rest) = false := by
    simp [isComment, Text.trimStart, hblank, hhash]
  have hsplit : Text.splitWhere (· == ';') (first :: rest) = [first :: rest] :=
    Text.splitWhere_of_not_mem (hnot ';' (by simp))
  have hstatements : Text.statements (first :: rest) = [first :: rest] := by
    simp [Text.statements, hsplit, htrim]
  have hparse : parseStatement (first :: rest) = .ok (.rule (first :: rest)) := by
    simp [parseStatement, isDefinition_of_not_mem (hnot '=' (by simp))]
  have hadd : Classified.empty.addLine (1, first :: rest) =
      .ok ⟨1, [⟨1, String.ofList (first :: rest), .rule (first :: rest)⟩]⟩ := by
    have hfits : ¬(first :: rest).length > Limits.lineLength := Nat.not_lt.2 hlength
    simp only [Classified.addLine, hfits, if_false, hall, hcomment, Bool.or_self,
      Bool.false_eq_true, hstatements]
    simp [Classified.addPiece, hparse, Classified.empty, Limits.statements_pos.ne']
  rw [classify, numberedLines_of_single hne (hnot '\n' (by simp)), List.foldlM_cons, hadd]
  rfl

theorem substitute_of_no_names (text : Text) :
    (⟨[], []⟩ : ResolvedVariables).substitute text = text :=
  substitute_of_forall_not_mem (fun _ hmem => absurd hmem List.not_mem_nil)
    (fun _ _ => List.not_mem_nil) _

/-- Without variables and negation marks a statement is expanded as it was written. -/
theorem compileText_of_classify [Limits] {text : Text} {statement : RuleStatement}
    {rules : List Rule}
    (hclassify : classify text = .ok [⟨statement.line, statement.source, .rule statement.text⟩])
    (hplain : '!' ∉ statement.text) (hexpand : statement.expand = .ok rules)
    (mayRedefine : Bool) :
    ∃ statistics, compileText text mayRedefine = .ok ⟨rules, statistics⟩ := by
  have hresolve : VariableTable.empty.resolveAll = .ok ⟨[], []⟩ := by
    cbv
  have hprepare : prepare ⟨[], []⟩ [statement] =
      .ok ⟨[statement], (knownTokens [statement.text]).size⟩ := by
    simp [prepare, substitute_of_no_names, expandNegativeSets_of_not_mem hplain,
      RuleStatement.locate, Except.mapError]
  have htable : tableOf (definitions
      [⟨statement.line, statement.source, .rule statement.text⟩]) mayRedefine =
        .ok VariableTable.empty := rfl
  have hstated : ruleStatements
      [⟨statement.line, statement.source, .rule statement.text⟩] = [statement] := rfl
  have hrules : [statement].mapM (fun statement => statement.locate statement.expand) =
      .ok [rules] := by
    simp [hexpand, RuleStatement.locate, Except.mapError]
  refine ⟨⟨1, 0, 1, rules.length, (knownTokens [statement.text]).size⟩, ?_⟩
  simp only [compileText, hclassify, bind, Except.bind, htable, hresolve, hstated, hprepare]
  rw [hrules]
  simp only [List.flatten_singleton]
  rfl

/-! ## The shape of a written rule -/

def writtenSide (words : List Token) : Option Text :=
  if words.isEmpty then none else some (Text.spaced words)

def contextWords : Option (List Token × List Token) → List Token
  | none => []
  | some (left, right) => "/" :: (left ++ "_" :: right)

/-- The marks that stand between the parts of a written rule. -/
def writtenMarks : List Token :=
  [">", "/", "_"]

theorem not_syntax_of_mem_word {word : Token} (hword : IsWritable word ∨ word ∈ writtenMarks)
    {c : Char} (hc : c ∈ word.toList) :
    Text.isBlank c = false ∧ c ∉ ['[', ']', '(', ')', '!', ';', '='] := by
  rcases hword with hwritable | hmark
  · obtain ⟨hblank, hother⟩ := isDelimiter_eq_false_iff.1 (hwritable.not_delimiter c hc)
    exact ⟨hblank, not_mem_of_subset (by decide) hother⟩
  · have hmarks : ∀ mark ∈ writtenMarks, (mark.toList.all fun c =>
        !Text.isBlank c && !(['[', ']', '(', ')', '!', ';', '='].contains c)) = true := by decide
    simpa using List.all_eq_true.1 (hmarks word hmark) c hc

section Written

variable {words : List Token} (hwords : ∀ word ∈ words, IsWritable word ∨ word ∈ writtenMarks)
include hwords

theorem isWord_of_written : ∀ word ∈ words, Text.IsWord word := by
  intro word hmem
  have hblank : ∀ c ∈ word.toList, Text.isBlank c = false :=
    fun c hc => (not_syntax_of_mem_word (hwords word hmem) hc).1
  rcases hwords word hmem with hwritable | hmark
  · exact hwritable.isWord
  · have hmarks : ∀ mark ∈ writtenMarks, mark ≠ "" := by decide
    exact ⟨hmarks word hmark, hblank⟩

theorem not_syntax_of_mem_spaced {c : Char} (hc : c ∈ Text.spaced words) :
    c ∉ ['\n', '[', ']', '(', ')', '!', ';', '='] := by
  rcases Text.eq_space_or_of_mem_spaced hc with rfl | ⟨word, hword, hc⟩
  · decide
  · obtain ⟨hblank, hother⟩ := not_syntax_of_mem_word (hwords word hword) hc
    have hline : c ≠ '\n' := by
      rintro rfl
      revert hblank
      decide
    exact List.not_mem_cons_of_ne_of_not_mem hline hother

theorem isPlain_of_mem_spaced {c : Char} (hc : c ∈ Text.spaced words) : Bracket.IsPlain c :=
  Bracket.isPlain_of_not_mem (not_mem_of_subset (by decide) (not_syntax_of_mem_spaced hwords hc))

theorem splitTopLevel_written {needle : Char} (space : List Token) :
    Text.splitTopLevel needle (Text.gap space ++ Text.spaced words) =
      Text.splitWhere (· == needle) (Text.gap space ++ Text.spaced words) := by
  refine Text.splitTopLevel_eq_splitWhere fun c hc => ?_
  rcases List.mem_append.1 hc with hc | hc
  · rw [Text.eq_space_of_mem_gap hc]
    exact ⟨rfl, rfl⟩
  · exact isPlain_of_mem_spaced hwords hc

theorem contextSide?_written (before after : List Token) :
    contextSide? (Text.gap before ++ Text.spaced words ++ Text.gap after) =
      writtenSide words := by
  have htrim : Text.trim (Text.gap before ++ Text.spaced words ++ Text.gap after) =
      Text.spaced words := Text.trim_spaced (isWord_of_written hwords) before after
  unfold contextSide?
  rw [htrim]
  by_cases hnil : words = []
  · simp [writtenSide, hnil]
  · have hspaced : Text.spaced words ≠ [] := Text.spaced_ne_nil (isWord_of_written hwords) hnil
    simp [writtenSide, hnil, hspaced]

end Written

section Shape

variable {source target : List Token} {context : Option (List Token × List Token)}

theorem not_mem_of_writable {words : List Token} (hwords : ∀ word ∈ words, IsWritable word)
    {mark : Char} (hmark : isDelimiter mark = true) : ∀ word ∈ words, mark ∉ word.toList :=
  fun word hmem => (hwords word hmem).not_mem hmark

theorem written_of_writable {words : List Token} (hwords : ∀ word ∈ words, IsWritable word) :
    ∀ word ∈ words, IsWritable word ∨ word ∈ writtenMarks :=
  fun word hmem => .inl (hwords word hmem)

theorem forall_mem_append_cons {holds : Token → Prop} {before after : List Token} {mark : Token}
    (hbefore : ∀ word ∈ before, holds word) (hmark : holds mark)
    (hafter : ∀ word ∈ after, holds word) : ∀ word ∈ before ++ mark :: after, holds word :=
  List.forall_mem_append.2 ⟨hbefore, List.forall_mem_cons.2 ⟨hmark, hafter⟩⟩

theorem splitContext_written {left right : List Token}
    (hleft : ∀ word ∈ left, IsWritable word) (hright : ∀ word ∈ right, IsWritable word)
    (space : List Token) :
    splitContext (Text.gap space ++ Text.spaced (left ++ "_" :: right)) =
      .ok (writtenSide left, writtenSide right) := by
  have hsplit : Text.splitTopLevel '_' (Text.gap space ++ Text.spaced (left ++ "_" :: right)) =
      [Text.gap space ++ Text.spaced left ++ Text.gap left,
        Text.gap right ++ Text.spaced right] := by
    rw [splitTopLevel_written (forall_mem_append_cons (written_of_writable hleft)
      (.inr (by decide)) (written_of_writable hright))]
    exact Text.splitWhere_spaced (by decide) space (not_mem_of_writable hleft (by decide))
      (not_mem_of_writable hright (by decide))
  have hleftSide := contextSide?_written (written_of_writable hleft) space left
  have hrightSide := contextSide?_written (written_of_writable hright) right []
  rw [Text.gap_nil, List.append_nil] at hrightSide
  simp only [splitContext, hsplit, hleftSide, hrightSide]

theorem checkSide_written {words : List Token} (hwords : ∀ word ∈ words, IsWritable word) :
    checkSide (Text.spaced words) = .ok () := by
  have hwritten := written_of_writable hwords
  have hparenthesis : hasParenthesis (Text.spaced words) = false := by
    simp only [hasParenthesis, List.any_eq_false, Bool.or_eq_true, beq_iff_eq]
    intro c hc
    have hround : c ∉ ['(', ')'] :=
      not_mem_of_subset (by decide) (not_syntax_of_mem_spaced hwritten hc)
    simpa using hround
  have hsplit : Text.splitTopLevel '_' (Text.spaced words) = [Text.spaced words] := by
    have hnot : '_' ∉ Text.spaced words :=
      Text.not_mem_spaced (by decide) (not_mem_of_writable hwords (by decide))
    rw [Text.splitTopLevel_eq_splitWhere fun c => isPlain_of_mem_spaced hwritten,
      Text.splitWhere_of_not_mem hnot]
  simp [checkSide, hparenthesis, Text.occursTopLevel, hsplit]

theorem splitTarget_written (htarget : ∀ word ∈ target, IsWritable word)
    (hcontext : ∀ sides ∈ context, ∀ word ∈ sides.1 ++ sides.2, IsWritable word)
    (space : List Token) :
    ∃ text, splitTarget (Text.gap space ++ Text.spaced (target ++ contextWords context)) =
        .ok (text, context.map fun sides =>
          Text.gap ["_"] ++ Text.spaced (sides.1 ++ "_" :: sides.2)) ∧
      Text.trim text = Text.spaced target := by
  have hwords := isWord_of_written (written_of_writable htarget)
  have hslash : ∀ word ∈ target, '/' ∉ word.toList := not_mem_of_writable htarget (by decide)
  cases context with
  | none =>
      have hnot : '/' ∉ Text.gap space ++ Text.spaced target := by
        simp only [List.mem_append, not_or]
        exact ⟨Text.not_mem_gap (by decide) space, Text.not_mem_spaced (by decide) hslash⟩
      have hsplit : Text.splitTopLevel '/' (Text.gap space ++ Text.spaced target) =
          [Text.gap space ++ Text.spaced target ++ Text.gap []] := by
        rw [splitTopLevel_written (written_of_writable htarget), Text.splitWhere_of_not_mem hnot,
          Text.gap_nil, List.append_nil]
      refine ⟨Text.gap space ++ Text.spaced target ++ Text.gap [], ?_,
        Text.trim_spaced hwords _ _⟩
      simp only [contextWords, List.append_nil, splitTarget, hsplit, Text.gap_nil]
      rfl
  | some sides =>
      obtain ⟨left, right⟩ := sides
      obtain ⟨hleft, hright⟩ := List.forall_mem_append.1 (hcontext (left, right) rfl)
      have hsides : ∀ word ∈ left ++ "_" :: right, IsWritable word ∨ word ∈ writtenMarks :=
        forall_mem_append_cons (written_of_writable hleft) (.inr (by decide))
          (written_of_writable hright)
      have hslashes : ∀ word ∈ left ++ "_" :: right, '/' ∉ word.toList :=
        forall_mem_append_cons (not_mem_of_writable hleft (by decide)) (by decide)
          (not_mem_of_writable hright (by decide))
      have hsplit : Text.splitTopLevel '/'
          (Text.gap space ++ Text.spaced (target ++ contextWords (some (left, right)))) =
            [Text.gap space ++ Text.spaced target ++ Text.gap target,
              Text.gap (left ++ "_" :: right) ++ Text.spaced (left ++ "_" :: right)] := by
        rw [contextWords, splitTopLevel_written
          (forall_mem_append_cons (written_of_writable htarget) (.inr (by decide)) hsides)]
        exact Text.splitWhere_spaced (by decide) space hslash hslashes
      refine ⟨Text.gap space ++ Text.spaced target ++ Text.gap target, ?_,
        Text.trim_spaced hwords _ _⟩
      simp only [splitTarget, hsplit, Text.gap_append_cons]
      rfl

theorem parseShape_written (hne : source ≠ []) (hsource : ∀ word ∈ source, IsWritable word)
    (htarget : ∀ word ∈ target, IsWritable word)
    (hcontext : ∀ sides ∈ context, ∀ word ∈ sides.1 ++ sides.2, IsWritable word) :
    parseShape (Text.spaced (source ++ ">" :: (target ++ contextWords context))) =
      .ok ⟨Text.spaced source, Text.spaced target,
        context.bind fun sides => writtenSide sides.1,
        context.bind fun sides => writtenSide sides.2⟩ := by
  have hbehind : ∀ word ∈ target ++ contextWords context,
      (IsWritable word ∨ word ∈ writtenMarks) ∧ '>' ∉ word.toList := by
    have hplain : ∀ {words : List Token}, (∀ word ∈ words, IsWritable word) → ∀ word ∈ words,
        (IsWritable word ∨ word ∈ writtenMarks) ∧ '>' ∉ word.toList :=
      fun hwords word hmem => ⟨.inl (hwords word hmem), (hwords word hmem).not_mem (by decide)⟩
    cases context with
    | none => simpa only [contextWords, List.append_nil] using hplain htarget
    | some sides =>
        obtain ⟨hleft, hright⟩ := List.forall_mem_append.1 (hcontext sides rfl)
        exact forall_mem_append_cons (hplain htarget) ⟨.inr (by decide), by decide⟩
          (forall_mem_append_cons (hplain hleft) ⟨.inr (by decide), by decide⟩ (hplain hright))
  have hwords : ∀ word ∈ source ++ ">" :: (target ++ contextWords context),
      IsWritable word ∨ word ∈ writtenMarks :=
    forall_mem_append_cons (written_of_writable hsource) (.inr (by decide))
      fun word hmem => (hbehind word hmem).1
  have hbalanced : Text.isBalanced
      (Text.spaced (source ++ ">" :: (target ++ contextWords context))) = true :=
    Text.isBalanced_of_forall fun c => isPlain_of_mem_spaced hwords
  have hsplit : Text.splitWhere (· == '>')
      (Text.gap [] ++ Text.spaced (source ++ ">" :: (target ++ contextWords context))) =
        [Text.gap [] ++ Text.spaced source ++ Text.gap source,
          Text.gap (target ++ contextWords context) ++
            Text.spaced (target ++ contextWords context)] :=
    Text.splitWhere_spaced (by decide) [] (not_mem_of_writable hsource (by decide))
      fun word hmem => (hbehind word hmem).2
  obtain ⟨text, hslash, htrimTarget⟩ :=
    splitTarget_written htarget hcontext (target ++ contextWords context)
  have htrimSource : Text.trim (Text.gap [] ++ Text.spaced source ++ Text.gap source) =
      Text.spaced source :=
    Text.trim_spaced (isWord_of_written (written_of_writable hsource)) [] source
  have hplaceholder : (context.map fun sides =>
      Text.gap ["_"] ++ Text.spaced (sides.1 ++ "_" :: sides.2)).elim (.ok (none, none))
        splitContext = .ok (context.bind fun sides => writtenSide sides.1,
          context.bind fun sides => writtenSide sides.2) := by
    cases context with
    | none => rfl
    | some sides =>
        obtain ⟨hleft, hright⟩ := List.forall_mem_append.1 (hcontext sides rfl)
        exact splitContext_written hleft hright ["_"]
  exact parseShape_eq_ok_iff.2 ⟨_, _, text, _,
    { balanced := hbalanced
      arrow := hsplit
      slash := hslash
      placeholder := hplaceholder
      source_eq := htrimSource.symm
      target_eq := htrimTarget.symm
      source_ne_nil := Text.spaced_ne_nil (isWord_of_written (written_of_writable hsource)) hne
      source_checked := checkSide_written hsource
      target_checked := checkSide_written htarget }⟩

end Shape

/-! ## The expansion of a written rule -/

theorem distinct_singleton {α : Type} [BEq α] [LawfulBEq α] [Hashable α] [LawfulHashable α]
    (a : α) : distinct [a] = [a] := by
  rw [distinct_eq_eraseDups]
  rfl

theorem realize_literals (words : List Token) (picks : List (Option Token)) :
    realize (words.map Item.literal) picks = words.filter (· != nullMark) := by
  induction words with
  | nil => rfl
  | cons word words ih =>
      rw [List.map_cons, realize, ih]
      by_cases hmark : word = nullMark
      · simp [hmark]
      · simp [hmark]

theorem filterMap_members?_literals (words : List Token) :
    (words.map Item.literal).filterMap Item.members? = [] := by
  simp [List.filterMap_map, Item.members?, Function.comp_def]

/-- Without classes there is one change; the deletion mark is dropped from it. -/
theorem expandChanges_literals [Limits] {source target : List Token}
    (hsource : source.filter (· != nullMark) ≠ []) :
    expandChanges (source.map Item.literal) (target.map Item.literal) =
      .ok [⟨source.filter (· != nullMark), target.filter (· != nullMark)⟩] := by
  have hpairing : pairingCause? [] [] = none := rfl
  have hproduct : checkedProduct [] = .ok 1 := rfl
  have hinput : (source.filter (· != nullMark)).isEmpty = false :=
    List.isEmpty_eq_false_iff.2 hsource
  simp only [expandChanges, filterMap_members?_literals, hpairing, List.map_nil, hproduct,
    classPicks, choicesOf, bind, Except.bind, List.map_cons, realize_literals, List.any_cons,
    List.any_nil, hinput, Bool.or_self, Bool.false_eq_true, if_false, distinct_singleton]

theorem sequencesFrom_literals (words sequence : List Token) :
    sequencesFrom [sequence] (words.map Item.literal) = [sequence ++ words] := by
  induction words generalizing sequence with
  | nil => simp [sequencesFrom]
  | cons word words ih =>
      have hoption : ([sequence].flatMap fun sequence =>
          (Item.literal word).options.map (sequence ++ ·)) = [sequence ++ [word]] := rfl
      rw [List.map_cons, sequencesFrom, hoption, ih, List.append_assoc]
      rfl

theorem fragmentLoop_of_plain {text : Text} (h : ∀ c ∈ text, c ∉ ['[', ']', '(', ')'])
    (piece : Text) (fragments : List (Fragment Text)) :
    fragmentLoop 0 piece fragments text =
      .ok (pushFixed (text.reverse ++ piece) fragments).reverse := by
  induction text generalizing piece with
  | nil => simp [fragmentLoop]
  | cons c rest ih =>
      obtain ⟨hc, hrest⟩ := List.forall_mem_cons.1 h
      simp only [List.mem_cons, List.not_mem_nil, or_false, not_or] at hc
      rw [fragmentLoop]
      simp only [hc, if_false, and_false, ih hrest]
      simp

theorem expandGroups_written {words : List Token} (hwords : ∀ word ∈ words, IsWritable word)
    (hne : words ≠ []) (limit : Nat) :
    expandGroups limit (Text.spaced words) = .ok [Text.spaced words] := by
  have hwritten := written_of_writable hwords
  have hblank : Text.isAllBlank (Text.spaced words).reverse = false := by
    have hhead := Text.not_isBlank_of_mem_head?_spaced (isWord_of_written hwritten)
    obtain ⟨first, rest, hspaced⟩ :=
      List.exists_cons_of_ne_nil (Text.spaced_ne_nil (isWord_of_written hwritten) hne)
    rw [hspaced] at hhead ⊢
    simp [Text.isAllBlank, hhead first rfl]
  have hplain : ∀ c ∈ Text.spaced words, c ∉ ['[', ']', '(', ')'] :=
    fun c hc => not_mem_of_subset (by decide) (not_syntax_of_mem_spaced hwritten hc)
  have hfragments : parseFragments (Text.spaced words) = .ok [.fixed (Text.spaced words)] := by
    rw [parseFragments, fragmentLoop_of_plain hplain, List.append_nil, pushFixed, hblank]
    simp
  have hnormal : Text.normalizeBlanks (Text.spaced words) = Text.spaced words :=
    Text.normalizeBlanks_spaced (isWord_of_written hwritten)
  have hvariants : Fragment.enumerate [Fragment.fixed (Text.spaced words)] =
      [[Text.spaced words]] := rfl
  simp [expandGroups, hfragments, Fragment.groupCounts, Fragment.groupCount, hvariants, hnormal,
    distinct_singleton, bind, Except.bind]

theorem parseItems_written {words : List Token} (hwords : ∀ word ∈ words, IsWritable word) :
    parseItems (Text.spaced words) = .ok (words.map Item.literal) := by
  refine parseItems_eq_ok_iff.2 (reads_spaced (fun word hmem => (hwords word hmem).isWord) ?_)
  intro word hmem c hc
  obtain ⟨hblank, hother⟩ := isDelimiter_eq_false_iff.1 ((hwords word hmem).not_delimiter c hc)
  exact continuesLiteral_eq_true_iff.2 ⟨hblank, not_mem_of_subset (by decide) hother⟩

theorem expandContext_written [Limits] {words : List Token}
    (hwords : ∀ word ∈ words, IsWritable word) (side : ContextSide) :
    expandContext side (writtenSide words) =
      .ok [if words.isEmpty then none else some words] := by
  cases hempty : words.isEmpty with
  | true =>
      simp [writtenSide, hempty, expandContext]
  | false =>
      have hne : words ≠ [] := List.isEmpty_eq_false_iff.1 hempty
      have hparentheses : withoutParentheses (Text.spaced words) = Text.spaced words := by
        have hsame : ∀ c ∈ Text.spaced words, (if c == '(' || c == ')' then ' ' else c) = c := by
          intro c hc
          have hnot := not_syntax_of_mem_spaced (written_of_writable hwords) hc
          simp only [List.mem_cons, List.not_mem_nil, or_false, not_or] at hnot
          simp [hnot]
        rw [withoutParentheses, List.map_congr_left hsame, List.map_id']
      have hvacuous : isVacuous (words.map Item.literal) = false := by
        obtain ⟨word, words, rfl⟩ := List.exists_cons_of_ne_nil hne
        rfl
      have hsequences : contextSequences (words.map Item.literal) = [words] := by
        rw [contextSequences, sequencesFrom_literals, List.nil_append, distinct_singleton]
      have hconstraint : toConstraint words = some words := by simp [toConstraint, hempty]
      simp only [writtenSide, hempty, Bool.false_eq_true, if_false, expandContext,
        expandGroups_written hwords hne, hparentheses, parseItems_written hwords, ok_bind, hvacuous,
        List.mapM_cons, List.mapM_nil, hsequences]
      change Except.ok (distinct [toConstraint words]) = Except.ok [some words]
      rw [hconstraint, distinct_singleton]

theorem expandContext_side [Limits] {side : Option (List Token)} (hne : side ≠ some [])
    (hwords : ∀ word ∈ side.getD [], IsWritable word) {which : ContextSide} :
    expandContext which (writtenSide (side.getD [])) = .ok [side] := by
  rw [expandContext_written hwords]
  cases side with
  | none => rfl
  | some words =>
      have hwordsNe : words ≠ [] := fun hnil => hne (congrArg some hnil)
      simp [hwordsNe]

theorem checkedProduct_ones [Limits] : checkedProduct [1, 1, 1] = .ok 1 := by
  have hroom : ¬ 1 > Limits.rulesPerStatement := Nat.not_lt.2 Limits.rulesPerStatement_pos
  simp only [checkedProduct, List.foldlM_cons, List.foldlM_nil, Nat.one_mul, hroom, if_false,
    ok_bind]
  rfl

theorem combine_singletons [Limits] (change : Change) (left right : Constraint) (line : Nat) :
    combine [change] [left] [right] line =
      .ok [⟨change.input, change.output, left, right, line⟩] := by
  simp [combine, checkedProduct_ones, ok_bind, distinct_singleton]

end RuleText

open RuleText

namespace Rule

def outputWords (rule : Rule) : List Token :=
  if rule.output.isEmpty then [nullMark] else rule.output

def contextSides (rule : Rule) : Option (List Token × List Token) :=
  if rule.hasContext then some (rule.left.getD [], rule.right.getD []) else none

def words (rule : Rule) : List Token :=
  rule.input ++ ">" :: (rule.outputWords ++ contextWords rule.contextSides)

/-- Whether a rule has an input and no context that asks for nothing, and whether its written
form can be told from other texts: all tokens can be written, none of the input and the output
is the deletion mark, and the first one does not start a comment. -/
structure IsWritable (rule : Rule) : Prop where
  input_ne_nil : rule.input ≠ []
  left_ne_nil : rule.left ≠ some []
  right_ne_nil : rule.right ≠ some []
  tokens : ∀ token ∈ rule.input ++ rule.output ++ rule.left.getD [] ++ rule.right.getD [],
    RuleText.IsWritable token
  nullMark_not_mem : nullMark ∉ rule.input ++ rule.output
  not_comment : ∀ token ∈ rule.input.head?, token.toList.head? ≠ some '#'

theorem toList_joined_sides {left right : Option (List Token)} (hleft : left ≠ some [])
    (hright : right ≠ some []) :
    (" ".intercalate ((left.map fun side => " ".intercalate side).toList ++ ["_"] ++
      (right.map fun side => " ".intercalate side).toList)).toList =
        Text.spaced (left.getD [] ++ "_" :: right.getD []) := by
  have hgap : ∀ {words : List Token}, some words ≠ some [] → Text.gap words = [' '] :=
    fun hne => Text.gap_of_ne_nil fun hnil => hne (congrArg some hnil)
  rw [Text.toList_intercalate_space, Text.spaced_append_cons]
  cases left with
  | none =>
      cases right with
      | none => simp [Text.spaced_cons]
      | some right =>
          simp [Text.spaced_cons, Text.gap_cons, hgap hright, Text.intercalate_map_toList]
  | some left =>
      cases right with
      | none => simp [Text.spaced_cons, Text.gap_cons, hgap hleft, Text.intercalate_map_toList]
      | some right =>
          simp [Text.spaced_cons, Text.gap_cons, hgap hleft, hgap hright,
            Text.intercalate_map_toList]

theorem contextSides_bind (rule : Rule) {side : List Token × List Token → List Token}
    (hside : side ([], []) = []) :
    (rule.contextSides.bind fun sides => writtenSide (side sides)) =
      writtenSide (side (rule.left.getD [], rule.right.getD [])) := by
  unfold contextSides hasContext
  cases rule.left with
  | some left => rfl
  | none =>
      cases rule.right with
      | some right => rfl
      | none =>
          simp only [Option.getD_none, hside]
          rfl

theorem outputWords_ne_nil (rule : Rule) : rule.outputWords ≠ [] := by
  unfold outputWords
  split
  · exact List.cons_ne_nil nullMark []
  · rename_i h
    simpa using h

/-- The written form of a rule is its words, joined by spaces. -/
theorem toList_render {rule : Rule} (hinput : rule.input ≠ []) (hleft : rule.left ≠ some [])
    (hright : rule.right ≠ some []) : rule.render.toList = Text.spaced rule.words := by
  have houtput : (if rule.output.isEmpty then "∅" else " ".intercalate rule.output).toList =
      Text.spaced rule.outputWords := by
    unfold outputWords
    split
    · rw [Text.spaced_singleton]
      rfl
    · exact Text.toList_intercalate_space rule.output
  have hrest : rule.outputWords ++ contextWords rule.contextSides ≠ [] := by
    simp [outputWords_ne_nil]
  have hchange : Text.spaced rule.words =
      Text.spaced rule.input ++ " > ".toList ++
        Text.spaced (rule.outputWords ++ contextWords rule.contextSides) := by
    rw [words, Text.spaced_append_cons, Text.gap_of_ne_nil hinput, Text.gap_of_ne_nil hrest]
    simp
  rw [hchange]
  unfold render
  by_cases hcontext : rule.hasContext = true
  · have hsides := toList_joined_sides hleft hright
    simp only [hcontext, if_true, contextSides, contextWords, String.toList_append, houtput,
      Text.toList_intercalate_space, Text.spaced_append_cons rule.outputWords,
      Text.gap_of_ne_nil rule.outputWords_ne_nil, Text.gap_append_cons] at hsides ⊢
    rw [hsides]
    simp
  · simp only [hcontext, Bool.false_eq_true, if_false, contextSides, contextWords,
      List.append_nil, String.toList_append, houtput, Text.toList_intercalate_space]

namespace IsWritable

variable {rule : Rule} (h : rule.IsWritable)
include h

theorem input_writable : ∀ token ∈ rule.input, RuleText.IsWritable token :=
  fun token hmem => h.tokens token (by simp [hmem])

theorem outputWords_writable : ∀ word ∈ rule.outputWords, RuleText.IsWritable word := by
  intro word hmem
  unfold outputWords at hmem
  split at hmem
  · rw [List.mem_singleton.1 hmem]
    exact ⟨by decide, forall_mem_of_all (by decide)⟩
  · exact h.tokens word (by simp [hmem])

theorem contextSides_writable :
    ∀ sides ∈ rule.contextSides, ∀ word ∈ sides.1 ++ sides.2, RuleText.IsWritable word := by
  intro sides hsides word hmem
  unfold contextSides at hsides
  split at hsides
  · cases hsides
    rcases List.mem_append.1 hmem with hmem | hmem
    · exact h.tokens word (by simp [hmem])
    · exact h.tokens word (by simp [hmem])
  · cases hsides

theorem words_written : ∀ word ∈ rule.words, RuleText.IsWritable word ∨ word ∈ writtenMarks := by
  have hcontext : ∀ word ∈ contextWords rule.contextSides,
      RuleText.IsWritable word ∨ word ∈ writtenMarks := by
    have hsides := h.contextSides_writable
    cases hcase : rule.contextSides with
    | none => simp [contextWords]
    | some sides =>
        obtain ⟨hleft, hright⟩ := List.forall_mem_append.1 (hsides sides hcase)
        exact List.forall_mem_cons.2 ⟨.inr (by decide),
          forall_mem_append_cons (written_of_writable hleft) (.inr (by decide))
            (written_of_writable hright)⟩
  exact forall_mem_append_cons (written_of_writable h.input_writable) (.inr (by decide))
    (List.forall_mem_append.2 ⟨written_of_writable h.outputWords_writable, hcontext⟩)

theorem classify_render [Limits] (hlength : rule.render.length ≤ Limits.lineLength) :
    classify rule.render.toList = .ok [⟨1, rule.render, .rule (Text.spaced rule.words)⟩] := by
  have hrender := toList_render h.input_ne_nil h.left_ne_nil h.right_ne_nil
  have hwords := isWord_of_written h.words_written
  have hne : rule.words ≠ [] := by simp [words]
  have htrim : Text.trim (Text.spaced rule.words) = Text.spaced rule.words := by
    have htrimmed := Text.trim_spaced hwords [] []
    rwa [Text.gap_nil, List.nil_append, List.append_nil] at htrimmed
  have hhead : ∀ c ∈ (Text.spaced rule.words).head?, Text.isBlank c = false ∧ c ≠ '#' := by
    intro c hc
    refine ⟨Text.not_isBlank_of_mem_head?_spaced hwords c hc, ?_⟩
    rintro rfl
    obtain ⟨first, rest, hinput⟩ := List.exists_cons_of_ne_nil h.input_ne_nil
    have hfirst : Text.IsWord first := (h.input_writable first (by simp [hinput])).isWord
    rw [words, hinput, List.cons_append, Text.head?_spaced_cons hfirst] at hc
    exact h.not_comment first (by simp [hinput]) hc
  have hplain : ∀ c ∈ Text.spaced rule.words, c ∉ ['\n', ';', '='] :=
    fun c hc => not_mem_of_subset (by decide) (not_syntax_of_mem_spaced h.words_written hc)
  have hsize : (Text.spaced rule.words).length ≤ Limits.lineLength := by
    rwa [← hrender, String.length_toList]
  have hclassify := classify_of_single htrim (Text.spaced_ne_nil hwords hne) hhead hplain hsize
  rw [hrender, hclassify, ← hrender, String.ofList_toList]

theorem filter_outputWords : rule.outputWords.filter (· != nullMark) = rule.output := by
  unfold outputWords
  split
  · rename_i hempty
    rw [List.isEmpty_iff.1 hempty]
    rfl
  · refine List.filter_eq_self.2 fun token hmem => ?_
    rw [bne_iff_ne]
    rintro rfl
    exact h.nullMark_not_mem (List.mem_append_right _ hmem)

theorem filter_input : rule.input.filter (· != nullMark) = rule.input := by
  refine List.filter_eq_self.2 fun token hmem => ?_
  rw [bne_iff_ne]
  rintro rfl
  exact h.nullMark_not_mem (List.mem_append_left _ hmem)

theorem expand_words [Limits] (line : Nat) (source : String) :
    RuleStatement.expand ⟨line, source, Text.spaced rule.words⟩ =
      .ok [{ rule with line := line }] := by
  have hshape := parseShape_written h.input_ne_nil h.input_writable h.outputWords_writable
    h.contextSides_writable
  rw [rule.contextSides_bind rfl, rule.contextSides_bind rfl] at hshape
  have hsource : rule.input.filter (· != nullMark) ≠ [] := by
    rw [h.filter_input]
    exact h.input_ne_nil
  have hchanges : expandChanges (rule.input.map Item.literal)
      (rule.outputWords.map Item.literal) = .ok [⟨rule.input, rule.output⟩] := by
    rw [expandChanges_literals hsource, h.filter_input, h.filter_outputWords]
  have hlefts : expandContext .left (writtenSide (rule.left.getD [])) = .ok [rule.left] :=
    expandContext_side h.left_ne_nil fun word hmem => h.tokens word (by simp [hmem])
  have hrights : expandContext .right (writtenSide (rule.right.getD [])) = .ok [rule.right] :=
    expandContext_side h.right_ne_nil fun word hmem => h.tokens word (by simp [hmem])
  simp only [RuleStatement.expand, words, hshape, ok_bind, parseItems_written h.input_writable,
    parseItems_written h.outputWords_writable, hchanges, hlefts, hrights, combine_singletons]

end IsWritable

/-- A rule that can be written down is what its written form compiles to, as stated on the
first line. -/
theorem compileText_render [Limits] {rule : Rule} (h : rule.IsWritable)
    (hlength : rule.render.length ≤ Limits.lineLength) (mayRedefine : Bool) :
    ∃ statistics, compileText rule.render.toList mayRedefine =
      .ok ⟨[{ rule with line := 1 }], statistics⟩ := by
  have hplain : '!' ∉ Text.spaced rule.words :=
    fun hmem => not_syntax_of_mem_spaced h.words_written hmem (by simp)
  exact compileText_of_classify (h.classify_render hlength) hplain (h.expand_words 1 _) mayRedefine

/-- A deletion between two tokens at the end of the word. -/
theorem compileText_render_deletion :
    ∃ statistics, compileText "a b > ∅ / c _ d #".toList false =
      .ok ⟨[⟨["a", "b"], [], some ["c"], some ["d", "#"], 1⟩], statistics⟩ := by
  have hwritable : (⟨["a", "b"], [], some ["c"], some ["d", "#"], 7⟩ : Rule).IsWritable := by
    refine ⟨by decide, by decide, by decide, fun token hmem => ?_, by decide, by decide⟩
    have htokens : ∀ token ∈ ["a", "b", "c", "d", "#"],
        token ≠ "" ∧ (token.toList.all fun c => !isDelimiter c) = true := by decide
    exact ⟨(htokens token hmem).1, by simpa using (htokens token hmem).2⟩
  have hrender : (⟨["a", "b"], [], some ["c"], some ["d", "#"], 7⟩ : Rule).render =
      "a b > ∅ / c _ d #" := by decide
  have hlength : (⟨["a", "b"], [], some ["c"], some ["d", "#"], 7⟩ : Rule).render.length ≤
      Limits.lineLength := by
    rw [hrender]
    decide
  have hcompiled := compileText_render hwritable hlength false
  rwa [hrender] at hcompiled

end Rule

end Diachrony
