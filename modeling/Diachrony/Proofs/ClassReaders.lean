import Diachrony.Proofs.ContextGrammar
import Diachrony.Proofs.RespacedStatements
import Diachrony.Proofs.SpacedWords
import Diachrony.Rule

/-!
# Two readers of a class

The phonemes of a class are read twice: by its items, which keep the nesting and take a word up to
the next blank or bracket, and by cutting the text at every delimiter of the rule language.  Both
readers find the same tokens unless a member has a delimiter in it: then the second one finds the
pieces between the delimiters, and never the member itself.
-/

namespace Diachrony.RuleText

/-! ## Texts cut at delimiters -/

/-- A token that cutting at delimiters can leave. -/
structure IsPhoneme (token : Token) : Prop where
  ne_empty : token ≠ ""
  not_delimiter : ∀ c ∈ token.toList, isDelimiter c = false
  not_mark : token ∉ marks

theorem isPhoneme_of_mem_literalTokens {text : Text} {token : Token}
    (h : token ∈ literalTokens text) : IsPhoneme token := by
  have hdelimiter := (not_isDelimiter_of_mem_literalTokens h).2
  rw [literalTokens_eq_runs, List.mem_filter] at h
  obtain ⟨hmem, hmark⟩ := h
  obtain ⟨run, hrun, rfl⟩ := List.mem_map.1 hmem
  have hne := (Text.mem_runs_iff.1 hrun).1
  refine ⟨fun hempty => ?_, hdelimiter, by simpa using hmark⟩
  exact hne (by simpa using congrArg String.toList hempty)

theorem isDelimiter_of_not_continuesLiteral {c : Char} (hc : continuesLiteral c = false) :
    isDelimiter c = true := by
  simp only [continuesLiteral, Bool.not_eq_false', Bool.or_eq_true, List.contains_iff_mem] at hc
  simp only [isDelimiter, Bool.or_eq_true, List.contains_iff_mem]
  rcases hc with hblank | hbracket
  · exact .inl hblank
  · exact .inr (List.mem_append_left ['!', '>', '/', '_', ';', '='] hbracket)

namespace IsPhoneme

variable {token : Token} (h : IsPhoneme token)
include h

theorem continuesLiteral : ∀ c ∈ token.toList, continuesLiteral c = true := by
  intro c hc
  by_contra hnot
  have hdelimiter := isDelimiter_of_not_continuesLiteral (by simpa using hnot)
  rw [h.not_delimiter c hc] at hdelimiter
  cases hdelimiter

theorem isWord : Text.IsWord token :=
  ⟨h.ne_empty, fun c hc => (continuesLiteral_eq_true_iff.1 (h.continuesLiteral c hc)).1⟩

/-- A phoneme is written like no empty option: `_` is a delimiter and `∅` is a mark. -/
theorem memberOf_eq : memberOf token = some token := by
  refine if_neg ?_
  rintro (rfl | rfl)
  · exact absurd (h.not_delimiter '_' (by decide)) (by decide)
  · exact h.not_mark (by decide)

end IsPhoneme

theorem literalTokens_append_of_head {before after : Text}
    (hafter : ∀ c ∈ after.head?, isDelimiter c = true) :
    literalTokens (before ++ after) = literalTokens before ++ literalTokens after := by
  have hruns : Text.runs (fun c => !isDelimiter c) (before ++ after) =
      Text.runs (fun c => !isDelimiter c) before ++ Text.runs (fun c => !isDelimiter c) after :=
    Text.runs_append_of_head fun c hc => by simp [hafter c hc]
  simp only [literalTokens_eq_runs, hruns, List.map_append, List.filter_append]

theorem literalTokens_cons_of_isDelimiter {c : Char} (hc : isDelimiter c = true) (rest : Text) :
    literalTokens (c :: rest) = literalTokens rest := by
  have hruns : Text.runs (fun c => !isDelimiter c) (c :: rest) =
      Text.runs (fun c => !isDelimiter c) rest := Text.runs_cons_of_not (by simp [hc]) rest
  rw [literalTokens_eq_runs, literalTokens_eq_runs, hruns]

theorem literalTokens_append_cons {c : Char} (hc : isDelimiter c = true) (before after : Text) :
    literalTokens (before ++ c :: after) = literalTokens before ++ literalTokens after := by
  rw [literalTokens_append_of_head (by simpa using hc), literalTokens_cons_of_isDelimiter hc]

/-- A token without delimiters is found as it stands, unless it is a mark. -/
theorem literalTokens_toList {token : Token} (hne : token ≠ "")
    (hdelimiter : ∀ c ∈ token.toList, isDelimiter c = false) :
    literalTokens token.toList = [token].filter (!marks.contains ·) := by
  have htext : token.toList ≠ [] := fun hnil => hne (String.toList_inj.1 hnil)
  have hruns : Text.runs (fun c => !isDelimiter c) token.toList = [token.toList] :=
    Text.runs_of_forall htext fun c hc => by simp [hdelimiter c hc]
  rw [literalTokens_eq_runs, hruns, List.map_singleton, String.ofList_toList]

theorem flattenClass_eq_ok_iff {body : Text} {members : List (Option Token)} :
    flattenClass body = .ok members ↔
      ∃ items, Reads body items ∧ classMembers items = .ok members := by
  simp only [flattenClass, bind_eq_ok, parseItems_eq_ok_iff]

theorem isBalanced_of_flattenClass {body : Text} {members : List (Option Token)}
    (h : flattenClass body = .ok members) : Text.isBalanced body = true := by
  obtain ⟨items, hitems, -⟩ := flattenClass_eq_ok_iff.1 h
  exact (Text.closing?_eq_some_iff.1 (hitems.isNested.closing? .square [])).2

theorem flattenClass_spaced {tokens : List Token} (hne : tokens ≠ [])
    (htokens : ∀ token ∈ tokens, IsPhoneme token) :
    flattenClass (Text.spaced tokens) = .ok (tokens.map some) := by
  have hreads : Reads (Text.spaced tokens) (tokens.map Item.literal) :=
    reads_spaced (fun token htoken => (htokens token htoken).isWord)
      fun token htoken => (htokens token htoken).continuesLiteral
  have hmembers : tokens.map some = (tokens.map Item.literal).flatMap Item.contributed := by
    rw [List.flatMap_map, List.map_eq_flatMap]
    refine List.flatMap_congr fun token htoken => ?_
    rw [contributed_literal, (htokens token htoken).memberOf_eq]
  have hclass := classMembers_eq_ok_iff.2 ⟨by simpa using hne, hmembers⟩
  exact flattenClass_eq_ok_iff.2 ⟨_, hreads, hclass⟩

/-! ## Items cut at delimiters -/

def Item.tokens : Item → List Token
  | literal token => [token]
  | oneOf members => members.flatMap Option.toList

/-- The marks that a class reads as the empty option have no literal token, so nothing is lost when
a class takes its members from its items. -/
theorem flatMap_contributed (item : Item) :
    (item.contributed.flatMap Option.toList).flatMap (fun token => literalTokens token.toList) =
      item.tokens.flatMap fun token => literalTokens token.toList := by
  cases item with
  | oneOf members => rfl
  | literal token =>
      have hmarks : ∀ mark ∈ [emptyMark, nullMark], literalTokens mark.toList = [] :=
        forall_mem_of_all (by decide)
      rw [contributed_literal, memberOf, Item.tokens]
      by_cases hmark : token = emptyMark ∨ token = nullMark
      · have htoken := hmarks token (by simpa using hmark)
        rw [if_pos hmark, List.flatMap_singleton, List.flatMap_singleton, htoken]
        rfl
      · rw [if_neg hmark]
        rfl

theorem flatMap_literalTokens_of_classMembers {items : List Item} {members : List (Option Token)}
    (h : classMembers items = .ok members) :
    ((members.flatMap Option.toList).flatMap fun member => literalTokens member.toList) =
      items.flatMap fun item => item.tokens.flatMap fun token => literalTokens token.toList := by
  rw [(classMembers_eq_ok_iff.1 h).2, List.flatMap_assoc, List.flatMap_assoc]
  refine List.flatMap_congr fun item _ => ?_
  rw [← flatMap_contributed, List.flatMap_assoc]

theorem Reads.literalTokens_eq {text : Text} {items : List Item} (h : Reads text items) :
    literalTokens text =
      items.flatMap fun item => item.tokens.flatMap fun token => literalTokens token.toList := by
  induction h with
  | nil => rfl
  | blank hc hrest ih =>
      rw [literalTokens_cons_of_isDelimiter (by simp [isDelimiter, hc]), ih]
  | literal hne hword hend hrest ih =>
      have hhead := fun c hc => isDelimiter_of_not_continuesLiteral (hend c hc)
      rw [literalTokens_append_of_head hhead, ih, List.flatMap_cons, Item.tokens,
        List.flatMap_singleton, String.toList_ofList]
  | @oneOf rest inside after inner items members hclose hinside hmembers hafter ihinside ihafter =>
      have hclosed : isDelimiter Bracket.square.closer = true := by decide
      have hclass : literalTokens inside = (Item.oneOf members).tokens.flatMap
          fun token => literalTokens token.toList :=
        ihinside.trans (flatMap_literalTokens_of_classMembers hmembers).symm
      rw [literalTokens_cons_of_isDelimiter (by decide), Text.eq_append_of_closing? hclose,
        literalTokens_append_cons hclosed, hclass, ihafter, List.flatMap_cons]

/-! ## The members of a class -/

section FlattenClass

variable {body : Text} {members : List (Option Token)} (h : flattenClass body = .ok members)
include h

/-- A member of a class is a word, and never one that is read as the empty option. -/
theorem of_some_mem_flattenClass {token : Token} (hmem : some token ∈ members) :
    token ≠ "" ∧ token ≠ nullMark := by
  obtain ⟨items, hitems, hmembers⟩ := flattenClass_eq_ok_iff.1 h
  have hwhole : Reads ('[' :: (body ++ [']'])) [.oneOf members] :=
    .oneOf (hitems.isNested.closing? .square []) hitems hmembers .nil
  have hclass := List.mem_singleton_self (Item.oneOf members)
  have hword : ∀ item ∈ [Item.oneOf members], item.All (· ≠ "") := by
    refine hwhole.all (fun _ => id) fun word _ hne _ hempty => hne ?_
    simpa using congrArg String.toList hempty
  exact ⟨hword _ hclass token hmem, (hwhole.member_ne_mark hclass hmem).2⟩

theorem literalTokens_of_flattenClass :
    literalTokens body =
      (members.flatMap Option.toList).flatMap fun member => literalTokens member.toList := by
  obtain ⟨items, hitems, hmembers⟩ := flattenClass_eq_ok_iff.1 h
  rw [hitems.literalTokens_eq, flatMap_literalTokens_of_classMembers hmembers]

theorem mem_literalTokens_of_flattenClass {token : Token} :
    token ∈ literalTokens body ↔ ∃ member, some member ∈ members ∧
      token ∈ literalTokens member.toList := by
  rw [literalTokens_of_flattenClass h, List.mem_flatMap]
  simp only [List.mem_flatMap, Option.mem_toList, exists_eq_right]

/-- Members without delimiters are what cutting a class finds, apart from the word boundary. -/
theorem mem_literalTokens_iff_of_not_isDelimiter
    (hplain : ∀ member, some member ∈ members → ∀ c ∈ member.toList, isDelimiter c = false)
    {token : Token} :
    token ∈ literalTokens body ↔ some token ∈ members ∧ token ≠ wordBoundary := by
  have hmember : ∀ {member}, some member ∈ members →
      literalTokens member.toList = [member].filter (!marks.contains ·) := fun hmem =>
    literalTokens_toList (of_some_mem_flattenClass h hmem).1 (hplain _ hmem)
  rw [mem_literalTokens_of_flattenClass h]
  constructor
  · rintro ⟨member, hmem, htoken⟩
    rw [hmember hmem, List.mem_filter, List.mem_singleton] at htoken
    obtain ⟨rfl, hmark⟩ := htoken
    refine ⟨hmem, fun hboundary => ?_⟩
    rw [hboundary] at hmark
    exact absurd hmark (by decide)
  · rintro ⟨hmem, hboundary⟩
    have hnull := (of_some_mem_flattenClass h hmem).2
    refine ⟨token, hmem, ?_⟩
    rw [hmember hmem, List.mem_filter]
    refine ⟨List.mem_singleton_self token, ?_⟩
    simpa [marks] using show token ≠ "#" ∧ token ≠ "∅" from ⟨hboundary, hnull⟩

end FlattenClass

/-- The two readers of a class find the same tokens, apart from the word boundary, exactly when
no member has a delimiter in it.  Otherwise cutting the class finds the pieces of its members. -/
theorem literalTokens_agree_iff {body : Text} {members : List (Option Token)}
    (h : flattenClass body = .ok members) :
    literalTokens body =
        (members.flatMap Option.toList).flatMap (fun member => literalTokens member.toList) ∧
      ((∀ token, token ∈ literalTokens body ↔ some token ∈ members ∧ token ≠ wordBoundary) ↔
        ∀ member, some member ∈ members → ∀ c ∈ member.toList, isDelimiter c = false) := by
  refine ⟨literalTokens_of_flattenClass h, fun hagree member hmem => ?_, fun hplain _ =>
    mem_literalTokens_iff_of_not_isDelimiter h hplain⟩
  by_cases hboundary : member = wordBoundary
  · rw [hboundary]
    exact List.forall_mem_singleton.2 rfl
  · exact (isPhoneme_of_mem_literalTokens ((hagree member).2 ⟨hmem, hboundary⟩)).not_delimiter

/-- A class inside, the empty option and the word boundary do not part the readers. -/
theorem literalTokens_agree_nested :
    flattenClass "p [t _] #".toList = .ok [some "p", some "t", none, some "#"] ∧
      ∀ token, token ∈ literalTokens "p [t _] #".toList ↔
        some token ∈ [some "p", some "t", none, some "#"] ∧ token ≠ wordBoundary := by
  have hflatten : flattenClass "p [t _] #".toList =
      .ok [some "p", some "t", none, some "#"] := by cbv
  refine ⟨hflatten, (literalTokens_agree_iff hflatten).2.2 fun member hmem => ?_⟩
  have hcases : member = "p" ∨ member = "t" ∨ member = "#" := by simpa using hmem
  rcases hcases with rfl | rfl | rfl
  · exact List.forall_mem_singleton.2 rfl
  · exact List.forall_mem_singleton.2 rfl
  · exact List.forall_mem_singleton.2 rfl

/-- The one member of `a/b` is a rule's token, but its literal tokens are `a` and `b`. -/
theorem literalTokens_disagree_slash :
    '!' ∉ "a/b".toList ∧ flattenClass "a/b".toList = .ok [some "a/b"] ∧
      literalTokens "a/b".toList = ["a", "b"] ∧
      ¬ ∀ token, token ∈ literalTokens "a/b".toList ↔
        some token ∈ [some "a/b"] ∧ token ≠ wordBoundary := by
  have hflatten : flattenClass "a/b".toList = .ok [some "a/b"] := by cbv
  have hpieces : literalTokens "a/b".toList = ["a", "b"] := by decide
  refine ⟨by decide, hflatten, hpieces, fun hagree => ?_⟩
  have hpiece : "a" ∈ literalTokens "a/b".toList := by
    rw [hpieces]
    decide
  exact absurd ((hagree "a").1 hpiece).1 (by decide)

end Diachrony.RuleText
