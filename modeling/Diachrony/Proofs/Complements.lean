import Mathlib
import Diachrony.Proofs.ClassReaders

/-!
# Negative sets as complements

Reading a text from the left, every negative set outside the ones already read is replaced by a
class.  `Complements` says what the text becomes and `ComplementFails` where there is nothing it
can become; neither mentions the loop, the offsets it keeps or the text it has written.
-/

namespace Diachrony.RuleText

/-- What stands before the first negative set of a text, inside it and behind it: a mark, blanks,
and a class that is closed by the one bracket with a balanced text before it. -/
structure HasFirstSet (text before body after : Text) : Prop where
  unmarked : '!' ∉ before
  split : ∃ gap : Text, (∀ c ∈ gap, Text.isBlank c = true) ∧
    text = before ++ '!' :: (gap ++ '[' :: (body ++ ']' :: after))
  balanced : Text.isBalanced body = true

/-- What a class has to be to stand for a negative set: its members are the known tokens that the
set does not list, in ascending order, at least one and never the empty option. -/
structure IsComplement (known : TokenSet) (body inside : Text) (members : List Token) : Prop where
  read : flattenClass inside = .ok (members.map some)
  balanced : Text.isBalanced inside = true
  ne_nil : members ≠ []
  ascending : members.Pairwise (· < ·)
  mem_iff : ∀ token, token ∈ members ↔ token ∈ known.toList ∧ token ∉ literalTokens body

/-- What a text becomes: each negative set gives way to a class of its complement, and all other
characters stay where they are. -/
inductive Complements (known : TokenSet) : Text → Text → Prop
  | unmarked {text : Text} (htext : '!' ∉ text) : Complements known text text
  | replaced {text before body after inside output : Text} {members : List Token}
      (hset : HasFirstSet text before body after)
      (hinside : IsComplement known body inside members) (hafter : Complements known after output) :
      Complements known text (before ++ '[' :: (inside ++ ']' :: output))

/-- Which texts become nothing, and why: the first mark that is not followed by a class, whose
class is not closed or whose class lists every known token. -/
inductive ComplementFails (known : TokenSet) : Text → Cause → Prop
  | unopened {before behind : Text} (hbefore : '!' ∉ before)
      (hopen : ∀ gap body : Text, (∀ c ∈ gap, Text.isBlank c = true) →
        behind ≠ gap ++ '[' :: body) :
      ComplementFails known (before ++ '!' :: behind) .malformedNegativeSet
  | unclosed {before gap body : Text} (hbefore : '!' ∉ before)
      (hgap : ∀ c ∈ gap, Text.isBlank c = true)
      (hclose : ∀ inside after, Text.isBalanced inside = true → body ≠ inside ++ ']' :: after) :
      ComplementFails known (before ++ '!' :: (gap ++ '[' :: body)) .unclosedClass
  | empty {text before body after : Text} (hset : HasFirstSet text before body after)
      (hall : ∀ token ∈ known.toList, token ∈ literalTokens body) :
      ComplementFails known text .emptyNegativeSet
  | later {text before body after : Text} {cause : Cause}
      (hset : HasFirstSet text before body after)
      (hrest : ∃ token ∈ known.toList, token ∉ literalTokens body)
      (hafter : ComplementFails known after cause) : ComplementFails known text cause

/-! ## Cutting at the first mark -/

theorem takeWhile_dropWhile_mark {before : Text} (hbefore : '!' ∉ before) (behind : Text) :
    (before ++ '!' :: behind).takeWhile (· != '!') = before ∧
      (before ++ '!' :: behind).dropWhile (· != '!') = '!' :: behind := by
  have hplain : ∀ c ∈ before, (c != '!') = true := by
    intro c hc
    rw [bne_iff_ne]
    rintro rfl
    exact hbefore hc
  have hhead : ∀ c ∈ ('!' :: behind).head?, (c != '!') = false := by simp
  exact ⟨Text.takeWhile_append_of_head hplain hhead, Text.dropWhile_append_of_head hplain hhead⟩

theorem not_mem_takeWhile_mark (text : Text) : '!' ∉ text.takeWhile (· != '!') := by
  intro hmem
  simpa using List.mem_takeWhile_imp hmem

theorem trimStart_append_open {gap : Text} (hgap : ∀ c ∈ gap, Text.isBlank c = true)
    (body : Text) : Text.trimStart (gap ++ '[' :: body) = '[' :: body := by
  refine Text.dropWhile_append_of_head hgap fun c hc => ?_
  cases hc
  decide

theorem exists_gap_of_trimStart {behind body : Text} (h : Text.trimStart behind = '[' :: body) :
    ∃ gap : Text, (∀ c ∈ gap, Text.isBlank c = true) ∧ behind = gap ++ '[' :: body := by
  refine ⟨behind.takeWhile Text.isBlank, fun c hc => List.mem_takeWhile_imp hc, ?_⟩
  rw [← h]
  exact List.takeWhile_append_dropWhile.symm

theorem hasFirstSet_of_closing? {text behind body inside after : Text} {mark : Char}
    (hmark : text.dropWhile (· != '!') = mark :: behind)
    (hopen : Text.trimStart behind = '[' :: body)
    (hclose : Text.closing? .square body = some (inside, after)) :
    HasFirstSet text (text.takeWhile (· != '!')) inside after := by
  obtain ⟨gap, hgap, hbehind⟩ := exists_gap_of_trimStart hopen
  obtain ⟨hbody, hbalanced⟩ := Text.closing?_eq_some_iff.1 hclose
  have htext := Text.eq_append_of_dropWhile hmark
  rw [hbehind, hbody] at htext
  exact ⟨not_mem_takeWhile_mark text, ⟨gap, hgap, htext⟩, hbalanced⟩

/-! ## The complement -/

theorem toList_without (known : TokenSet) (tokens : List Token) :
    (known.without tokens).toList = known.toList.filter fun token => !tokens.contains token := by
  simp [TokenSet.without, TokenSet.filter]

theorem isEmpty_without_iff {known : TokenSet} {tokens : List Token} :
    (known.without tokens).isEmpty = true ↔ ∀ token ∈ known.toList, token ∈ tokens := by
  rw [TokenSet.isEmpty, List.isEmpty_iff, List.eq_nil_iff_forall_not_mem]
  simp only [TokenSet.mem_without, not_and, not_not]

theorem isPhoneme_of_mem_knownTokens {texts : List Text} {token : Token}
    (h : token ∈ (knownTokens texts).toList) : IsPhoneme token := by
  obtain ⟨text, -, hmem⟩ := List.mem_flatMap.1 (TokenSet.mem_ofList.1 h)
  exact isPhoneme_of_mem_literalTokens hmem

theorem isComplement_without {texts : List Text} {body : Text}
    (h : ((knownTokens texts).without (literalTokens body)).isEmpty ≠ true) :
    IsComplement (knownTokens texts) body
      (Text.spaced ((knownTokens texts).without (literalTokens body)).toList)
      ((knownTokens texts).without (literalTokens body)).toList := by
  have hne : ((knownTokens texts).without (literalTokens body)).toList ≠ [] :=
    fun hnil => h (List.isEmpty_iff.2 hnil)
  have hphonemes : ∀ token ∈ ((knownTokens texts).without (literalTokens body)).toList,
      IsPhoneme token := fun token htoken =>
    isPhoneme_of_mem_knownTokens (TokenSet.mem_without.1 htoken).1
  have hread := flattenClass_spaced hne hphonemes
  exact ⟨hread, isBalanced_of_flattenClass hread, hne, TokenSet.ascending _,
    fun token => TokenSet.mem_without⟩

/-! ## The loop -/

section ComplementLoop

variable {known : TokenSet} {text : Text}

theorem HasFirstSet.complementLoop_eq {before body after : Text}
    (h : HasFirstSet text before body after) (known : TokenSet) (written : Text) :
    complementLoop known written text =
      if (known.without (literalTokens body)).isEmpty then .error .emptyNegativeSet
      else complementLoop known
        ((writtenClass (known.without (literalTokens body)).toList).reverse ++
          (before.reverse ++ written)) after := by
  obtain ⟨gap, hgap, rfl⟩ := h.split
  obtain ⟨htake, hdrop⟩ :=
    takeWhile_dropWhile_mark h.unmarked (gap ++ '[' :: (body ++ ']' :: after))
  have hclose : Text.closing? .square (body ++ ']' :: after) = some (body, after) :=
    Text.closing?_eq_some_iff.2 ⟨rfl, h.balanced⟩
  rw [complementLoop_of_closed hdrop known written (trimStart_append_open hgap _) hclose, htake]

theorem ComplementFails.complementLoop_eq {cause : Cause}
    (h : ComplementFails known text cause) (written : Text) :
    complementLoop known written text = .error cause := by
  induction h generalizing written with
  | @unopened before behind hbefore hopen =>
      have hmark := (takeWhile_dropWhile_mark hbefore behind).2
      refine complementLoop_of_not_open hmark known written fun body hbody => ?_
      obtain ⟨gap, hgap, hbehind⟩ := exists_gap_of_trimStart hbody
      exact hopen gap body hgap hbehind
  | @unclosed before gap body hbefore hgap hclose =>
      have hmark := (takeWhile_dropWhile_mark hbefore (gap ++ '[' :: body)).2
      refine complementLoop_of_unclosed hmark known written (trimStart_append_open hgap body) ?_
      cases hfound : Text.closing? .square body with
      | none => rfl
      | some found =>
          obtain ⟨hbody, hinside⟩ := Text.closing?_eq_some_iff.1 hfound
          exact absurd hbody (hclose _ _ hinside)
  | empty hset hall =>
      rw [hset.complementLoop_eq, if_pos (isEmpty_without_iff.2 hall)]
  | later hset hrest hafter ih =>
      obtain ⟨token, hknown, hnot⟩ := hrest
      have hne : (known.without (literalTokens _)).isEmpty ≠ true :=
        fun hempty => hnot (isEmpty_without_iff.1 hempty token hknown)
      rw [hset.complementLoop_eq, if_neg hne]
      exact ih _

theorem complementFails_of_complementLoop {written : Text} {cause : Cause}
    (h : complementLoop known written text = .error cause) : ComplementFails known text cause := by
  fun_induction complementLoop known written text with
  | case1 => cases h
  | case2 written text head behind hmark _ body hopen _ hclose =>
      cases h
      obtain ⟨gap, hgap, hbehind⟩ := exists_gap_of_trimStart hopen
      rw [Text.eq_append_of_dropWhile hmark, hbehind]
      refine .unclosed (not_mem_takeWhile_mark text) hgap fun inside after hinside hbody => ?_
      rw [Text.closing?_eq_some_iff.2 ⟨hbody, hinside⟩] at hclose
      cases hclose
  | case3 written text head behind hmark _ body hopen _ inside after hclose =>
      rename_i hempty
      cases h
      exact .empty (hasFirstSet_of_closing? hmark hopen hclose) (isEmpty_without_iff.1 hempty)
  | case4 written text before head behind hmark _ body hopen _ inside after hclose =>
      rename_i hempty _ ih
      have hrest : ∃ token ∈ known.toList, token ∉ literalTokens inside := by
        by_contra hnone
        refine hempty (isEmpty_without_iff.2 fun token hknown => ?_)
        by_contra hnot
        exact hnone ⟨token, hknown, hnot⟩
      exact .later (hasFirstSet_of_closing? hmark hopen hclose) hrest (ih h)
  | case5 written text head behind hmark _ hopen =>
      cases h
      rw [Text.eq_append_of_dropWhile hmark]
      refine .unopened (not_mem_takeWhile_mark text) fun gap body hgap hbehind => ?_
      exact hopen body (by rw [hbehind, trimStart_append_open hgap])

theorem exists_complements_of_complementLoop {texts : List Text} {written result : Text}
    (h : complementLoop (knownTokens texts) written text = .ok result) :
    ∃ output, result = written.reverse ++ output ∧ Complements (knownTokens texts) text output := by
  fun_induction complementLoop (knownTokens texts) written text generalizing result with
  | case1 written text hnone =>
      cases h
      refine ⟨text, rfl, .unmarked fun hmem => ?_⟩
      obtain ⟨behind, hmark⟩ := exists_dropWhile_of_mem hmem
      rw [hnone] at hmark
      cases hmark
  | case2 => cases h
  | case3 => cases h
  | case4 written text before head behind hmark _ body hopen _ inside after hclose =>
      rename_i rest hempty _ ih
      obtain ⟨output, rfl, houtput⟩ := ih h
      have hset := hasFirstSet_of_closing? hmark hopen hclose
      refine ⟨_, ?_, .replaced hset (isComplement_without hempty) houtput⟩
      simp only [writtenClass, Text.toList_intercalate_space, List.reverse_append,
        List.reverse_reverse, List.append_assoc, List.cons_append]
      rfl
  | case5 => cases h

end ComplementLoop

theorem not_mem_expandNegativeSets {texts : List Text} {text output : Text}
    (h : expandNegativeSets (knownTokens texts) text = .ok output) : '!' ∉ output := by
  have hplain : ∀ c ∈ ['[', ']', ' '], c ∉ ['!'] := by simp
  have hknown : ∀ token ∈ (knownTokens texts).toList, Text.FreeOf ['!'] [] token.toList :=
    fun token htoken => freeOf_of_mem_knownTokens (fun text _ => .of_nil text) htoken
  have houtput := freeOf_expandNegativeSets hplain hknown (.of_nil text) h
  exact (Text.FreeOf.cons_characters_iff.1 houtput).1

/-- Negative sets are replaced by their exact complements in the tokens known from some texts, and
nothing else is touched; the replacement fails exactly where a mark has no class, a class is not
closed or a complement is empty, with the first of these as the cause. -/
theorem expandNegativeSets_complements (texts : List Text) (text : Text) :
    (∀ output, expandNegativeSets (knownTokens texts) text = .ok output →
      '!' ∉ output ∧ Complements (knownTokens texts) text output) ∧
    ∀ cause, expandNegativeSets (knownTokens texts) text = .error cause ↔
      ComplementFails (knownTokens texts) text cause := by
  refine ⟨fun output h => ⟨not_mem_expandNegativeSets h, ?_⟩, fun cause => ⟨?_, ?_⟩⟩
  · obtain ⟨rest, houtput, hrest⟩ := exists_complements_of_complementLoop h
    rw [houtput]
    exact hrest
  · exact complementFails_of_complementLoop
  · exact fun h => h.complementLoop_eq []

/-- A mark inside a negative set belongs to that set, blanks may stand behind a mark, and each set
of a text is taken from the same tokens. -/
theorem expandNegativeSets_complements_nested :
    ∃ output, expandNegativeSets (knownTokens ["p > t / ! [s ![k]] _ ![t]".toList])
        "p > t / ! [s ![k]] _ ![t]".toList = .ok output ∧
      output = "p > t / [p t] _ [k p s]".toList ∧ '!' ∉ output ∧
      Complements (knownTokens ["p > t / ! [s ![k]] _ ![t]".toList])
        "p > t / ! [s ![k]] _ ![t]".toList output := by
  have hfirst : HasFirstSet "p > t / ! [s ![k]] _ ![t]".toList "p > t / ".toList
      "s ![k]".toList " _ ![t]".toList :=
    ⟨by decide, ⟨[' '], List.forall_mem_singleton.2 rfl, rfl⟩, by decide⟩
  have hsecond : HasFirstSet " _ ![t]".toList " _ ".toList "t".toList [] :=
    ⟨by decide, ⟨[], List.forall_mem_nil _, rfl⟩, by decide⟩
  have hknown : (knownTokens ["p > t / ! [s ![k]] _ ![t]".toList]).toList =
      ["k", "p", "s", "t"] := by cbv
  have hexpanded : expandNegativeSets (knownTokens ["p > t / ! [s ![k]] _ ![t]".toList])
      "p > t / ! [s ![k]] _ ![t]".toList = .ok "p > t / [p t] _ [k p s]".toList := by
    rw [expandNegativeSets, hfirst.complementLoop_eq, hsecond.complementLoop_eq, TokenSet.isEmpty,
      TokenSet.isEmpty, toList_without, toList_without, hknown,
      complementLoop_of_not_mem List.not_mem_nil]
    decide
  exact ⟨_, hexpanded, rfl, (expandNegativeSets_complements _ _).1 _ hexpanded⟩

end Diachrony.RuleText
