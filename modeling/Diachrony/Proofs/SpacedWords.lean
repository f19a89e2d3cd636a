import Diachrony.Proofs.ItemGrammar

/-!
# Words joined by single spaces

The written form of a token sequence has one space between any two tokens.  Whatever reads it
(trimming, splitting at a mark between the words, normalizing blanks, reading items) finds the
words again.
-/

namespace Diachrony.Text

def spaced (words : List Token) : Text :=
  [' '].intercalate (words.map String.toList)

/-- The space between some words and what stands beside them. -/
def gap (words : List Token) : Text :=
  if words.isEmpty then [] else [' ']

theorem intercalate_map_toList (words : List Token) :
    [' '].intercalate (words.map String.toList) = spaced words := rfl

theorem toList_intercalate_space (words : List Token) :
    (" ".intercalate words).toList = spaced words := by
  rw [String.toList_intercalate]
  rfl

@[simp] theorem spaced_nil : spaced [] = [] := rfl

@[simp] theorem gap_nil : gap [] = [] := rfl

theorem gap_cons (word : Token) (words : List Token) : gap (word :: words) = [' '] := rfl

theorem gap_of_ne_nil {words : List Token} (h : words ≠ []) : gap words = [' '] := by
  obtain ⟨word, words, rfl⟩ := List.exists_cons_of_ne_nil h
  rfl

theorem spaced_cons (word : Token) (words : List Token) :
    spaced (word :: words) = word.toList ++ gap words ++ spaced words := by
  cases words with
  | nil => simp [spaced]
  | cons next words => simp [spaced, gap_cons, List.intercalate_cons_cons]

theorem spaced_singleton (word : Token) : spaced [word] = word.toList := by
  simp [spaced_cons]

theorem gap_append_cons (before : List Token) (word : Token) (after : List Token) :
    gap (before ++ word :: after) = [' '] := by
  simp [gap]

theorem spaced_append_cons (before : List Token) (word : Token) (after : List Token) :
    spaced (before ++ word :: after) =
      spaced before ++ gap before ++ word.toList ++ gap after ++ spaced after := by
  induction before with
  | nil => simp [spaced_cons]
  | cons first before ih =>
      rw [List.cons_append, spaced_cons, gap_append_cons, ih, spaced_cons, gap_cons]
      cases before with
      | nil => simp
      | cons next before => simp [gap_cons]

theorem eq_space_of_mem_gap {words : List Token} {c : Char} (h : c ∈ gap words) : c = ' ' := by
  unfold gap at h
  split at h
  · cases h
  · exact List.mem_singleton.1 h

theorem eq_space_or_of_mem_spaced {words : List Token} {c : Char} (h : c ∈ spaced words) :
    c = ' ' ∨ ∃ word ∈ words, c ∈ word.toList := by
  induction words with
  | nil => cases h
  | cons word words ih =>
      rw [spaced_cons, List.append_assoc] at h
      rcases List.mem_append.1 h with h | h
      · exact .inr ⟨word, List.mem_cons_self, h⟩
      · rcases List.mem_append.1 h with h | h
        · exact .inl (eq_space_of_mem_gap h)
        · rcases ih h with h | ⟨other, hother, h⟩
          · exact .inl h
          · exact .inr ⟨other, List.mem_cons_of_mem word hother, h⟩

/-- Whether a token can stand between blanks. -/
structure IsWord (word : Token) : Prop where
  ne_empty : word ≠ ""
  not_blank : ∀ c ∈ word.toList, isBlank c = false

theorem IsWord.toList_ne_nil {word : Token} (h : IsWord word) : word.toList ≠ [] := by
  intro hnil
  exact h.ne_empty (String.toList_inj.1 (by rw [hnil]; rfl))

theorem head?_spaced_cons {word : Token} (h : IsWord word) (words : List Token) :
    (spaced (word :: words)).head? = word.toList.head? := by
  obtain ⟨first, rest, hrest⟩ := List.exists_cons_of_ne_nil h.toList_ne_nil
  rw [spaced_cons, hrest]
  rfl

section Words

variable {words : List Token} (hwords : ∀ word ∈ words, IsWord word)
include hwords

theorem spaced_ne_nil (hne : words ≠ []) : spaced words ≠ [] := by
  obtain ⟨word, words, rfl⟩ := List.exists_cons_of_ne_nil hne
  rw [spaced_cons, List.append_assoc]
  exact List.append_ne_nil_of_left_ne_nil (hwords word List.mem_cons_self).toList_ne_nil _

theorem not_isBlank_of_mem_head?_spaced : ∀ c ∈ (spaced words).head?, isBlank c = false := by
  intro c hc
  cases words with
  | nil => cases hc
  | cons word words =>
      have hword := hwords word List.mem_cons_self
      rw [head?_spaced_cons hword] at hc
      exact hword.not_blank c (List.mem_of_mem_head? hc)

theorem not_isBlank_of_mem_getLast?_spaced (hne : words ≠ []) :
    ∀ c ∈ (spaced words).getLast?, isBlank c = false := by
  obtain ⟨before, word, rfl⟩ := List.eq_nil_or_concat words |>.resolve_left hne
  have hword := hwords word (by simp)
  intro c hc
  rw [List.concat_eq_append, spaced_append_cons, gap_nil, spaced_nil, List.append_nil,
    List.append_nil, List.getLast?_append_of_ne_nil _ hword.toList_ne_nil] at hc
  exact hword.not_blank c (List.mem_of_getLast? hc)

theorem trim_spaced (before after : List Token) :
    trim (gap before ++ spaced words ++ gap after) = spaced words := by
  have hblank : ∀ {others : List Token}, ∀ c ∈ gap others, isBlank c = true := by
    intro others c hc
    rw [eq_space_of_mem_gap hc]
    decide
  by_cases hne : words = []
  · have hall : ∀ c ∈ gap before ++ gap after, isBlank c = true :=
      List.forall_mem_append.2 ⟨hblank, hblank⟩
    simp only [hne, spaced_nil, List.append_nil, trim, trimStart, List.dropWhile_eq_nil_iff.2 hall]
    rfl
  · have hstart : trimStart (gap before ++ spaced words ++ gap after) =
        spaced words ++ gap after := by
      rw [trimStart, List.append_assoc]
      refine dropWhile_append_of_head hblank fun c hc => ?_
      rw [List.head?_append_of_ne_nil _ (spaced_ne_nil hwords hne)] at hc
      exact not_isBlank_of_mem_head?_spaced hwords c hc
    rw [trim, hstart, trimEnd, List.reverse_append, dropWhile_append_of_head,
      List.reverse_reverse]
    · exact fun c hc => hblank c (List.mem_reverse.1 hc)
    · rw [List.head?_reverse]
      exact not_isBlank_of_mem_getLast?_spaced hwords hne

theorem normalizeBlanks_spaced : normalizeBlanks (spaced words) = spaced words := by
  have hsplit : Text.words (spaced words) = words.map String.toList := by
    induction words with
    | nil => rfl
    | cons word words ih =>
        obtain ⟨hword, hrest⟩ := List.forall_mem_cons.1 hwords
        have hsingle : splitWhere isBlank word.toList = [word.toList] :=
          splitWhere_of_forall hword.not_blank
        have hkept : ([word.toList] : List Text).filter (!·.isEmpty) = [word.toList] := by
          simp [hword.toList_ne_nil]
        cases words with
        | nil =>
            rw [spaced_singleton, Text.words, hsingle, hkept]
            rfl
        | cons next words =>
            have hspace : isBlank ' ' = true := by decide
            rw [spaced_cons, gap_cons, List.append_assoc, List.singleton_append, Text.words,
              splitWhere_append_cons hspace, List.filter_append, hsingle, hkept]
            exact congrArg (word.toList :: ·) (ih hrest)
  rw [normalizeBlanks, hsplit]
  rfl

end Words

theorem not_mem_gap {mark : Char} (hmark : mark ≠ ' ') (words : List Token) :
    mark ∉ gap words :=
  fun hmem => hmark (eq_space_of_mem_gap hmem)

theorem not_mem_spaced {mark : Char} (hmark : mark ≠ ' ') {words : List Token}
    (hwords : ∀ word ∈ words, mark ∉ word.toList) : mark ∉ spaced words := by
  intro hmem
  rcases eq_space_or_of_mem_spaced hmem with hspace | ⟨word, hword, hmem⟩
  · exact hmark hspace
  · exact hwords word hword hmem

/-- Splitting at a mark that stands among the words and in none of them. -/
theorem splitWhere_spaced {mark : Char} (hmark : mark ≠ ' ') (space : List Token)
    {before after : List Token} (hbefore : ∀ word ∈ before, mark ∉ word.toList)
    (hafter : ∀ word ∈ after, mark ∉ word.toList) :
    splitWhere (· == mark) (gap space ++ spaced (before ++ String.singleton mark :: after)) =
      [gap space ++ spaced before ++ gap before, gap after ++ spaced after] := by
  have hleft : mark ∉ gap space ++ spaced before ++ gap before := by
    simp only [List.mem_append, not_or]
    exact ⟨⟨not_mem_gap hmark space, not_mem_spaced hmark hbefore⟩, not_mem_gap hmark before⟩
  have hright : mark ∉ gap after ++ spaced after := by
    simp only [List.mem_append, not_or]
    exact ⟨not_mem_gap hmark after, not_mem_spaced hmark hafter⟩
  have htext : gap space ++ spaced (before ++ String.singleton mark :: after) =
      (gap space ++ spaced before ++ gap before) ++ mark :: (gap after ++ spaced after) := by
    rw [spaced_append_cons]
    simp
  rw [htext, splitWhere_append_cons (by simp), splitWhere_of_not_mem hleft,
    splitWhere_of_not_mem hright]
  rfl

end Diachrony.Text

namespace Diachrony.RuleText

/-- Words that continue literals are read as literals. -/
theorem reads_spaced {words : List Token} (hwords : ∀ word ∈ words, Text.IsWord word)
    (hliteral : ∀ word ∈ words, ∀ c ∈ word.toList, continuesLiteral c = true) :
    Reads (Text.spaced words) (words.map Item.literal) := by
  induction words with
  | nil => exact .nil
  | cons word words ih =>
      obtain ⟨hword, hlater⟩ := List.forall_mem_cons.1 hwords
      obtain ⟨hcontinues, hliterals⟩ := List.forall_mem_cons.1 hliteral
      have hrest : Reads (Text.gap words ++ Text.spaced words) (words.map Item.literal) := by
        cases words with
        | nil => exact .nil
        | cons next words => exact .blank (by decide) (ih hlater hliterals)
      have hend : ∀ c ∈ (Text.gap words ++ Text.spaced words).head?,
          continuesLiteral c = false := by
        cases words with
        | nil => simp
        | cons next words =>
            intro c hc
            cases hc
            decide
      have hreads := Reads.literal hword.toList_ne_nil hcontinues hend hrest
      rwa [String.ofList_toList, ← List.append_assoc, ← Text.spaced_cons] at hreads

end Diachrony.RuleText
