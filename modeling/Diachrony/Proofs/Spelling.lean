import Diachrony.Inventory.Basic

/-!
# Segmentation and spelling

Cutting a word into tokens loses nothing: the tokens spell the word again, all of them are
tokens of the stage, and so every character of the word is used by one.  Where all tokens
have one character there is only one way to cut.
-/

namespace Diachrony

/-! ## Spelling -/

theorem toList_spell (tokens : List Token) :
    (spell tokens).toList = tokens.flatMap String.toList :=
  String.toList_join

theorem mem_toList_spell {c : Char} {tokens : List Token} :
    c ∈ (spell tokens).toList ↔ ∃ token ∈ tokens, c ∈ token.toList := by
  rw [toList_spell, List.mem_flatMap]

theorem exists_singleton_of_length {token : Token} (h : token.length = 1) :
    ∃ c, token = String.singleton c := by
  rw [← String.length_toList] at h
  obtain ⟨c, hc⟩ := List.length_eq_one_iff.1 h
  exact ⟨c, String.toList_inj.1 (by rw [hc, String.toList_singleton])⟩

/-- Tokens of one character can be read off the word they spell. -/
theorem map_singleton_toList_spell {tokens : List Token}
    (h : ∀ token ∈ tokens, token.length = 1) :
    (spell tokens).toList.map String.singleton = tokens := by
  rw [toList_spell]
  induction tokens with
  | nil => rfl
  | cons token rest ih =>
      obtain ⟨c, rfl⟩ := exists_singleton_of_length (h token List.mem_cons_self)
      have hrest := ih fun token hmem => h token (List.mem_cons_of_mem _ hmem)
      simp [hrest]

theorem eq_of_spell_eq {first second : List Token} (hfirst : ∀ token ∈ first, token.length = 1)
    (hsecond : ∀ token ∈ second, token.length = 1) (h : spell first = spell second) :
    first = second := by
  rw [← map_singleton_toList_spell hfirst, h, map_singleton_toList_spell hsecond]

namespace Segmenter

variable {tokens : List Token}

/-! ## The tokens of a segmenter -/

theorem mem_sortTokens {spelled : SpelledToken} :
    spelled ∈ sortTokens tokens ↔
      ∃ token ∈ tokens, token ≠ "" ∧ SpelledToken.of token = spelled := by
  simp only [sortTokens, List.mem_mergeSort, List.mem_map, TokenSet.mem_ofList,
    List.mem_filter, Bool.not_eq_true', String.isEmpty_eq_false_iff, and_assoc]

theorem contains_ofTokens {token : Token} :
    (ofTokens tokens).contains token = true ↔ token ∈ tokens ∧ token ≠ "" := by
  simp only [contains, ofTokens, Std.HashSet.contains_ofList, List.contains_iff_mem,
    List.mem_map, mem_sortTokens]
  constructor
  · rintro ⟨spelled, ⟨other, hmem, hne, rfl⟩, rfl⟩
    exact ⟨hmem, hne⟩
  · rintro ⟨hmem, hne⟩
    exact ⟨SpelledToken.of token, ⟨token, hmem, hne, rfl⟩, rfl⟩

theorem usesCharacter_ofTokens {c : Char} :
    (ofTokens tokens).usesCharacter c = true ↔ ∃ token ∈ tokens, c ∈ token.toList := by
  simp only [usesCharacter, ofTokens, Std.HashSet.contains_ofList, List.contains_iff_mem,
    List.mem_flatMap, mem_sortTokens]
  constructor
  · rintro ⟨spelled, ⟨token, hmem, -, rfl⟩, hc⟩
    exact ⟨token, hmem, hc⟩
  · rintro ⟨token, hmem, hc⟩
    have hne : token ≠ "" := by
      rintro rfl
      simp at hc
    exact ⟨SpelledToken.of token, ⟨token, hmem, hne, rfl⟩, hc⟩

theorem longestAt?_ofTokens (c : Char) (rest : Text) :
    (ofTokens tokens).longestAt? (c :: rest) =
      ((sortTokens tokens).filter (SpelledToken.startsWith c)).find?
        fun spelled => spelled.spelling.isPrefixOf (c :: rest) := by
  simp [longestAt?, ofTokens, getD_indexByInitial]

/-- What is found at a place is a nonempty token that stands there. -/
theorem eq_of_longestAt? {text : Text} {spelled : SpelledToken}
    (h : (ofTokens tokens).longestAt? text = some spelled) :
    ∃ token ∈ tokens, token ≠ "" ∧ SpelledToken.of token = spelled ∧ token.toList <+: text := by
  cases text with
  | nil => cases h
  | cons c rest =>
      rw [longestAt?_ofTokens] at h
      have hmem := (List.mem_filter.1 (List.mem_of_find?_eq_some h)).1
      have hoccurs := List.find?_some h
      obtain ⟨token, htoken, hne, rfl⟩ := mem_sortTokens.1 hmem
      exact ⟨token, htoken, hne, rfl, List.isPrefixOf_iff_prefix.1 hoccurs⟩

/-! ## What segmentation gives -/

theorem cutLoop_ok {skip position : Nat} {found result : List Token} {text : Text}
    (h : (ofTokens tokens).cutLoop skip position found text = .ok result) :
    ∃ rest, result = found.reverse ++ rest ∧ rest.flatMap String.toList = text.drop skip ∧
      ∀ token ∈ rest, token ∈ tokens ∧ token ≠ "" := by
  induction text generalizing skip position found with
  | nil =>
      have hresult : found.reverse = result := by simpa [cutLoop] using h
      exact ⟨[], by simp [hresult], by simp, by simp⟩
  | cons c text ih =>
      cases skip with
      | succ skip => exact ih h
      | zero =>
          simp only [cutLoop] at h
          split at h
          · cases h
          · rename_i spelled hfound
            obtain ⟨token, hmem, hne, rfl, hoccurs⟩ := eq_of_longestAt? hfound
            obtain ⟨rest, hresult, hspell, htokens⟩ := ih h
            refine ⟨token :: rest, by simpa [SpelledToken.of] using hresult, ?_, ?_⟩
            · have hpos : token.toList.length - 1 + 1 = token.toList.length := by
                have hlist : token.toList ≠ [] := fun hnil =>
                  hne (String.toList_eq_nil_iff.1 hnil)
                have hlength := List.length_pos_iff.2 hlist
                omega
              have hdrop : text.drop (token.toList.length - 1) =
                  (c :: text).drop token.toList.length := by
                rw [← hpos, List.drop_succ_cons, hpos]
              rw [List.flatMap_cons, hspell]
              simp only [SpelledToken.of]
              rw [hdrop, List.drop_zero]
              exact List.prefix_iff_eq_append.1 hoccurs
            · intro other hother
              rcases List.mem_cons.1 hother with rfl | hother
              · exact ⟨hmem, hne⟩
              · exact htokens other hother

theorem segment_ok {word : String} {result : List Token}
    (h : (ofTokens tokens).segment word = .ok result) :
    spell result = word ∧ ∀ token ∈ result, token ∈ tokens ∧ token ≠ "" := by
  unfold segment at h
  cases hcut : (ofTokens tokens).cutLoop 0 0 [] word.toList with
  | error failure =>
      rw [hcut] at h
      cases h
  | ok found =>
      rw [hcut] at h
      cases h
      obtain ⟨rest, hresult, hspell, htokens⟩ := cutLoop_ok hcut
      rw [List.reverse_nil, List.nil_append] at hresult
      subst hresult
      refine ⟨String.toList_inj.1 ?_, htokens⟩
      rw [toList_spell, hspell, List.drop_zero]

/-- Every character of a word that can be cut is used by some token. -/
theorem usesCharacter_of_segment {word : String} {result : List Token}
    (h : (ofTokens tokens).segment word = .ok result) {c : Char} (hc : c ∈ word.toList) :
    (ofTokens tokens).usesCharacter c = true := by
  obtain ⟨hspell, htokens⟩ := segment_ok h
  rw [← hspell, mem_toList_spell] at hc
  obtain ⟨token, hmem, hc⟩ := hc
  exact usesCharacter_ofTokens.2 ⟨token, (htokens token hmem).1, hc⟩

/-! ## Stages whose tokens have one character -/

section Singletons

variable (hsingle : ∀ token ∈ tokens, token.length = 1)

include hsingle

theorem longestAt?_singleton {c : Char} (hc : String.singleton c ∈ tokens) (rest : Text) :
    (ofTokens tokens).longestAt? (c :: rest) = some (SpelledToken.of (String.singleton c)) := by
  have hspelled : SpelledToken.of (String.singleton c) ∈
      (sortTokens tokens).filter (SpelledToken.startsWith c) := by
    refine List.mem_filter.2 ⟨mem_sortTokens.2 ⟨_, hc, by simp, rfl⟩, ?_⟩
    simp [SpelledToken.startsWith, SpelledToken.of]
  have honly : ∀ spelled ∈ (sortTokens tokens).filter (SpelledToken.startsWith c),
      spelled = SpelledToken.of (String.singleton c) := by
    intro spelled hmem
    obtain ⟨hsorted, hstarts⟩ := List.mem_filter.1 hmem
    obtain ⟨token, htoken, -, rfl⟩ := mem_sortTokens.1 hsorted
    obtain ⟨d, rfl⟩ := exists_singleton_of_length (hsingle token htoken)
    have hd : d = c := by simpa [SpelledToken.startsWith, SpelledToken.of] using hstarts
    rw [hd]
  rw [longestAt?_ofTokens]
  cases hfind : ((sortTokens tokens).filter (SpelledToken.startsWith c)).find?
      fun spelled => spelled.spelling.isPrefixOf (c :: rest) with
  | none =>
      have hnot := List.find?_eq_none.1 hfind _ hspelled
      simp [SpelledToken.of] at hnot
  | some spelled => rw [honly spelled (List.mem_of_find?_eq_some hfind)]

theorem cutLoop_singletons {position : Nat} {found : List Token} {text : Text}
    (htext : ∀ c ∈ text, String.singleton c ∈ tokens) :
    (ofTokens tokens).cutLoop 0 position found text =
      .ok (found.reverse ++ text.map String.singleton) := by
  induction text generalizing position found with
  | nil => simp [cutLoop]
  | cons c rest ih =>
      have hc := htext c List.mem_cons_self
      have hrest : (ofTokens tokens).cutLoop 0 (position + 1) (String.singleton c :: found) rest =
          .ok ((String.singleton c :: found).reverse ++ rest.map String.singleton) :=
        ih fun d hd => htext d (List.mem_cons_of_mem c hd)
      simp only [cutLoop, longestAt?_singleton hsingle hc rest]
      simpa [SpelledToken.of] using hrest

/-- Such a stage cuts a word into its characters, if it has them all. -/
theorem segment_singletons {word : String}
    (hword : ∀ c ∈ word.toList, String.singleton c ∈ tokens) :
    (ofTokens tokens).segment word = .ok (word.toList.map String.singleton) := by
  rw [segment, cutLoop_singletons hsingle hword]
  rfl

theorem length_of_segment_singletons {word : String} {result : List Token}
    (h : (ofTokens tokens).segment word = .ok result) : ∀ token ∈ result, token.length = 1 :=
  fun token hmem => hsingle token ((segment_ok h).2 token hmem).1

end Singletons

end Segmenter

theorem Inventory.mem_phonemes_ofPhonemes {phoneme : Token} {phonemes : List Token} :
    phoneme ∈ (ofPhonemes phonemes).phonemes.toList ↔ phoneme ∈ phonemes ∧ phoneme ≠ "" := by
  simp [ofPhonemes, TokenSet.mem_ofList]

/-- An inventory of one-character phonemes cuts a word of them into its characters. -/
theorem Inventory.segment_ofPhonemes {phonemes : List Token} {word : String}
    (hsingle : ∀ phoneme ∈ phonemes, phoneme.length = 1)
    (hword : ∀ c ∈ word.toList, String.singleton c ∈ phonemes) :
    (ofPhonemes phonemes).segmenter.segment word = .ok (word.toList.map String.singleton) := by
  refine Segmenter.segment_singletons ?_ fun c hc => ?_
  · exact fun phoneme hmem => hsingle phoneme (mem_phonemes_ofPhonemes.1 hmem).1
  · exact mem_phonemes_ofPhonemes.2 ⟨hword c hc, by simp⟩

end Diachrony
