import Mathlib
import Diachrony.Proofs.Computation
import Diachrony.Proofs.Spelling

/-!
# Segmentation is greedy longest match

The sorted list of tokens and its index serve one purpose: to find the longest token that stands
at a place.  Cutting takes that token again and again; it ends with the whole word, or at a place
where no token stands, and then what was cut up to there is what the covered part of the word is
cut into by itself.
-/

namespace Diachrony

/-- Whether a token is the longest of some tokens that stand at the start of a text. -/
structure IsLongestAt (tokens : List Token) (text : Text) (token : Token) : Prop where
  mem : token ∈ tokens
  ne_empty : token ≠ ""
  stands : token.toList <+: text
  longest : ∀ other ∈ tokens, other.toList <+: text → other.length ≤ token.length

/-- Whether there is more text, but no token stands at its start. -/
structure IsStuck (tokens : List Token) (text : Text) : Prop where
  ne_nil : text ≠ []
  nothing_stands : ∀ token ∈ tokens, token ≠ "" → ¬ token.toList <+: text

/-- Taking the longest token again and again leads from a text over the tokens found to the rest
of the text. -/
inductive GreedyCut (tokens : List Token) : Text → List Token → Text → Prop
  | nil (text : Text) : GreedyCut tokens text [] text
  | cons {token : Token} {text last : Text} {found : List Token}
      (hlongest : IsLongestAt tokens (token.toList ++ text) token)
      (hrest : GreedyCut tokens text found last) :
      GreedyCut tokens (token.toList ++ text) (token :: found) last

/-! ## The longest token at a place -/

namespace IsLongestAt

variable {tokens : List Token} {text : Text} {token : Token}

theorem toList_ne_nil (h : IsLongestAt tokens text token) : token.toList ≠ [] :=
  fun hnil => h.ne_empty (String.toList_eq_nil_iff.1 hnil)

theorem unique {other : Token} (h : IsLongestAt tokens text token)
    (hother : IsLongestAt tokens text other) : token = other := by
  have hlength : token.toList.length = other.toList.length := by
    rw [String.length_toList, String.length_toList]
    exact Nat.le_antisymm (hother.longest token h.mem h.stands)
      (h.longest other hother.mem hother.stands)
  have hstarts := List.prefix_of_prefix_length_le h.stands hother.stands (Nat.le_of_eq hlength)
  exact String.toList_inj.1 (hstarts.eq_of_length hlength)

theorem of_isPrefix {shorter : Text} (h : IsLongestAt tokens text token)
    (hshorter : shorter <+: text) (hstands : token.toList <+: shorter) :
    IsLongestAt tokens shorter token :=
  ⟨h.mem, h.ne_empty, hstands,
    fun other hother hstarts => h.longest other hother (hstarts.trans hshorter)⟩

end IsLongestAt

namespace Segmenter

variable {tokens : List Token}

theorem pairwise_sortTokens (tokens : List Token) :
    (sortTokens tokens).Pairwise fun first second =>
      second.spelling.length ≤ first.spelling.length := by
  have hsorted : (sortTokens tokens).Pairwise fun first second =>
      decide (second.spelling.length ≤ first.spelling.length) = true := by
    apply List.pairwise_mergeSort
    · intro a b c hab hbc
      simp only [decide_eq_true_eq] at hab hbc ⊢
      exact Nat.le_trans hbc hab
    · intro a b
      simp only [Bool.or_eq_true, decide_eq_true_eq]
      exact Nat.le_total _ _
  exact hsorted.imp of_decide_eq_true

theorem startsWith_of_isPrefix {c : Char} {rest : Text} {token : Token} (hne : token ≠ "")
    (h : token.toList <+: c :: rest) : (SpelledToken.of token).startsWith c = true := by
  have hnil : token.toList ≠ [] := fun hnil => hne (String.toList_eq_nil_iff.1 hnil)
  obtain ⟨d, others, hlist⟩ := List.exists_cons_of_ne_nil hnil
  rw [hlist, List.cons_prefix_cons] at h
  simp [SpelledToken.startsWith, SpelledToken.of, hlist, h.1]

/-- What the index gives is the longest token: all longer ones have been tried before. -/
theorem isLongestAt_of_longestAt? {text : Text} {spelled : SpelledToken}
    (h : (ofTokens tokens).longestAt? text = some spelled) :
    ∃ token, IsLongestAt tokens text token ∧ SpelledToken.of token = spelled := by
  obtain ⟨token, hmem, hne, rfl, hstands⟩ := eq_of_longestAt? h
  refine ⟨token, ⟨hmem, hne, hstands, fun other hother hstarts => ?_⟩, rfl⟩
  cases text with
  | nil => cases h
  | cons c rest =>
      by_cases hempty : other = ""
      · simp [hempty]
      rw [longestAt?_ofTokens] at h
      obtain ⟨-, before, after, hsplit, hbefore⟩ := List.find?_eq_some_iff_append.1 h
      have hsorted := (pairwise_sortTokens tokens).filter (SpelledToken.startsWith c)
      have hlisted : SpelledToken.of other ∈
          (sortTokens tokens).filter (SpelledToken.startsWith c) :=
        List.mem_filter.2 ⟨mem_sortTokens.2 ⟨other, hother, hempty, rfl⟩,
          startsWith_of_isPrefix hempty hstarts⟩
      rw [hsplit] at hsorted hlisted
      rw [← String.length_toList, ← String.length_toList]
      -- A token tried before the one found does not stand here; one tried later is no longer.
      rcases List.mem_append.1 hlisted with hlisted | hlisted
      · have hnot := hbefore _ hlisted
        simp [SpelledToken.of, List.isPrefixOf_iff_prefix.2 hstarts] at hnot
      · rcases List.mem_cons.1 hlisted with hsame | hlisted
        · exact Nat.le_of_eq (congrArg (fun spelled => spelled.spelling.length) hsame)
        · exact (List.pairwise_cons.1 (List.pairwise_append.1 hsorted).2.1).1 _ hlisted

theorem isStuck_of_longestAt? {c : Char} {rest : Text}
    (h : (ofTokens tokens).longestAt? (c :: rest) = none) : IsStuck tokens (c :: rest) := by
  rw [longestAt?_ofTokens, List.find?_eq_none] at h
  refine ⟨List.cons_ne_nil c rest, fun token hmem hne hstarts => ?_⟩
  refine h (SpelledToken.of token) (List.mem_filter.2 ⟨?_, startsWith_of_isPrefix hne hstarts⟩) ?_
  · exact mem_sortTokens.2 ⟨token, hmem, hne, rfl⟩
  · exact List.isPrefixOf_iff_prefix.2 hstarts

theorem longestAt?_of_isLongestAt {c : Char} {rest : Text} {token : Token}
    (h : IsLongestAt tokens (c :: rest) token) :
    (ofTokens tokens).longestAt? (c :: rest) = some (SpelledToken.of token) := by
  cases hfound : (ofTokens tokens).longestAt? (c :: rest) with
  | none =>
      exact absurd h.stands
        ((isStuck_of_longestAt? hfound).nothing_stands token h.mem h.ne_empty)
  | some spelled =>
      obtain ⟨other, hother, rfl⟩ := isLongestAt_of_longestAt? hfound
      rw [h.unique hother]

theorem longestAt?_of_isStuck {c : Char} {rest : Text} (h : IsStuck tokens (c :: rest)) :
    (ofTokens tokens).longestAt? (c :: rest) = none := by
  cases hfound : (ofTokens tokens).longestAt? (c :: rest) with
  | none => rfl
  | some spelled =>
      obtain ⟨token, htoken, -⟩ := isLongestAt_of_longestAt? hfound
      exact absurd htoken.stands (h.nothing_stands token htoken.mem htoken.ne_empty)

end Segmenter

/-! ## Cutting greedily -/

namespace GreedyCut

variable {tokens : List Token} {text last : Text} {found : List Token}

theorem eq_append (h : GreedyCut tokens text found last) :
    text = (spell found).toList ++ last := by
  rw [toList_spell]
  induction h with
  | nil text => rfl
  | cons hlongest hrest ih => rw [List.flatMap_cons, List.append_assoc, ← ih]

theorem mem (h : GreedyCut tokens text found last) : ∀ token ∈ found, token ∈ tokens := by
  induction h with
  | nil text => exact fun token hmem => absurd hmem List.not_mem_nil
  | cons hlongest hrest ih => exact List.forall_mem_cons.2 ⟨hlongest.mem, ih⟩

theorem covered (h : GreedyCut tokens text found last) :
    GreedyCut tokens (spell found).toList found [] := by
  rw [toList_spell]
  induction h with
  | nil text => exact .nil []
  | @cons token text last found hlongest hrest ih =>
      have hshorter : found.flatMap String.toList <+: text := by
        rw [← toList_spell]
        exact ⟨last, hrest.eq_append.symm⟩
      refine .cons (hlongest.of_isPrefix ?_ (List.prefix_append _ _)) ih
      exact (List.prefix_append_right_inj token.toList).2 hshorter

end GreedyCut

namespace Segmenter

variable {tokens : List Token}

theorem exists_greedyCut (tokens : List Token) (text : Text) :
    ∃ found last, GreedyCut tokens text found last ∧ (last = [] ∨ IsStuck tokens last) := by
  induction hlength : text.length using Nat.strongRecOn generalizing text with
  | ind length ih =>
      subst hlength
      cases text with
      | nil => exact ⟨[], [], .nil [], .inl rfl⟩
      | cons c rest =>
          cases hfound : (ofTokens tokens).longestAt? (c :: rest) with
          | none => exact ⟨[], c :: rest, .nil _, .inr (isStuck_of_longestAt? hfound)⟩
          | some spelled =>
              obtain ⟨token, htoken, -⟩ := isLongestAt_of_longestAt? hfound
              obtain ⟨after, hafter⟩ := htoken.stands
              rw [← hafter] at htoken ih ⊢
              have hpos := List.length_pos_iff.2 htoken.toList_ne_nil
              have hshorter : after.length < (token.toList ++ after).length := by
                rw [List.length_append]
                omega
              obtain ⟨found, last, hcut, hend⟩ := ih _ hshorter after rfl
              exact ⟨token :: found, last, .cons htoken hcut, hend⟩

theorem cutLoop_skip (segmenter : Segmenter) (position : Nat) (found : List Token)
    (part rest : Text) :
    segmenter.cutLoop part.length position found (part ++ rest) =
      segmenter.cutLoop 0 position found rest := by
  induction part with
  | nil => rfl
  | cons c part ih => exact ih

theorem cutLoop_of_isLongestAt {token : Token} {rest : Text}
    (h : IsLongestAt tokens (token.toList ++ rest) token) (position : Nat) (found : List Token) :
    (ofTokens tokens).cutLoop 0 position found (token.toList ++ rest) =
      (ofTokens tokens).cutLoop 0 (position + token.length) (token :: found) rest := by
  obtain ⟨c, part, hlist⟩ := List.exists_cons_of_ne_nil h.toList_ne_nil
  rw [hlist, List.cons_append] at h ⊢
  rw [cutLoop, longestAt?_of_isLongestAt h, ← String.length_toList]
  simp only [SpelledToken.of, hlist, List.length_cons, Nat.add_sub_cancel]
  exact cutLoop_skip _ _ _ part rest

theorem cutLoop_of_isStuck {c : Char} {rest : Text} (h : IsStuck tokens (c :: rest))
    (position : Nat) (found : List Token) :
    (ofTokens tokens).cutLoop 0 position found (c :: rest) = .error (position, c) := by
  rw [cutLoop, longestAt?_of_isStuck h]

/-- The loop cuts greedily, and counts the characters it has covered. -/
theorem cutLoop_of_greedyCut {text last : Text} {more : List Token}
    (h : GreedyCut tokens text more last) (position : Nat) (found : List Token) :
    (ofTokens tokens).cutLoop 0 position found text =
      (ofTokens tokens).cutLoop 0 (position + (spell more).length) (more.reverse ++ found)
        last := by
  induction h generalizing position found with
  | nil text => rfl
  | @cons token text last more hlongest hrest ih =>
      rw [cutLoop_of_isLongestAt hlongest, ih]
      have hlength : (spell (token :: more)).length = token.length + (spell more).length := by
        simp only [← String.length_toList, toList_spell, List.flatMap_cons, List.length_append]
      rw [hlength, Nat.add_assoc, List.reverse_cons, List.append_assoc]
      rfl

theorem segment_of_greedyCut {word : String} {found : List Token}
    (h : GreedyCut tokens word.toList found []) : (ofTokens tokens).segment word = .ok found := by
  rw [segment, cutLoop_of_greedyCut h, List.append_nil, cutLoop, List.reverse_reverse]
  rfl

theorem segment_of_isStuck {word : String} {found : List Token} {c : Char} {rest : Text}
    (h : GreedyCut tokens word.toList found (c :: rest)) (hstuck : IsStuck tokens (c :: rest)) :
    (ofTokens tokens).segment word = .error ⟨word, (spell found).length, c⟩ := by
  rw [segment, cutLoop_of_greedyCut h, cutLoop_of_isStuck hstuck, Nat.zero_add]
  rfl

theorem segment_eq_ok_iff {word : String} {found : List Token} :
    (ofTokens tokens).segment word = .ok found ↔ GreedyCut tokens word.toList found [] := by
  refine ⟨fun h => ?_, segment_of_greedyCut⟩
  obtain ⟨others, last, hcut, hend⟩ := exists_greedyCut tokens word.toList
  cases last with
  | nil =>
      rw [segment_of_greedyCut hcut] at h
      cases h
      exact hcut
  | cons c rest =>
      have hstuck := hend.resolve_left (List.cons_ne_nil c rest)
      rw [segment_of_isStuck hcut hstuck] at h
      cases h

theorem exists_isStuck_of_segment_eq_error {word : String} {failure : SegmentationError}
    (h : (ofTokens tokens).segment word = .error failure) :
    ∃ found rest, GreedyCut tokens word.toList found (failure.character :: rest) ∧
      IsStuck tokens (failure.character :: rest) ∧
      failure = ⟨word, (spell found).length, failure.character⟩ := by
  obtain ⟨found, last, hcut, hend⟩ := exists_greedyCut tokens word.toList
  cases last with
  | nil =>
      rw [segment_of_greedyCut hcut] at h
      cases h
  | cons c rest =>
      have hstuck := hend.resolve_left (List.cons_ne_nil c rest)
      rw [segment_of_isStuck hcut hstuck] at h
      cases h
      exact ⟨found, rest, hcut, hstuck, rfl⟩

/-- Segmentation takes the longest token that stands at each place.  It succeeds if it comes
nowhere to a place where no token stands, and otherwise it fails at that place, with what it has
found being the tokens of the part it has covered. -/
theorem segment_iff_greedyCut (tokens : List Token) (word : String) :
    let segmenter := ofTokens tokens
    (∀ found, segmenter.segment word = .ok found ↔ GreedyCut tokens word.toList found []) ∧
      ((∃ found, segmenter.segment word = .ok found) ↔
        ∀ found last, GreedyCut tokens word.toList found last → ¬ IsStuck tokens last) ∧
      (∀ found, segmenter.segment word = .ok found →
        spell found = word ∧ ∀ token ∈ found, token ∈ tokens) ∧
      ∀ failure, segmenter.segment word = .error failure →
        failure.word = word ∧ ∃ found rest,
          GreedyCut tokens word.toList found (failure.character :: rest) ∧
            IsStuck tokens (failure.character :: rest) ∧
            word.toList = (spell found).toList ++ failure.character :: rest ∧
            failure.position = (spell found).length ∧
            segmenter.segment (spell found) = .ok found := by
  refine ⟨fun found => segment_eq_ok_iff, ⟨?_, ?_⟩, ?_, ?_⟩
  · rintro ⟨found, hfound⟩ others last hcut hstuck
    obtain ⟨c, rest, rfl⟩ := List.exists_cons_of_ne_nil hstuck.ne_nil
    rw [segment_of_isStuck hcut hstuck] at hfound
    cases hfound
  · intro hnever
    obtain ⟨found, last, hcut, hend⟩ := exists_greedyCut tokens word.toList
    have hlast : last = [] := hend.resolve_right (hnever found last hcut)
    exact ⟨found, segment_of_greedyCut (hlast ▸ hcut)⟩
  · intro found hfound
    have hcut := segment_eq_ok_iff.1 hfound
    refine ⟨String.toList_inj.1 ?_, hcut.mem⟩
    rw [hcut.eq_append, List.append_nil]
  · intro failure hfailure
    obtain ⟨found, rest, hcut, hstuck, heq⟩ := exists_isStuck_of_segment_eq_error hfailure
    refine ⟨congrArg SegmentationError.word heq, found, rest, hcut, hstuck, hcut.eq_append,
      congrArg SegmentationError.position heq, ?_⟩
    exact segment_of_greedyCut hcut.covered

/-- With the tokens `ab`, `a` and `bc` the word `abc` is not cut: `ab` is taken, the longest token
at the start, and nothing stands at the `c` behind it. -/
theorem segment_iff_greedyCut_abc :
    let segmenter := ofTokens ["bc", "a", "ab", "", "a"]
    segmenter.segment "abc" = .error ⟨"abc", 2, 'c'⟩ ∧
      ∃ found rest, GreedyCut ["bc", "a", "ab", "", "a"] "abc".toList found ('c' :: rest) ∧
        IsStuck ["bc", "a", "ab", "", "a"] ('c' :: rest) ∧
        "abc".toList = (spell found).toList ++ 'c' :: rest ∧
        2 = (spell found).length ∧ segmenter.segment (spell found) = .ok found := by
  intro segmenter
  have hfailure : segmenter.segment "abc" = .error ⟨"abc", 2, 'c'⟩ := by cbv
  exact ⟨hfailure, ((segment_iff_greedyCut ["bc", "a", "ab", "", "a"] "abc").2.2.2 _ hfailure).2⟩

end Segmenter

/-- A word whose first character starts no phoneme is not cut. -/
theorem Inventory.segment_eq_error_of_head {inventory : Inventory} {word : String} {c : Char}
    {rest : Text} (hword : word.toList = c :: rest)
    (hnone : ∀ phoneme ∈ inventory.phonemes.toList, phoneme.toList.head? ≠ some c) :
    inventory.segmenter.segment word = .error ⟨word, 0, c⟩ := by
  have hstuck : IsStuck inventory.phonemes.toList (c :: rest) := by
    refine ⟨List.cons_ne_nil c rest, fun phoneme hmem hne hstands => hnone phoneme hmem ?_⟩
    obtain ⟨d, tail, hphoneme⟩ := List.exists_cons_of_ne_nil (mt String.toList_eq_nil_iff.1 hne)
    rw [hphoneme] at hstands ⊢
    rw [List.head?_cons, (List.cons_prefix_cons.1 hstands).1]
  have hcut : GreedyCut inventory.phonemes.toList word.toList [] (c :: rest) := hword ▸ .nil _
  exact Segmenter.segment_of_isStuck hcut hstuck

end Diachrony
