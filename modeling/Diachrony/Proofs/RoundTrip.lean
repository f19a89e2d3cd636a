import Mathlib
import Diachrony.Proofs.CompiledRules
import Diachrony.Proofs.Reconstruction

/-!
# Deriving and reversing

A word whose derivation can be undone is among the sources of what it becomes.  Rules of a
compiled text without deletions promise less than that: a right context is read before the
rest of the word is changed, and reversal misses a word if the pass has rewritten it away.
-/

namespace Diachrony

section RoundTrip

variable {rules : List Rule} {source target : Inventory} {settings : ReverserSettings}
  {word : String} {tokens : List Token}

theorem derive_of_segment (h : source.segmenter.segment word = .ok tokens) :
    (Deriver.of rules source target).derive word = .ok (spell (applyRules rules tokens)) := by
  have hsegment : (Deriver.of rules source target).source.segment word = .ok tokens := h
  rw [Deriver.derive, hsegment]
  rfl

theorem Reverser.isSourceWord_of (hchange : ∀ rule ∈ rules, rule.output ≠ []) :
    (Reverser.of rules source target settings).isSourceWord word = true ↔
      ∃ tokens, source.segmenter.segment word = .ok tokens ∧
        satisfiesPatterns source.phonotactics tokens = true := by
  have hdeleted : rules.filter Rule.isDeletion = [] := by
    rw [List.filter_eq_nil_iff]
    intro rule hmem hdeletion
    exact hchange rule hmem (Rule.isDeletion_iff.1 hdeletion)
  have heffective : effectivePhonemes rules source = source.phonemes.toList := by
    simp [effectivePhonemes, hdeleted]
  rw [isSourceWord_iff, heffective, Inventory.segmenter]

/-- Without deletions every ancestor is found that spells a word of the source stage. -/
theorem mem_reverse_of_isAncestor [Limits] (hchange : ∀ rule ∈ rules, rule.output ≠ [])
    (hplain : ∀ rule ∈ rules, ∀ token ∈ rule.input, PlainToken token)
    (hcheck : settings.checkTargetPhonotactics = false) {older newer : List Token}
    (hsegment : target.segmenter.segment word = .ok newer)
    (hnewer : ∀ token ∈ newer, PlainToken token)
    (hancestor : IsAncestor source.segmenter rules older newer)
    (htokens : source.segmenter.segment (spell older) = .ok tokens)
    (hphonotactics : satisfiesPatterns source.phonotactics tokens = true) :
    ∃ sources, ((Reverser.of rules source target settings).reverse word).1 = .ok sources ∧
      spell older ∈ sources.toList := by
  refine ⟨_, Reverser.reverse_of_segment hsegment, ?_⟩
  rw [Reverser.mem_sourcesOf_iff keysDistinguish_plain hplain hcheck hnewer,
    Reverser.isSourceWord_of hchange]
  exact ⟨⟨older, hancestor, rfl⟩, tokens, htokens, hphonotactics⟩

/-- Reversing what a word becomes finds the word exactly if it is spelled by an ancestor of
that. -/
theorem mem_reverse_derive_iff_isAncestor [Limits]
    (hplain : ∀ rule ∈ rules, ∀ token ∈ rule.input, PlainToken token)
    (hseparator : ∀ phoneme ∈ target.phonemes.toList, '\x1f' ∉ phoneme.toList)
    (hcheck : settings.checkTargetPhonotactics = false)
    (hfinal : target.segmenter.segment (spell (applyRules rules tokens)) =
      .ok (applyRules rules tokens))
    (hsource : (Reverser.of rules source target settings).isSourceWord word = true) :
    ∃ sources, ((Reverser.of rules source target settings).reverse
        (spell (applyRules rules tokens))).1 = .ok sources ∧
      (word ∈ sources.toList ↔
        ∃ older, IsAncestor source.segmenter rules older (applyRules rules tokens) ∧
          spell older = word) := by
  refine ⟨_, Reverser.reverse_of_segment hfinal, ?_⟩
  rw [Reverser.mem_sourcesOf_iff keysDistinguish_plain hplain hcheck
    (plain_of_segment hseparator hfinal), and_iff_left hsource]

/-- A word whose derivation can be undone is recovered from what it becomes. -/
theorem mem_reverse_derive_of_retraceable [Limits] (hinput : ∀ rule ∈ rules, rule.input ≠ [])
    (hplain : ∀ rule ∈ rules, ∀ token ∈ rule.input, PlainToken token)
    (hseparator : ∀ phoneme ∈ target.phonemes.toList, '\x1f' ∉ phoneme.toList)
    (hcheck : settings.checkTargetPhonotactics = false)
    (htokens : source.segmenter.segment word = .ok tokens)
    (hundo : Retraceable source.segmenter rules tokens)
    (hfinal : target.segmenter.segment (spell (applyRules rules tokens)) =
      .ok (applyRules rules tokens))
    (hsource : (Reverser.of rules source target settings).isSourceWord word = true) :
    ∃ output sources, (Deriver.of rules source target).derive word = .ok output ∧
      ((Reverser.of rules source target settings).reverse output).1 = .ok sources ∧
        word ∈ sources.toList := by
  obtain ⟨sources, hreverse, hmem⟩ :=
    mem_reverse_derive_iff_isAncestor hplain hseparator hcheck hfinal hsource
  have hspell : spell tokens = word := (Segmenter.segment_ok htokens).1
  exact ⟨_, sources, derive_of_segment htokens, hreverse,
    hmem.2 ⟨tokens, IsAncestor.of_retraceable hinput hundo, hspell⟩⟩

/-- The word `hac` under `a > b / _ c` and `h > ∅`: the right context of the first rule stays,
and the deletion happens once. -/
theorem mem_reverse_derive_hac :
    ∃ output sources,
      (Deriver.of [⟨["a"], ["b"], none, some ["c"], 1⟩, ⟨["h"], [], none, none, 2⟩]
        (Inventory.ofPhonemes ["a", "c", "h"]) (Inventory.ofPhonemes ["b", "c"])).derive "hac" =
          .ok output ∧
      ((Reverser.of [⟨["a"], ["b"], none, some ["c"], 1⟩, ⟨["h"], [], none, none, 2⟩]
        (Inventory.ofPhonemes ["a", "c", "h"]) (Inventory.ofPhonemes ["b", "c"])
        Settings.default.reverser).reverse output).1 = .ok sources ∧
        "hac" ∈ sources.toList := by
  have htokens : (Inventory.ofPhonemes ["a", "c", "h"]).segmenter.segment "hac" =
      .ok ["h", "a", "c"] :=
    Inventory.segment_ofPhonemes (by decide) (by simp)
  have hfinal : (Inventory.ofPhonemes ["b", "c"]).segmenter.segment "bc" = .ok ["b", "c"] :=
    Inventory.segment_ofPhonemes (by decide) (by simp)
  have heffective : (Segmenter.ofTokens
      ((Inventory.ofPhonemes ["a", "c", "h"]).phonemes.toList ++ ["h"])).segment "hac" =
        .ok ["h", "a", "c"] := by
    refine Segmenter.segment_singletons ?_ ?_
    · simp [Inventory.mem_phonemes_ofPhonemes, or_imp, forall_and]
      decide
    · simp [Inventory.mem_phonemes_ofPhonemes]
  refine mem_reverse_derive_of_retraceable (by decide) (by decide) ?_ rfl htokens ?_ hfinal ?_
  · simp [Inventory.mem_phonemes_ofPhonemes]
  · decide
  · have hsegment : (Reverser.of [⟨["a"], ["b"], none, some ["c"], 1⟩,
        ⟨["h"], [], none, none, 2⟩] (Inventory.ofPhonemes ["a", "c", "h"])
        (Inventory.ofPhonemes ["b", "c"]) Settings.default.reverser).effectiveSource.segment
          "hac" = .ok ["h", "a", "c"] := heffective
    rw [Reverser.isSourceWord, hsegment]
    rfl

/-! ## Compiled texts without deletions -/

/-- A text without deletions: reversal recovers a word exactly if scripts lead back to it that
show every right context in the finished word, as those of its derivation do if every right
context stays. -/
theorem mem_reverse_derive_iff_of_compileText [Limits] {text : Text} {mayRedefine : Bool}
    {compiled : RuleText.RuleSet} (hcompiled : RuleText.compileText text mayRedefine = .ok compiled)
    (hchange : ∀ rule ∈ compiled.rules, rule.output ≠ [])
    (hrules : ∀ rule ∈ compiled.rules, ∀ token ∈ rule.input, '\x1f' ∉ token.toList)
    (hseparator : ∀ phoneme ∈ target.phonemes.toList, '\x1f' ∉ phoneme.toList)
    (hcheck : settings.checkTargetPhonotactics = false)
    (htokens : source.segmenter.segment word = .ok tokens)
    (hphonotactics : satisfiesPatterns source.phonotactics tokens = true)
    (hfinal : target.segmenter.segment (spell (applyRules compiled.rules tokens)) =
      .ok (applyRules compiled.rules tokens)) :
    ∃ output sources, (Deriver.of compiled.rules source target).derive word = .ok output ∧
      ((Reverser.of compiled.rules source target settings).reverse output).1 = .ok sources ∧
      (word ∈ sources.toList ↔
        ∃ older, IsAncestor source.segmenter compiled.rules older
          (applyRules compiled.rules tokens) ∧ spell older = word) ∧
      (Retraceable source.segmenter compiled.rules tokens → word ∈ sources.toList) := by
  have hinput : ∀ rule ∈ compiled.rules, rule.input ≠ [] :=
    fun rule hmem => RuleText.input_ne_nil_of_compileText hcompiled hmem
  have hplain : ∀ rule ∈ compiled.rules, ∀ token ∈ rule.input, PlainToken token :=
    fun rule hmem token htoken =>
      ⟨RuleText.ne_empty_of_compileText hcompiled hmem (List.mem_append_left rule.output htoken),
        hrules rule hmem token htoken⟩
  have hsource : (Reverser.of compiled.rules source target settings).isSourceWord word = true :=
    (Reverser.isSourceWord_of hchange).2 ⟨tokens, htokens, hphonotactics⟩
  obtain ⟨sources, hreverse, hmem⟩ :=
    mem_reverse_derive_iff_isAncestor hplain hseparator hcheck hfinal hsource
  have hspell : spell tokens = word := (Segmenter.segment_ok htokens).1
  exact ⟨_, sources, derive_of_segment htokens, hreverse, hmem, fun hundo =>
    hmem.2 ⟨tokens, IsAncestor.of_retraceable hinput hundo, hspell⟩⟩

/-- The word `acc` under `a > b / _ c`, whose right context stays. -/
theorem mem_reverse_derive_acc :
    ∃ compiled output sources,
      RuleText.compileText "a > b / _ c".toList true = .ok compiled ∧
      (Deriver.of compiled.rules (Inventory.ofPhonemes ["a", "c"])
        (Inventory.ofPhonemes ["b", "c"])).derive "acc" = .ok output ∧
      ((Reverser.of compiled.rules (Inventory.ofPhonemes ["a", "c"])
        (Inventory.ofPhonemes ["b", "c"]) Settings.default.reverser).reverse output).1 =
          .ok sources ∧
        "acc" ∈ sources.toList := by
  have hcompiled : RuleText.compileText "a > b / _ c".toList true =
      .ok ⟨[⟨["a"], ["b"], none, some ["c"], 1⟩], ⟨1, 0, 1, 1, 3⟩⟩ := by cbv
  have htokens : (Inventory.ofPhonemes ["a", "c"]).segmenter.segment "acc" =
      .ok ["a", "c", "c"] :=
    Inventory.segment_ofPhonemes (by decide) (by simp)
  have hfinal : (Inventory.ofPhonemes ["b", "c"]).segmenter.segment "bcc" =
      .ok ["b", "c", "c"] :=
    Inventory.segment_ofPhonemes (by decide) (by simp)
  have hseparator : ∀ phoneme ∈ (Inventory.ofPhonemes ["b", "c"]).phonemes.toList,
      '\x1f' ∉ phoneme.toList := by
    simp [Inventory.mem_phonemes_ofPhonemes]
  have hcheck : Settings.default.reverser.checkTargetPhonotactics = false := rfl
  obtain ⟨output, sources, hderive, hreverse, -, hmem⟩ :=
    mem_reverse_derive_iff_of_compileText hcompiled (by decide) (by decide) hseparator hcheck
      htokens rfl hfinal
  exact ⟨_, output, sources, hcompiled, hderive, hreverse, hmem (by decide)⟩

/-- The word `aaa` under `a > b / _ a` becomes `bba`, where no `b` but the second stands before
an `a`: what was the right context of the first is not to be seen any more. -/
theorem not_mem_reverse_derive_aaa :
    ∃ compiled sources,
      RuleText.compileText "a > b / _ a".toList true = .ok compiled ∧
      (∀ rule ∈ compiled.rules, rule.output ≠ []) ∧
      (Inventory.ofPhonemes ["a"]).segmenter.segment "aaa" = .ok ["a", "a", "a"] ∧
      satisfiesPatterns (Inventory.ofPhonemes ["a"]).phonotactics ["a", "a", "a"] = true ∧
      (Inventory.ofPhonemes ["a", "b"]).segmenter.segment "bba" =
        .ok (applyRules compiled.rules ["a", "a", "a"]) ∧
      (Deriver.of compiled.rules (Inventory.ofPhonemes ["a"])
        (Inventory.ofPhonemes ["a", "b"])).derive "aaa" = .ok "bba" ∧
      ((Reverser.of compiled.rules (Inventory.ofPhonemes ["a"])
        (Inventory.ofPhonemes ["a", "b"]) Settings.default.reverser).reverse "bba").1 =
          .ok sources ∧
        "aaa" ∉ sources.toList := by
  have hcompiled : RuleText.compileText "a > b / _ a".toList true =
      .ok ⟨[⟨["a"], ["b"], none, some ["a"], 1⟩], ⟨1, 0, 1, 1, 2⟩⟩ := by cbv
  have htokens : (Inventory.ofPhonemes ["a"]).segmenter.segment "aaa" =
      .ok ["a", "a", "a"] :=
    Inventory.segment_ofPhonemes (by decide) (by simp)
  have hfinal : (Inventory.ofPhonemes ["a", "b"]).segmenter.segment "bba" =
      .ok ["b", "b", "a"] :=
    Inventory.segment_ofPhonemes (by decide) (by simp)
  refine ⟨_, _, hcompiled, by decide, htokens, rfl, hfinal, derive_of_segment htokens,
    Reverser.reverse_of_segment hfinal, fun hmem => ?_⟩
  obtain ⟨older, ⟨between, hpreimage, hbetween⟩, hspell⟩ :=
    Reverser.exists_ancestor_of_mem_sourcesOf hmem
  have hbetween : between = ["b", "b", "a"] := hbetween
  subst hbetween
  have hfound := Rule.mem_preimages.2 hpreimage
  have hpreimages : (⟨["a"], ["b"], none, some ["a"], 1⟩ : Rule).preimages
      (Inventory.ofPhonemes ["a"]).segmenter ["b", "b", "a"] =
        [["b", "a", "a"], ["b", "b", "a"]] := rfl
  rw [hpreimages] at hfound
  simp only [List.mem_cons, List.not_mem_nil, or_false] at hfound
  rcases hfound with rfl | rfl <;> exact absurd hspell (by decide)

end RoundTrip

end Diachrony
