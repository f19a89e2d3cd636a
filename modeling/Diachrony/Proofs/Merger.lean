import Diachrony.Proofs.RoundTrip

/-!
# Mergers

Rules that replace one character by another wherever it stands, no character twice, merge
characters and nothing else.  What a rule replaces is gone from the words after it, so an
output left as it stands on the way back is not one the pass would have rewritten: reversal
finds the source words of a word exactly.
-/

namespace Diachrony

/-- Whether a rule replaces one character by another wherever it stands. -/
structure Rule.IsReplacement (rule : Rule) : Prop where
  input : ∃ token : Token, rule.input = [token] ∧ token.length = 1
  output : ∃ token : Token, rule.output = [token] ∧ token.length = 1
  left : rule.left = none
  right : rule.right = none

namespace Rule.IsReplacement

variable {rule : Rule} (h : rule.IsReplacement)

include h

theorem input_ne_nil : rule.input ≠ [] := by
  obtain ⟨token, htoken, -⟩ := h.input
  simp [htoken]

theorem output_ne_nil : rule.output ≠ [] := by
  obtain ⟨token, htoken, -⟩ := h.output
  simp [htoken]

theorem length_of_mem {token : Token} (hmem : token ∈ rule.input ++ rule.output) :
    token.length = 1 := by
  obtain ⟨replaced, hreplaced, hinput⟩ := h.input
  obtain ⟨written, hwritten, houtput⟩ := h.output
  rw [hreplaced, hwritten, List.mem_append, List.mem_singleton, List.mem_singleton] at hmem
  rcases hmem with rfl | rfl
  · exact hinput
  · exact houtput

/-- A script is one of the pass if what the rule replaces is gone from the word after it. -/
theorem isPass_of_not_mem {before : List Token} {script : Script}
    (hgone : ∀ token ∈ rule.input, token ∉ rule.newer script) :
    rule.isPass before script = true := by
  obtain ⟨replaced, hreplaced, -⟩ := h.input
  have hnot : replaced ∉ rule.newer script := hgone replaced (by simp [hreplaced])
  clear hgone
  induction script generalizing before with
  | nil => rfl
  | cons step rest ih =>
      cases step with
      | some token =>
          simp only [newer, List.mem_cons, not_or] at hnot
          simp only [isPass, Bool.and_eq_true, Bool.not_eq_true']
          refine ⟨?_, ih hnot.2⟩
          simp [matchesBetween, hreplaced, hnot.1]
      | none =>
          simp only [newer, List.mem_append, not_or] at hnot
          simp only [isPass, Bool.and_eq_true]
          refine ⟨⟨?_, ?_⟩, ih hnot.2⟩
          · simp [leftHolds, h.left]
          · simp [rightHolds, h.right]

theorem apply_of_isPreimage {source : Segmenter} {older newer : List Token}
    (hpreimage : rule.IsPreimage source older newer)
    (hgone : ∀ token ∈ rule.input, token ∉ newer) : rule.apply older = newer := by
  obtain ⟨script, rfl, rfl, -⟩ := (isPreimage_iff_of_output h.output_ne_nil).1 hpreimage
  exact apply_older h.input_ne_nil (h.isPass_of_not_mem hgone)

/-- The pass of a replacement can always be undone: there is no context to lose. -/
theorem retraceable (source : Segmenter) (tokens : List Token) :
    rule.Retraceable source tokens := by
  have hchange : ¬ rule.isDeletion = true :=
    fun hdeletion => h.output_ne_nil (isDeletion_iff.1 hdeletion)
  rw [Rule.Retraceable, if_neg hchange]
  exact Or.inl h.right

end Rule.IsReplacement

/-! ## Lists of replacements -/

section Replacements

variable {rules : List Rule} (hrules : ∀ rule ∈ rules, rule.IsReplacement)

include hrules

theorem retraceable_of_isReplacement (source : Segmenter) (tokens : List Token) :
    Retraceable source rules tokens := by
  induction rules generalizing tokens with
  | nil => trivial
  | cons rule rules ih =>
      exact ⟨(hrules rule List.mem_cons_self).retraceable source tokens,
        ih (fun other hother => hrules other (List.mem_cons_of_mem rule hother)) _⟩

theorem length_of_mem_applyRules {tokens : List Token}
    (htokens : ∀ token ∈ tokens, token.length = 1) {token : Token}
    (hmem : token ∈ applyRules rules tokens) : token.length = 1 := by
  rcases mem_applyRules hmem with hmem | ⟨rule, hrule, houtput⟩
  · exact htokens token hmem
  · exact (hrules rule hrule).length_of_mem (List.mem_append_right rule.input houtput)

/-- An ancestor of a word derives it if nothing that is replaced stands in the word. -/
theorem applyRules_of_isAncestor (hdistinct : (rules.map Rule.input).Nodup)
    {source : Segmenter} {older newer : List Token}
    (hancestor : IsAncestor source rules older newer)
    (hgone : ∀ rule ∈ rules, ∀ token ∈ rule.input, token ∉ newer) :
    applyRules rules older = newer := by
  induction rules generalizing older with
  | nil => exact hancestor
  | cons rule rules ih =>
      obtain ⟨between, hpreimage, hrest⟩ := hancestor
      rw [List.map_cons, List.nodup_cons] at hdistinct
      have hlater : ∀ other ∈ rules, other.IsReplacement :=
        fun other hother => hrules other (List.mem_cons_of_mem rule hother)
      have hbetween : ∀ token ∈ rule.input, token ∉ between := by
        intro token htoken hmem
        rcases hrest.mem_newer_or_input hmem with hnewer | ⟨other, hother, hin⟩
        · exact hgone rule List.mem_cons_self token htoken hnewer
        · obtain ⟨first, hfirst, -⟩ := (hrules rule List.mem_cons_self).input
          obtain ⟨second, hsecond, -⟩ := (hlater other hother).input
          rw [hfirst, List.mem_singleton] at htoken
          rw [hsecond, List.mem_singleton] at hin
          refine hdistinct.1 (List.mem_map.2 ⟨other, hother, ?_⟩)
          rw [hfirst, hsecond, ← htoken, ← hin]
      have hstep : rule.apply older = between :=
        (hrules rule List.mem_cons_self).apply_of_isPreimage hpreimage hbetween
      have hrun : applyRules rules between = newer :=
        ih hlater hdistinct.2 hrest
          fun other hother => hgone other (List.mem_cons_of_mem rule hother)
      rw [← hrun, ← hstep]
      rfl

end Replacements

/-! ## Reversing mergers -/

section Merger

variable {rules : List Rule} {source target : Inventory} {settings : ReverserSettings}

/-- Reversal through mergers finds the words of the source stage that derive the given word,
and no others. -/
theorem mem_reverse_iff_of_isReplacement [Limits] (hrules : ∀ rule ∈ rules, rule.IsReplacement)
    (hdistinct : (rules.map Rule.input).Nodup)
    (hsource : ∀ phoneme ∈ source.phonemes.toList, phoneme.length = 1)
    (htarget : ∀ phoneme ∈ target.phonemes.toList, phoneme.length = 1)
    (hgone : ∀ rule ∈ rules, ∀ token ∈ rule.input, token ∉ target.phonemes.toList)
    (hcheck : settings.checkTargetPhonotactics = false) {word : String} {newer : List Token}
    (hword : target.segmenter.segment word = .ok newer) :
    ∃ sources, ((Reverser.of rules source target settings).reverse word).1 = .ok sources ∧
      ∀ found, found ∈ sources.toList ↔
        (∃ tokens, source.segmenter.segment found = .ok tokens ∧
          satisfiesPatterns source.phonotactics tokens = true) ∧
        (Deriver.of rules source target).derive found = .ok word := by
  obtain ⟨hspell, hnewer⟩ := Segmenter.segment_ok hword
  have hsingle := Segmenter.length_of_segment_singletons htarget hword
  have hinputs : ∀ rule ∈ rules, ∀ token ∈ rule.input, token.length = 1 :=
    fun rule hmem token htoken =>
      (hrules rule hmem).length_of_mem (List.mem_append_left rule.output htoken)
  have hinput : ∀ rule ∈ rules, rule.input ≠ [] := fun rule hmem => (hrules rule hmem).input_ne_nil
  refine ⟨_, Reverser.reverse_of_segment hword, fun found => ?_⟩
  rw [Reverser.mem_sourcesOf_iff keysDistinguish_length_one hinputs hcheck hsingle,
    Reverser.isSourceWord_of fun rule hmem => (hrules rule hmem).output_ne_nil]
  constructor
  · rintro ⟨⟨older, hancestor, hfound⟩, tokens, htokens, hphonotactics⟩
    refine ⟨⟨tokens, htokens, hphonotactics⟩, ?_⟩
    have holder : ∀ token ∈ older, token.length = 1 := by
      intro token hmem
      rcases hancestor.mem_newer_or_input hmem with hmem | ⟨rule, hrule, hmem⟩
      · exact hsingle token hmem
      · exact hinputs rule hrule token hmem
    have hsame : tokens = older :=
      eq_of_spell_eq (Segmenter.length_of_segment_singletons hsource htokens) holder
        ((Segmenter.segment_ok htokens).1.trans hfound.symm)
    have hrun : applyRules rules older = newer :=
      applyRules_of_isAncestor hrules hdistinct hancestor
        fun rule hrule token htoken hmem => hgone rule hrule token htoken (hnewer token hmem).1
    rw [derive_of_segment htokens, hsame, hrun, hspell]
  · rintro ⟨⟨tokens, htokens, hphonotactics⟩, hderive⟩
    rw [derive_of_segment htokens, Except.ok.injEq] at hderive
    have hcharacters : ∀ token ∈ applyRules rules tokens, token.length = 1 :=
      fun token hmem => length_of_mem_applyRules hrules
        (Segmenter.length_of_segment_singletons hsource htokens) hmem
    have hfinal : applyRules rules tokens = newer :=
      eq_of_spell_eq hcharacters hsingle (hderive.trans hspell.symm)
    have hancestor := IsAncestor.of_retraceable hinput
      (retraceable_of_isReplacement hrules source.segmenter tokens)
    rw [hfinal] at hancestor
    exact ⟨⟨tokens, hancestor, (Segmenter.segment_ok htokens).1⟩, tokens, htokens,
      hphonotactics⟩

/-- `a > x`, `b > y` and `c > x` on `xyx`. -/
theorem mem_reverse_iff_xyx :
    let rules : List Rule :=
      [⟨["a"], ["x"], none, none, 1⟩, ⟨["b"], ["y"], none, none, 2⟩,
        ⟨["c"], ["x"], none, none, 3⟩]
    let source := Inventory.ofPhonemes ["a", "b", "c"]
    let target := Inventory.ofPhonemes ["x", "y"]
    ∃ sources,
      ((Reverser.of rules source target Settings.default.reverser).reverse "xyx").1 =
        .ok sources ∧
      ∀ found, found ∈ sources.toList ↔
        (∃ tokens, source.segmenter.segment found = .ok tokens ∧
          satisfiesPatterns source.phonotactics tokens = true) ∧
        (Deriver.of rules source target).derive found = .ok "xyx" := by
  intro rules source target
  have hrules : ∀ rule ∈ rules, rule.IsReplacement := by
    intro rule hmem
    simp only [rules, List.mem_cons, List.not_mem_nil, or_false] at hmem
    rcases hmem with rfl | rfl | rfl
    · exact ⟨⟨"a", rfl, rfl⟩, ⟨"x", rfl, rfl⟩, rfl, rfl⟩
    · exact ⟨⟨"b", rfl, rfl⟩, ⟨"y", rfl, rfl⟩, rfl, rfl⟩
    · exact ⟨⟨"c", rfl, rfl⟩, ⟨"x", rfl, rfl⟩, rfl, rfl⟩
  have hsource : ∀ phoneme ∈ ["a", "b", "c"], phoneme.length = 1 := by decide
  have htarget : ∀ phoneme ∈ ["x", "y"], phoneme.length = 1 := by decide
  have hgone : ∀ rule ∈ rules, ∀ token ∈ rule.input, token ∉ ["x", "y"] := by decide
  refine mem_reverse_iff_of_isReplacement hrules (by decide) ?_ ?_ ?_ rfl
    (Inventory.segment_ofPhonemes htarget (by simp))
  · exact fun phoneme hmem => hsource phoneme (Inventory.mem_phonemes_ofPhonemes.1 hmem).1
  · exact fun phoneme hmem => htarget phoneme (Inventory.mem_phonemes_ofPhonemes.1 hmem).1
  · exact fun rule hrule token htoken hmem =>
      hgone rule hrule token htoken (Inventory.mem_phonemes_ofPhonemes.1 hmem).1

end Merger

end Diachrony
