import Mathlib
import Diachrony.Inventory.Reader
import Diachrony.Proofs.LongestMatch
import Diachrony.Proofs.RoundTrip

/-!
# Reversal without keys

Candidates with one key count as one.  Keys tell token sequences apart as long as no token has the
separator in it; then reversal finds the words it would find if it kept the sequences themselves.
Nothing keeps the separator out of a rule or an inventory, though, and then a key can stand for
two sequences, of which one is lost.
-/

namespace Diachrony.Reverser

/-- The source words of some tokens if the token sequences on the way are kept as they are. -/
def sequenceSourcesOf (reverser : Reverser) (tokens : List Token) : TokenSet :=
  if reverser.isRefused tokens then TokenSet.empty
  else
    TokenSet.ofList (((reverser.sequencesAfter reverser.steps [tokens]).map spell).filter
      reverser.isSourceWord)

/-- Every source word of a word, found without keys. -/
def reverseSequences (reverser : Reverser) (word : String) : Except SegmentationError TokenSet := do
  pure (reverser.sequenceSourcesOf (← reverser.target.segment word))

/-- The token sequences that come up when a rule is undone behind those passed, before they are
merged by their keys. -/
def arising (reverser : Reverser) (passed : List UndoStep) (step : UndoStep)
    (tokens : List Token) : List (List Token) :=
  reverser.undoSequences step
    ((passed.foldl (fun found step => reverser.undo step found) [Candidate.of tokens]).map
      Candidate.tokens)

section Prepared

variable {rules : List Rule} {source target : Inventory} {settings : ReverserSettings}

/-- Without keys reversal finds exactly the source words that ancestors of the given word spell,
unless the given word is refused. -/
theorem mem_sequenceSourcesOf_iff {newer : List Token} {word : String} :
    word ∈ ((Reverser.of rules source target settings).sequenceSourcesOf newer).toList ↔
      (Reverser.of rules source target settings).isRefused newer = false ∧
        (∃ older, IsAncestor source.segmenter rules older newer ∧ spell older = word) ∧
        (Reverser.of rules source target settings).isSourceWord word = true := by
  unfold sequenceSourcesOf
  split
  · rename_i hrefused
    simp [TokenSet.empty, hrefused]
  · rename_i hrefused
    have hallowed : (Reverser.of rules source target settings).isRefused newer = false := by
      simpa using hrefused
    rw [TokenSet.mem_ofList, List.mem_filter, List.mem_map, and_iff_right hallowed]
    refine and_congr_left fun hsource => ⟨?_, ?_⟩
    · rintro ⟨older, hleft, hspell⟩
      obtain ⟨start, hstart, hancestor⟩ := exists_ancestor_of_mem_sequencesAfter hleft
      obtain rfl := List.mem_singleton.1 hstart
      exact ⟨older, hancestor, hspell⟩
    · rintro ⟨older, hancestor, rfl⟩
      exact ⟨older, mem_sequencesAfter_of (List.mem_singleton_self newer) hancestor
        fun c hc => usesCharacter_of_isSourceWord hsource hc, rfl⟩

theorem reverseSequences_of_segment {word : String} {newer : List Token}
    (h : target.segmenter.segment word = .ok newer) :
    (Reverser.of rules source target settings).reverseSequences word =
      .ok ((Reverser.of rules source target settings).sequenceSourcesOf newer) := by
  have hsegment : (Reverser.of rules source target settings).target.segment word = .ok newer := h
  rw [reverseSequences, hsegment]
  rfl

theorem reverseSequences_of_segment_error {word : String} {failure : SegmentationError}
    (h : target.segmenter.segment word = .error failure) :
    (Reverser.of rules source target settings).reverseSequences word = .error failure := by
  have hsegment : (Reverser.of rules source target settings).target.segment word =
      .error failure := h
  rw [reverseSequences, hsegment]
  rfl

theorem exists_reverseSequences_of_reverse [Limits] {word : String} {found : TokenSet}
    (h : ((Reverser.of rules source target settings).reverse word).1 = .ok found) :
    ∃ all, (Reverser.of rules source target settings).reverseSequences word = .ok all ∧
      ∀ source ∈ found.toList, source ∈ all.toList := by
  obtain ⟨newer, hsegment, rfl⟩ := segment_of_reverse h
  refine ⟨_, reverseSequences_of_segment hsegment, fun word hmem => ?_⟩
  obtain ⟨hallowed, -, hsource⟩ := mem_sourcesOf.1 hmem
  exact mem_sequenceSourcesOf_iff.2 ⟨hallowed, exists_ancestor_of_mem_sourcesOf hmem, hsource⟩

/-- Where keys tell the tokens of rules and words apart, merging by keys loses no word. -/
theorem reverse_eq_reverseSequences_of_keys [Limits] {admits : Token → Prop}
    (hkeys : KeysDistinguish admits)
    (hinput : ∀ rule ∈ rules, ∀ token ∈ rule.input, admits token) {word : String}
    (hword : ∀ newer, target.segmenter.segment word = .ok newer → ∀ token ∈ newer, admits token) :
    ((Reverser.of rules source target settings).reverse word).1 =
      (Reverser.of rules source target settings).reverseSequences word := by
  cases hsegment : target.segmenter.segment word with
  | error failure =>
      rw [reverse_of_segment_error hsegment, reverseSequences_of_segment_error hsegment]
  | ok newer =>
      rw [reverse_of_segment hsegment, reverseSequences_of_segment hsegment]
      refine congrArg Except.ok (TokenSet.eq_of_mem_iff fun word => ?_)
      rw [mem_sourcesOf_iff_of_keys hkeys hinput (hword newer hsegment), mem_sequenceSourcesOf_iff]

theorem admits_of_mem_arising {admits : Token → Prop}
    (hinput : ∀ rule ∈ rules, ∀ token ∈ rule.input, admits token) {newer : List Token}
    (hnewer : ∀ token ∈ newer, admits token) {passed later : List UndoStep} {step : UndoStep}
    (hsteps : (Reverser.of rules source target settings).steps = passed ++ step :: later) :
    ∀ tokens ∈ (Reverser.of rules source target settings).arising passed step newer,
      ∀ token ∈ tokens, admits token := by
  have hall : ∀ other ∈ passed ++ step :: later, ∀ token ∈ other.rule.input, admits token := by
    intro other hmem
    rw [← hsteps] at hmem
    exact hinput other.rule (rule_mem_of_mem_undoSteps hmem)
  have hstart : ∀ tokens ∈ [newer], ∀ token ∈ tokens, admits token := by simpa using hnewer
  have hpassed : ∀ other ∈ passed, ∀ token ∈ other.rule.input, admits token :=
    fun other hmem => hall other (List.mem_append_left _ hmem)
  refine admits_of_mem_undoSequences (hall step (by simp)) fun tokens htokens => ?_
  obtain ⟨candidate, hcandidate, rfl⟩ := List.mem_map.1 htokens
  exact admits_of_mem_sequencesAfter hpassed hstart _ (mem_sequencesAfter_of_mem_foldl hcandidate)

/-- Where all that a word could come from under the only rule has one key, only the first of it is
found. -/
theorem eq_spell_of_mem_sourcesOf {rule : Rule} {newer first : List Token}
    {rest : List (List Token)}
    (hpreimages : rule.preimages source.segmenter newer = first :: rest)
    (hkeys : ∀ other ∈ rest, candidateKey other = candidateKey first)
    (hfirst : (Reverser.of [rule] source target settings).isSourceWord (spell first) = true)
    {word : String}
    (h : word ∈ ((Reverser.of [rule] source target settings).sourcesOf newer).toList) :
    word = spell first := by
  obtain ⟨-, ⟨candidate, hcandidate, rfl⟩, -⟩ := mem_sourcesOf.1 h
  have hundone : candidate ∈ (Reverser.of [rule] source target settings).undo ⟨rule, ∅⟩
      [Candidate.of newer] := hcandidate
  obtain ⟨others, hleft, hsubset⟩ : ∃ others,
      (Reverser.of [rule] source target settings).undoSequences ⟨rule, ∅⟩ [newer] =
        first :: others ∧ others ⊆ rest := by
    have hfound : [newer].flatMap
        (rule.preimages (Reverser.of [rule] source target settings).source) = first :: rest :=
      (List.flatMap_singleton _ _).trans hpreimages
    unfold undoSequences
    dsimp only
    rw [hfound]
    split
    · exact ⟨_, List.filter_cons_of_pos (by simp [isDead_of_isSourceWord hfirst]),
        List.filter_sublist.subset⟩
    · exact ⟨rest, rfl, List.Subset.refl rest⟩
  have hmerged : (Reverser.of [rule] source target settings).undo ⟨rule, ∅⟩
      [Candidate.of newer] = [Candidate.of first] := by
    rw [undo_eq]
    refine (congrArg (fun left => mergeCandidates (left.map Candidate.of)) hleft).trans ?_
    refine mergeCandidates_of_key_eq fun other hother => ?_
    obtain ⟨tokens, htokens, rfl⟩ := List.mem_map.1 hother
    exact hkeys tokens (hsubset htokens)
  rw [hmerged] at hundone
  rw [List.mem_singleton.1 hundone]
  rfl

end Prepared

end Diachrony.Reverser

namespace Diachrony

open RuleText Reverser

/-- Merging candidates by their keys never adds a word.  It loses none either where neither the
rules take a token with the separator in it nor the target stage has a phoneme with it: two
different token sequences that come up at one step then have different keys. -/
theorem reverse_eq_reverseSequences_of_compileText [Limits] {text : Text} {mayRedefine : Bool}
    {compiled : RuleSet} (h : compileText text mayRedefine = .ok compiled)
    (source target : Inventory) (settings : ReverserSettings) (word : String) :
    (∀ found, ((Reverser.of compiled.rules source target settings).reverse word).1 = .ok found →
      ∃ all, (Reverser.of compiled.rules source target settings).reverseSequences word = .ok all ∧
        ∀ source ∈ found.toList, source ∈ all.toList) ∧
    ((∀ rule ∈ compiled.rules, ∀ token ∈ rule.input, '\x1f' ∉ token.toList) →
      (∀ phoneme ∈ target.phonemes.toList, '\x1f' ∉ phoneme.toList) →
      ((Reverser.of compiled.rules source target settings).reverse word).1 =
          (Reverser.of compiled.rules source target settings).reverseSequences word ∧
        ∀ newer, target.segmenter.segment word = .ok newer → ∀ passed step later,
          (Reverser.of compiled.rules source target settings).steps = passed ++ step :: later →
          ∀ first ∈ (Reverser.of compiled.rules source target settings).arising passed step newer,
          ∀ second ∈ (Reverser.of compiled.rules source target settings).arising passed step newer,
            candidateKey first = candidateKey second → first = second) := by
  refine ⟨fun found => exists_reverseSequences_of_reverse, fun hinput htarget => ?_⟩
  have hplain : ∀ rule ∈ compiled.rules, ∀ token ∈ rule.input, PlainToken token := by
    intro rule hrule token htoken
    exact ⟨ne_empty_of_compileText h hrule (List.mem_append_left _ htoken),
      hinput rule hrule token htoken⟩
  refine ⟨reverse_eq_reverseSequences_of_keys keysDistinguish_plain hplain
    fun newer hsegment => plain_of_segment htarget hsegment, ?_⟩
  intro newer hsegment passed step later hsteps first hfirst second hsecond hkey
  have hadmits := admits_of_mem_arising hplain (plain_of_segment htarget hsegment) hsteps
  exact keysDistinguish_plain (hadmits first hfirst) (hadmits second hsecond) hkey

/-- Under `a b > x`, where no token has the separator in it, keys lose nothing. -/
theorem reverse_eq_reverseSequences_cluster :
    ∃ compiled source target found,
      compileText "a b > x".toList true = .ok compiled ∧
      readInventory "a b".toList = .ok source ∧ readInventory "x".toList = .ok target ∧
      ((Reverser.of compiled.rules source target Settings.default.reverser).reverse "x").1 =
        .ok found ∧
      (Reverser.of compiled.rules source target Settings.default.reverser).reverseSequences "x" =
        .ok found := by
  have hcompiled : compileText "a b > x".toList true =
      .ok ⟨[⟨["a", "b"], ["x"], none, none, 1⟩], ⟨1, 0, 1, 1, 3⟩⟩ := by cbv
  have hsource : readInventory "a b".toList = .ok ⟨⟨["a", "b"], by decide⟩, [], []⟩ := by cbv
  have htarget : readInventory "x".toList = .ok ⟨⟨["x"], by decide⟩, [], []⟩ := by cbv
  have hsegment : (Inventory.mk ⟨["x"], by decide⟩ [] []).segmenter.segment "x" = .ok ["x"] :=
    Segmenter.segment_singletons (by decide) (by simp)
  obtain ⟨hsame, -⟩ := (reverse_eq_reverseSequences_of_compileText hcompiled
    ⟨⟨["a", "b"], by decide⟩, [], []⟩ ⟨⟨["x"], by decide⟩, [], []⟩
    Settings.default.reverser "x").2 (by decide) (by decide)
  exact ⟨_, _, _, _, hcompiled, hsource, htarget, reverse_of_segment hsegment,
    hsame.symm.trans (reverse_of_segment hsegment)⟩

/-- Under `ab > a b` with the separator inside the first token, both that token and the phonemes
`a` and `b` come up for the word `ab`.  They have one key, and the word `ab` is lost. -/
theorem reverse_ne_reverseSequences_separator :
    ∃ compiled source target step found all,
      compileText "a\x1fb > a b".toList true = .ok compiled ∧
      readInventory "a b a\x1fb".toList = .ok source ∧
      readInventory "a b".toList = .ok target ∧
      (Reverser.of compiled.rules source target Settings.default.reverser).steps = [step] ∧
      ["a\x1fb"] ∈ (Reverser.of compiled.rules source target Settings.default.reverser).arising
        [] step ["a", "b"] ∧
      ["a", "b"] ∈ (Reverser.of compiled.rules source target Settings.default.reverser).arising
        [] step ["a", "b"] ∧
      candidateKey ["a\x1fb"] = candidateKey ["a", "b"] ∧
      ((Reverser.of compiled.rules source target Settings.default.reverser).reverse "ab").1 =
        .ok found ∧
      (Reverser.of compiled.rules source target Settings.default.reverser).reverseSequences "ab" =
        .ok all ∧
      "ab" ∈ all.toList ∧ "ab" ∉ found.toList := by
  have hcompiled : compileText "a\x1fb > a b".toList true =
      .ok ⟨[⟨["a\x1fb"], ["a", "b"], none, none, 1⟩], ⟨1, 0, 1, 1, 3⟩⟩ := by cbv
  have hsource : readInventory "a b a\x1fb".toList =
      .ok ⟨⟨["a", "a\x1fb", "b"], by decide⟩, [], []⟩ := by cbv
  have htarget : readInventory "a b".toList = .ok ⟨⟨["a", "b"], by decide⟩, [], []⟩ := by cbv
  have hsegment : (Inventory.mk ⟨["a", "b"], by decide⟩ [] []).segmenter.segment "ab" =
      .ok ["a", "b"] := Segmenter.segment_singletons (by decide) (by simp)
  have hkey : candidateKey ["a\x1fb"] = candidateKey ["a", "b"] := by decide
  have hpreimages : ∀ segmenter, (Rule.mk ["a\x1fb"] ["a", "b"] none none 1).preimages segmenter
      ["a", "b"] = [["a\x1fb"], ["a", "b"]] := by
    have hchange : (Rule.mk ["a\x1fb"] ["a", "b"] none none 1).changePreimages ["a", "b"] =
        [["a\x1fb"], ["a", "b"]] := by decide
    exact fun _ => hchange
  have hjoined : ∀ segmenter, (Rule.mk ["a\x1fb"] ["a", "b"] none none 1).IsPreimage segmenter
      ["a\x1fb"] ["a", "b"] := fun segmenter => Rule.mem_preimages.1 (by simp [hpreimages])
  have hapart : ∀ segmenter, (Rule.mk ["a\x1fb"] ["a", "b"] none none 1).IsPreimage segmenter
      ["a", "b"] ["a", "b"] := fun segmenter => Rule.mem_preimages.1 (by simp [hpreimages])
  -- The source stage cuts both spellings: its phonemes are `a`, `b` and the token itself.
  have hfirst : IsLongestAt ["a", "a\x1fb", "b"] ("a".toList ++ ("b".toList ++ [])) "a" :=
    ⟨by decide, by decide, by decide, by decide⟩
  have hsecond : IsLongestAt ["a", "a\x1fb", "b"] ("b".toList ++ []) "b" :=
    ⟨by decide, by decide, by decide, by decide⟩
  have hwhole : IsLongestAt ["a", "a\x1fb", "b"] ("a\x1fb".toList ++ []) "a\x1fb" :=
    ⟨by decide, by decide, by decide, by decide⟩
  have hsourceApart : (Reverser.of [⟨["a\x1fb"], ["a", "b"], none, none, 1⟩]
      ⟨⟨["a", "a\x1fb", "b"], by decide⟩, [], []⟩ ⟨⟨["a", "b"], by decide⟩, [], []⟩
      Settings.default.reverser).isSourceWord (spell ["a", "b"]) = true :=
    (isSourceWord_of (by decide)).2
      ⟨_, Segmenter.segment_of_greedyCut (.cons hfirst (.cons hsecond (.nil []))), rfl⟩
  have hsourceJoined : (Reverser.of [⟨["a\x1fb"], ["a", "b"], none, none, 1⟩]
      ⟨⟨["a", "a\x1fb", "b"], by decide⟩, [], []⟩ ⟨⟨["a", "b"], by decide⟩, [], []⟩
      Settings.default.reverser).isSourceWord (spell ["a\x1fb"]) = true :=
    (isSourceWord_of (by decide)).2
      ⟨_, Segmenter.segment_of_greedyCut (.cons hwhole (.nil [])), rfl⟩
  refine ⟨_, _, _, ⟨⟨["a\x1fb"], ["a", "b"], none, none, 1⟩, ∅⟩, _, _, hcompiled, hsource, htarget,
    rfl, ?_, ?_, hkey, reverse_of_segment hsegment, reverseSequences_of_segment hsegment, ?_, ?_⟩
  · exact mem_undoSequences_iff.2
      ⟨⟨_, List.mem_singleton_self _, hjoined _⟩, fun _ => isDead_of_isSourceWord hsourceJoined⟩
  · exact mem_undoSequences_iff.2
      ⟨⟨_, List.mem_singleton_self _, hapart _⟩, fun _ => isDead_of_isSourceWord hsourceApart⟩
  · exact mem_sequenceSourcesOf_iff.2 ⟨rfl, ⟨["a", "b"], ⟨_, hapart _, rfl⟩, rfl⟩, hsourceApart⟩
  · intro hfound
    have hspell := eq_spell_of_mem_sourcesOf (hpreimages _) (by decide) hsourceJoined hfound
    exact absurd hspell (by decide)

end Diachrony
