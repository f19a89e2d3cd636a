import Mathlib.Data.List.Induction
import Diachrony.Proofs.Ancestor
import Diachrony.Proofs.CandidateKey

/-!
# What reversal finds

Reversal steps back breadth-first, merges candidates by key and drops those it takes to be
dead.  Kept as they are, the token sequences it ends with are ancestors of the word, and every
ancestor that spells a source word is among them, whether or not dead ones are dropped; merging
loses none of them where keys tell them apart.
-/

namespace Diachrony

/-! ## The steps of a reversal -/

theorem undoSteps_concat (produced : Std.HashSet Token) (steps : List UndoStep)
    (rules : List Rule) (rule : Rule) :
    undoSteps produced steps (rules ++ [rule]) =
      ⟨rule, rules.foldl (fun produced rule => produced.insertMany rule.output) produced⟩ ::
        undoSteps produced steps rules := by
  induction rules generalizing produced steps with
  | nil => rfl
  | cons first rules ih => exact ih _ _

theorem contains_foldl_insertMany {produced : Std.HashSet Token} {rules : List Rule}
    {token : Token} :
    (rules.foldl (fun produced rule => produced.insertMany rule.output) produced).contains
        token = true ↔
      produced.contains token = true ∨ ∃ rule ∈ rules, token ∈ rule.output := by
  induction rules generalizing produced with
  | nil => simp
  | cons rule rules ih =>
      rw [List.foldl_cons, ih, Std.HashSet.contains_insertMany_list]
      simp [or_assoc]

/-- The phonemes of a source stage together with all that the rules delete. -/
def effectivePhonemes (rules : List Rule) (source : Inventory) : List Token :=
  source.phonemes.toList ++ (rules.filter Rule.isDeletion).flatMap Rule.input

namespace Reverser

variable {reverser : Reverser} {step : UndoStep} {candidates : List Candidate}

theorem undo_nil (reverser : Reverser) (step : UndoStep) : reverser.undo step [] = [] := by
  unfold undo
  simp [mergeCandidates, keepFirst]

/-! ## Token sequences without keys -/

/-- What undoing a rule leaves of some token sequences, before any are merged. -/
def undoSequences (reverser : Reverser) (step : UndoStep) (sequences : List (List Token)) :
    List (List Token) :=
  let found := sequences.flatMap (step.rule.preimages reverser.source)
  if reverser.settings.earlyPruning then
    found.filter fun tokens => !reverser.isDead step.producible tokens
  else found

/-- What undoing some rules one after another leaves of some token sequences, if two of them count
as one only where they are the same. -/
def sequencesAfter (reverser : Reverser) (steps : List UndoStep) (sequences : List (List Token)) :
    List (List Token) :=
  steps.foldl (fun found step => distinct (reverser.undoSequences step found)) sequences

variable {sequences others : List (List Token)} {older : List Token}

theorem mem_undoSequences_iff :
    older ∈ reverser.undoSequences step sequences ↔
      (∃ newer ∈ sequences, step.rule.IsPreimage reverser.source older newer) ∧
        (reverser.settings.earlyPruning = true →
          reverser.isDead step.producible older = false) := by
  have hfound : older ∈ sequences.flatMap (step.rule.preimages reverser.source) ↔
      ∃ newer ∈ sequences, step.rule.IsPreimage reverser.source older newer := by
    simp only [List.mem_flatMap, Rule.mem_preimages]
  unfold undoSequences
  dsimp only
  split
  · rename_i hpruning
    rw [List.mem_filter, hfound]
    simp [hpruning]
  · rename_i hpruning
    rw [hfound]
    simp [hpruning]

theorem sequencesAfter_subset (hsubset : sequences ⊆ others) (steps : List UndoStep) :
    reverser.sequencesAfter steps sequences ⊆ reverser.sequencesAfter steps others := by
  induction steps generalizing sequences others with
  | nil => exact hsubset
  | cons step rest ih =>
      refine ih fun tokens htokens => ?_
      rw [mem_distinct, mem_undoSequences_iff] at htokens ⊢
      obtain ⟨⟨newer, hnewer, hpreimage⟩, halive⟩ := htokens
      exact ⟨⟨newer, hsubset hnewer, hpreimage⟩, halive⟩

/-- Every token of what is left was there before or is one that the rule takes. -/
theorem admits_of_mem_undoSequences {admits : Token → Prop}
    (hinput : ∀ token ∈ step.rule.input, admits token)
    (hadmits : ∀ tokens ∈ sequences, ∀ token ∈ tokens, admits token) :
    ∀ tokens ∈ reverser.undoSequences step sequences, ∀ token ∈ tokens, admits token := by
  intro tokens htokens token htoken
  obtain ⟨⟨newer, hnewer, hpreimage⟩, -⟩ := mem_undoSequences_iff.1 htokens
  rcases hpreimage.mem_newer_or_input htoken with hin | hin
  · exact hadmits newer hnewer token hin
  · exact hinput token hin

theorem admits_of_mem_sequencesAfter {admits : Token → Prop} {steps : List UndoStep}
    (hinput : ∀ step ∈ steps, ∀ token ∈ step.rule.input, admits token)
    (hadmits : ∀ tokens ∈ sequences, ∀ token ∈ tokens, admits token) :
    ∀ tokens ∈ reverser.sequencesAfter steps sequences, ∀ token ∈ tokens, admits token := by
  induction steps generalizing sequences with
  | nil => exact hadmits
  | cons step rest ih =>
      obtain ⟨hfirst, hlater⟩ := List.forall_mem_cons.1 hinput
      refine ih hlater fun tokens htokens => ?_
      exact admits_of_mem_undoSequences hfirst hadmits tokens (mem_distinct.1 htokens)

theorem undo_eq (reverser : Reverser) (step : UndoStep) (candidates : List Candidate) :
    reverser.undo step candidates = mergeCandidates
      ((reverser.undoSequences step (candidates.map Candidate.tokens)).map Candidate.of) := by
  have hfound : (candidates.map Candidate.tokens).flatMap (step.rule.preimages reverser.source) =
      candidates.flatMap fun candidate => step.rule.preimages reverser.source candidate.tokens :=
    List.flatMap_map _ _ _
  unfold undo undoSequences
  dsimp only
  rw [hfound]

theorem mem_undoSequences_of_mem_undo {candidate : Candidate}
    (h : candidate ∈ reverser.undo step candidates) :
    candidate.tokens ∈ reverser.undoSequences step (candidates.map Candidate.tokens) := by
  rw [undo_eq] at h
  obtain ⟨tokens, htokens, rfl⟩ := List.mem_map.1 (mem_of_mem_mergeCandidates h)
  exact htokens

theorem mem_sequencesAfter_of_mem_foldl {steps : List UndoStep} {candidate : Candidate}
    (h : candidate ∈ steps.foldl (fun found step => reverser.undo step found) candidates) :
    candidate.tokens ∈ reverser.sequencesAfter steps (candidates.map Candidate.tokens) := by
  induction steps generalizing candidates with
  | nil => exact List.mem_map_of_mem h
  | cons step rest ih =>
      refine sequencesAfter_subset (fun tokens htokens => ?_) rest (ih h)
      obtain ⟨found, hfound, rfl⟩ := List.mem_map.1 htokens
      exact mem_distinct.2 (mem_undoSequences_of_mem_undo hfound)

/-- Where keys tell the token sequences apart, merging by keys loses none of them. -/
theorem mem_map_tokens_foldl_undo_iff {admits : Token → Prop} (hkeys : KeysDistinguish admits)
    {steps : List UndoStep} (hinput : ∀ step ∈ steps, ∀ token ∈ step.rule.input, admits token)
    (hadmits : ∀ tokens ∈ candidates.map Candidate.tokens, ∀ token ∈ tokens, admits token) :
    older ∈ (steps.foldl (fun found step => reverser.undo step found) candidates).map
        Candidate.tokens ↔
      older ∈ reverser.sequencesAfter steps (candidates.map Candidate.tokens) := by
  constructor
  · intro h
    obtain ⟨candidate, hmem, rfl⟩ := List.mem_map.1 h
    exact mem_sequencesAfter_of_mem_foldl hmem
  · intro h
    induction steps generalizing candidates with
    | nil => exact h
    | cons step rest ih =>
        obtain ⟨hfirst, hlater⟩ := List.forall_mem_cons.1 hinput
        have hleft : ∀ tokens ∈ reverser.undoSequences step (candidates.map Candidate.tokens),
            ∀ token ∈ tokens, admits token := admits_of_mem_undoSequences hfirst hadmits
        refine ih hlater (fun tokens htokens => ?_) (sequencesAfter_subset ?_ rest h)
        · obtain ⟨candidate, hcandidate, rfl⟩ := List.mem_map.1 htokens
          exact hleft _ (mem_undoSequences_of_mem_undo hcandidate)
        · intro tokens htokens
          have hmerged := (mem_mergeCandidates_of hkeys hleft).2 (mem_distinct.1 htokens)
          rw [← undo_eq] at hmerged
          exact List.mem_map_of_mem hmerged

theorem foldl_undo_nil (reverser : Reverser) (steps : List UndoStep) :
    steps.foldl (fun found step => reverser.undo step found) [] = [] := by
  induction steps with
  | nil => rfl
  | cons step rest ih => rw [List.foldl_cons, undo_nil, ih]

/-- Stopping at an empty list of candidates is the same as going on: nothing comes of it. -/
theorem last_undoAll (reverser : Reverser) (steps : List UndoStep) (candidates : List Candidate) :
    ((reverser.undoAll steps candidates).getLast?.map Prod.snd).getD candidates =
      steps.foldl (fun found step => reverser.undo step found) candidates := by
  induction steps generalizing candidates with
  | nil => rfl
  | cons step rest ih =>
      have hcons : reverser.undoAll (step :: rest) candidates =
          (step, reverser.undo step candidates) ::
            if (reverser.undo step candidates).isEmpty then []
            else reverser.undoAll rest (reverser.undo step candidates) := rfl
      rw [hcons, List.foldl_cons]
      by_cases hempty : reverser.undo step candidates = []
      · rw [hempty, foldl_undo_nil]
        rfl
      · rw [if_neg (by simpa using hempty), List.getLast?_cons, ← ih]
        cases (reverser.undoAll rest (reverser.undo step candidates)).getLast? with
        | none => rfl
        | some last => rfl

/-! ## Every token sequence left is an ancestor -/

theorem exists_ancestor_of_mem_sequencesAfter {rules : List Rule}
    (h : older ∈ reverser.sequencesAfter (undoSteps ∅ [] rules) sequences) :
    ∃ newer ∈ sequences, IsAncestor reverser.source rules older newer := by
  induction rules using List.reverseRecOn generalizing sequences with
  | nil => exact ⟨older, h, rfl⟩
  | append_singleton rules rule ih =>
      rw [undoSteps_concat, sequencesAfter, List.foldl_cons] at h
      obtain ⟨between, hbetween, hancestor⟩ := ih h
      obtain ⟨⟨newer, hmem, hpreimage⟩, -⟩ := mem_undoSequences_iff.1 (mem_distinct.1 hbetween)
      exact ⟨newer, hmem, isAncestor_concat.2 ⟨between, hancestor, hpreimage⟩⟩

/-! ## Every ancestor that spells a source word is left -/

/-- A candidate on the way to a source word is not dead: the token that makes it dead would be
there to the end. -/
theorem isDead_of_isAncestor {rules : List Rule} {older between : List Token}
    (hancestor : IsAncestor reverser.source rules older between)
    (hused : ∀ c ∈ (spell older).toList, reverser.effectiveSource.usesCharacter c = true)
    {producible : Std.HashSet Token}
    (hproducible : ∀ token, producible.contains token = true ↔
      ∃ rule ∈ rules, token ∈ rule.output) :
    reverser.isDead producible between = false := by
  rw [isDead, List.any_eq_false]
  intro token hmem hdead
  simp only [Bool.and_eq_true, Bool.not_eq_true', List.any_eq_true] at hdead
  obtain ⟨hunproducible, c, hc, hunused⟩ := hdead
  have hnot : ∀ rule ∈ rules, token ∉ rule.output := by
    intro rule hrule houtput
    have hcontains := (hproducible token).2 ⟨rule, hrule, houtput⟩
    rw [hunproducible] at hcontains
    cases hcontains
  have holder := hancestor.mem_older hmem hnot
  have husedc := hused c (mem_toList_spell.2 ⟨token, holder, hc⟩)
  rw [hunused] at husedc
  cases husedc

theorem mem_sequencesAfter_of {rules : List Rule} {newer : List Token} (hmem : newer ∈ sequences)
    (hancestor : IsAncestor reverser.source rules older newer)
    (hused : ∀ c ∈ (spell older).toList, reverser.effectiveSource.usesCharacter c = true) :
    older ∈ reverser.sequencesAfter (undoSteps ∅ [] rules) sequences := by
  induction rules using List.reverseRecOn generalizing sequences newer with
  | nil =>
      obtain rfl : older = newer := hancestor
      exact hmem
  | append_singleton rules rule ih =>
      obtain ⟨between, hbetween, hpreimage⟩ := isAncestor_concat.1 hancestor
      rw [undoSteps_concat, sequencesAfter, List.foldl_cons]
      refine ih (mem_distinct.2 (mem_undoSequences_iff.2 ⟨⟨newer, hmem, hpreimage⟩, ?_⟩)) hbetween
      refine fun _ => isDead_of_isAncestor hbetween hused fun token => ?_
      rw [contains_foldl_insertMany]
      simp

theorem rule_mem_of_mem_undoSteps {rules : List Rule} {step : UndoStep}
    (h : step ∈ undoSteps ∅ [] rules) : step.rule ∈ rules := by
  induction rules using List.reverseRecOn with
  | nil => cases h
  | append_singleton rules rule ih =>
      rw [undoSteps_concat] at h
      rcases List.mem_cons.1 h with rfl | h
      · simp
      · exact List.mem_append_left [rule] (ih h)

/-! ## The words found -/

section Prepared

variable {rules : List Rule} {source target : Inventory} {settings : ReverserSettings}

theorem isSourceWord_iff {word : String} :
    (Reverser.of rules source target settings).isSourceWord word = true ↔
      ∃ tokens, (Segmenter.ofTokens (effectivePhonemes rules source)).segment word = .ok tokens ∧
        satisfiesPatterns source.phonotactics tokens = true := by
  have hsegmenter : (Reverser.of rules source target settings).effectiveSource =
      Segmenter.ofTokens (effectivePhonemes rules source) := rfl
  have hpatterns : (Reverser.of rules source target settings).sourcePatterns =
      source.phonotactics := rfl
  rw [isSourceWord, hsegmenter, hpatterns]
  cases (Segmenter.ofTokens (effectivePhonemes rules source)).segment word with
  | error failure => simp
  | ok tokens => simp

theorem usesCharacter_of_isSourceWord {word : String}
    (h : (Reverser.of rules source target settings).isSourceWord word = true) {c : Char}
    (hc : c ∈ word.toList) :
    (Reverser.of rules source target settings).effectiveSource.usesCharacter c = true := by
  obtain ⟨tokens, hsegment, -⟩ := isSourceWord_iff.1 h
  exact Segmenter.usesCharacter_of_segment hsegment hc

/-- A word of the source stage is not dead, however little is left to undo. -/
theorem isDead_of_isSourceWord {tokens : List Token}
    (h : (Reverser.of rules source target settings).isSourceWord (spell tokens) = true) :
    (Reverser.of rules source target settings).isDead ∅ tokens = false := by
  have hself : IsAncestor (Reverser.of rules source target settings).source [] tokens tokens := rfl
  exact isDead_of_isAncestor hself (fun c hc => usesCharacter_of_isSourceWord h hc) (by simp)

theorem mem_sourcesOf {word : String} {newer : List Token} :
    word ∈ ((Reverser.of rules source target settings).sourcesOf newer).toList ↔
      (Reverser.of rules source target settings).isRefused newer = false ∧
        (∃ candidate ∈ (undoSteps ∅ [] rules).foldl
          (fun found step => (Reverser.of rules source target settings).undo step found)
          [Candidate.of newer], spell candidate.tokens = word) ∧
        (Reverser.of rules source target settings).isSourceWord word = true := by
  have hfinal := last_undoAll (Reverser.of rules source target settings)
    (Reverser.of rules source target settings).steps [Candidate.of newer]
  unfold sourcesOf
  dsimp only
  split
  · rename_i hrefused
    simp [TokenSet.empty, hrefused]
  · rename_i hrefused
    have hallowed : (Reverser.of rules source target settings).isRefused newer = false := by
      simpa using hrefused
    rw [TokenSet.mem_ofList, List.mem_filter, List.mem_map, and_iff_right hallowed]
    refine and_congr_left fun _ => ?_
    split
    · rename_i hlast
      rw [hlast] at hfinal
      exact hfinal ▸ Iff.rfl
    · rename_i hlast
      rw [hlast] at hfinal
      exact hfinal ▸ Iff.rfl

/-- A word that reversal finds is spelled by an ancestor of the given one. -/
theorem exists_ancestor_of_mem_sourcesOf {word : String} {newer : List Token}
    (h : word ∈ ((Reverser.of rules source target settings).sourcesOf newer).toList) :
    ∃ older, IsAncestor source.segmenter rules older newer ∧ spell older = word := by
  obtain ⟨-, ⟨candidate, hmem, hspell⟩, -⟩ := mem_sourcesOf.1 h
  obtain ⟨start, hstart, hancestor⟩ :=
    exists_ancestor_of_mem_sequencesAfter (mem_sequencesAfter_of_mem_foldl hmem)
  rw [List.map_singleton, List.mem_singleton] at hstart
  subst hstart
  exact ⟨candidate.tokens, hancestor, hspell⟩

/-- Where keys tell candidates apart, reversal finds exactly the source words that ancestors
of the given word spell, unless the given word is refused. -/
theorem mem_sourcesOf_iff_of_keys {admits : Token → Prop} (hkeys : KeysDistinguish admits)
    (hinput : ∀ rule ∈ rules, ∀ token ∈ rule.input, admits token) {newer : List Token}
    (hnewer : ∀ token ∈ newer, admits token) {word : String} :
    word ∈ ((Reverser.of rules source target settings).sourcesOf newer).toList ↔
      (Reverser.of rules source target settings).isRefused newer = false ∧
        (∃ older, IsAncestor source.segmenter rules older newer ∧ spell older = word) ∧
        (Reverser.of rules source target settings).isSourceWord word = true := by
  constructor
  · intro h
    obtain ⟨hallowed, -, hsource⟩ := mem_sourcesOf.1 h
    exact ⟨hallowed, exists_ancestor_of_mem_sourcesOf h, hsource⟩
  · rintro ⟨hallowed, ⟨older, hancestor, rfl⟩, hsource⟩
    have hstart : ∀ tokens ∈ [Candidate.of newer].map Candidate.tokens, ∀ token ∈ tokens,
        admits token := by simpa [Candidate.of] using hnewer
    have hsteps : ∀ step ∈ undoSteps ∅ [] rules, ∀ token ∈ step.rule.input, admits token :=
      fun step hstep => hinput step.rule (rule_mem_of_mem_undoSteps hstep)
    have hleft := mem_sequencesAfter_of (List.mem_singleton_self newer) hancestor
      fun c hc => usesCharacter_of_isSourceWord hsource hc
    obtain ⟨candidate, hmem, rfl⟩ :=
      List.mem_map.1 ((mem_map_tokens_foldl_undo_iff hkeys hsteps hstart).2 hleft)
    exact mem_sourcesOf.2 ⟨hallowed, ⟨candidate, hmem, rfl⟩, hsource⟩

theorem mem_sourcesOf_iff {admits : Token → Prop} (hkeys : KeysDistinguish admits)
    (hinput : ∀ rule ∈ rules, ∀ token ∈ rule.input, admits token)
    (hcheck : settings.checkTargetPhonotactics = false) {newer : List Token}
    (hnewer : ∀ token ∈ newer, admits token) {word : String} :
    word ∈ ((Reverser.of rules source target settings).sourcesOf newer).toList ↔
      (∃ older, IsAncestor source.segmenter rules older newer ∧ spell older = word) ∧
        (Reverser.of rules source target settings).isSourceWord word = true := by
  have hallowed : (Reverser.of rules source target settings).isRefused newer = false := by
    simp [isRefused, Reverser.of, hcheck]
  rw [mem_sourcesOf_iff_of_keys hkeys hinput hnewer, and_iff_right hallowed]

theorem reverse_of [Limits] (word : String) :
    ((Reverser.of rules source target settings).reverse word).1 =
      (Reverser.of rules source target settings).reconstruct word := by
  have hnew : (Reverser.of rules source target settings).remembered? word = none := by
    simp [remembered?, Reverser.of]
  unfold reverse
  rw [hnew]
  dsimp only
  cases (Reverser.of rules source target settings).reconstruct word with
  | error failure => rfl
  | ok sources => rfl

theorem reverse_of_segment [Limits] {word : String} {newer : List Token}
    (h : target.segmenter.segment word = .ok newer) :
    ((Reverser.of rules source target settings).reverse word).1 =
      .ok ((Reverser.of rules source target settings).sourcesOf newer) := by
  have hsegment : (Reverser.of rules source target settings).target.segment word = .ok newer := h
  rw [reverse_of, reconstruct, hsegment]
  rfl

theorem reverse_of_segment_error [Limits] {word : String} {failure : SegmentationError}
    (h : target.segmenter.segment word = .error failure) :
    ((Reverser.of rules source target settings).reverse word).1 = .error failure := by
  have hsegment : (Reverser.of rules source target settings).target.segment word =
      .error failure := h
  rw [reverse_of, reconstruct, hsegment]
  rfl

theorem segment_of_reverse [Limits] {word : String} {sources : TokenSet}
    (h : ((Reverser.of rules source target settings).reverse word).1 = .ok sources) :
    ∃ newer, target.segmenter.segment word = .ok newer ∧
      sources = (Reverser.of rules source target settings).sourcesOf newer := by
  cases hsegment : target.segmenter.segment word with
  | error failure =>
      rw [reverse_of_segment_error hsegment] at h
      cases h
  | ok newer =>
      rw [reverse_of_segment hsegment] at h
      cases h
      exact ⟨newer, rfl, rfl⟩

end Prepared

end Reverser

end Diachrony
