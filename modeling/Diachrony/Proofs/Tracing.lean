import Diachrony.Proofs.Computation
import Diachrony.Proofs.PassEnds
import Diachrony.Proofs.Spelling

/-!
# Traces and derivations

A trace has a step for every rule that changes the tokens of a word, and the step shows the word
behind that rule.  Between two steps nothing happens, so the last one shows what the word becomes.
-/

namespace Diachrony

/-- Whether some steps are the trace of a word of these tokens: in the order of the rules, there is
one for every rule that changes the tokens, with the word spelled by the tokens behind the rule. -/
structure IsTrace (rules : List Rule) (tokens : List Token) (steps : List TraceStep) : Prop where
  increasing : steps.Pairwise fun step later => step.ruleIndex < later.ruleIndex
  shows : ∀ step ∈ steps, rules[step.ruleIndex]? = some step.rule ∧
    step.word = spell (applyRules (rules.take (step.ruleIndex + 1)) tokens)
  changes : ∀ index < rules.length, index ∈ steps.map TraceStep.ruleIndex ↔
    applyRules (rules.take (index + 1)) tokens ≠ applyRules (rules.take index) tokens

/-! ## The loop -/

theorem traceLoop_eq (index : Nat) (steps : List TraceStep) (tokens : List Token)
    (rules : List Rule) :
    traceLoop index steps tokens rules = steps.reverse ++ traceLoop index [] tokens rules := by
  induction rules generalizing index steps tokens with
  | nil => simp [traceLoop]
  | cons rule rules ih =>
      simp only [traceLoop]
      rw [ih]
      split
      · rfl
      · rw [ih _ [_]]
        simp

theorem traceLoop_cons_of_same {rule : Rule} {tokens : List Token} (h : rule.apply tokens = tokens)
    (index : Nat) (rules : List Rule) :
    traceLoop index [] tokens (rule :: rules) = traceLoop (index + 1) [] tokens rules := by
  simp [traceLoop, h]

theorem traceLoop_cons_of_change {rule : Rule} {tokens : List Token}
    (h : rule.apply tokens ≠ tokens) (index : Nat) (rules : List Rule) :
    traceLoop index [] tokens (rule :: rules) =
      ⟨index, rule, spell (rule.apply tokens)⟩ ::
        traceLoop (index + 1) [] (rule.apply tokens) rules := by
  rw [traceLoop, if_neg (by simpa using h), traceLoop_eq]
  rfl

/-- Whether a step belongs to the rule at a place of the list, and that rule changes the tokens. -/
structure TraceStep.IsAt (step : TraceStep) (rules : List Rule) (tokens : List Token)
    (place : Nat) : Prop where
  rule : rules[place]? = some step.rule
  word : step.word = spell (applyRules (rules.take (place + 1)) tokens)
  change : applyRules (rules.take (place + 1)) tokens ≠ applyRules (rules.take place) tokens

theorem TraceStep.isAt_zero_iff {step : TraceStep} {rule : Rule} {rules : List Rule}
    {tokens : List Token} :
    step.IsAt (rule :: rules) tokens 0 ↔
      step.rule = rule ∧ step.word = spell (rule.apply tokens) ∧ rule.apply tokens ≠ tokens := by
  constructor
  · rintro ⟨hrule, hword, hchange⟩
    exact ⟨(Option.some.inj hrule).symm, hword, hchange⟩
  · rintro ⟨rfl, hword, hchange⟩
    exact ⟨rfl, hword, hchange⟩

theorem TraceStep.isAt_succ_iff {step : TraceStep} {rule : Rule} {rules : List Rule}
    {tokens : List Token} {place : Nat} :
    step.IsAt (rule :: rules) tokens (place + 1) ↔ step.IsAt rules (rule.apply tokens) place :=
  ⟨fun h => ⟨h.rule, h.word, h.change⟩, fun h => ⟨h.rule, h.word, h.change⟩⟩

theorem mem_traceLoop_iff {index : Nat} {tokens : List Token} {rules : List Rule}
    {step : TraceStep} :
    step ∈ traceLoop index [] tokens rules ↔
      ∃ place, step.ruleIndex = index + place ∧ step.IsAt rules tokens place := by
  induction rules generalizing index tokens with
  | nil =>
      constructor
      · intro h
        cases h
      · rintro ⟨place, -, h⟩
        cases h.rule
  | cons rule rules ih =>
      have hlater : step ∈ traceLoop (index + 1) [] (rule.apply tokens) rules ↔
          ∃ place, step.ruleIndex = index + (place + 1) ∧
            step.IsAt (rule :: rules) tokens (place + 1) := by
        simp only [ih, TraceStep.isAt_succ_iff, Nat.add_assoc, Nat.add_comm 1]
      -- The first rule has a step if it changes the tokens; all other steps are later ones.
      rw [← Nat.or_exists_add_one, ← hlater, TraceStep.isAt_zero_iff, Nat.add_zero]
      by_cases hsame : rule.apply tokens = tokens
      · rw [traceLoop_cons_of_same hsame, hsame]
        simp
      · rw [traceLoop_cons_of_change hsame, List.mem_cons]
        refine or_congr_left ⟨?_, ?_⟩
        · rintro rfl
          exact ⟨rfl, rfl, rfl, hsame⟩
        · rintro ⟨hindex, hrule, hword, -⟩
          rw [← hword, ← hindex, ← hrule]

theorem pairwise_traceLoop (index : Nat) (tokens : List Token) (rules : List Rule) :
    (traceLoop index [] tokens rules).Pairwise fun step later =>
      step.ruleIndex < later.ruleIndex := by
  induction rules generalizing index tokens with
  | nil => exact .nil
  | cons rule rules ih =>
      by_cases hsame : rule.apply tokens = tokens
      · rw [traceLoop_cons_of_same hsame]
        exact ih _ _
      · rw [traceLoop_cons_of_change hsame, List.pairwise_cons]
        refine ⟨fun later hlater => ?_, ih _ _⟩
        obtain ⟨place, hindex, -⟩ := mem_traceLoop_iff.1 hlater
        rw [hindex]
        exact Nat.lt_of_lt_of_le (Nat.lt_succ_self index) (Nat.le_add_right _ place)

theorem getD_getLast?_traceLoop (index : Nat) (tokens : List Token) (rules : List Rule) :
    ((traceLoop index [] tokens rules).getLast?.map TraceStep.word).getD (spell tokens) =
      spell (applyRules rules tokens) := by
  induction rules generalizing index tokens with
  | nil => rfl
  | cons rule rules ih =>
      have hlater := ih (index + 1) (rule.apply tokens)
      change _ = spell (applyRules rules (rule.apply tokens))
      rw [← hlater]
      by_cases hsame : rule.apply tokens = tokens
      · rw [traceLoop_cons_of_same hsame, hsame]
      · rw [traceLoop_cons_of_change hsame, List.getLast?_cons]
        cases (traceLoop (index + 1) [] (rule.apply tokens) rules).getLast? <;> rfl

theorem isTrace_traceLoop (rules : List Rule) (tokens : List Token) :
    IsTrace rules tokens (traceLoop 0 [] tokens rules) := by
  refine ⟨pairwise_traceLoop 0 tokens rules, fun step hstep => ?_, fun index hindex => ?_⟩
  · obtain ⟨place, hplace, hat⟩ := mem_traceLoop_iff.1 hstep
    rw [Nat.zero_add] at hplace
    rw [hplace]
    exact ⟨hat.rule, hat.word⟩
  · rw [List.mem_map]
    constructor
    · rintro ⟨step, hstep, rfl⟩
      obtain ⟨place, hplace, hat⟩ := mem_traceLoop_iff.1 hstep
      rw [Nat.zero_add] at hplace
      rw [hplace]
      exact hat.change
    · intro hchange
      refine ⟨⟨index, rules[index], spell (applyRules (rules.take (index + 1)) tokens)⟩, ?_, rfl⟩
      exact mem_traceLoop_iff.2
        ⟨index, (Nat.zero_add index).symm, List.getElem?_eq_getElem hindex, rfl, hchange⟩

/-! ## Words -/

namespace Deriver

theorem derive_eq_error_iff (deriver : Deriver) {word : String} {failure : SegmentationError} :
    deriver.derive word = .error failure ↔ deriver.source.segment word = .error failure := by
  rw [derive, bind_eq_error]
  simp [pure, Except.pure]

theorem trace_eq_error_iff (deriver : Deriver) {word : String} {failure : SegmentationError} :
    deriver.trace word = .error failure ↔ deriver.source.segment word = .error failure := by
  rw [trace, bind_eq_error]
  simp [pure, Except.pure]

/-- Tracing a word fails as deriving it does.  Otherwise the steps are those of the tokens the word
is cut into, and the word becomes what the last step shows, or stays as it is without steps.  The
tokens behind a rule are those with which the passes up to it end, and all passes of rules with
inputs do. -/
theorem trace_iff_derive (rules : List Rule) (source target : Inventory) (word : String) :
    let deriver := Deriver.of rules source target
    (∀ failure, deriver.trace word = .error failure ↔ deriver.derive word = .error failure) ∧
      ∀ steps, deriver.trace word = .ok steps →
        ∃ tokens, deriver.source.segment word = .ok tokens ∧ IsTrace rules tokens steps ∧
          deriver.derive word = .ok ((steps.getLast?.map TraceStep.word).getD word) ∧
          ∀ count, (∀ result, RunsThrough (rules.take count) tokens result →
              result = applyRules (rules.take count) tokens) ∧
            ((∀ rule ∈ rules, rule.input ≠ []) →
              RunsThrough (rules.take count) tokens (applyRules (rules.take count) tokens)) := by
  intro deriver
  constructor
  · intro failure
    rw [deriver.trace_eq_error_iff, deriver.derive_eq_error_iff]
  · intro steps h
    obtain ⟨tokens, htokens, h⟩ := bind_eq_ok.1 h
    cases h
    refine ⟨tokens, htokens, isTrace_traceLoop rules tokens, ?_, fun count =>
      ⟨fun _ hrun => hrun.eq_applyRules, fun hinput => runsThrough_applyRules
        (fun rule hrule => hinput rule (List.mem_of_mem_take hrule)) tokens⟩⟩
    have hspell : spell tokens = word := (Segmenter.segment_ok htokens).1
    have hlast := getD_getLast?_traceLoop 0 tokens rules
    rw [hspell] at hlast
    rw [Deriver.derive, htokens, ok_bind]
    exact congrArg Except.ok hlast.symm

/-- Under `a > b`, `c > d` and `b > c` the word `ab` goes by way of `bb` to `cc`; the second rule
has no step. -/
theorem trace_iff_derive_ab :
    let rules : List Rule := [⟨["a"], ["b"], none, none, 1⟩, ⟨["c"], ["d"], none, none, 2⟩,
      ⟨["b"], ["c"], none, none, 3⟩]
    let deriver := Deriver.of rules (.ofPhonemes ["a", "b"]) (.ofPhonemes ["c"])
    let steps : List TraceStep :=
      [⟨0, ⟨["a"], ["b"], none, none, 1⟩, "bb"⟩, ⟨2, ⟨["b"], ["c"], none, none, 3⟩, "cc"⟩]
    deriver.trace "ab" = .ok steps ∧
      ∃ tokens, deriver.source.segment "ab" = .ok tokens ∧ IsTrace rules tokens steps ∧
        deriver.derive "ab" = .ok "cc" ∧
        RunsThrough (rules.take 2) tokens (applyRules (rules.take 2) tokens) := by
  intro rules deriver steps
  have hsegment : deriver.source.segment "ab" = .ok ["a", "b"] :=
    Inventory.segment_ofPhonemes (by decide) (by simp)
  have htrace : deriver.trace "ab" = .ok steps := by
    rw [trace, hsegment]
    exact congrArg Except.ok (by decide : traceLoop 0 [] ["a", "b"] rules = steps)
  obtain ⟨tokens, htokens, hsteps, hderive, hruns⟩ :=
    (trace_iff_derive rules _ _ "ab").2 steps htrace
  exact ⟨htrace, tokens, htokens, hsteps, hderive, (hruns 2).2 (by decide)⟩

end Deriver

end Diachrony
