import Mathlib
import Diachrony.Proofs.Survival
import Diachrony.RuleText.Compile

/-!
# Inventories suggested by the rules

A word of the suggested source inventory becomes a word of the suggested target inventory, but for
tokens that rules only replace: where none of them does so everywhere, such a token can be left
over, and the target inventory is suggested without it.
-/

namespace Diachrony

variable {rules : List Rule} {token : Token}

/-! ## The suggestions -/

theorem mem_consumedOnly_iff :
    token ∈ (phonemeRoles rules).consumedOnly.toList ↔
      (∃ rule ∈ rules, token ∈ rule.input) ∧ ¬ ∃ rule ∈ rules, token ∈ rule.output := by
  rw [phonemeRoles, TokenSet.mem_filter, Bool.not_eq_true', ← Bool.not_eq_true,
    TokenSet.contains_iff, TokenSet.mem_ofList, TokenSet.mem_ofList, List.mem_flatMap,
    List.mem_flatMap]

theorem mem_contextOnly_iff :
    token ∈ (phonemeRoles rules).contextOnly.toList ↔
      (∃ rule ∈ rules, token ∈ rule.contextTokens) ∧
        (¬ ∃ rule ∈ rules, token ∈ rule.output) ∧ ¬ ∃ rule ∈ rules, token ∈ rule.input := by
  rw [phonemeRoles, TokenSet.mem_filter, Bool.and_eq_true, Bool.not_eq_true', Bool.not_eq_true',
    ← Bool.not_eq_true, ← Bool.not_eq_true, TokenSet.contains_iff, TokenSet.contains_iff,
    TokenSet.mem_ofList, TokenSet.mem_ofList, TokenSet.mem_ofList, List.mem_flatMap,
    List.mem_flatMap, List.mem_flatMap]

theorem mem_suggestedSource_iff :
    token ∈ (phonemeRoles rules).suggestedSource.toList ↔
      token ∈ (phonemeRoles rules).consumedOnly.toList ∨
        token ∈ (phonemeRoles rules).persistent.toList ∨
          token ∈ (phonemeRoles rules).contextOnly.toList := by
  rw [PhonemeRoles.suggestedSource, TokenSet.mem_union, TokenSet.mem_union, or_assoc]

theorem mem_suggestedTarget_iff :
    token ∈ (phonemeRoles rules).suggestedTarget.toList ↔
      token ∈ (phonemeRoles rules).producedOnly.toList ∨
        token ∈ (phonemeRoles rules).persistent.toList ∨
          token ∈ (phonemeRoles rules).contextOnly.toList := by
  rw [PhonemeRoles.suggestedTarget, TokenSet.mem_union, TokenSet.mem_union, or_assoc]

/-- The suggested target has no token that the rules only replace. -/
theorem not_mem_suggestedTarget_of_consumedOnly
    (h : token ∈ (phonemeRoles rules).consumedOnly.toList) :
    token ∉ (phonemeRoles rules).suggestedTarget.toList := by
  obtain ⟨hreplaced, hunwritten⟩ := mem_consumedOnly_iff.1 h
  rw [mem_suggestedTarget_iff, mem_producedOnly_iff, mem_persistent_iff, mem_contextOnly_iff]
  rintro (⟨hwritten, -⟩ | ⟨hwritten, -⟩ | ⟨-, -, huntouched⟩)
  · exact hunwritten hwritten
  · exact hunwritten hwritten
  · exact huntouched hreplaced

/-! ## Words of the suggested source -/

theorem alwaysReplacedLater_of_not_written (h : ¬ ∃ rule ∈ rules, token ∈ rule.output) :
    alwaysReplacedLater token rules = true := by
  induction rules with
  | nil => rfl
  | cons rule rules ih =>
      refine alwaysReplacedLater_cons.2 ⟨fun hwritten => ?_, ih ?_⟩
      · exact absurd ⟨rule, List.mem_cons_self, hwritten⟩ h
      · rintro ⟨later, hmem, hwritten⟩
        exact h ⟨later, List.mem_cons_of_mem rule hmem, hwritten⟩

/-- A token that no rule writes and some rule replaces everywhere does not survive. -/
theorem not_mem_applyRules_of_replacesEverywhere
    (hunwritten : ¬ ∃ rule ∈ rules, token ∈ rule.output)
    (hreplaced : ∃ rule ∈ rules, rule.replacesEverywhere token = true) (tokens : List Token) :
    token ∉ applyRules rules tokens :=
  not_mem_applyRules_of_alwaysReplacedLater (alwaysReplacedLater_of_not_written hunwritten)
    hreplaced tokens

/-- What words of the suggested source become has its tokens in the suggested target, except for
those that the rules only replace: these are left over from the word where they stood, and none of
the rules replaces them everywhere. -/
theorem mem_suggestedTarget_iff_of_mem_applyRules {tokens : List Token}
    (hsource : ∀ token ∈ tokens, token ∈ (phonemeRoles rules).suggestedSource.toList)
    (h : token ∈ applyRules rules tokens) :
    (token ∈ (phonemeRoles rules).suggestedTarget.toList ↔
        token ∉ (phonemeRoles rules).consumedOnly.toList) ∧
      (token ∈ (phonemeRoles rules).consumedOnly.toList →
        token ∈ tokens ∧ ¬ ∃ rule ∈ rules, rule.replacesEverywhere token = true) := by
  obtain ⟨-, hrole⟩ := role_of_mem_applyRules h
  refine ⟨⟨fun htarget hconsumed => not_mem_suggestedTarget_of_consumedOnly hconsumed htarget,
    fun hconsumed => ?_⟩, fun hconsumed => ⟨?_, fun hreplaced => ?_⟩⟩
  · rw [mem_suggestedTarget_iff]
    rcases hrole with hmem | hproduced | hpersistent
    · exact .inr ((mem_suggestedSource_iff.1 (hsource token hmem)).resolve_left hconsumed)
    · exact .inl hproduced
    · exact .inr (.inl hpersistent)
  · have hmissing := not_mem_suggestedTarget_of_consumedOnly hconsumed
    rw [mem_suggestedTarget_iff, not_or, not_or] at hmissing
    exact hrole.resolve_right (not_or.2 ⟨hmissing.1, hmissing.2.1⟩)
  · exact not_mem_applyRules_of_replacesEverywhere (mem_consumedOnly_iff.1 hconsumed).2 hreplaced
      tokens h

/-- Under `k > x`, `x > h`, `h > ∅ / _ #` and `a > e / _ n` the word `kha` becomes `hha`: `h` is in
the suggested target, and `a`, which nothing but a following `n` changes, is not. -/
theorem mem_suggestedTarget_iff_of_mem_applyRules_kha :
    let rules : List Rule := [⟨["k"], ["x"], none, none, 1⟩, ⟨["x"], ["h"], none, none, 2⟩,
      ⟨["h"], [], none, some ["#"], 3⟩, ⟨["a"], ["e"], none, some ["n"], 4⟩]
    (∀ token ∈ ["k", "h", "a"], token ∈ (phonemeRoles rules).suggestedSource.toList) ∧
      applyRules rules ["k", "h", "a"] = ["h", "h", "a"] ∧
      "h" ∈ (phonemeRoles rules).suggestedTarget.toList ∧
      "a" ∉ (phonemeRoles rules).suggestedTarget.toList ∧
      ¬ ∃ rule ∈ rules, rule.replacesEverywhere "a" = true := by
  intro rules
  have hconsumed : ∀ token ∈ ["k", "a"], token ∈ (phonemeRoles rules).consumedOnly.toList := by
    intro token hmem
    rw [mem_consumedOnly_iff]
    revert token
    decide
  have hsource : ∀ token ∈ ["k", "h", "a"],
      token ∈ (phonemeRoles rules).suggestedSource.toList := by
    simp only [mem_suggestedSource_iff, mem_consumedOnly_iff, mem_persistent_iff]
    decide
  have happly : applyRules rules ["k", "h", "a"] = ["h", "h", "a"] := by decide
  have hleft : ∀ token ∈ ["h", "a"], token ∈ applyRules rules ["k", "h", "a"] := by
    rw [happly]
    decide
  have hh := mem_suggestedTarget_iff_of_mem_applyRules hsource (hleft "h" (by decide))
  have ha := mem_suggestedTarget_iff_of_mem_applyRules hsource (hleft "a" (by decide))
  have hkept : "h" ∉ (phonemeRoles rules).consumedOnly.toList := by
    rw [mem_consumedOnly_iff]
    decide
  exact ⟨hsource, happly, hh.1.2 hkept, fun hmem => ha.1.1 hmem (hconsumed "a" (by decide)),
    (ha.2 (hconsumed "a" (by decide))).2⟩

/-- Where no `c` follows, `a > b / _ c` leaves an `a` of the suggested source as it is, and the
suggested target has none. -/
theorem not_mem_suggestedTarget_a :
    ∃ compiled, RuleText.compileText "a > b / _ c".toList true = .ok compiled ∧
      (∀ token ∈ ["a"], token ∈ (phonemeRoles compiled.rules).suggestedSource.toList) ∧
      "a" ∈ applyRules compiled.rules ["a"] ∧
      "a" ∉ (phonemeRoles compiled.rules).suggestedTarget.toList := by
  have hcompiled : RuleText.compileText "a > b / _ c".toList true =
      .ok ⟨[⟨["a"], ["b"], none, some ["c"], 1⟩], ⟨1, 0, 1, 1, 3⟩⟩ := by cbv
  have hconsumed : "a" ∈
      (phonemeRoles [⟨["a"], ["b"], none, some ["c"], 1⟩]).consumedOnly.toList := by
    rw [mem_consumedOnly_iff]
    decide
  refine ⟨_, hcompiled, fun token hmem => ?_, by decide,
    not_mem_suggestedTarget_of_consumedOnly hconsumed⟩
  rw [List.mem_singleton.1 hmem]
  exact mem_suggestedSource_iff.2 (.inl hconsumed)

end Diachrony
