import Diachrony.PhonemeRoles
import Diachrony.Proofs.Ancestor

/-!
# Tokens that survive the rules

What a rule replaces everywhere is gone after its pass, unless it writes the token itself.  A
token that is replaced everywhere after each rule that writes it is gone for good with the last
of those replacements: no rule from there on writes it.
-/

namespace Diachrony

/-! ## One pass -/

namespace Rule

variable {rule : Rule} {token : Token}

theorem replacesEverywhere_iff :
    rule.replacesEverywhere token = true ↔
      rule.left = none ∧ rule.right = none ∧ rule.input = [token] := by
  simp [replacesEverywhere, hasContext, and_assoc]

/-- A token that a rule replaces everywhere starts a match wherever it stands. -/
theorem matchesBetween_of_replacesEverywhere (h : rule.replacesEverywhere token = true)
    (before rest : List Token) : rule.matchesBetween before (token :: rest) = true := by
  obtain ⟨hleft, hright, hinput⟩ := replacesEverywhere_iff.1 h
  simp [matchesBetween, leftHolds, rightHolds, hleft, hright, hinput]

theorem not_mem_newer_of_replacesEverywhere (h : rule.replacesEverywhere token = true)
    (houtput : token ∉ rule.output) {before : List Token} {script : Script}
    (hpass : rule.isPass before script = true) : token ∉ rule.newer script := by
  induction script generalizing before with
  | nil => exact List.not_mem_nil
  | cons step rest ih =>
      cases step with
      | some kept =>
          simp only [isPass, Bool.and_eq_true, Bool.not_eq_true'] at hpass
          rw [newer, List.mem_cons, not_or]
          refine ⟨?_, ih hpass.2⟩
          rintro rfl
          have hmatch := matchesBetween_of_replacesEverywhere h before (rule.older rest)
          rw [hpass.1] at hmatch
          cases hmatch
      | none =>
          simp only [isPass, Bool.and_eq_true] at hpass
          rw [newer, List.mem_append, not_or]
          exact ⟨houtput, ih hpass.2⟩

theorem not_mem_apply_of_replacesEverywhere (h : rule.replacesEverywhere token = true)
    (houtput : token ∉ rule.output) (tokens : List Token) : token ∉ rule.apply tokens := by
  have hinput : rule.input ≠ [] := by simp [(replacesEverywhere_iff.1 h).2.2]
  rw [← rule.newer_script]
  exact not_mem_newer_of_replacesEverywhere h houtput (isPass_script hinput tokens)

end Rule

/-! ## All the rules -/

section Rules

variable {rules : List Rule} {token : Token}

theorem alwaysReplacedLater_cons {rule : Rule} :
    alwaysReplacedLater token (rule :: rules) = true ↔
      (token ∈ rule.output → ∃ later ∈ rules, later.replacesEverywhere token = true) ∧
        alwaysReplacedLater token rules = true := by
  by_cases houtput : token ∈ rule.output <;> simp [alwaysReplacedLater, houtput]

/-- Behind the last replacement no rule writes a token that is always replaced later. -/
theorem not_mem_output_of_alwaysReplacedLater (h : alwaysReplacedLater token rules = true)
    (hnone : ¬ ∃ rule ∈ rules, rule.replacesEverywhere token = true) :
    ∀ rule ∈ rules, token ∉ rule.output := by
  induction rules with
  | nil => simp
  | cons rule rules ih =>
      obtain ⟨hwrites, hlater⟩ := alwaysReplacedLater_cons.1 h
      have hnone' : ¬ ∃ later ∈ rules, later.replacesEverywhere token = true :=
        fun ⟨later, hmem, hreplaces⟩ =>
          hnone ⟨later, List.mem_cons_of_mem rule hmem, hreplaces⟩
      rw [List.forall_mem_cons]
      exact ⟨fun houtput => hnone' (hwrites houtput), ih hlater hnone'⟩

/-- A token that is always replaced later, and replaced at all, does not survive the rules. -/
theorem not_mem_applyRules_of_alwaysReplacedLater
    (h : alwaysReplacedLater token rules = true)
    (hsome : ∃ rule ∈ rules, rule.replacesEverywhere token = true) (tokens : List Token) :
    token ∉ applyRules rules tokens := by
  induction rules generalizing tokens with
  | nil => simp at hsome
  | cons rule rules ih =>
      obtain ⟨hwrites, hlater⟩ := alwaysReplacedLater_cons.1 h
      by_cases hagain : ∃ later ∈ rules, later.replacesEverywhere token = true
      · exact ih hlater hagain (rule.apply tokens)
      · -- The first rule is the last to replace the token, and none from it on writes it.
        obtain ⟨other, hother, hreplaces⟩ := hsome
        have hfirst : rule.replacesEverywhere token = true := by
          rcases List.mem_cons.1 hother with rfl | hother
          · exact hreplaces
          · exact absurd ⟨other, hother, hreplaces⟩ hagain
        have houtput : token ∉ rule.output := fun houtput => hagain (hwrites houtput)
        intro (hmem : token ∈ applyRules rules (rule.apply tokens))
        rcases mem_applyRules hmem with hmem | ⟨later, hmem, hwritten⟩
        · exact Rule.not_mem_apply_of_replacesEverywhere hfirst houtput tokens hmem
        · exact not_mem_output_of_alwaysReplacedLater hlater hagain later hmem hwritten

theorem exists_replacement_of_written (h : alwaysReplacedLater token rules = true)
    (hwritten : ∃ rule ∈ rules, token ∈ rule.output) :
    ∃ rule ∈ rules, rule.replacesEverywhere token = true := by
  by_contra hnone
  obtain ⟨rule, hmem, houtput⟩ := hwritten
  exact not_mem_output_of_alwaysReplacedLater h hnone rule hmem houtput

/-! ## The roles -/

theorem mem_producedOnly_iff :
    token ∈ (phonemeRoles rules).producedOnly.toList ↔
      (∃ rule ∈ rules, token ∈ rule.output) ∧ ¬ ∃ rule ∈ rules, token ∈ rule.input := by
  rw [phonemeRoles, TokenSet.mem_filter, Bool.not_eq_true', ← Bool.not_eq_true,
    TokenSet.contains_iff, TokenSet.mem_ofList, TokenSet.mem_ofList, List.mem_flatMap,
    List.mem_flatMap]

theorem mem_both_iff {keep : Token → Bool} :
    token ∈ (((TokenSet.ofList (rules.flatMap Rule.output)).filter
        (TokenSet.ofList (rules.flatMap Rule.input)).contains).filter keep).toList ↔
      (∃ rule ∈ rules, token ∈ rule.output) ∧ (∃ rule ∈ rules, token ∈ rule.input) ∧
        keep token = true := by
  rw [TokenSet.mem_filter, TokenSet.mem_filter, TokenSet.contains_iff, TokenSet.mem_ofList,
    TokenSet.mem_ofList, List.mem_flatMap, List.mem_flatMap, and_assoc]

theorem mem_intermediate_iff :
    token ∈ (phonemeRoles rules).intermediate.toList ↔
      (∃ rule ∈ rules, token ∈ rule.output) ∧ (∃ rule ∈ rules, token ∈ rule.input) ∧
        alwaysReplacedLater token rules = true :=
  mem_both_iff

theorem mem_persistent_iff :
    token ∈ (phonemeRoles rules).persistent.toList ↔
      (∃ rule ∈ rules, token ∈ rule.output) ∧ (∃ rule ∈ rules, token ∈ rule.input) ∧
        alwaysReplacedLater token rules = false := by
  rw [← Bool.not_eq_true']
  exact mem_both_iff

theorem role_of_written (h : ∃ rule ∈ rules, token ∈ rule.output) :
    token ∈ (phonemeRoles rules).producedOnly.toList ∨
      token ∈ (phonemeRoles rules).intermediate.toList ∨
        token ∈ (phonemeRoles rules).persistent.toList := by
  by_cases hinput : ∃ rule ∈ rules, token ∈ rule.input
  · cases hlater : alwaysReplacedLater token rules with
    | true => exact Or.inr (Or.inl (mem_intermediate_iff.2 ⟨h, hinput, hlater⟩))
    | false => exact Or.inr (Or.inr (mem_persistent_iff.2 ⟨h, hinput, hlater⟩))
  · exact Or.inl (mem_producedOnly_iff.2 ⟨h, hinput⟩)

/-- A token of the word after the rules is not an intermediate one, and if it was not there
before, the rules write it and it is theirs to stay. -/
theorem role_of_mem_applyRules {tokens : List Token} (h : token ∈ applyRules rules tokens) :
    token ∉ (phonemeRoles rules).intermediate.toList ∧
      (token ∈ tokens ∨ token ∈ (phonemeRoles rules).producedOnly.toList ∨
        token ∈ (phonemeRoles rules).persistent.toList) := by
  have hnot : token ∉ (phonemeRoles rules).intermediate.toList := by
    intro hintermediate
    obtain ⟨hwritten, -, hlater⟩ := mem_intermediate_iff.1 hintermediate
    have hreplaced := exists_replacement_of_written hlater hwritten
    exact not_mem_applyRules_of_alwaysReplacedLater hlater hreplaced tokens h
  refine ⟨hnot, ?_⟩
  rcases mem_applyRules h with hmem | hwritten
  · exact Or.inl hmem
  · rcases role_of_written hwritten with hproduced | hintermediate | hpersistent
    · exact Or.inr (Or.inl hproduced)
    · exact absurd hintermediate hnot
    · exact Or.inr (Or.inr hpersistent)

/-- Under `k > x`, `x > h` and `h > ∅ / _ #` the word `khak` becomes `hha`: the intermediate `x`,
which the first rule writes twice, is gone, and `h` is persistent. -/
theorem role_of_mem_applyRules_khak :
    let rules : List Rule := [⟨["k"], ["x"], none, none, 1⟩, ⟨["x"], ["h"], none, none, 2⟩,
      ⟨["h"], [], none, some ["#"], 3⟩]
    let tokens := ["k", "h", "a", "k"]
    (applyRules (rules.take 1) tokens = ["x", "h", "a", "x"] ∧
        applyRules rules tokens = ["h", "h", "a"]) ∧
      ("x" ∈ (phonemeRoles rules).intermediate.toList ∧ "x" ∉ applyRules rules tokens) ∧
      "h" ∈ applyRules rules tokens ∧
      ("h" ∈ tokens ∨ "h" ∈ (phonemeRoles rules).producedOnly.toList ∨
        "h" ∈ (phonemeRoles rules).persistent.toList) := by
  intro rules tokens
  have hwritten : applyRules (rules.take 1) tokens = ["x", "h", "a", "x"] := by decide
  have hresult : applyRules rules tokens = ["h", "h", "a"] := by decide
  have hintermediate : "x" ∈ (phonemeRoles rules).intermediate.toList :=
    mem_intermediate_iff.2 (by decide)
  have hmem : "h" ∈ applyRules rules tokens := by decide
  refine ⟨⟨hwritten, hresult⟩, ⟨hintermediate, fun hx => ?_⟩, hmem, (role_of_mem_applyRules hmem).2⟩
  exact (role_of_mem_applyRules hx).1 hintermediate

end Rules

end Diachrony
