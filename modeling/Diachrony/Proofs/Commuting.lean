import Diachrony.Proofs.Script

/-!
# Rules that commute

A rule without contexts rewrites what stands at a place regardless of what stands around it, so
its pass goes by whatever has none of its input and takes up again behind it.  Two such rules
that share no tokens therefore leave each other's matches where they are, and the order of their
passes does not matter.
-/

namespace Diachrony.Rule

/-- Whether a rule rewrites its input wherever it stands, and leaves something in its place. -/
structure IsUnconditional (rule : Rule) : Prop where
  no_context : rule.hasContext = false
  input_ne_nil : rule.input ≠ []
  output_ne_nil : rule.output ≠ []

instance (rule : Rule) : Decidable rule.IsUnconditional :=
  decidable_of_iff (rule.hasContext = false ∧ rule.input ≠ [] ∧ rule.output ≠ [])
    ⟨fun ⟨hcontext, hinput, houtput⟩ => ⟨hcontext, hinput, houtput⟩,
      fun ⟨hcontext, hinput, houtput⟩ => ⟨hcontext, hinput, houtput⟩⟩

/-- Whether a rule neither rewrites nor writes a token that the other rule rewrites. -/
def Spares (rule other : Rule) : Prop :=
  ∀ token ∈ other.input, token ∉ rule.input ∧ token ∉ rule.output

instance (rule other : Rule) : Decidable (rule.Spares other) :=
  inferInstanceAs (Decidable (∀ token ∈ other.input, _))

/-! ## What stands in a word after a pass -/

/-- Tokens that a rule does not write stand at the start of a word after it only if they stood
there before. -/
theorem prefix_older_of_prefix_newer {rule : Rule} (houtput : rule.output ≠ [])
    {tokens : List Token} (htokens : ∀ token ∈ tokens, token ∉ rule.output) {script : Script}
    (h : tokens <+: rule.newer script) : tokens <+: rule.older script := by
  induction script generalizing tokens with
  | nil => exact h
  | cons step rest ih =>
      cases tokens with
      | nil => exact List.nil_prefix
      | cons token tokens =>
          obtain ⟨htoken, htokens⟩ := List.forall_mem_cons.1 htokens
          cases step with
          | some kept =>
              obtain ⟨rfl, hrest⟩ := List.cons_prefix_cons.1 h
              exact List.cons_prefix_cons.2 ⟨rfl, ih htokens hrest⟩
          | none =>
              -- The word after the rule starts with the output here.
              obtain ⟨first, others, hwritten⟩ := List.exists_cons_of_ne_nil houtput
              rw [newer, hwritten, List.cons_append, List.cons_prefix_cons] at h
              rw [hwritten, List.mem_cons, not_or] at htoken
              exact absurd h.1 htoken.1

theorem prefix_of_prefix_apply {rule : Rule} (houtput : rule.output ≠ [])
    {pattern : List Token} (hpattern : ∀ token ∈ pattern, token ∉ rule.output)
    {tokens : List Token} (h : pattern <+: rule.apply tokens) : pattern <+: tokens := by
  rw [← rule.newer_script] at h
  have hstarts := prefix_older_of_prefix_newer houtput hpattern h
  rwa [rule.older_script] at hstarts

/-! ## The pass of a rule without contexts -/

namespace IsUnconditional

variable {rule : Rule} (h : rule.IsUnconditional)
include h

theorem leftHolds (before : List Token) : rule.leftHolds before = true := by
  have hleft : rule.left = none := by simpa using (Bool.or_eq_false_iff.1 h.no_context).1
  rw [Rule.leftHolds, hleft]

theorem rightHolds (after : List Token) : rule.rightHolds after = true := by
  have hright : rule.right = none := by simpa using (Bool.or_eq_false_iff.1 h.no_context).2
  rw [Rule.rightHolds, hright]

theorem matchesBetween_iff_isPrefix {before rest : List Token} :
    rule.matchesBetween before rest = true ↔ rule.input <+: rest := by
  rw [matchesBetween, h.leftHolds, h.rightHolds, Bool.and_true, Bool.and_true,
    List.isPrefixOf_iff_prefix]

theorem length_lt_input_append (rest : List Token) : rest.length < (rule.input ++ rest).length := by
  have hpos := List.length_pos_iff.2 h.input_ne_nil
  rw [List.length_append]
  omega

theorem isPass_eq (before other : List Token) (script : Script) :
    rule.isPass before script = rule.isPass other script := by
  induction script generalizing before other with
  | nil => rfl
  | cons step rest ih =>
      cases step with
      | some token =>
          have hmatch : rule.matchesBetween before (token :: rule.older rest) =
              rule.matchesBetween other (token :: rule.older rest) :=
            Bool.eq_iff_iff.2
              (h.matchesBetween_iff_isPrefix.trans h.matchesBetween_iff_isPrefix.symm)
          rw [isPass, isPass, hmatch, ih (token :: before) (token :: other)]
      | none =>
          rw [isPass, isPass, h.leftHolds, h.leftHolds, ih (rule.output.reverse ++ before)]

theorem apply_nil : rule.apply [] = [] :=
  apply_older h.input_ne_nil (show rule.isPass [] [] = true from rfl)

/-- The pass puts the output in for an input it comes to, and takes up behind it. -/
theorem apply_input_append (rest : List Token) :
    rule.apply (rule.input ++ rest) = rule.output ++ rule.apply rest := by
  have hpass : rule.isPass [] (none :: rule.script rest) = true := by
    rw [isPass, h.leftHolds, h.rightHolds, h.isPass_eq _ [], isPass_script h.input_ne_nil]
    rfl
  have happly := apply_older h.input_ne_nil hpass
  rwa [older, newer, older_script, newer_script] at happly

theorem apply_cons_of_not_isPrefix {token : Token} {rest : List Token}
    (hnot : ¬ rule.input <+: token :: rest) :
    rule.apply (token :: rest) = token :: rule.apply rest := by
  have hmatch : rule.matchesBetween [] (token :: rest) = false := by
    rwa [← Bool.not_eq_true, h.matchesBetween_iff_isPrefix]
  have hpass : rule.isPass [] (some token :: rule.script rest) = true := by
    rw [isPass, older_script, hmatch, h.isPass_eq _ [], isPass_script h.input_ne_nil]
    rfl
  have happly := apply_older h.input_ne_nil hpass
  rwa [older, newer, older_script, newer_script] at happly

/-- The pass goes by tokens that are none of its input, and takes up behind them. -/
theorem apply_append_of_forall {tokens : List Token}
    (htokens : ∀ token ∈ tokens, token ∉ rule.input) (rest : List Token) :
    rule.apply (tokens ++ rest) = tokens ++ rule.apply rest := by
  induction tokens with
  | nil => rfl
  | cons token tokens ih =>
      obtain ⟨htoken, htokens⟩ := List.forall_mem_cons.1 htokens
      have hnot : ¬ rule.input <+: token :: (tokens ++ rest) := by
        intro hstarts
        obtain ⟨first, others, hinput⟩ := List.exists_cons_of_ne_nil h.input_ne_nil
        rw [hinput, List.cons_prefix_cons] at hstarts
        rw [hinput, List.mem_cons, not_or] at htoken
        exact htoken.1 hstarts.1.symm
      rw [List.cons_append, h.apply_cons_of_not_isPrefix hnot, ih htokens, List.cons_append]

end IsUnconditional

/-! ## Two rules -/

section Two

variable {rule other : Rule} (hrule : rule.IsUnconditional) (hother : other.IsUnconditional)
  (hspares : rule.Spares other)
include hrule hother hspares

/-- Where the input of the first rule stands, both orders put its output in and go on behind. -/
theorem apply_apply_input_append (hspared : other.Spares rule) (rest : List Token) :
    other.apply (rule.apply (rule.input ++ rest)) = rule.output ++ other.apply (rule.apply rest) ∧
      rule.apply (other.apply (rule.input ++ rest)) =
        rule.output ++ rule.apply (other.apply rest) := by
  have hinput : ∀ token ∈ rule.input, token ∉ other.input :=
    fun token hmem => (hspared token hmem).1
  have houtput : ∀ token ∈ rule.output, token ∉ other.input :=
    fun token hmem hin => (hspares token hin).2 hmem
  constructor
  · rw [hrule.apply_input_append, hother.apply_append_of_forall houtput]
  · rw [hother.apply_append_of_forall hinput, hrule.apply_input_append]

theorem apply_apply_cons_of_not_isPrefix {token : Token} {rest : List Token}
    (hnot : ¬ rule.input <+: token :: rest) (hotherNot : ¬ other.input <+: token :: rest) :
    other.apply (rule.apply (token :: rest)) = token :: other.apply (rule.apply rest) := by
  have hfirst := hrule.apply_cons_of_not_isPrefix hnot
  have hlater : ¬ other.input <+: token :: rule.apply rest := by
    rw [← hfirst]
    exact fun hstarts => hotherNot (prefix_of_prefix_apply hrule.output_ne_nil
      (fun token hmem => (hspares token hmem).2) hstarts)
  rw [hfirst, hother.apply_cons_of_not_isPrefix hlater]

/-- Rules without contexts that share no tokens commute. -/
theorem apply_comm (hspared : other.Spares rule) (tokens : List Token) :
    other.apply (rule.apply tokens) = rule.apply (other.apply tokens) := by
  -- Both orders go past the same tokens: an input at the start of the word, or else one token.
  induction hlength : tokens.length using Nat.strongRecOn generalizing tokens with
  | ind length ih =>
      subst hlength
      by_cases hinput : rule.input <+: tokens
      · obtain ⟨rest, rfl⟩ := hinput
        obtain ⟨hfirst, hsecond⟩ := apply_apply_input_append hrule hother hspares hspared rest
        rw [hfirst, hsecond, ih _ (hrule.length_lt_input_append rest) rest rfl]
      by_cases hotherInput : other.input <+: tokens
      · obtain ⟨rest, rfl⟩ := hotherInput
        obtain ⟨hfirst, hsecond⟩ := apply_apply_input_append hother hrule hspared hspares rest
        rw [hfirst, hsecond, ih _ (hother.length_lt_input_append rest) rest rfl]
      cases tokens with
      | nil => rw [hrule.apply_nil, hother.apply_nil, hrule.apply_nil]
      | cons token rest =>
          rw [apply_apply_cons_of_not_isPrefix hrule hother hspares hinput hotherInput,
            apply_apply_cons_of_not_isPrefix hother hrule hspared hotherInput hinput,
            ih _ (Nat.lt_succ_self _) rest rfl]

end Two

/-- Under `a a > a x a` and `c > d d` the word `aaacaa` becomes `axaaddaxa` in either order: the
matches of the first rule overlap, and both rules make the word longer. -/
theorem apply_comm_aaacaa :
    let rule : Rule := ⟨["a", "a"], ["a", "x", "a"], none, none, 1⟩
    let other : Rule := ⟨["c"], ["d", "d"], none, none, 2⟩
    let tokens := ["a", "a", "a", "c", "a", "a"]
    let both := ["a", "x", "a", "a", "d", "d", "a", "x", "a"]
    (rule.IsUnconditional ∧ other.IsUnconditional ∧ rule.Spares other ∧ other.Spares rule) ∧
      other.apply (rule.apply tokens) = both ∧ rule.apply (other.apply tokens) = both := by
  intro rule other tokens both
  have hrule : rule.IsUnconditional := by decide
  have hother : other.IsUnconditional := by decide
  have hboth : other.apply (rule.apply tokens) = both := by decide
  exact ⟨by decide, hboth,
    (apply_comm hrule hother (by decide) (by decide) tokens).symm.trans hboth⟩

end Diachrony.Rule
