import Diachrony.Proofs.RoundTrip

/-!
# Soundness of reversal

A pass rewrites everything that matches; stepping back may leave an output as it stands, and
never asks whether the word it arrives at would have stayed the same.  So the words that
reversal finds derive the given one if rules are optional.  They do so under the rules as they
are applied exactly if passes lead from them to the given word.
-/

namespace Diachrony

/-! ## Passes as scripts -/

/-- Whether a pass leads from one word to another: a script relates them that rewrites what
matches when the pass gets there, and nothing else. -/
def Rule.Rewrites (rule : Rule) (older newer : List Token) : Prop :=
  ∃ script, rule.older script = older ∧ rule.newer script = newer ∧
    rule.isPass [] script = true

theorem Rule.rewrites_iff {rule : Rule} (hinput : rule.input ≠ []) {older newer : List Token} :
    rule.Rewrites older newer ↔ rule.apply older = newer := by
  constructor
  · rintro ⟨script, rfl, rfl, hpass⟩
    exact apply_older hinput hpass
  · rintro rfl
    exact ⟨rule.script older, rule.older_script older, rule.newer_script older,
      isPass_script hinput older⟩

/-- Whether passes of all the rules lead from one word to another. -/
def IsDerivation : List Rule → List Token → List Token → Prop
  | [], older, newer => older = newer
  | rule :: rules, older, newer =>
      ∃ between, rule.Rewrites older between ∧ IsDerivation rules between newer

theorem isDerivation_iff {rules : List Rule} (hinput : ∀ rule ∈ rules, rule.input ≠ [])
    {older newer : List Token} :
    IsDerivation rules older newer ↔ applyRules rules older = newer := by
  induction rules generalizing older with
  | nil => exact Iff.rfl
  | cons rule rules ih =>
      have hrule := hinput rule List.mem_cons_self
      have hrules : ∀ other ∈ rules, other.input ≠ [] :=
        fun other hother => hinput other (List.mem_cons_of_mem rule hother)
      constructor
      · rintro ⟨between, hbetween, hnewer⟩
        rw [Rule.rewrites_iff hrule] at hbetween
        subst hbetween
        exact (ih hrules).1 hnewer
      · intro happly
        exact ⟨rule.apply older, (Rule.rewrites_iff hrule).2 rfl, (ih hrules).2 happly⟩

/-- A word derives another exactly if passes of all the rules lead from its tokens to tokens that
spell the other. -/
theorem Deriver.derive_eq_ok_iff {rules : List Rule} (hinput : ∀ rule ∈ rules, rule.input ≠ [])
    {source target : Inventory} {found word : String} {tokens : List Token}
    (htokens : source.segmenter.segment found = .ok tokens) :
    (Deriver.of rules source target).derive found = .ok word ↔
      ∃ reached, IsDerivation rules tokens reached ∧ spell reached = word := by
  rw [derive_of_segment htokens, Except.ok.injEq]
  constructor
  · intro hword
    exact ⟨applyRules rules tokens, (isDerivation_iff hinput).2 rfl, hword⟩
  · rintro ⟨reached, hreached, hword⟩
    rw [(isDerivation_iff hinput).1 hreached]
    exact hword

/-! ## What a word found stands for -/

section Soundness

variable {source target : Inventory} {settings : ReverserSettings} {word : String}

/-- A word that reversal finds is spelled by an ancestor of the given word, and it derives the
given word exactly if passes lead there. -/
theorem derive_eq_iff_of_mem_reverse [Limits] {text : Text} {mayRedefine : Bool}
    {compiled : RuleText.RuleSet} (hcompiled : RuleText.compileText text mayRedefine = .ok compiled)
    {sources : TokenSet}
    (hreverse : ((Reverser.of compiled.rules source target settings).reverse word).1 =
      .ok sources)
    {found : String} (hfound : found ∈ sources.toList) {tokens : List Token}
    (htokens : source.segmenter.segment found = .ok tokens) :
    ∃ newer, target.segmenter.segment word = .ok newer ∧
      (∃ older, IsAncestor source.segmenter compiled.rules older newer ∧ spell older = found) ∧
      ((Deriver.of compiled.rules source target).derive found = .ok word ↔
        ∃ reached, IsDerivation compiled.rules tokens reached ∧ spell reached = word) := by
  obtain ⟨newer, hnewer, rfl⟩ := Reverser.segment_of_reverse hreverse
  exact ⟨newer, hnewer, Reverser.exists_ancestor_of_mem_sourcesOf hfound,
    Deriver.derive_eq_ok_iff (fun _ => RuleText.input_ne_nil_of_compileText hcompiled) htokens⟩

/-- Under `a > b` the word `a` is found for `b`, and a pass leads from it to `b`. -/
theorem derive_eq_iff_of_mem_reverse_b :
    ∃ compiled, RuleText.compileText "a > b".toList true = .ok compiled ∧
      ∃ newer, (Inventory.ofPhonemes ["a", "b"]).segmenter.segment "b" = .ok newer ∧
        (∃ older, IsAncestor (Inventory.ofPhonemes ["a"]).segmenter compiled.rules older newer ∧
          spell older = "a") ∧
        ((Deriver.of compiled.rules (Inventory.ofPhonemes ["a"])
          (Inventory.ofPhonemes ["a", "b"])).derive "a" = .ok "b" ↔
            ∃ reached, IsDerivation compiled.rules ["a"] reached ∧ spell reached = "b") := by
  have hcompiled : RuleText.compileText "a > b".toList true =
      .ok ⟨[⟨["a"], ["b"], none, none, 1⟩], ⟨1, 0, 1, 1, 2⟩⟩ := by cbv
  have htokens : (Inventory.ofPhonemes ["a"]).segmenter.segment "a" = .ok ["a"] :=
    Inventory.segment_ofPhonemes (by decide) (by simp)
  have hnewer : (Inventory.ofPhonemes ["a", "b"]).segmenter.segment "b" = .ok ["b"] :=
    Inventory.segment_ofPhonemes (by decide) (by simp)
  have hancestor : IsAncestor (Inventory.ofPhonemes ["a"]).segmenter
      [⟨["a"], ["b"], none, none, 1⟩] ["a"] ["b"] := ⟨["b"], ⟨[none], rfl, rfl, rfl⟩, rfl⟩
  have hcheck : Settings.default.reverser.checkTargetPhonotactics = false := rfl
  obtain ⟨sources, hreverse, hfound⟩ := mem_reverse_of_isAncestor (by decide) (by decide) hcheck
    hnewer (by decide) hancestor htokens rfl
  exact ⟨_, hcompiled, derive_eq_iff_of_mem_reverse hcompiled hreverse hfound htokens⟩

/-- Under `a > b` the word `a` is also found for `a`, which stays as it stands on the way back
though no pass leaves it. -/
theorem derive_ne_of_mem_reverse_a :
    ∃ compiled sources, RuleText.compileText "a > b".toList true = .ok compiled ∧
      ((Reverser.of compiled.rules (Inventory.ofPhonemes ["a"])
        (Inventory.ofPhonemes ["a", "b"]) Settings.default.reverser).reverse "a").1 =
          .ok sources ∧
      "a" ∈ sources.toList ∧
      (Inventory.ofPhonemes ["a"]).segmenter.segment "a" = .ok ["a"] ∧
      (Deriver.of compiled.rules (Inventory.ofPhonemes ["a"])
        (Inventory.ofPhonemes ["a", "b"])).derive "a" = .ok "b" := by
  have hcompiled : RuleText.compileText "a > b".toList true =
      .ok ⟨[⟨["a"], ["b"], none, none, 1⟩], ⟨1, 0, 1, 1, 2⟩⟩ := by cbv
  have htokens : (Inventory.ofPhonemes ["a"]).segmenter.segment "a" = .ok ["a"] :=
    Inventory.segment_ofPhonemes (by decide) (by simp)
  have hnewer : (Inventory.ofPhonemes ["a", "b"]).segmenter.segment "a" = .ok ["a"] :=
    Inventory.segment_ofPhonemes (by decide) (by simp)
  have hancestor : IsAncestor (Inventory.ofPhonemes ["a"]).segmenter
      [⟨["a"], ["b"], none, none, 1⟩] ["a"] ["a"] := ⟨["a"], ⟨[some "a"], rfl, rfl, rfl⟩, rfl⟩
  have hcheck : Settings.default.reverser.checkTargetPhonotactics = false := rfl
  obtain ⟨sources, hreverse, hfound⟩ := mem_reverse_of_isAncestor (by decide) (by decide) hcheck
    hnewer (by decide) hancestor htokens rfl
  exact ⟨_, sources, hcompiled, hreverse, hfound, htokens, derive_of_segment htokens⟩

end Soundness

end Diachrony
