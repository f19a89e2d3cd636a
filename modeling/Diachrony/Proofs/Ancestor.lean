import Diachrony.Proofs.Preimage

/-!
# Ancestors of a word

An ancestor of a word under a list of rules is what stepping back through a pre-image of
every rule, the last rule first, arrives at.  Reversal looks for the ancestors of a word;
the words derived forward are related to it by `IsAncestor.of_retraceable`.
-/

namespace Diachrony

/-! ## Tokens of a pass and of a pre-image -/

namespace Rule

theorem mem_newer_or_input {rule : Rule} {script : Script} {token : Token}
    (h : token ∈ rule.older script) : token ∈ rule.newer script ∨ token ∈ rule.input := by
  induction script with
  | nil => simp [older] at h
  | cons step rest ih =>
      cases step with
      | some kept =>
          rcases List.mem_cons.1 h with rfl | h
          · exact Or.inl List.mem_cons_self
          · exact (ih h).imp_left (List.mem_cons_of_mem kept)
      | none =>
          rcases List.mem_append.1 h with h | h
          · exact Or.inr h
          · exact (ih h).imp_left (List.mem_append_right rule.output)

theorem mem_older_of_newer {rule : Rule} {script : Script} {token : Token}
    (h : token ∈ rule.newer script) (houtput : token ∉ rule.output) :
    token ∈ rule.older script := by
  induction script with
  | nil => simp [newer] at h
  | cons step rest ih =>
      cases step with
      | some kept =>
          rcases List.mem_cons.1 h with rfl | h
          · exact List.mem_cons_self
          · exact List.mem_cons_of_mem kept (ih h)
      | none =>
          rcases List.mem_append.1 h with h | h
          · exact absurd h houtput
          · exact List.mem_append_right rule.input (ih h)

theorem mem_apply {rule : Rule} {tokens : List Token} {token : Token}
    (h : token ∈ rule.apply tokens) : token ∈ tokens ∨ token ∈ rule.output := by
  by_cases houtput : token ∈ rule.output
  · exact Or.inr houtput
  · rw [← rule.newer_script] at h
    have holder := mem_older_of_newer h houtput
    rw [rule.older_script] at holder
    exact Or.inl holder

theorem IsPreimage.mem_newer_or_input {rule : Rule} {source : Segmenter}
    {older newer : List Token} (h : rule.IsPreimage source older newer) {token : Token}
    (hmem : token ∈ older) : token ∈ newer ∨ token ∈ rule.input := by
  unfold IsPreimage at h
  split at h
  · rcases h with ⟨rfl, -⟩ | ⟨before, after, rfl, rfl, -⟩
    · exact Or.inl hmem
    · simp only [List.mem_append] at hmem ⊢
      rcases hmem with (hmem | hmem) | hmem
      · exact Or.inl (Or.inl hmem)
      · exact Or.inr hmem
      · exact Or.inl (Or.inr hmem)
  · obtain ⟨script, rfl, rfl, -⟩ := h
    exact Rule.mem_newer_or_input hmem

theorem IsPreimage.mem_older {rule : Rule} {source : Segmenter} {older newer : List Token}
    (h : rule.IsPreimage source older newer) {token : Token} (hmem : token ∈ newer)
    (houtput : token ∉ rule.output) : token ∈ older := by
  unfold IsPreimage at h
  split at h
  · rcases h with ⟨rfl, -⟩ | ⟨before, after, rfl, rfl, -⟩
    · exact hmem
    · simp only [List.mem_append] at hmem ⊢
      rcases hmem with hmem | hmem
      · exact Or.inl (Or.inl hmem)
      · exact Or.inr hmem
  · obtain ⟨script, rfl, rfl, -⟩ := h
    exact mem_older_of_newer hmem houtput

end Rule

theorem mem_applyRules {rules : List Rule} {tokens : List Token} {token : Token}
    (h : token ∈ applyRules rules tokens) :
    token ∈ tokens ∨ ∃ rule ∈ rules, token ∈ rule.output := by
  induction rules generalizing tokens with
  | nil => exact Or.inl h
  | cons rule rules ih =>
      rcases ih h with hmem | ⟨other, hother, houtput⟩
      · exact (Rule.mem_apply hmem).imp_right fun houtput => ⟨rule, List.mem_cons_self, houtput⟩
      · exact Or.inr ⟨other, List.mem_cons_of_mem rule hother, houtput⟩

/-! ## Ancestors -/

/-- Whether stepping back from `newer` through pre-images of all the rules can arrive at
`older`. -/
def IsAncestor (source : Segmenter) : List Rule → List Token → List Token → Prop
  | [], older, newer => older = newer
  | rule :: rules, older, newer =>
      ∃ between, rule.IsPreimage source older between ∧ IsAncestor source rules between newer

theorem isAncestor_concat {source : Segmenter} {rules : List Rule} {rule : Rule}
    {older newer : List Token} :
    IsAncestor source (rules ++ [rule]) older newer ↔
      ∃ between, IsAncestor source rules older between ∧
        rule.IsPreimage source between newer := by
  induction rules generalizing older with
  | nil => simp [IsAncestor]
  | cons first rules ih =>
      simp only [List.cons_append, IsAncestor, ih]
      constructor
      · rintro ⟨between, hfirst, next, hnext, hlast⟩
        exact ⟨next, ⟨between, hfirst, hnext⟩, hlast⟩
      · rintro ⟨next, ⟨between, hfirst, hnext⟩, hlast⟩
        exact ⟨between, hfirst, next, hnext, hlast⟩

theorem IsAncestor.mem_newer_or_input {source : Segmenter} {rules : List Rule}
    {older newer : List Token} (h : IsAncestor source rules older newer) {token : Token}
    (hmem : token ∈ older) : token ∈ newer ∨ ∃ rule ∈ rules, token ∈ rule.input := by
  induction rules generalizing older with
  | nil =>
      cases h
      exact Or.inl hmem
  | cons rule rules ih =>
      obtain ⟨between, hrule, hrules⟩ := h
      rcases hrule.mem_newer_or_input hmem with hmem | hinput
      · rcases ih hrules hmem with hnewer | ⟨other, hother, hinput⟩
        · exact Or.inl hnewer
        · exact Or.inr ⟨other, List.mem_cons_of_mem rule hother, hinput⟩
      · exact Or.inr ⟨rule, List.mem_cons_self, hinput⟩

/-- A token that no rule writes is never lost on the way back. -/
theorem IsAncestor.mem_older {source : Segmenter} {rules : List Rule}
    {older newer : List Token} (h : IsAncestor source rules older newer) {token : Token}
    (hmem : token ∈ newer) (houtput : ∀ rule ∈ rules, token ∉ rule.output) : token ∈ older := by
  induction rules generalizing older with
  | nil =>
      cases h
      exact hmem
  | cons rule rules ih =>
      obtain ⟨between, hrule, hrules⟩ := h
      have hbetween := ih hrules fun other hother =>
        houtput other (List.mem_cons_of_mem rule hother)
      exact hrule.mem_older hbetween (houtput rule List.mem_cons_self)

/-! ## Derivations that can be traced back -/

/-- Whether the pass of a rule over a word can be undone: under a rule with an output every
rewritten span keeps its right context, which it cannot lose if that is absent or the edge of
the word; a deletion happens once at most, and if it does not happen the source stage has all
that is deleted. -/
def Rule.Retraceable (rule : Rule) (source : Segmenter) (tokens : List Token) : Prop :=
  if rule.isDeletion then
    (rule.script tokens).count none ≤ 1 ∧
      ((rule.script tokens).count none = 0 →
        ∀ token ∈ rule.input, source.contains token = true)
  else
    rule.right = none ∨ rule.right = some [wordBoundary] ∨
      rule.showsRight (rule.script tokens) = true

instance (rule : Rule) (source : Segmenter) (tokens : List Token) :
    Decidable (rule.Retraceable source tokens) :=
  inferInstanceAs (Decidable (if rule.isDeletion then _ else _))

/-- Whether every pass of a derivation can be undone. -/
def Retraceable (source : Segmenter) : List Rule → List Token → Prop
  | [], _ => True
  | rule :: rules, tokens =>
      rule.Retraceable source tokens ∧ Retraceable source rules (rule.apply tokens)

instance Retraceable.decidable (source : Segmenter) :
    (rules : List Rule) → (tokens : List Token) → Decidable (Retraceable source rules tokens)
  | [], _ => .isTrue trivial
  | rule :: rules, tokens =>
      have := Retraceable.decidable source rules (rule.apply tokens)
      inferInstanceAs (Decidable (_ ∧ _))

theorem eq_map_some_of_count_none {script : Script} (h : script.count none = 0) :
    ∃ tokens : List Token, script = tokens.map some := by
  induction script with
  | nil => exact ⟨[], rfl⟩
  | cons step rest ih =>
      cases step with
      | none => simp at h
      | some token =>
          obtain ⟨tokens, rfl⟩ := ih (by simpa using h)
          exact ⟨token :: tokens, rfl⟩

theorem eq_append_of_count_none {script : Script} (h : script.count none = 1) :
    ∃ before after : List Token, script = before.map some ++ none :: after.map some := by
  induction script with
  | nil => simp at h
  | cons step rest ih =>
      cases step with
      | none =>
          have hrest : rest.count none = 0 := by simpa using h
          obtain ⟨after, rfl⟩ := eq_map_some_of_count_none hrest
          exact ⟨[], after, rfl⟩
      | some token =>
          obtain ⟨before, after, rfl⟩ := ih (by simpa using h)
          exact ⟨token :: before, after, rfl⟩

theorem Rule.isPass_some_append (rule : Rule) {before tokens : List Token} {script : Script}
    (h : rule.isPass before (tokens.map some ++ script) = true) :
    rule.isPass (tokens.reverse ++ before) script = true := by
  induction tokens generalizing before with
  | nil => exact h
  | cons token rest ih =>
      simp only [List.map_cons, List.cons_append, isPass, Bool.and_eq_true] at h
      simpa using ih h.2

/-- A pass that can be undone leads from a pre-image to its image. -/
theorem Rule.isPreimage_apply {rule : Rule} {source : Segmenter} {tokens : List Token}
    (hinput : rule.input ≠ []) (h : rule.Retraceable source tokens) :
    rule.IsPreimage source tokens (rule.apply tokens) := by
  have hpass := isPass_script hinput tokens
  have holder := rule.older_script tokens
  have hnewer := rule.newer_script tokens
  unfold Retraceable at h
  unfold IsPreimage
  split at h
  · rename_i hdeletion
    rw [if_pos hdeletion]
    obtain ⟨hcount, hsource⟩ := h
    have houtput : rule.output = [] := isDeletion_iff.1 hdeletion
    have hcases : (rule.script tokens).count none = 0 ∨ (rule.script tokens).count none = 1 := by
      omega
    rcases hcases with hnone | hone
    · obtain ⟨kept, hscript⟩ := eq_map_some_of_count_none hnone
      rw [hscript, older_map_some] at holder
      rw [hscript, newer_map_some] at hnewer
      exact Or.inl ⟨holder.symm.trans hnewer, hsource hnone⟩
    · obtain ⟨before, after, hscript⟩ := eq_append_of_count_none hone
      rw [hscript] at hpass holder hnewer
      have hspan := rule.isPass_some_append hpass
      simp only [isPass, older_map_some, List.append_nil, Bool.and_eq_true] at hspan
      refine Or.inr ⟨before, after, ?_, ?_, hspan.1.1, hspan.1.2⟩
      · simpa [newer, houtput] using hnewer.symm
      · simpa [older] using holder.symm
  · rename_i hchange
    rw [if_neg hchange]
    have hshows : rule.showsRight (rule.script tokens) = true := by
      rcases h with hfree | hedge | hshows
      · exact showsRight_of_isPass hinput (Or.inl hfree) hpass
      · exact showsRight_of_isPass hinput (Or.inr hedge) hpass
      · exact hshows
    exact ⟨rule.script tokens, holder, hnewer, isApparent_of_isPass hpass hshows⟩

/-- What a derivation starts from is an ancestor of what it ends in, if every pass can be
undone. -/
theorem IsAncestor.of_retraceable {source : Segmenter} {rules : List Rule}
    {tokens : List Token} (hinput : ∀ rule ∈ rules, rule.input ≠ [])
    (h : Retraceable source rules tokens) :
    IsAncestor source rules tokens (applyRules rules tokens) := by
  induction rules generalizing tokens with
  | nil => rfl
  | cons rule rules ih =>
      exact ⟨rule.apply tokens, Rule.isPreimage_apply (hinput rule List.mem_cons_self) h.1,
        ih (fun other hother => hinput other (List.mem_cons_of_mem rule hother)) h.2⟩

end Diachrony
