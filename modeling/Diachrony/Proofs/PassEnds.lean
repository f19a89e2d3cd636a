import Diachrony.Proofs.Sweep

/-!
# Where passes end

The loop over positions ends for every rule with an input.  A rule without one inserts where it
stands, and goes on inserting there for ever once its left context reads nothing but what it has
inserted; where its loop ends all the same, it ends with what applying the rule gives.
-/

namespace Diachrony

namespace Rule

/-- Whether the loop of a rule over a word comes to an end, and with which tokens. -/
def EndsWith (rule : Rule) (tokens result : List Token) : Prop :=
  ∃ last, rule.Advances ⟨tokens, 0⟩ last ∧ rule.advance? last = none ∧ last.tokens = result

variable {rule : Rule} {tokens result : List Token} {sweep last : Sweep}

theorem advances_unique {other : Sweep} (hlast : rule.Advances sweep last)
    (hend : rule.advance? last = none) (hother : rule.Advances sweep other)
    (hotherEnd : rule.advance? other = none) : last = other := by
  have hunique : Relator.RightUnique fun sweep next => rule.advance? sweep = some next :=
    fun _ _ _ hfirst hsecond => Option.some.inj (hfirst.symm.trans hsecond)
  have hstop : ∀ {first second : Sweep}, rule.advance? first = none →
      rule.Advances first second → second = first := by
    intro first second hnone hrun
    rcases Relation.ReflTransGen.cases_head hrun with heq | ⟨next, hnext, -⟩
    · exact heq.symm
    · rw [hnone] at hnext
      cases hnext
  rcases Relation.ReflTransGen.total_of_right_unique hunique hlast hother with hrun | hrun
  · exact (hstop hend hrun).symm
  · exact hstop hotherEnd hrun

theorem EndsWith.unique {other : List Token} (h : rule.EndsWith tokens result)
    (hother : rule.EndsWith tokens other) : result = other := by
  obtain ⟨last, hlast, hend, rfl⟩ := h
  obtain ⟨last', hlast', hend', rfl⟩ := hother
  rw [advances_unique hlast hend hlast' hend']

theorem endsWith_apply (hinput : rule.input ≠ []) (tokens : List Token) :
    rule.EndsWith tokens (rule.apply tokens) := by
  obtain ⟨last, hlast, hend, htokens⟩ := exists_advances hinput ⟨tokens, 0⟩
  have happly : rule.apply tokens = rule.scan hinput [] tokens :=
    pass_eq_scan hinput (length_lt_passFuel hinput tokens)
  exact ⟨last, hlast, hend, htokens.trans happly.symm⟩

theorem Sweep.moved_of_rest {token : Token} {later : List Token}
    (hrest : sweep.rest = token :: later) :
    sweep.position + 1 ≤ sweep.tokens.length ∧
      (Sweep.mk sweep.tokens (sweep.position + 1)).done.reverse = token :: sweep.done.reverse ∧
      (Sweep.mk sweep.tokens (sweep.position + 1)).rest = later := by
  have hinside : sweep.position < sweep.tokens.length := by
    by_contra hnot
    rw [rest, List.drop_eq_nil_of_le (not_lt.1 hnot)] at hrest
    cases hrest
  rw [rest, List.drop_eq_getElem_cons hinside] at hrest
  obtain ⟨rfl, rfl⟩ := List.cons.inj hrest
  refine ⟨hinside, ?_, rfl⟩
  rw [done, List.take_succ_eq_append_getElem hinside, List.reverse_append]
  rfl

/-! ## Rules without an input -/

/-- The tokens before a place, nearest first, after some insertions there. -/
def inserted (rule : Rule) (count : Nat) (before : List Token) : List Token :=
  (List.replicate count rule.output.reverse).flatten ++ before

theorem inserted_succ (rule : Rule) (count : Nat) (before : List Token) :
    rule.inserted (count + 1) before = rule.output.reverse ++ rule.inserted count before := by
  simp [inserted, List.replicate_succ]

theorem inserted_one (rule : Rule) (before : List Token) :
    rule.inserted 1 before = rule.output.reverse ++ before :=
  inserted_succ rule 0 before

theorem inserted_add (rule : Rule) (count more : Nat) (before : List Token) :
    rule.inserted (count + more) before =
      (List.replicate count rule.output.reverse).flatten ++ rule.inserted more before := by
  rw [inserted, inserted, ← List.replicate_append_replicate, List.flatten_append,
    List.append_assoc]

/-- A left context that holds after as many insertions as it has tokens reads nothing else. -/
theorem leftHolds_inserted {count : Nat} {before : List Token}
    (hcount : (rule.left.getD []).length ≤ count)
    (h : rule.leftHolds (rule.inserted count before) = true) (more : Nat) :
    rule.leftHolds (rule.inserted (count + more) before) = true := by
  rcases List.eq_nil_or_concat rule.output with hempty | ⟨_, _, hsome⟩
  · rw [inserted] at h ⊢
    simpa [hempty] using h
  · have hlong : count ≤ ((List.replicate count rule.output.reverse).flatten).length := by
      rw [List.length_flatten, List.map_replicate, List.sum_replicate_nat, List.length_reverse]
      exact Nat.le_mul_of_pos_right count (by simp [hsome])
    unfold leftHolds at h ⊢
    rcases hleft : rule.left with _ | _ | ⟨first, rest⟩
    · rfl
    · rfl
    · simp only [hleft, Option.getD_some, List.length_cons] at hcount h ⊢
      split at h
      · -- Tied to the edge, the context would be shorter than what has been inserted.
        have hlength := congrArg List.length (beq_iff_eq.1 h)
        rw [inserted, List.length_append, List.length_reverse] at hlength
        omega
      · rename_i hedge
        rw [if_neg hedge, List.isPrefixOf_iff_prefix] at *
        have hread : (first :: rest).reverse <+:
            (List.replicate count rule.output.reverse).flatten := by
          refine List.prefix_of_prefix_length_le h (List.prefix_append _ before) ?_
          rw [List.length_reverse, List.length_cons]
          omega
        rw [inserted_add]
        exact hread.trans (List.prefix_append _ _)

/-- A rule without an input that matches at a place whatever it inserts there. -/
structure IsStuckAt (rule : Rule) (sweep : Sweep) : Prop where
  within : sweep.position ≤ sweep.tokens.length
  left : ∀ count, rule.leftHolds (rule.inserted count sweep.done.reverse) = true
  right : rule.rightHolds sweep.rest = true

section Insertion

variable (hinput : rule.input = [])
include hinput

theorem matchesBetween_iff_of_nil {before rest : List Token} :
    rule.matchesBetween before rest = true ↔
      rule.leftHolds before = true ∧ rule.rightHolds rest = true := by
  simp [matchesBetween, hinput]

theorem advance?_of_within (hwithin : sweep.position ≤ sweep.tokens.length) :
    rule.advance? sweep =
      if rule.matchesBetween sweep.done.reverse sweep.rest then
        some ⟨sweep.done ++ rule.output ++ sweep.rest, sweep.position + rule.output.length⟩
      else some ⟨sweep.tokens, sweep.position + 1⟩ := by
  have hroom : sweep.position + rule.input.length ≤ sweep.tokens.length := by
    rwa [hinput]
  rw [advance?, if_pos hroom, hinput]
  rfl

/-- A round that matches within the word inserts and stays within the word. -/
theorem advance?_of_matches (hwithin : sweep.position ≤ sweep.tokens.length)
    (hmatch : rule.matchesBetween sweep.done.reverse sweep.rest = true) :
    ∃ next, rule.advance? sweep = some next ∧ next.position ≤ next.tokens.length ∧
      next.done = sweep.done ++ rule.output ∧ next.rest = sweep.rest := by
  have hdone : sweep.done.length = sweep.position := List.length_take_of_le hwithin
  have hbehind : (sweep.done ++ rule.output).length = sweep.position + rule.output.length := by
    rw [List.length_append, hdone]
  refine ⟨_, (advance?_of_within hinput hwithin).trans (if_pos hmatch), ?_,
    List.take_left' hbehind, List.drop_left' hbehind⟩
  rw [List.length_append, hbehind]
  exact Nat.le_add_right _ _

theorem advance?_of_not_matches (hwithin : sweep.position ≤ sweep.tokens.length)
    (hmatch : rule.matchesBetween sweep.done.reverse sweep.rest = false) :
    rule.advance? sweep = some ⟨sweep.tokens, sweep.position + 1⟩ := by
  rw [advance?_of_within hinput hwithin, hmatch]
  rfl

theorem IsStuckAt.step (h : rule.IsStuckAt sweep) :
    ∃ next, rule.advance? sweep = some next ∧ rule.IsStuckAt next := by
  obtain ⟨next, hnext, hwithin, hdone, hrest⟩ := advance?_of_matches hinput h.within
    ((matchesBetween_iff_of_nil hinput).2 ⟨h.left 0, h.right⟩)
  refine ⟨next, hnext, hwithin, fun count => ?_, hrest ▸ h.right⟩
  have hmore := h.left (count + 1)
  rwa [inserted_add, inserted_one, ← List.reverse_append, ← hdone] at hmore

theorem IsStuckAt.not_end (h : rule.IsStuckAt sweep) (hlast : rule.Advances sweep last) :
    rule.advance? last ≠ none := by
  induction hlast using Relation.ReflTransGen.head_induction_on with
  | refl =>
      obtain ⟨next, hnext, -⟩ := h.step hinput
      rw [hnext]
      exact Option.some_ne_none next
  | head hnext _ ih =>
      obtain ⟨next, hstep, hstuck⟩ := h.step hinput
      rw [hnext, Option.some.injEq] at hstep
      exact ih (hstep ▸ hstuck)

theorem IsStuckAt.not_endsWith (h : rule.IsStuckAt ⟨tokens, 0⟩) :
    ¬ rule.EndsWith tokens result := by
  rintro ⟨last, hlast, hend, -⟩
  exact h.not_end hinput hlast hend

/-- A loop that ends inserts no more often at one place than its left context has tokens. -/
theorem count_lt_of_advances (hend : rule.advance? last = none)
    (hlast : rule.Advances sweep last) (hwithin : sweep.position ≤ sweep.tokens.length)
    {count : Nat} {before : List Token}
    (hdone : sweep.done.reverse = rule.inserted count before)
    (hcount : count ≤ (rule.left.getD []).length)
    (hmatch : rule.matchesBetween sweep.done.reverse sweep.rest = true) :
    count < (rule.left.getD []).length := by
  obtain ⟨hleft, hright⟩ := (matchesBetween_iff_of_nil hinput).1 hmatch
  refine Nat.lt_of_le_of_ne hcount fun hfull => ?_
  have hstuck : rule.IsStuckAt sweep := by
    refine ⟨hwithin, fun more => ?_, hright⟩
    rw [hdone] at hleft ⊢
    have hholds := leftHolds_inserted hfull.ge hleft more
    rwa [Nat.add_comm, inserted_add] at hholds
  exact hstuck.not_end hinput hlast hend

/-- A loop that is behind the word and does not match there has nothing more to do. -/
theorem tokens_eq_of_behind (hlast : rule.Advances sweep last)
    (hbehind : sweep.position = sweep.tokens.length)
    (hmatch : rule.matchesBetween sweep.done.reverse sweep.rest = false)
    (hend : rule.advance? last = none) : last.tokens = sweep.tokens := by
  have hstep := advance?_of_not_matches hinput hbehind.le hmatch
  have hstop : rule.advance? ⟨sweep.tokens, sweep.position + 1⟩ = none := by
    refine if_neg ?_
    dsimp only
    omega
  have hother : rule.Advances sweep ⟨sweep.tokens, sweep.position + 1⟩ := .single hstep
  rw [advances_unique hlast hend hother hstop]

/-- A pass over the rest of a word from a place where a loop that ends has already inserted
`count` times. -/
theorem pass_eq_of_advances (hend : rule.advance? last = none)
    (hlast : rule.Advances sweep last) (hwithin : sweep.position ≤ sweep.tokens.length)
    {count fuel : Nat} {before : List Token}
    (hdone : sweep.done.reverse = rule.inserted count before)
    (hcount : count ≤ (rule.left.getD []).length)
    (hfuel : sweep.rest.length * ((rule.left.getD []).length + 1) +
      ((rule.left.getD []).length - count) < fuel) :
    rule.pass fuel sweep.done.reverse sweep.rest = last.tokens := by
  induction hlast using Relation.ReflTransGen.head_induction_on generalizing count fuel before with
  | refl =>
      rw [advance?_of_within hinput hwithin] at hend
      split at hend <;> cases hend
  | @head sweep next hnext hlater ih =>
      have hrun : rule.Advances sweep last := .head hnext hlater
      obtain ⟨fuel, rfl⟩ : ∃ spare, fuel = spare + 1 := ⟨fuel - 1, by omega⟩
      unfold pass
      cases hmatch : rule.matchesBetween sweep.done.reverse sweep.rest with
      | true =>
          have hfew := count_lt_of_advances hinput hend hrun hwithin hdone hcount hmatch
          obtain ⟨other, hother, hotherWithin, hotherDone, hotherRest⟩ :=
            advance?_of_matches hinput hwithin hmatch
          obtain rfl : next = other := Option.some.inj (hnext.symm.trans hother)
          have hnextDone : next.done.reverse = rule.inserted (count + 1) before := by
            rw [hotherDone, List.reverse_append, hdone, inserted_succ]
          have hspare : next.rest.length * ((rule.left.getD []).length + 1) +
              ((rule.left.getD []).length - (count + 1)) < fuel := by
            rw [hotherRest]
            omega
          rw [if_pos rfl, ← ih hotherWithin hnextDone hfew hspare, hotherDone, hotherRest,
            List.reverse_append, hinput]
          rfl
      | false =>
          have hstep := advance?_of_not_matches hinput hwithin hmatch
          obtain rfl : next = _ := Option.some.inj (hnext.symm.trans hstep)
          cases hrest : sweep.rest with
          | nil =>
              have hbehind : sweep.position = sweep.tokens.length :=
                le_antisymm hwithin (List.drop_eq_nil_iff.1 hrest)
              have hdoneAll : sweep.done = sweep.tokens := List.take_of_length_le hbehind.ge
              rw [tokens_eq_of_behind hinput hrun hbehind hmatch hend, hdoneAll]
              simp
          | cons token later =>
              obtain ⟨hinside, hmoved, hlater⟩ := Sweep.moved_of_rest hrest
              have hspare : later.length * ((rule.left.getD []).length + 1) +
                  ((rule.left.getD []).length - 0) < fuel := by
                rw [hrest, List.length_cons, Nat.add_one_mul] at hfuel
                omega
              -- Nothing has been inserted at the next place yet.
              have hnone : (Sweep.mk sweep.tokens (sweep.position + 1)).done.reverse =
                rule.inserted 0 (token :: sweep.done.reverse) := hmoved
              have hpass := ih hinside hnone (Nat.zero_le _) (by rwa [hlater])
              rw [hmoved, hlater] at hpass
              exact hpass

theorem eq_apply_of_nil (h : rule.EndsWith tokens result) : result = rule.apply tokens := by
  obtain ⟨last, hlast, hend, rfl⟩ := h
  have hfuel : tokens.length * ((rule.left.getD []).length + 1) +
      ((rule.left.getD []).length - 0) < rule.passFuel tokens := by
    rw [passFuel, hinput, List.isEmpty_nil, if_pos rfl, Nat.add_one_mul, Nat.mul_add, Nat.mul_add]
    omega
  have hnone : (Sweep.mk tokens 0).done.reverse = rule.inserted 0 [] := rfl
  exact (pass_eq_of_advances hinput hend hlast (Nat.zero_le _) hnone (Nat.zero_le _) hfuel).symm

end Insertion

/-- Where the loop of a rule comes to an end, it ends with what applying the rule gives. -/
theorem EndsWith.eq_apply (h : rule.EndsWith tokens result) : result = rule.apply tokens := by
  by_cases hinput : rule.input = []
  · exact eq_apply_of_nil hinput h
  · exact h.unique (endsWith_apply hinput tokens)

/-- Inserting at the edge of the word ends: there is nothing before the first insertion only. -/
example : (⟨[], ["x"], some ["#"], none, 1⟩ : Rule).apply ["a"] = ["x", "a"] := by
  decide

end Rule

/-! ## Rules one after another -/

/-- Whether the loops of some rules, one after another, come to an end, and with which tokens. -/
inductive RunsThrough : List Rule → List Token → List Token → Prop
  | nil (tokens : List Token) : RunsThrough [] tokens tokens
  | cons {rule : Rule} {rules : List Rule} {tokens next last : List Token}
      (hfirst : rule.EndsWith tokens next) (hlater : RunsThrough rules next last) :
      RunsThrough (rule :: rules) tokens last

theorem RunsThrough.eq_applyRules {rules : List Rule} {tokens result : List Token}
    (h : RunsThrough rules tokens result) : result = applyRules rules tokens := by
  induction h with
  | nil => rfl
  | cons hfirst _ ih => rw [ih, hfirst.eq_apply, applyRules, applyRules, List.foldl_cons]

theorem runsThrough_applyRules {rules : List Rule} (hinput : ∀ rule ∈ rules, rule.input ≠ [])
    (tokens : List Token) : RunsThrough rules tokens (applyRules rules tokens) := by
  induction rules generalizing tokens with
  | nil => exact .nil tokens
  | cons rule rules ih =>
      obtain ⟨hfirst, hlater⟩ := List.forall_mem_cons.1 hinput
      exact .cons (Rule.endsWith_apply hfirst tokens) (ih hlater (rule.apply tokens))

end Diachrony
