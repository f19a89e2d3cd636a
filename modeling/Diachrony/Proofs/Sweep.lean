import Mathlib.Data.List.Infix
import Mathlib.Logic.Relation
import Diachrony.Proofs.Script

/-!
# The pass as a scan and as a sweep

The pass of a rule is the scan of a word cut in two: the tokens done with and the tokens to
come.  It is also what a loop over positions makes of one word that grows and shrinks under it:
each round leaves the scan of the two halves as it is, and shortens the second one.
-/

namespace Diachrony.Rule

/-! ## Contexts at the cut -/

/-- Whether the left context stands at the end of the tokens before a span.  A leading `#` asks
for the rest of the context and nothing before it. -/
def FollowsContext (rule : Rule) (before : List Token) : Prop :=
  ∀ context ∈ rule.left,
    if context.head? = some wordBoundary then before = context.tail else context <:+ before

/-- Whether the right context stands at the start of the tokens after a span.  A trailing `#`
asks for the rest of the context and nothing after it. -/
def PrecedesContext (rule : Rule) (after : List Token) : Prop :=
  ∀ context ∈ rule.right,
    if context.getLast? = some wordBoundary then after = context.dropLast else context <+: after

instance (rule : Rule) (before : List Token) : Decidable (rule.FollowsContext before) :=
  inferInstanceAs (Decidable (∀ context ∈ rule.left, _))

instance (rule : Rule) (after : List Token) : Decidable (rule.PrecedesContext after) :=
  inferInstanceAs (Decidable (∀ context ∈ rule.right, _))

theorem leftHolds_iff {rule : Rule} {before : List Token} :
    rule.leftHolds before = true ↔ rule.FollowsContext before.reverse := by
  unfold leftHolds FollowsContext
  rcases rule.left with _ | _ | ⟨first, rest⟩
  · simp
  · simp
  · by_cases hedge : first = wordBoundary
    · simp [hedge, List.reverse_eq_iff]
    · dsimp only
      rw [if_neg (by simpa using hedge), List.isPrefixOf_iff_prefix, ← List.reverse_suffix,
        List.reverse_reverse]
      simp [hedge]

theorem rightHolds_iff {rule : Rule} {after : List Token} :
    rule.rightHolds after = true ↔ rule.PrecedesContext after := by
  unfold rightHolds PrecedesContext
  cases rule.right with
  | none => simp
  | some context =>
      by_cases hedge : context.getLast? = some wordBoundary
      · simp [hedge]
      · simp [hedge, List.isPrefixOf_iff_prefix]

theorem matchesBetween_iff {rule : Rule} {before rest : List Token} :
    rule.matchesBetween before rest = true ↔
      rule.input <+: rest ∧ rule.FollowsContext before.reverse ∧
        rule.PrecedesContext (rest.drop rule.input.length) := by
  rw [matchesBetween, Bool.and_eq_true, Bool.and_eq_true, List.isPrefixOf_iff_prefix,
    leftHolds_iff, rightHolds_iff, and_assoc]

/-! ## The scan -/

/-- The scan of a word: as long as there is room for the input, a match goes over to the tokens
done with as the output, and where there is none one token goes over as it is. -/
def scan (rule : Rule) (hinput : rule.input ≠ []) (done rest : List Token) : List Token :=
  if rest.length < rule.input.length then done ++ rest
  else if rule.input <+: rest ∧ rule.FollowsContext done ∧
      rule.PrecedesContext (rest.drop rule.input.length) then
    scan rule hinput (done ++ rule.output) (rest.drop rule.input.length)
  else scan rule hinput (done ++ rest.take 1) (rest.drop 1)
termination_by rest.length
decreasing_by
  all_goals
    have := List.length_pos_iff.2 hinput
    rw [List.length_drop]
    omega

section Scan

variable {rule : Rule} (hinput : rule.input ≠ [])

theorem scan_of_short {done rest : List Token} (h : rest.length < rule.input.length) :
    rule.scan hinput done rest = done ++ rest := by
  rw [scan, if_pos h]

theorem scan_of_match {done rest : List Token}
    (h : rule.matchesBetween done.reverse rest = true) :
    rule.scan hinput done rest =
      rule.scan hinput (done ++ rule.output) (rest.drop rule.input.length) := by
  rw [matchesBetween_iff, List.reverse_reverse] at h
  rw [scan, if_neg (Nat.not_lt.2 h.1.length_le), if_pos h]

theorem scan_of_not_match {done rest : List Token} (hroom : rule.input.length ≤ rest.length)
    (h : rule.matchesBetween done.reverse rest = false) :
    rule.scan hinput done rest = rule.scan hinput (done ++ rest.take 1) (rest.drop 1) := by
  have hmatch : ¬ rule.matchesBetween done.reverse rest = true := by simp [h]
  rw [matchesBetween_iff, List.reverse_reverse] at hmatch
  rw [scan, if_neg (Nat.not_lt.2 hroom), if_neg hmatch]

/-- The pass is the scan, with the tokens done with nearest first. -/
theorem pass_eq_scan {fuel : Nat} {before rest : List Token} (hfuel : rest.length < fuel) :
    rule.pass fuel before rest = rule.scan hinput before.reverse rest := by
  induction fuel generalizing before rest with
  | zero => omega
  | succ fuel ih =>
      have hpos := List.length_pos_iff.2 hinput
      unfold pass
      cases hmatch : rule.matchesBetween before rest with
      | true =>
          have hroom := (matchesBetween_iff.1 hmatch).1.length_le
          have hshort : (rest.drop rule.input.length).length < fuel := by
            rw [List.length_drop]
            omega
          have hmatch' : rule.matchesBetween before.reverse.reverse rest = true := by
            rwa [List.reverse_reverse]
          rw [if_pos rfl, ih hshort, scan_of_match hinput hmatch', List.reverse_append,
            List.reverse_reverse]
      | false =>
          cases rest with
          | nil =>
              have hshort : ([] : List Token).length < rule.input.length := hpos
              simp [scan_of_short hinput hshort]
          | cons token rest =>
              rw [List.length_cons] at hfuel
              have hmove : rule.pass fuel (token :: before) rest =
                  rule.scan hinput (before.reverse ++ [token]) rest := by
                rw [ih (by omega), List.reverse_cons]
              simp only [Bool.false_eq_true, if_false, hmove]
              rcases Nat.lt_or_ge (token :: rest).length rule.input.length with hshort | hroom
              · -- The pass goes on to the end of the word, where nothing matches any more.
                rw [scan_of_short hinput hshort, scan_of_short hinput (Nat.lt_of_succ_lt hshort)]
                simp
              · rw [scan_of_not_match hinput hroom (by rwa [List.reverse_reverse])]
                rfl

end Scan

/-! ## The sweep -/

/-- A word in which a pass has come to a position. -/
structure Sweep where
  tokens : List Token
  position : Nat
  deriving DecidableEq, Repr

namespace Sweep

def done (sweep : Sweep) : List Token :=
  sweep.tokens.take sweep.position

def rest (sweep : Sweep) : List Token :=
  sweep.tokens.drop sweep.position

end Sweep

/-- One round of the loop over positions, as long as there is room for the input: a match is
replaced within the word, and the position goes behind what has been put in. -/
def advance? (rule : Rule) (sweep : Sweep) : Option Sweep :=
  if sweep.position + rule.input.length ≤ sweep.tokens.length then
    if rule.matchesAt sweep.tokens sweep.position then
      some
        ⟨sweep.tokens.take sweep.position ++ rule.output ++
            sweep.tokens.drop (sweep.position + rule.input.length),
          sweep.position + rule.output.length⟩
    else some ⟨sweep.tokens, sweep.position + 1⟩
  else none

/-- Whether rounds of the loop lead from one word and position to another. -/
def Advances (rule : Rule) : Sweep → Sweep → Prop :=
  Relation.ReflTransGen fun sweep next => rule.advance? sweep = some next

section Sweep

variable {rule : Rule} (hinput : rule.input ≠ []) {sweep next : Sweep}

theorem advance?_cases (h : rule.advance? sweep = some next) :
    rule.input.length ≤ sweep.rest.length ∧
      (rule.matchesBetween sweep.done.reverse sweep.rest = true ∧
          next.done = sweep.done ++ rule.output ∧
          next.rest = sweep.rest.drop rule.input.length ∨
        rule.matchesBetween sweep.done.reverse sweep.rest = false ∧
          next.done = sweep.done ++ sweep.rest.take 1 ∧ next.rest = sweep.rest.drop 1) := by
  unfold advance? at h
  split at h
  · rename_i hroom
    have hlength : sweep.done.length = sweep.position := List.length_take_of_le (by omega)
    have hroom' : rule.input.length ≤ sweep.rest.length := by
      rw [Sweep.rest, List.length_drop]
      omega
    refine ⟨hroom', ?_⟩
    split at h
    · rename_i hmatch
      cases h
      have hbehind : (sweep.done ++ rule.output).length =
          sweep.position + rule.output.length := by rw [List.length_append, hlength]
      refine Or.inl ⟨hmatch, List.take_left' hbehind, ?_⟩
      rw [Sweep.rest, Sweep.rest, List.drop_drop]
      exact List.drop_left' hbehind
    · rename_i hmatch
      cases h
      refine Or.inr ⟨Bool.eq_false_iff.2 hmatch, List.take_add, ?_⟩
      rw [Sweep.rest, Sweep.rest, List.drop_drop]
  · cases h

include hinput in
theorem length_rest_of_advance? (h : rule.advance? sweep = some next) :
    next.rest.length < sweep.rest.length := by
  have hpos := List.length_pos_iff.2 hinput
  obtain ⟨hroom, ⟨-, -, hrest⟩ | ⟨-, -, hrest⟩⟩ := advance?_cases h
  all_goals
    rw [hrest, List.length_drop]
    omega

theorem scan_of_advance? (h : rule.advance? sweep = some next) :
    rule.scan hinput next.done next.rest = rule.scan hinput sweep.done sweep.rest := by
  obtain ⟨hroom, ⟨hmatch, hdone, hrest⟩ | ⟨hmatch, hdone, hrest⟩⟩ := advance?_cases h
  · rw [hdone, hrest, scan_of_match hinput hmatch]
  · rw [hdone, hrest, scan_of_not_match hinput hroom hmatch]

theorem scan_of_advance?_eq_none (h : rule.advance? sweep = none) :
    rule.scan hinput sweep.done sweep.rest = sweep.tokens := by
  have hpos := List.length_pos_iff.2 hinput
  have hshort : sweep.rest.length < rule.input.length := by
    unfold advance? at h
    split at h
    · split at h <;> cases h
    · rw [Sweep.rest, List.length_drop]
      omega
  rw [scan_of_short hinput hshort]
  exact List.take_append_drop sweep.position sweep.tokens

/-- From every position the loop comes to an end, at the scan of the two halves. -/
theorem exists_advances (sweep : Sweep) :
    ∃ last, rule.Advances sweep last ∧ rule.advance? last = none ∧
      last.tokens = rule.scan hinput sweep.done sweep.rest := by
  induction hlength : sweep.rest.length using Nat.strong_induction_on generalizing sweep with
  | _ length ih =>
      cases hnext : rule.advance? sweep with
      | none =>
          exact ⟨sweep, Relation.ReflTransGen.refl, hnext,
            (scan_of_advance?_eq_none hinput hnext).symm⟩
      | some next =>
          have hshorter := hlength ▸ length_rest_of_advance? hinput hnext
          obtain ⟨last, hlast, hend, htokens⟩ := ih _ hshorter next rfl
          exact ⟨last, Relation.ReflTransGen.head hnext hlast, hend,
            htokens.trans (scan_of_advance? hinput hnext)⟩

/-- Applying a rule scans the word from its start, and that is the word with which the loop over
positions comes to its end. -/
theorem apply_eq_scan (tokens : List Token) :
    rule.apply tokens = rule.scan hinput [] tokens ∧
      ∃ last, rule.Advances ⟨tokens, 0⟩ last ∧ rule.advance? last = none ∧
        last.tokens = rule.apply tokens := by
  have happly : rule.apply tokens = rule.scan hinput [] tokens :=
    pass_eq_scan hinput (length_lt_passFuel hinput tokens)
  obtain ⟨last, hlast, hend, htokens⟩ := exists_advances hinput ⟨tokens, 0⟩
  refine ⟨happly, last, hlast, hend, ?_⟩
  rw [htokens, happly]
  rfl

/-- The word `aaab` under `a a > b / _ b #`: the pass goes by the first `a`, as only the span
behind it has the edge of the word at the end of its context. -/
theorem apply_eq_scan_aaab :
    let rule : Rule := ⟨["a", "a"], ["b"], none, some ["b", "#"], 1⟩
    let tokens := ["a", "a", "a", "b"]
    rule.apply tokens = rule.scan (List.cons_ne_nil "a" ["a"]) [] tokens ∧
      ∃ last, rule.Advances ⟨tokens, 0⟩ last ∧ rule.advance? last = none ∧
        last.tokens = rule.apply tokens :=
  apply_eq_scan (List.cons_ne_nil "a" ["a"]) ["a", "a", "a", "b"]

end Sweep

end Diachrony.Rule
