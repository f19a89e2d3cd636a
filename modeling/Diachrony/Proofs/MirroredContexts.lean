import Diachrony.Proofs.Sweep

/-!
# Mirrored contexts

A left context is measured back from a position and a right context forward to the end of the
word.  Read by positions, each compares one slice of the word, and only one that the word has.
Turning round the word, the position and the context turns the one reading into the other.
-/

namespace Diachrony

/-! ## Slices -/

/-- The tokens between two positions, if these are positions of the word in this order. -/
def slice? (tokens : List Token) (first last : Nat) : Option (List Token) :=
  if first ≤ last ∧ last ≤ tokens.length then some ((tokens.take last).drop first) else none

theorem slice?_of_le {tokens : List Token} {first last : Nat} (hfirst : first ≤ last)
    (hlast : last ≤ tokens.length) :
    slice? tokens first last = some ((tokens.take last).drop first) :=
  if_pos ⟨hfirst, hlast⟩

def distance? (behind before : Nat) : Option Nat :=
  if before ≤ behind then some (behind - before) else none

theorem distance?_of_le {behind before : Nat} (h : before ≤ behind) :
    distance? behind before = some (behind - before) :=
  if_pos h

/-- Whether a slice is the given one.  Where it does not fit it is not taken at all. -/
def compare? (fits : Prop) [Decidable fits] (slice : Option (List Token))
    (expected : List Token) : Option Bool :=
  if fits then slice.map (· == expected) else some false

theorem compare?_eq {fits : Prop} [Decidable fits] {slice : Option (List Token)}
    {part expected : List Token} {holds : Bool} (hfits : holds = true → fits)
    (hslice : fits → slice = some part) (hholds : holds = true ↔ part = expected) :
    compare? fits slice expected = some holds := by
  unfold compare?
  by_cases h : fits
  · rw [if_pos h, hslice h, Option.map_some, Option.some.injEq, Bool.eq_iff_iff, beq_iff_eq,
      hholds]
  · have hnot : holds ≠ true := fun hh => h (hfits hh)
    rw [if_neg h, Bool.eq_false_iff.2 hnot]

namespace Rule

/-! ## Contexts by positions -/

/-- The left context read by positions; there is no answer if a position is out of range.  A
context behind a leading `#` must be all that is before the position. -/
def leftReads? (rule : Rule) (tokens : List Token) (start : Nat) : Option Bool :=
  match rule.left with
  | none => some true
  | some context =>
      if context.head? = some wordBoundary then
        compare? (start = context.tail.length) (slice? tokens 0 start) context.tail
      else
        compare? (context.length ≤ start)
          ((distance? start context.length).bind (slice? tokens · start)) context

/-- The right context read by positions; there is no answer if a position is out of range.  A
context before a trailing `#` must be all that is behind the position. -/
def rightReads? (rule : Rule) (tokens : List Token) (finish : Nat) : Option Bool :=
  match rule.right with
  | none => some true
  | some context =>
      if context.getLast? = some wordBoundary then
        (distance? tokens.length finish).bind fun behind =>
          compare? (behind = context.dropLast.length) (slice? tokens finish tokens.length)
            context.dropLast
      else
        compare? (finish + context.length ≤ tokens.length)
          (slice? tokens finish (finish + context.length)) context

theorem leftMatches_iff {rule : Rule} {tokens : List Token} {start : Nat} :
    rule.leftMatches tokens start = true ↔ rule.FollowsContext (tokens.take start) := by
  rw [leftMatches, leftHolds_iff, List.reverse_reverse]

theorem rightMatches_iff {rule : Rule} {tokens : List Token} {finish : Nat} :
    rule.rightMatches tokens finish = true ↔ rule.PrecedesContext (tokens.drop finish) :=
  rightHolds_iff

theorem leftReads?_eq (rule : Rule) {tokens : List Token} {start : Nat}
    (h : start ≤ tokens.length) :
    rule.leftReads? tokens start = some (rule.leftMatches tokens start) := by
  have hlength : (tokens.take start).length = start := List.length_take_of_le h
  have hmatches : rule.leftMatches tokens start = true ↔
      rule.FollowsContext (tokens.take start) := leftMatches_iff
  rw [FollowsContext] at hmatches
  unfold leftReads?
  cases hleft : rule.left with
  | none => simpa [hleft] using hmatches
  | some context =>
      simp only [hleft, Option.mem_some_iff, forall_eq'] at hmatches ⊢
      split at hmatches
      · rename_i hedge
        rw [if_pos hedge]
        refine compare?_eq (fun hholds => ?_) (fun _ => slice?_of_le (Nat.zero_le start) h) hmatches
        rw [← hmatches.1 hholds, hlength]
      · rename_i hedge
        rw [if_neg hedge]
        rw [List.suffix_iff_eq_drop, hlength, @eq_comm _ context] at hmatches
        refine compare?_eq (fun hholds => ?_) (fun hfits => ?_) hmatches
        · have hshort := congrArg List.length (hmatches.1 hholds)
          rw [List.length_drop, hlength] at hshort
          omega
        · rw [distance?_of_le hfits, Option.bind_some, slice?_of_le (Nat.sub_le _ _) h]

/-- Beyond the end of a word there is nothing to compare a context with. -/
example :
    (⟨["a"], ["o"], some ["#", "s", "t"], none, 1⟩ : Rule).leftReads? ["s"] 2 = none := by
  decide

theorem rightReads?_eq (rule : Rule) {tokens : List Token} {finish : Nat}
    (h : finish ≤ tokens.length) :
    rule.rightReads? tokens finish = some (rule.rightMatches tokens finish) := by
  have hlength : (tokens.drop finish).length = tokens.length - finish := List.length_drop
  have hmatches : rule.rightMatches tokens finish = true ↔
      rule.PrecedesContext (tokens.drop finish) := rightMatches_iff
  rw [PrecedesContext] at hmatches
  unfold rightReads?
  cases hright : rule.right with
  | none => simpa [hright] using hmatches
  | some context =>
      simp only [hright, Option.mem_some_iff, forall_eq'] at hmatches ⊢
      split at hmatches
      · rename_i hedge
        rw [if_pos hedge, distance?_of_le h, Option.bind_some]
        refine compare?_eq (fun hholds => ?_) (fun _ => ?_) hmatches
        · rw [← hmatches.1 hholds, hlength]
        · rw [slice?_of_le h (Nat.le_refl _), List.take_length]
      · rename_i hedge
        rw [if_neg hedge]
        rw [List.prefix_iff_eq_take, @eq_comm _ context] at hmatches
        refine compare?_eq (fun hholds => ?_) (fun hfits => ?_) hmatches
        · have hshort := congrArg List.length (hmatches.1 hholds)
          rw [List.length_take, hlength] at hshort
          omega
        · rw [slice?_of_le (Nat.le_add_right _ _) hfits, List.drop_take,
            Nat.add_sub_cancel_left]

/-! ## The mirror -/

/-- What a left context asks of the tokens before a position, nearest first, its mirror asks of
the same tokens after one. -/
theorem rightHolds_eq_leftHolds {rule mirror : Rule} {context : List Token}
    (hleft : rule.left = some context) (hright : mirror.right = some context.reverse)
    (near : List Token) : mirror.rightHolds near = rule.leftHolds near := by
  rw [Bool.eq_iff_iff, rightHolds_iff, leftHolds_iff, PrecedesContext, FollowsContext, hleft,
    hright]
  simp only [Option.mem_some_iff, forall_eq', List.getLast?_reverse, List.dropLast_reverse]
  split
  · exact List.reverse_eq_iff.symm
  · rw [← List.reverse_prefix, List.reverse_reverse]

/-- A left context holds before a position of a word exactly if its mirror holds as a right
context from the mirrored position of the reversed word on, and both can be read. -/
theorem leftMatches_eq_rightMatches_reverse {rule mirror : Rule} {context tokens : List Token}
    {position : Nat} (hleft : rule.left = some context)
    (hright : mirror.right = some context.reverse) (hposition : position ≤ tokens.length) :
    rule.leftReads? tokens position = some (rule.leftMatches tokens position) ∧
      mirror.rightReads? tokens.reverse (tokens.length - position) =
        some (mirror.rightMatches tokens.reverse (tokens.length - position)) ∧
      rule.leftMatches tokens position =
        mirror.rightMatches tokens.reverse (tokens.length - position) := by
  have hmirrored : tokens.length - position ≤ tokens.reverse.length := by
    rw [List.length_reverse]
    exact Nat.sub_le _ _
  refine ⟨rule.leftReads?_eq hposition, mirror.rightReads?_eq hmirrored, ?_⟩
  rw [leftMatches, rightMatches, List.drop_reverse, Nat.sub_sub_self hposition,
    rightHolds_eq_leftHolds hleft hright]

/-- The word `sta` behind its first two tokens, which are all that stands before the `a`. -/
theorem leftMatches_eq_rightMatches_reverse_sta :
    let rule : Rule := ⟨["a"], ["o"], some ["#", "s", "t"], none, 1⟩
    let mirror : Rule := ⟨["a"], ["o"], none, some ["t", "s", "#"], 1⟩
    (rule.left = some ["#", "s", "t"] ∧ mirror.right = some ["#", "s", "t"].reverse ∧
        2 ≤ ["s", "t", "a"].length) ∧
      rule.leftReads? ["s", "t", "a"] 2 = some true ∧
      mirror.rightReads? ["a", "t", "s"] 1 = some true ∧
      rule.leftMatches ["s", "t", "a"] 2 = mirror.rightMatches ["a", "t", "s"] 1 := by
  intro rule mirror
  have hleft : rule.left = some ["#", "s", "t"] := rfl
  have hright : mirror.right = some ["#", "s", "t"].reverse := rfl
  have hposition : 2 ≤ ["s", "t", "a"].length := by decide
  exact ⟨⟨hleft, hright, hposition⟩, leftMatches_eq_rightMatches_reverse hleft hright hposition⟩

end Rule

end Diachrony
