import Diachrony.Proofs.OptionalGroups
import Mathlib.Algebra.Order.Ring.Nat

/-!
# Enumerating optional groups

The list of sequences starts with the one that keeps every group and ends with the one that drops
every outermost group.  Groups side by side multiply its length, and a group adds one to the
length of what is in it; so the list is never longer than the sets of groups to keep are many, and
as long exactly if no group is inside another.
-/

namespace Diachrony.RuleText.Fragment

variable {α : Type}

/-! ## The first and the last sequence -/

/-- The fixed parts of some fragments that stand outside all groups. -/
def outside : List (Fragment α) → List α
  | [] => []
  | fixed content :: rest => content :: outside rest
  | group _ :: rest => outside rest

mutual

theorem exists_choices_eq_cons (fragment : Fragment α) :
    ∃ others, choices fragment = kept fragment :: others := by
  cases fragment with
  | fixed content => exact ⟨[], by rw [choices_fixed, kept]⟩
  | group inner =>
      obtain ⟨others, hothers⟩ := exists_enumerate_eq_cons inner
      exact ⟨others ++ [[]], by rw [choices_group, hothers, kept, List.cons_append]⟩

theorem exists_enumerate_eq_cons (fragments : List (Fragment α)) :
    ∃ others, enumerate fragments = keptAll fragments :: others := by
  cases fragments with
  | nil => exact ⟨[], by rw [enumerate_nil, keptAll]⟩
  | cons fragment rest =>
      obtain ⟨firsts, hfirsts⟩ := exists_choices_eq_cons fragment
      obtain ⟨others, hothers⟩ := exists_enumerate_eq_cons rest
      rw [enumerate_cons, hfirsts, hothers, keptAll, List.flatMap_cons, List.map_cons,
        List.cons_append]
      exact ⟨_, rfl⟩

end

/-- The last choice of a fixed part is the part, and that of a group is nothing. -/
theorem exists_enumerate_eq_concat (fragments : List (Fragment α)) :
    ∃ others, enumerate fragments = others ++ [outside fragments] := by
  induction fragments with
  | nil => exact ⟨[], by rw [enumerate_nil, outside, List.nil_append]⟩
  | cons fragment rest ih =>
      obtain ⟨others, hothers⟩ := ih
      cases fragment with
      | fixed content =>
          exact ⟨others.map ([content] ++ ·), by
            simp [enumerate_cons, choices_fixed, hothers, outside]⟩
      | group inner =>
          rw [enumerate_cons, choices_group, List.flatMap_append, List.flatMap_singleton, hothers]
          exact ⟨_ ++ others, by simp [outside]; rfl⟩

/-! ## How many there are -/

theorem length_choices_group (inner : List (Fragment α)) :
    (choices (group inner)).length = (enumerate inner).length + 1 := by
  rw [choices_group, List.length_append, List.length_singleton]

theorem length_enumerate_cons (fragment : Fragment α) (rest : List (Fragment α)) :
    (enumerate (fragment :: rest)).length =
      (choices fragment).length * (enumerate rest).length := by
  simp [enumerate_cons, List.length_flatMap]

theorem length_enumerate_pos (fragments : List (Fragment α)) :
    0 < (enumerate fragments).length := by
  obtain ⟨others, hothers⟩ := exists_enumerate_eq_cons fragments
  rw [hothers]
  exact Nat.succ_pos others.length

mutual

theorem length_choices_le (fragment : Fragment α) :
    (choices fragment).length ≤ 2 ^ groupCount fragment := by
  cases fragment with
  | fixed content => rw [choices_fixed, groupCount]; rfl
  | group inner =>
      have hinner := length_enumerate_le inner
      have hpos := Nat.two_pow_pos (groupCounts inner)
      rw [length_choices_group, groupCount, Nat.add_comm 1, Nat.pow_succ]
      omega

theorem length_enumerate_le (fragments : List (Fragment α)) :
    (enumerate fragments).length ≤ 2 ^ groupCounts fragments := by
  cases fragments with
  | nil => rw [enumerate_nil, groupCounts]; rfl
  | cons fragment rest =>
      rw [length_enumerate_cons, groupCounts, Nat.pow_add]
      exact Nat.mul_le_mul (length_choices_le fragment) (length_enumerate_le rest)

end

def IsFlat (fragments : List (Fragment α)) : Prop :=
  ∀ inner, group inner ∈ fragments → ∀ deeper, group deeper ∉ inner

theorem groupCounts_eq_zero_iff {fragments : List (Fragment α)} :
    groupCounts fragments = 0 ↔ ∀ inner, group inner ∉ fragments := by
  induction fragments with
  | nil => simp [groupCounts]
  | cons fragment rest ih =>
      cases fragment with
      | fixed content => simp [groupCounts, groupCount, ih]
      | group inner =>
          simp only [groupCounts, groupCount]
          constructor
          · omega
          · intro h
            exact absurd List.mem_cons_self (h inner)

theorem isFlat_fixed_cons_iff {content : α} {rest : List (Fragment α)} :
    IsFlat (fixed content :: rest) ↔ IsFlat rest := by
  simp [IsFlat]

theorem isFlat_group_cons_iff {inner rest : List (Fragment α)} :
    IsFlat (group inner :: rest) ↔ groupCounts inner = 0 ∧ IsFlat rest := by
  simp [IsFlat, groupCounts_eq_zero_iff, or_imp, forall_and]

/-- A group that holds another one has fewer choices than its groups allow for. -/
theorem length_choices_group_eq_iff {inner : List (Fragment α)} :
    (choices (group inner)).length = 2 ^ groupCount (group inner) ↔ groupCounts inner = 0 := by
  have hle := length_enumerate_le inner
  have hpos := length_enumerate_pos inner
  rw [length_choices_group, groupCount]
  constructor
  · intro h
    by_contra hcount
    have hmore : 2 ^ 1 ≤ 2 ^ groupCounts inner :=
      Nat.pow_le_pow_right Nat.two_pos (Nat.pos_of_ne_zero hcount)
    rw [Nat.add_comm 1, Nat.pow_succ] at h
    omega
  · intro hcount
    rw [hcount] at hle ⊢
    omega

theorem length_enumerate_eq_iff {fragments : List (Fragment α)} :
    (enumerate fragments).length = 2 ^ groupCounts fragments ↔ IsFlat fragments := by
  induction fragments with
  | nil => simp [enumerate_nil, groupCounts, IsFlat]
  | cons fragment rest ih =>
      have hfactors : (enumerate (fragment :: rest)).length = 2 ^ groupCounts (fragment :: rest) ↔
          (choices fragment).length = 2 ^ groupCount fragment ∧ IsFlat rest := by
        rw [length_enumerate_cons, groupCounts, Nat.pow_add, ← ih]
        refine mul_eq_mul_iff_eq_and_eq_of_pos (length_choices_le fragment)
          (length_enumerate_le rest) ?_ (Nat.two_pow_pos _)
        obtain ⟨others, hothers⟩ := exists_choices_eq_cons fragment
        rw [hothers]
        exact Nat.succ_pos others.length
      rw [hfactors]
      cases fragment with
      | fixed content => simp [choices_fixed, groupCount, isFlat_fixed_cons_iff]
      | group inner => rw [length_choices_group_eq_iff, isFlat_group_cons_iff]

/-- The sequences enumerated are those that keeping or dropping each group leaves.  The first one
keeps every group and the last one drops every outermost one, and there are at most as many as
there are sets of groups, exactly as many if and only if no group stands inside another one. -/
theorem enumerate_leaves_bounded (fragments : List (Fragment α)) :
    (∀ sequence, sequence ∈ enumerate fragments ↔ Leaves fragments sequence) ∧
      (enumerate fragments).head? = some (keptAll fragments) ∧
      (enumerate fragments).getLast? = some (outside fragments) ∧
      (enumerate fragments).length ≤ 2 ^ groupCounts fragments ∧
      ((enumerate fragments).length = 2 ^ groupCounts fragments ↔ IsFlat fragments) := by
  refine ⟨fun sequence => mem_enumerate_iff, ?_, ?_, length_enumerate_le fragments,
    length_enumerate_eq_iff⟩
  · obtain ⟨others, hothers⟩ := exists_enumerate_eq_cons fragments
    rw [hothers, List.head?_cons]
  · obtain ⟨others, hothers⟩ := exists_enumerate_eq_concat fragments
    rw [hothers, List.getLast?_concat]

/-- `(a (b)) c` with a group inside another one has three sequences. -/
example : enumerate [group [fixed 'a', group [fixed 'b']], fixed 'c'] =
    [['a', 'b', 'c'], ['a', 'c'], ['c']] := by
  rfl

end Diachrony.RuleText.Fragment
