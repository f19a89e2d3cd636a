import Diachrony.Proofs.CompiledRules
import Diachrony.Proofs.FreeText

/-!
# Sequences that optional groups leave

Keeping or dropping each group of some fragments leaves a sequence of fixed parts, and
enumerating them lists exactly these sequences.  The fixed parts of a text are cut out of it
beside parentheses, so they are free of what the text is free of.
-/

namespace Diachrony.RuleText

namespace Fragment

variable {α : Type}

/-! ## Equations of the enumeration -/

theorem enumerate_nil : enumerate ([] : List (Fragment α)) = [[]] := by
  rw [enumerate, enumerateFrom]

theorem enumerateFrom_eq (variants : List (List α)) (fragments : List (Fragment α)) :
    enumerateFrom variants fragments =
      variants.flatMap fun variant => (enumerate fragments).map (variant ++ ·) := by
  induction fragments generalizing variants with
  | nil => simp [enumerateFrom, enumerate_nil]
  | cons fragment rest ih =>
      have hrest := ih ([[]].flatMap fun variant => (choices fragment).map (variant ++ ·))
      rw [enumerate, enumerateFrom, ih, enumerateFrom, hrest]
      simp [List.flatMap_assoc, List.map_flatMap, List.flatMap_map, Function.comp_def]

theorem enumerate_cons (fragment : Fragment α) (rest : List (Fragment α)) :
    enumerate (fragment :: rest) =
      (choices fragment).flatMap fun first => (enumerate rest).map (first ++ ·) := by
  rw [enumerate, enumerateFrom, enumerateFrom_eq]
  simp

theorem choices_fixed (content : α) : choices (fixed content) = [[content]] := by
  rw [choices]

theorem choices_group (inner : List (Fragment α)) :
    choices (group inner) = enumerate inner ++ [[]] := by
  rw [choices, enumerate]

/-! ## What keeping or dropping groups leaves -/

/-- Which sequences of fixed parts are left when each group is kept or dropped. -/
inductive Leaves : List (Fragment α) → List α → Prop
  | nil : Leaves [] []
  | fixed {content : α} {rest : List (Fragment α)} {sequence : List α}
      (hrest : Leaves rest sequence) : Leaves (.fixed content :: rest) (content :: sequence)
  | kept {inner rest : List (Fragment α)} {first sequence : List α} (hinner : Leaves inner first)
      (hrest : Leaves rest sequence) : Leaves (.group inner :: rest) (first ++ sequence)
  | dropped {inner rest : List (Fragment α)} {sequence : List α} (hrest : Leaves rest sequence) :
      Leaves (.group inner :: rest) sequence

theorem leaves_fixed_cons_iff {content : α} {rest : List (Fragment α)} {sequence : List α} :
    Leaves (.fixed content :: rest) sequence ↔
      ∃ tail, Leaves rest tail ∧ sequence = content :: tail := by
  constructor
  · intro h
    cases h with
    | fixed hrest => exact ⟨_, hrest, rfl⟩
  · rintro ⟨tail, hrest, rfl⟩
    exact .fixed hrest

theorem leaves_group_cons_iff {inner rest : List (Fragment α)} {sequence : List α} :
    Leaves (.group inner :: rest) sequence ↔
      ∃ first tail, (Leaves inner first ∨ first = []) ∧ Leaves rest tail ∧
        sequence = first ++ tail := by
  constructor
  · intro h
    cases h with
    | kept hinner hrest => exact ⟨_, _, .inl hinner, hrest, rfl⟩
    | dropped hrest => exact ⟨[], sequence, .inr rfl, hrest, rfl⟩
  · rintro ⟨first, tail, hinner | rfl, hrest, rfl⟩
    · exact .kept hinner hrest
    · exact .dropped hrest

theorem leaves_nil_iff {sequence : List α} : Leaves [] sequence ↔ sequence = [] := by
  constructor
  · intro h
    cases h
    rfl
  · rintro rfl
    exact .nil

mutual

theorem leaves_cons_iff (fragment : Fragment α) (rest : List (Fragment α)) (sequence : List α) :
    Leaves (fragment :: rest) sequence ↔
      ∃ first ∈ choices fragment, ∃ tail, Leaves rest tail ∧ sequence = first ++ tail := by
  cases fragment with
  | fixed content => simp [leaves_fixed_cons_iff, choices_fixed]
  | group inner =>
      have hinner : ∀ first, first ∈ choices (.group inner) ↔ Leaves inner first ∨ first = [] := by
        intro first
        rw [choices_group, List.mem_append, mem_enumerate_iff, List.mem_singleton]
      rw [leaves_group_cons_iff]
      constructor
      · rintro ⟨first, tail, hfirst, hrest, rfl⟩
        exact ⟨first, (hinner first).2 hfirst, tail, hrest, rfl⟩
      · rintro ⟨first, hfirst, tail, hrest, rfl⟩
        exact ⟨first, tail, (hinner first).1 hfirst, hrest, rfl⟩

theorem mem_enumerate_iff {fragments : List (Fragment α)} {sequence : List α} :
    sequence ∈ enumerate fragments ↔ Leaves fragments sequence := by
  cases fragments with
  | nil => rw [enumerate_nil, List.mem_singleton, leaves_nil_iff]
  | cons fragment rest =>
      rw [enumerate_cons, leaves_cons_iff fragment rest]
      simp only [List.mem_flatMap, List.mem_map, mem_enumerate_iff, eq_comm]

end

mutual

def All (holds : α → Prop) : Fragment α → Prop
  | fixed content => holds content
  | group inner => AllOf holds inner

def AllOf (holds : α → Prop) : List (Fragment α) → Prop
  | [] => True
  | fragment :: rest => All holds fragment ∧ AllOf holds rest

end

theorem allOf_iff {holds : α → Prop} {fragments : List (Fragment α)} :
    AllOf holds fragments ↔ ∀ fragment ∈ fragments, All holds fragment := by
  induction fragments with
  | nil => simp [AllOf]
  | cons fragment rest ih => rw [AllOf, ih, List.forall_mem_cons]

theorem Leaves.all {holds : α → Prop} {fragments : List (Fragment α)} {sequence : List α}
    (h : Leaves fragments sequence) (hall : AllOf holds fragments) :
    ∀ content ∈ sequence, holds content := by
  induction h with
  | nil => simp
  | fixed hrest ih => exact List.forall_mem_cons.2 ⟨hall.1, ih hall.2⟩
  | kept hinner hrest ihinner ihrest =>
      intro content hmem
      rcases List.mem_append.1 hmem with hmem | hmem
      · exact ihinner hall.1 content hmem
      · exact ihrest hall.2 content hmem
  | dropped hrest ih => exact ih hall.2

/-! ## Keeping every group -/

mutual

def kept : Fragment α → List α
  | fixed content => [content]
  | group inner => keptAll inner

def keptAll : List (Fragment α) → List α
  | [] => []
  | fragment :: rest => kept fragment ++ keptAll rest

end

theorem leaves_keptAll (fragments : List (Fragment α)) : Leaves fragments (keptAll fragments) := by
  match fragments with
  | [] => exact .nil
  | .fixed content :: rest => exact .fixed (leaves_keptAll rest)
  | .group inner :: rest => exact .kept (leaves_keptAll inner) (leaves_keptAll rest)

theorem allOf_iff_keptAll {holds : α → Prop} {fragments : List (Fragment α)} :
    AllOf holds fragments ↔ ∀ content ∈ keptAll fragments, holds content := by
  match fragments with
  | [] => simp [AllOf, keptAll]
  | .fixed content :: rest =>
      rw [AllOf, All, keptAll, kept, List.forall_mem_append, List.forall_mem_singleton,
        allOf_iff_keptAll]
  | .group inner :: rest =>
      rw [AllOf, All, keptAll, kept, List.forall_mem_append, allOf_iff_keptAll, allOf_iff_keptAll]

end Fragment

section FreeOf

variable {characters : List Char} {names : List Text}

theorem allOf_pushFixed {holds : Text → Prop} {piece : Text} {fragments : List (Fragment Text)}
    (hpiece : holds piece.reverse) (hfragments : Fragment.AllOf holds fragments) :
    Fragment.AllOf holds (pushFixed piece fragments) := by
  unfold pushFixed
  split
  · exact hfragments
  · exact ⟨hpiece, hfragments⟩

/-- The fixed parts are cut out of the text beside its parentheses. -/
theorem allOf_fragmentLoop {depth : Nat} {piece text : Text}
    {fragments result : List (Fragment Text)}
    (hfree : Text.FreeOf characters names (piece.reverse ++ text))
    (hfragments : Fragment.AllOf (Text.FreeOf characters names) fragments)
    (h : fragmentLoop depth piece fragments text = .ok result) :
    Fragment.AllOf (Text.FreeOf characters names) result := by
  fun_induction fragmentLoop depth piece fragments text generalizing result with
  | case1 depth piece fragments =>
      cases h
      rw [List.append_nil] at hfree
      have hall := Fragment.allOf_iff.1 (allOf_pushFixed hfree hfragments)
      exact Fragment.allOf_iff.2 fun fragment hmem => hall fragment (List.mem_reverse.1 hmem)
  | case2 depth piece fragments rest ih => exact ih (by simpa using hfree) hfragments h
  | case3 depth piece fragments rest _ ih => exact ih (by simpa using hfree) hfragments h
  | case4 => cases h
  | case5 => cases h
  | case6 depth piece fragments c rest _ _ hround inside after hclose _ inner hinner ihinner ih =>
      have hrest := Text.eq_append_of_closing? hclose
      have hclosed : Text.isAlphanumeric Bracket.round.closer = false := by decide
      rw [hround.2] at hfree
      have hbehind : Text.FreeOf characters names rest :=
        hfree.of_isWholePart (.right_of_cons (by decide) _ rest)
      rw [hrest] at hbehind
      have hpiece : Text.FreeOf characters names piece.reverse :=
        hfree.of_isWholePart (.left_of_cons (by decide) _ rest)
      refine ih ?_ ⟨?_, allOf_pushFixed hpiece hfragments⟩ h
      · exact hbehind.of_isWholePart (.right_of_cons hclosed _ after)
      · exact ihinner (hbehind.of_isWholePart (.left_of_cons hclosed _ after)) trivial hinner
  | case7 => cases h
  | case8 depth piece fragments c rest _ _ _ _ ih => exact ih (by simpa using hfree) hfragments h

/-- Every variant of a context side is free of what the side is free of. -/
theorem freeOf_of_mem_expandGroups {limit : Nat} {text : Text} {variants : List Text}
    (hblank : ' ' ∉ characters) (hfree : Text.FreeOf characters names text)
    (h : expandGroups limit text = .ok variants) {variant : Text} (hmem : variant ∈ variants) :
    Text.FreeOf characters names variant := by
  obtain ⟨fragments, hfragments, h⟩ := bind_eq_ok.1 h
  have hnone : Fragment.AllOf (Text.FreeOf characters names) [] := trivial
  have hall := allOf_fragmentLoop (by simpa using hfree) hnone hfragments
  dsimp only at h
  split at h
  · cases h
  · cases h
    obtain ⟨parts, hparts, rfl⟩ := List.mem_map.1 (mem_distinct.1 hmem)
    have hfixed := (Fragment.mem_enumerate_iff.1 hparts).all hall
    exact .normalizeBlanks hblank (.intercalate hblank hfixed)

end FreeOf

end Diachrony.RuleText
