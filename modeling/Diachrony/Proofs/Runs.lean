import Mathlib.Data.List.Basic
import Mathlib.Data.List.Induction
import Mathlib.Data.List.TakeWhile
import Diachrony.Text.Alphanumeric
import Diachrony.Text.Basic

/-!
# Runs of a text

The maximal runs of characters of one kind.  A character of another kind ends a run, so the
runs of a text are those of its parts wherever it is cut beside such a character; and the runs
of a finer kind within the runs of a coarser one are runs of the text.
-/

namespace Diachrony

/-- A statement about the members of a list is decided one member after another. -/
theorem forall_mem_of_all {α : Type} {holds : α → Prop} [DecidablePred holds] {list : List α}
    (h : list.all (fun a => decide (holds a)) = true) : ∀ a ∈ list, holds a := by
  simpa using h

theorem not_mem_of_subset {α : Type} {fewer more : List α} (hsubset : fewer ⊆ more) {a : α}
    (h : a ∉ more) : a ∉ fewer :=
  fun hin => h (hsubset hin)

namespace Text

/-! ## Splitting -/

theorem splitLoop_eq_splitOnPPrepend (separates : Char → Bool) (text piece : Text) :
    splitLoop separates text piece [] = text.splitOnPPrepend separates piece := by
  induction text generalizing piece with
  | nil => simp [splitLoop, List.splitOnPPrepend_nil]
  | cons c rest ih =>
      rw [splitLoop, List.splitOnPPrepend_cons_eq_if]
      split
      · rw [splitLoop_eq, ih, List.splitOnP_eq_splitOnPPrepend]
        simp
      · exact ih (c :: piece)

theorem splitWhere_eq_splitOnP (separates : Char → Bool) (text : Text) :
    splitWhere separates text = text.splitOnP separates := by
  rw [splitWhere, splitLoop_eq_splitOnPPrepend, List.splitOnP_eq_splitOnPPrepend]

theorem splitWhere_append_cons {separates : Char → Bool} {c : Char} (hc : separates c = true)
    (before after : Text) :
    splitWhere separates (before ++ c :: after) =
      splitWhere separates before ++ splitWhere separates after := by
  simp only [splitWhere_eq_splitOnP]
  exact List.splitOnP_append_cons before after hc

theorem splitWhere_of_forall {separates : Char → Bool} {text : Text}
    (h : ∀ c ∈ text, separates c = false) : splitWhere separates text = [text] := by
  rw [splitWhere_eq_splitOnP]
  exact List.splitOnP_eq_singleton h

theorem eq_false_of_mem_head?_dropWhile {belongs : Char → Bool} {text : Text} {c : Char}
    (hc : c ∈ (text.dropWhile belongs).head?) : belongs c = false := by
  have hnot := List.head?_dropWhile_not belongs text
  rw [Option.mem_def] at hc
  rwa [hc] at hnot

theorem takeWhile_append_of_head {belongs : Char → Bool} {run rest : Text}
    (hrun : ∀ c ∈ run, belongs c = true) (hrest : ∀ c ∈ rest.head?, belongs c = false) :
    (run ++ rest).takeWhile belongs = run := by
  rw [List.takeWhile_append_of_pos hrun]
  cases rest with
  | nil => simp
  | cons c rest => simp [hrest c rfl]

theorem dropWhile_append_of_head {belongs : Char → Bool} {run rest : Text}
    (hrun : ∀ c ∈ run, belongs c = true) (hrest : ∀ c ∈ rest.head?, belongs c = false) :
    (run ++ rest).dropWhile belongs = rest := by
  rw [List.dropWhile_append_of_pos hrun]
  cases rest with
  | nil => simp
  | cons c rest => simp [hrest c rfl]

theorem splitWhere_of_not_mem {mark : Char} {text : Text} (h : mark ∉ text) :
    splitWhere (· == mark) text = [text] := by
  refine splitWhere_of_forall fun c hc => ?_
  rw [beq_eq_false_iff_ne]
  rintro rfl
  exact h hc

/-- Induction along the runs of characters of a kind: a text is empty, starts with a character
of another kind, or starts with a run. -/
@[elab_as_elim]
theorem run_induction (belongs : Char → Bool) {motive : Text → Prop} (nil : motive [])
    (other : ∀ c rest, belongs c = false → motive rest → motive (c :: rest))
    (run : ∀ run rest, run ≠ [] → (∀ c ∈ run, belongs c = true) →
      (∀ c ∈ rest.head?, belongs c = false) → motive rest → motive (run ++ rest))
    (text : Text) : motive text := by
  generalize hlength : text.length = length
  induction length using Nat.strongRecOn generalizing text with
  | ind length ih =>
      cases text with
      | nil => exact nil
      | cons c rest =>
          subst hlength
          cases hc : belongs c with
          | false => exact other c rest hc (ih _ (Nat.lt_succ_self _) rest rfl)
          | true =>
              have hcut : (c :: rest).takeWhile belongs ++ (c :: rest).dropWhile belongs =
                  c :: rest := List.takeWhile_append_dropWhile
              have hshort : ((c :: rest).dropWhile belongs).length < (c :: rest).length := by
                rw [List.dropWhile_cons_of_pos hc, List.length_cons]
                exact Nat.lt_succ_of_le (List.dropWhile_suffix belongs).length_le
              rw [← hcut]
              refine run _ _ ?_ ?_ ?_ (ih _ hshort _ rfl)
              · simp [hc]
              · exact fun d hd => List.mem_takeWhile_imp hd
              · exact fun d hd => eq_false_of_mem_head?_dropWhile hd

/-! ## Runs -/

/-- The maximal runs of characters of a kind, in order of appearance. -/
def runs (belongs : Char → Bool) (text : Text) : List Text :=
  (splitWhere (fun c => !belongs c) text).filter (!·.isEmpty)

section Runs

variable {belongs : Char → Bool}

@[simp] theorem runs_nil : runs belongs [] = [] := rfl

theorem runs_append_cons {c : Char} (hc : belongs c = false) (before after : Text) :
    runs belongs (before ++ c :: after) = runs belongs before ++ runs belongs after := by
  rw [runs, splitWhere_append_cons (by simp [hc]), List.filter_append]
  rfl

theorem runs_cons_of_not {c : Char} (hc : belongs c = false) (rest : Text) :
    runs belongs (c :: rest) = runs belongs rest :=
  runs_append_cons hc [] rest

theorem runs_of_forall {text : Text} (hne : text ≠ []) (h : ∀ c ∈ text, belongs c = true) :
    runs belongs text = [text] := by
  rw [runs, splitWhere_of_forall fun c hc => by simp [h c hc]]
  simp [hne]

theorem runs_append_of_head {before after : Text}
    (hafter : ∀ c ∈ after.head?, belongs c = false) :
    runs belongs (before ++ after) = runs belongs before ++ runs belongs after := by
  cases after with
  | nil => simp
  | cons c after =>
      have hc : belongs c = false := hafter c rfl
      rw [runs_append_cons hc, runs_cons_of_not hc]

theorem runs_append_of_getLast {before after : Text}
    (hbefore : ∀ c ∈ before.getLast?, belongs c = false) :
    runs belongs (before ++ after) = runs belongs before ++ runs belongs after := by
  rcases List.eq_nil_or_concat before with rfl | ⟨before, c, rfl⟩
  · simp
  · have hc : belongs c = false := hbefore c (by simp)
    have hlast := runs_append_cons hc before []
    rw [List.concat_eq_append, List.append_assoc, hlast, List.singleton_append,
      runs_append_cons hc]
    simp

/-- A run is nonempty and of its kind, and neither neighbour is. -/
theorem mem_runs_iff {run text : Text} :
    run ∈ runs belongs text ↔
      run ≠ [] ∧ (∀ c ∈ run, belongs c = true) ∧
        ∃ before after, text = before ++ run ++ after ∧
          (∀ c ∈ before.getLast?, belongs c = false) ∧
          ∀ c ∈ after.head?, belongs c = false := by
  constructor
  · intro h
    induction text using run_induction belongs with
    | nil => simp at h
    | other c rest hc ih =>
        rw [runs_cons_of_not hc] at h
        obtain ⟨hne, hrun, before, after, rfl, hbefore, hafter⟩ := ih h
        refine ⟨hne, hrun, c :: before, after, rfl, ?_, hafter⟩
        cases hlast : before.getLast? with
        | none => simp [List.getLast?_cons, hlast, hc]
        | some d => simpa [List.getLast?_cons, hlast] using hbefore d hlast
    | run first rest hne hfirst hrest ih =>
        rw [runs_append_of_head hrest, runs_of_forall hne hfirst, List.singleton_append] at h
        rcases List.mem_cons.1 h with rfl | h
        · exact ⟨hne, hfirst, [], rest, rfl, by simp, hrest⟩
        · obtain ⟨hne, hrun, before, after, rfl, hbefore, hafter⟩ := ih h
          refine ⟨hne, hrun, first ++ before, after, by simp, ?_, hafter⟩
          cases before with
          | nil =>
              obtain ⟨c, run, rfl⟩ := List.exists_cons_of_ne_nil hne
              exact absurd (hrest c rfl) (by simp [hrun c List.mem_cons_self])
          | cons c before =>
              rwa [List.getLast?_append_of_ne_nil _ (List.cons_ne_nil c before)]
  · rintro ⟨hne, hrun, before, after, rfl, hbefore, hafter⟩
    rw [runs_append_of_head hafter, runs_append_of_getLast hbefore, runs_of_forall hne hrun]
    simp

/-! ## Parts that cut no run -/

/-- A part of a text neither end of which lies inside a run: its runs are runs of the text. -/
structure IsWholePart (belongs : Char → Bool) (part text : Text) : Prop where
  occurs : part <:+: text
  runs_subset : runs belongs part ⊆ runs belongs text

namespace IsWholePart

theorem refl (text : Text) : IsWholePart belongs text text :=
  ⟨List.infix_rfl, fun _ h => h⟩

theorem trans {part middle text : Text} (hpart : IsWholePart belongs part middle)
    (hmiddle : IsWholePart belongs middle text) : IsWholePart belongs part text :=
  ⟨hpart.occurs.trans hmiddle.occurs, fun _ h => hmiddle.runs_subset (hpart.runs_subset h)⟩

theorem mem {part text : Text} (h : IsWholePart belongs part text) {c : Char} (hc : c ∈ part) :
    c ∈ text :=
  h.occurs.subset hc

theorem nil (text : Text) : IsWholePart belongs [] text :=
  ⟨List.nil_infix, by simp⟩

theorem left_of_head {before after : Text} (hafter : ∀ c ∈ after.head?, belongs c = false) :
    IsWholePart belongs before (before ++ after) := by
  have hruns : runs belongs (before ++ after) = runs belongs before ++ runs belongs after :=
    runs_append_of_head hafter
  refine ⟨(List.prefix_append before after).isInfix, ?_⟩
  rw [hruns]
  exact List.subset_append_left _ _

theorem right_of_head {before after : Text} (hafter : ∀ c ∈ after.head?, belongs c = false) :
    IsWholePart belongs after (before ++ after) := by
  have hruns : runs belongs (before ++ after) = runs belongs before ++ runs belongs after :=
    runs_append_of_head hafter
  refine ⟨(List.suffix_append before after).isInfix, ?_⟩
  rw [hruns]
  exact List.subset_append_right _ _

theorem left_of_cons {c : Char} (hc : belongs c = false) (before after : Text) :
    IsWholePart belongs before (before ++ c :: after) :=
  left_of_head (by simpa using hc)

theorem right_of_cons {c : Char} (hc : belongs c = false) (before after : Text) :
    IsWholePart belongs after (before ++ c :: after) := by
  have hcons : IsWholePart belongs after (c :: after) := by
    refine ⟨(List.suffix_cons c after).isInfix, ?_⟩
    rw [runs_cons_of_not hc]
    exact fun _ h => h
  exact hcons.trans (right_of_head (by simpa using hc))

/-- The runs of a finer kind lie within the runs of a coarser one. -/
theorem of_mem_runs {within : Char → Bool} (hwithin : ∀ c, belongs c = true → within c = true)
    {part text : Text} (h : part ∈ Text.runs within text) : IsWholePart belongs part text := by
  have hfiner : ∀ {c : Char}, within c = false → belongs c = false := by
    intro c hc
    cases hbelongs : belongs c with
    | false => rfl
    | true => rw [hwithin c hbelongs] at hc; cases hc
  obtain ⟨-, -, before, after, rfl, hbefore, hafter⟩ := mem_runs_iff.1 h
  refine ⟨⟨before, after, rfl⟩, ?_⟩
  rw [runs_append_of_head fun c hc => hfiner (hafter c hc),
    runs_append_of_getLast fun c hc => hfiner (hbefore c hc)]
  intro run hrun
  simp [hrun]

theorem of_mem_splitWhere {separates : Char → Bool}
    (hseparates : ∀ c, separates c = true → belongs c = false) {part text : Text}
    (h : part ∈ splitWhere separates text) : IsWholePart belongs part text := by
  by_cases hpart : part = []
  · rw [hpart]
    exact nil text
  · have hrun : part ∈ Text.runs (fun c => !separates c) text := by
      simp only [Text.runs, Bool.not_not, List.mem_filter]
      exact ⟨h, by simp [hpart]⟩
    refine of_mem_runs (fun c hc => ?_) hrun
    by_contra hnot
    have hsep : separates c = true := by simpa using hnot
    rw [hseparates c hsep] at hc
    cases hc

theorem trimStart (hblank : ∀ c, isBlank c = true → belongs c = false) (text : Text) :
    IsWholePart belongs (Text.trimStart text) text := by
  induction text with
  | nil => exact refl []
  | cons c rest ih =>
      by_cases hc : isBlank c = true
      · rw [Text.trimStart, List.dropWhile_cons_of_pos hc]
        exact ih.trans (right_of_cons (hblank c hc) [] rest)
      · rw [Text.trimStart, List.dropWhile_cons_of_neg hc]
        exact refl (c :: rest)

theorem trimEnd (hblank : ∀ c, isBlank c = true → belongs c = false) (text : Text) :
    IsWholePart belongs (Text.trimEnd text) text := by
  induction text using List.reverseRecOn with
  | nil => exact refl []
  | append_singleton text c ih =>
      by_cases hc : isBlank c = true
      · rw [Text.trimEnd, List.reverse_append, List.reverse_singleton, List.singleton_append,
          List.dropWhile_cons_of_pos hc]
        exact ih.trans (left_of_cons (hblank c hc) text [])
      · rw [Text.trimEnd, List.reverse_append, List.reverse_singleton, List.singleton_append,
          List.dropWhile_cons_of_neg hc, List.reverse_cons, List.reverse_reverse]
        exact refl (text ++ [c])

theorem trim (hblank : ∀ c, isBlank c = true → belongs c = false) (text : Text) :
    IsWholePart belongs (Text.trim text) text :=
  (trimEnd hblank _).trans (trimStart hblank text)

end IsWholePart

end Runs

end Text

end Diachrony
