import Diachrony.Proofs.FreeText
import Diachrony.RuleText.Reference
import Diachrony.RuleText.Statement

/-!
# Substitution run by run

Names are nonempty and alphanumeric, so a name that stands in a text as a whole token is one of
its alphanumeric runs.  Scanning a text therefore cuts it into its runs that are names and its
other characters, and filling in the references leaves only runs that come with a replacement.
-/

namespace Diachrony.RuleText

/-! ## Names at the start of a text -/

theorem isVariableName_iff {name : Text} :
    isVariableName name = true ↔ name ≠ [] ∧ ∀ c ∈ name, Text.isAlphanumeric c = true := by
  simp [isVariableName]

theorem standsAtStart_iff {name text : Text} (hne : name ≠ []) :
    standsAtStart text name = true ↔
      ∃ after, text = name ++ after ∧ ∀ c ∈ after.head?, Text.isAlphanumeric c = false := by
  simp only [standsAtStart, Bool.and_eq_true, Bool.not_eq_true', List.isEmpty_eq_false_iff,
    List.isPrefixOf_iff_prefix]
  constructor
  · rintro ⟨⟨-, after, rfl⟩, hafter⟩
    rw [List.drop_left] at hafter
    refine ⟨after, rfl, fun c hc => ?_⟩
    rw [Option.mem_def] at hc
    simpa [hc] using hafter
  · rintro ⟨after, rfl, hafter⟩
    refine ⟨⟨hne, after, rfl⟩, ?_⟩
    rw [List.drop_left]
    cases hhead : after.head? with
    | none => rfl
    | some c => exact hafter c hhead

/-- Only the run at the start of a text stands there as a name. -/
theorem standsAtStart_append_iff {name run rest : Text} (hname : isVariableName name = true)
    (hrun : ∀ c ∈ run, Text.isAlphanumeric c = true)
    (hrest : ∀ c ∈ rest.head?, Text.isAlphanumeric c = false) :
    standsAtStart (run ++ rest) name = true ↔ name = run := by
  obtain ⟨hne, halphanumeric⟩ := isVariableName_iff.1 hname
  rw [standsAtStart_iff hne]
  constructor
  · rintro ⟨after, htext, hafter⟩
    have hcut := congrArg (List.takeWhile Text.isAlphanumeric) htext
    rw [Text.takeWhile_append_of_head hrun hrest,
      Text.takeWhile_append_of_head halphanumeric hafter] at hcut
    exact hcut.symm
  · rintro rfl
    exact ⟨rest, rfl, hrest⟩

/-! ## Scanning -/

theorem scanLoop_skip (names : List Text) (inToken : Bool) (part rest : Text) :
    ∃ after, scanLoop names part.length inToken (part ++ rest) [] =
      scanLoop names 0 after rest [] := by
  induction part generalizing inToken with
  | nil => exact ⟨inToken, rfl⟩
  | cons c part ih => exact ih (Text.isAlphanumeric c)

theorem scanLoop_inToken (names : List Text) {part : Text}
    (hpart : ∀ c ∈ part, Text.isAlphanumeric c = true) (rest : Text) :
    scanLoop names 0 true (part ++ rest) [] =
      part.map Piece.other ++ scanLoop names 0 true rest [] := by
  induction part with
  | nil => rfl
  | cons c part ih =>
      obtain ⟨hc, hpart⟩ := List.forall_mem_cons.1 hpart
      rw [List.cons_append, scanLoop, if_pos rfl, scanLoop_eq, hc, ih hpart]
      rfl

section Scan

variable {names : List Text} (hnames : ∀ name ∈ names, isVariableName name = true)
include hnames

theorem find?_standsAtStart_append {run rest : Text}
    (hrun : ∀ c ∈ run, Text.isAlphanumeric c = true)
    (hrest : ∀ c ∈ rest.head?, Text.isAlphanumeric c = false) :
    names.find? (standsAtStart (run ++ rest)) = if run ∈ names then some run else none := by
  cases hfind : names.find? (standsAtStart (run ++ rest)) with
  | some name =>
      have hmem := List.mem_of_find?_eq_some hfind
      have hstands := List.find?_some hfind
      have hname := (standsAtStart_append_iff (hnames name hmem) hrun hrest).1 hstands
      rw [hname] at hmem
      rw [if_pos hmem, hname]
  | none =>
      have hnone := List.find?_eq_none.1 hfind
      rw [if_neg]
      intro hmem
      exact hnone run hmem ((standsAtStart_append_iff (hnames run hmem) hrun hrest).2 rfl)

/-- Outside the runs it does not matter what stood before. -/
theorem scanLoop_cons_of_not {c : Char} (hc : Text.isAlphanumeric c = false) (inToken : Bool)
    (rest : Text) :
    scanLoop names 0 inToken (c :: rest) [] = .other c :: scan names rest := by
  have hnil : [] ∉ names := fun hmem => (isVariableName_iff.1 (hnames [] hmem)).1 rfl
  have hfind : names.find? (standsAtStart (c :: rest)) = none := by
    have hempty : names.find? (standsAtStart ([] ++ c :: rest)) = _ :=
      find?_standsAtStart_append hnames (by simp) (by simpa using hc)
    rwa [if_neg hnil] at hempty
  rw [scanLoop, hfind, ite_self, scanLoop_eq, hc]
  rfl

theorem scan_cons_of_not {c : Char} (hc : Text.isAlphanumeric c = false) (rest : Text) :
    scan names (c :: rest) = .other c :: scan names rest :=
  scanLoop_cons_of_not hnames hc false rest

theorem scanLoop_of_head {rest : Text} (hrest : ∀ c ∈ rest.head?, Text.isAlphanumeric c = false)
    (inToken : Bool) : scanLoop names 0 inToken rest [] = scan names rest := by
  cases rest with
  | nil => rfl
  | cons c rest =>
      rw [scanLoop_cons_of_not hnames (hrest c rfl), scan_cons_of_not hnames (hrest c rfl)]

/-- A run is one reference if it is a name, and otherwise its characters. -/
theorem scan_append_of_run {run rest : Text} (hne : run ≠ [])
    (hrun : ∀ c ∈ run, Text.isAlphanumeric c = true)
    (hrest : ∀ c ∈ rest.head?, Text.isAlphanumeric c = false) :
    scan names (run ++ rest) =
      (if run ∈ names then [.reference run] else run.map Piece.other) ++ scan names rest := by
  have hfind := find?_standsAtStart_append hnames hrun hrest
  obtain ⟨c, part, rfl⟩ := List.exists_cons_of_ne_nil hne
  obtain ⟨hc, hpart⟩ := List.forall_mem_cons.1 hrun
  rw [List.cons_append] at hfind ⊢
  rw [scan, scanLoop, hfind, hc]
  by_cases hmem : c :: part ∈ names
  · obtain ⟨after, hskip⟩ := scanLoop_skip names true part rest
    simp only [hmem, if_true, Bool.false_eq_true, if_false, List.length_cons,
      Nat.add_sub_cancel]
    rw [scanLoop_eq, hskip, scanLoop_of_head hnames hrest]
    rfl
  · simp only [hmem, if_false, ite_self]
    rw [scanLoop_eq, scanLoop_inToken names hpart, scanLoop_of_head hnames hrest]
    rfl

theorem reference_mem_scan_iff {name text : Text} :
    .reference name ∈ scan names text ↔
      name ∈ names ∧ name ∈ Text.runs Text.isAlphanumeric text := by
  induction text using Text.run_induction Text.isAlphanumeric with
  | nil => simp [scan, scanLoop]
  | other c rest hc ih => simp [scan_cons_of_not hnames hc, Text.runs_cons_of_not hc, ih]
  | run run rest hne hrun hrest ih =>
      rw [scan_append_of_run hnames hne hrun hrest, Text.runs_append_of_head hrest,
        Text.runs_of_forall hne hrun, List.mem_append, List.mem_append, ih, List.mem_singleton]
      by_cases hmem : run ∈ names
      · simp only [hmem, if_true, List.mem_singleton, Piece.reference.injEq]
        grind
      · simp only [hmem, if_false, List.mem_map, reduceCtorEq, and_false, exists_false, false_or]
        grind

theorem mem_of_reference_mem_scan {name text : Text} (h : .reference name ∈ scan names text) :
    name ∈ names :=
  ((reference_mem_scan_iff hnames).1 h).1

/-- A text none of whose runs is a name has nothing to fill in. -/
theorem scan_of_forall_not_mem {text : Text}
    (h : ∀ run ∈ Text.runs Text.isAlphanumeric text, run ∉ names) :
    scan names text = text.map Piece.other := by
  induction text using Text.run_induction Text.isAlphanumeric with
  | nil => rfl
  | other c rest hc ih =>
      rw [Text.runs_cons_of_not hc] at h
      rw [scan_cons_of_not hnames hc, ih h, List.map_cons]
  | run run rest hne hrun hrest ih =>
      rw [Text.runs_append_of_head hrest, Text.runs_of_forall hne hrun] at h
      obtain ⟨hnot, hrest'⟩ := List.forall_mem_cons.1 h
      rw [scan_append_of_run hnames hne hrun hrest, if_neg hnot, ih hrest', List.map_append]

theorem substitute_of_forall_not_mem {text : Text}
    (h : ∀ run ∈ Text.runs Text.isAlphanumeric text, run ∉ names) (value : Text → Text) :
    substitute names value text = text := by
  rw [substitute, scan_of_forall_not_mem hnames h, List.flatMap_map]
  exact List.flatMap_singleton' text

end Scan

/-! ## Whole tokens -/

/-- Whether a name occurs in a text with no alphanumeric character beside it. -/
def OccursWhole (name text : Text) : Prop :=
  ∃ before after, text = before ++ name ++ after ∧
    (∀ c ∈ before.getLast?, Text.isAlphanumeric c = false) ∧
    ∀ c ∈ after.head?, Text.isAlphanumeric c = false

theorem occursWhole_iff_mem_runs {name text : Text} (hname : isVariableName name = true) :
    OccursWhole name text ↔ name ∈ Text.runs Text.isAlphanumeric text := by
  obtain ⟨hne, halphanumeric⟩ := isVariableName_iff.1 hname
  rw [Text.mem_runs_iff]
  exact ⟨fun h => ⟨hne, halphanumeric, h⟩, fun h => h.2.2⟩

/-! ## Filling in references -/

/-- Which texts come about by filling in the references among some pieces. -/
inductive Filled (fits : Text → Text → Prop) : List Piece → Text → Prop
  | nil : Filled fits [] []
  | other {c : Char} {pieces : List Piece} {text : Text} (hrest : Filled fits pieces text) :
      Filled fits (.other c :: pieces) (c :: text)
  | reference {name replacement : Text} {pieces : List Piece} {text : Text}
      (hfits : fits name replacement) (hrest : Filled fits pieces text) :
      Filled fits (.reference name :: pieces) (replacement ++ text)

variable {fits : Text → Text → Prop}

theorem Filled.exists_of_append {run : Text} {pieces : List Piece} {text : Text}
    (h : Filled fits (run.map Piece.other ++ pieces) text) :
    ∃ rest, text = run ++ rest ∧ Filled fits pieces rest := by
  induction run generalizing text with
  | nil => exact ⟨text, rfl, h⟩
  | cons c run ih =>
      cases h with
      | other hrest =>
          obtain ⟨rest, rfl, hfilled⟩ := ih hrest
          exact ⟨rest, rfl, hfilled⟩

theorem filled_substitute (names : List Text) (value : Text → Text) (text : Text) :
    Filled (fun name replacement => replacement = value name) (scan names text)
      (substitute names value text) := by
  unfold substitute
  induction scan names text with
  | nil => exact .nil
  | cons piece pieces ih =>
      cases piece with
      | other c => exact .other ih
      | reference name => exact .reference rfl ih

section Filled

variable {names : List Text} (hnames : ∀ name ∈ names, isVariableName name = true)
include hnames

theorem Filled.head_of_head {text rest : Text} (h : Filled fits (scan names rest) text)
    (hrest : ∀ c ∈ rest.head?, Text.isAlphanumeric c = false) :
    ∀ c ∈ text.head?, Text.isAlphanumeric c = false := by
  cases rest with
  | nil =>
      cases h
      simp
  | cons c rest =>
      rw [scan_cons_of_not hnames (hrest c rfl)] at h
      cases h
      exact hrest

/-- Filling in texts that are free of the names leaves a text that is free of them: a run of
the text is not a name, and a replacement does not grow together with what stands beside it. -/
theorem Filled.freeOf {characters : List Char} {text filled : Text}
    (h : Filled fits (scan names text) filled)
    (hfits : ∀ name ∈ names, ∀ replacement, fits name replacement →
      Text.FreeOf characters names replacement)
    (htext : ∀ c ∈ text, c ∉ characters) : Text.FreeOf characters names filled := by
  induction text using Text.run_induction Text.isAlphanumeric generalizing filled with
  | nil =>
      cases h
      exact .nil
  | other c rest hc ih =>
      obtain ⟨hnot, hrest⟩ := List.forall_mem_cons.1 htext
      rw [scan_cons_of_not hnames hc] at h
      cases h with
      | other hfilled => exact .cons hc hnot (ih hfilled hrest)
  | run run rest hne hrun hrest ih =>
      have hchars : ∀ c ∈ rest, c ∉ characters :=
        fun c hc => htext c (List.mem_append_right run hc)
      rw [scan_append_of_run hnames hne hrun hrest] at h
      by_cases hmem : run ∈ names
      · rw [if_pos hmem, List.singleton_append] at h
        cases h with
        | reference hreplacement hfilled =>
            -- The text behind starts outside the runs, so the replacement keeps its own runs.
            exact .append (hfilled.head_of_head hnames hrest) (hfits run hmem _ hreplacement)
              (ih hfilled hchars)
      · rw [if_neg hmem] at h
        obtain ⟨after, rfl, hfilled⟩ := h.exists_of_append
        have hfree : Text.FreeOf characters names run := by
          refine ⟨fun c hc => htext c (List.mem_append_left rest hc), ?_⟩
          rw [Text.runs_of_forall hne hrun]
          simpa using hmem
        exact .append (hfilled.head_of_head hnames hrest) hfree (ih hfilled hchars)

end Filled

end Diachrony.RuleText
