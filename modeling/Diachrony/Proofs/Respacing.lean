import Mathlib.Data.List.Forall2
import Mathlib.Data.List.TakeDrop
import Diachrony.Proofs.Nesting

/-!
# Texts that differ in their blanks only

A text is respaced by putting other runs of blanks in the place of its runs of blanks, longer or
shorter but never empty.  Whatever reads a text without looking at the kind and the number of its
blanks cuts respaced texts into respaced parts, at the same characters.
-/

namespace Diachrony.Text

structure IsBlankRun (run : Text) : Prop where
  ne_nil : run ≠ []
  blank : ∀ c ∈ run, isBlank c = true

theorem IsBlankRun.exists_cons {run : Text} (h : IsBlankRun run) :
    ∃ c rest, run = c :: rest ∧ isBlank c = true ∧ ∀ d ∈ rest, isBlank d = true := by
  obtain ⟨c, rest, rfl⟩ := List.exists_cons_of_ne_nil h.ne_nil
  obtain ⟨hc, hrest⟩ := List.forall_mem_cons.1 h.blank
  exact ⟨c, rest, rfl, hc, hrest⟩

theorem isBlankRun_singleton {c : Char} (hc : isBlank c = true) : IsBlankRun [c] :=
  ⟨List.cons_ne_nil c [], by simpa using hc⟩

theorem IsBlankRun.reverse {run : Text} (h : IsBlankRun run) : IsBlankRun run.reverse :=
  ⟨by simpa using h.ne_nil, fun c hc => h.blank c (List.mem_reverse.1 hc)⟩

theorem IsBlankRun.length_lt {run : Text} (h : IsBlankRun run) (rest : Text) :
    rest.length < (run ++ rest).length := by
  rw [List.length_append]
  exact Nat.lt_add_of_pos_left (List.length_pos_of_ne_nil h.ne_nil)

theorem ne_of_isBlank {c d : Char} (hc : isBlank c = true) (hd : isBlank d = false) : c ≠ d := by
  rintro rfl
  rw [hd] at hc
  cases hc

/-! ## Passing a run of blanks -/

section Passing

variable {run : Text}

theorem splitLoop_append_of_forall {separates : Char → Bool}
    (hrun : ∀ c ∈ run, separates c = false) (rest piece : Text) (pieces : List Text) :
    splitLoop separates (run ++ rest) piece pieces =
      splitLoop separates rest (run.reverse ++ piece) pieces := by
  induction run generalizing piece with
  | nil => rfl
  | cons c run ih =>
      obtain ⟨hc, hrun⟩ := List.forall_mem_cons.1 hrun
      simp [splitLoop, hc, ih hrun]

variable (hrun : ∀ c ∈ run, isBlank c = true)
include hrun

theorem topLevelLoop_append_of_blank {needle : Char} (hneedle : isBlank needle = false)
    (depth : Nat) (rest piece : Text) (pieces : List Text) :
    topLevelLoop needle depth (run ++ rest) piece pieces =
      topLevelLoop needle depth rest (run.reverse ++ piece) pieces := by
  induction run generalizing piece with
  | nil => rfl
  | cons c run ih =>
      obtain ⟨hc, hrun⟩ := List.forall_mem_cons.1 hrun
      obtain ⟨hopened, hclosed⟩ := isPlain_of_isBlank hc
      simp [topLevelLoop, hopened, hclosed, ne_of_isBlank hc hneedle, ih hrun]

theorem closesAll_append_of_blank (pending : List Bracket) (rest : Text) :
    closesAll pending (run ++ rest) = closesAll pending rest := by
  induction run with
  | nil => rfl
  | cons c run ih =>
      obtain ⟨hc, hrun⟩ := List.forall_mem_cons.1 hrun
      obtain ⟨hopened, hclosed⟩ := isPlain_of_isBlank hc
      simp [closesAll, hopened, hclosed, ih hrun]

theorem closingLoop_append_of_blank (passed : Text) (pending : List Bracket) (rest : Text) :
    closingLoop passed pending (run ++ rest) = closingLoop (run.reverse ++ passed) pending rest := by
  induction run generalizing passed with
  | nil => rfl
  | cons c run ih =>
      obtain ⟨hc, hrun⟩ := List.forall_mem_cons.1 hrun
      obtain ⟨hopened, hclosed⟩ := isPlain_of_isBlank hc
      simp [closingLoop, hopened, hclosed, ih hrun]

end Passing

/-! ## Respaced texts -/

/-- Whether two texts are the same but for the blanks in their runs of blanks. -/
inductive Respaced : Text → Text → Prop
  | nil : Respaced [] []
  | char (c : Char) {text other : Text} (h : Respaced text other) :
      Respaced (c :: text) (c :: other)
  | blanks {run otherRun text other : Text} (hrun : IsBlankRun run)
      (hother : IsBlankRun otherRun) (h : Respaced text other) :
      Respaced (run ++ text) (otherRun ++ other)

namespace Respaced

variable {text other : Text}

theorem refl (text : Text) : Respaced text text := by
  induction text with
  | nil => exact .nil
  | cons c rest ih => exact .char c ih

theorem symm (h : Respaced text other) : Respaced other text := by
  induction h with
  | nil => exact .nil
  | char c h ih => exact .char c ih
  | blanks hrun hother h ih => exact .blanks hother hrun ih

theorem append {rest otherRest : Text} (h : Respaced text other)
    (hrest : Respaced rest otherRest) : Respaced (text ++ rest) (other ++ otherRest) := by
  induction h with
  | nil => exact hrest
  | char c h ih => exact .char c ih
  | blanks hrun hother h ih =>
      rw [List.append_assoc, List.append_assoc]
      exact .blanks hrun hother ih

theorem reverse (h : Respaced text other) : Respaced text.reverse other.reverse := by
  induction h with
  | nil => exact .nil
  | char c h ih =>
      rw [List.reverse_cons, List.reverse_cons]
      exact ih.append (refl [c])
  | blanks hrun hother h ih =>
      rw [List.reverse_append, List.reverse_append]
      have hblanks := blanks hrun.reverse hother.reverse nil
      rw [List.append_nil, List.append_nil] at hblanks
      exact ih.append hblanks

/-- A character that is not blank stands at the start of both texts or of neither. -/
theorem exists_cons {c : Char} (hc : isBlank c = false) (h : Respaced (c :: text) other) :
    ∃ rest, other = c :: rest ∧ Respaced text rest := by
  generalize hwhole : c :: text = whole at h
  cases h with
  | nil => cases hwhole
  | char d h =>
      cases hwhole
      exact ⟨_, rfl, h⟩
  | blanks hrun hother h =>
      obtain ⟨d, rest, rfl, hd, -⟩ := hrun.exists_cons
      cases hwhole
      rw [hc] at hd
      cases hd

theorem eq_nil_iff (h : Respaced text other) : text = [] ↔ other = [] := by
  cases h with
  | nil => exact Iff.rfl
  | char c h => simp
  | blanks hrun hother h => simp [hrun.ne_nil, hother.ne_nil]

theorem isEmpty_eq (h : Respaced text other) : text.isEmpty = other.isEmpty := by
  rw [Bool.eq_iff_iff, List.isEmpty_iff, List.isEmpty_iff]
  exact h.eq_nil_iff

theorem mem_iff (h : Respaced text other) {c : Char} (hc : isBlank c = false) :
    c ∈ text ↔ c ∈ other := by
  have hnot : ∀ {run : Text}, IsBlankRun run → c ∉ run := by
    intro run hrun hin
    rw [hrun.blank c hin] at hc
    cases hc
  induction h with
  | nil => exact Iff.rfl
  | char d h ih => simp [ih]
  | blanks hrun hother h ih => simp [hnot hrun, hnot hother, ih]

theorem eq_of_not_blank (h : Respaced text other) (htext : ∀ c ∈ text, isBlank c = false) :
    text = other := by
  induction h with
  | nil => rfl
  | char c h ih => rw [ih (List.forall_mem_cons.1 htext).2]
  | blanks hrun hother h ih =>
      obtain ⟨c, rest, rfl, hc, -⟩ := hrun.exists_cons
      rw [htext c (by simp)] at hc
      cases hc

theorem all_eq (h : Respaced text other) {holds : Char → Bool} {onBlanks : Bool}
    (hholds : ∀ c, isBlank c = true → holds c = onBlanks) : text.all holds = other.all holds := by
  have hrun : ∀ {run : Text}, IsBlankRun run → run.all holds = onBlanks := by
    intro run hrun
    obtain ⟨c, rest, rfl, hc, hrest⟩ := hrun.exists_cons
    cases onBlanks with
    | false => simp [hholds c hc]
    | true => simpa [hholds c hc] using fun d hd => hholds d (hrest d hd)
  induction h with
  | nil => rfl
  | char c h ih => simp [ih]
  | blanks hrun' hother h ih => rw [List.all_append, List.all_append, hrun hrun', hrun hother, ih]

theorem isAllBlank_eq (h : Respaced text other) : isAllBlank text = isAllBlank other :=
  h.all_eq fun _ hc => hc

theorem any_eq (h : Respaced text other) {holds : Char → Bool}
    (hholds : ∀ c, isBlank c = true → holds c = false) : text.any holds = other.any holds := by
  have hnot : ∀ c, isBlank c = true → (!holds c) = true := fun c hc => by simp [hholds c hc]
  have hall := h.all_eq hnot
  rw [List.any_eq_not_all_not, List.any_eq_not_all_not, hall]

theorem find?_eq (h : Respaced text other) {holds : Char → Bool}
    (hholds : ∀ c, isBlank c = true → holds c = false) : text.find? holds = other.find? holds := by
  have hrun : ∀ {run : Text}, IsBlankRun run → run.find? holds = none := by
    intro run hrun
    rw [List.find?_eq_none]
    intro c hc
    simp [hholds c (hrun.blank c hc)]
  induction h with
  | nil => rfl
  | char c h ih => rw [List.find?_cons, List.find?_cons, ih]
  | blanks hrun' hother h ih =>
      rw [List.find?_append, List.find?_append, hrun hrun', hrun hother, ih]

theorem map {change : Char → Char}
    (hchange : ∀ c, isBlank c = true → isBlank (change c) = true) (h : Respaced text other) :
    Respaced (text.map change) (other.map change) := by
  have hmap : ∀ {run : Text}, IsBlankRun run → IsBlankRun (run.map change) := by
    intro run hrun
    refine ⟨by simpa using hrun.ne_nil, fun c hc => ?_⟩
    obtain ⟨d, hd, rfl⟩ := List.mem_map.1 hc
    exact hchange d (hrun.blank d hd)
  induction h with
  | nil => exact .nil
  | char c h ih => exact .char (change c) ih
  | blanks hrun hother h ih =>
      rw [List.map_append, List.map_append]
      exact .blanks (hmap hrun) (hmap hother) ih

/-! ## Cutting at the first character of a kind -/

section TakeWhile

variable {belongs : Char → Bool} {onBlanks : Bool}
  (hbelongs : ∀ c, isBlank c = true → belongs c = onBlanks)
include hbelongs

theorem takeWhile_dropWhile (h : Respaced text other) :
    Respaced (text.takeWhile belongs) (other.takeWhile belongs) ∧
      Respaced (text.dropWhile belongs) (other.dropWhile belongs) := by
  induction h with
  | nil => exact ⟨.nil, .nil⟩
  | char c h ih =>
      by_cases hc : belongs c = true
      · rw [List.takeWhile_cons_of_pos hc, List.takeWhile_cons_of_pos hc,
          List.dropWhile_cons_of_pos hc, List.dropWhile_cons_of_pos hc]
        exact ⟨.char c ih.1, ih.2⟩
      · rw [List.takeWhile_cons_of_neg hc, List.takeWhile_cons_of_neg hc,
          List.dropWhile_cons_of_neg hc, List.dropWhile_cons_of_neg hc]
        exact ⟨.nil, .char c h⟩
  | @blanks run otherRun text other hrun hother h ih =>
      cases onBlanks with
      | true =>
          have hall : ∀ {run : Text}, IsBlankRun run → ∀ c ∈ run, belongs c = true :=
            fun hrun c hc => hbelongs c (hrun.blank c hc)
          rw [List.takeWhile_append_of_pos (hall hrun), List.takeWhile_append_of_pos (hall hother),
            List.dropWhile_append_of_pos (hall hrun), List.dropWhile_append_of_pos (hall hother)]
          exact ⟨.blanks hrun hother ih.1, ih.2⟩
      | false =>
          have hnone : ∀ {run rest : Text}, IsBlankRun run →
              (run ++ rest).takeWhile belongs = [] ∧ (run ++ rest).dropWhile belongs = run ++ rest := by
            intro run rest hrun
            obtain ⟨c, tail, rfl, hc, -⟩ := hrun.exists_cons
            simp [hbelongs c hc]
          rw [(hnone hrun).1, (hnone hrun).2, (hnone hother).1, (hnone hother).2]
          exact ⟨.nil, .blanks hrun hother h⟩

theorem dropWhile (h : Respaced text other) :
    Respaced (text.dropWhile belongs) (other.dropWhile belongs) :=
  (h.takeWhile_dropWhile hbelongs).2

end TakeWhile

theorem takeWhile_eq (h : Respaced text other) {belongs : Char → Bool}
    (hbelongs : ∀ c, isBlank c = true → belongs c = false) :
    text.takeWhile belongs = other.takeWhile belongs := by
  refine (h.takeWhile_dropWhile hbelongs).1.eq_of_not_blank fun c hc => ?_
  by_contra hblank
  have hno := hbelongs c (by simpa using hblank)
  rw [List.mem_takeWhile_imp hc] at hno
  cases hno

theorem splitFirst? {needle : Char} (hneedle : isBlank needle = false) (h : Respaced text other) :
    Option.Rel (fun cut otherCut => Respaced cut.1 otherCut.1 ∧ Respaced cut.2 otherCut.2)
      (splitFirst? needle text) (splitFirst? needle other) := by
  have hbelongs : ∀ c, isBlank c = true → (c != needle) = true :=
    fun c hc => bne_iff_ne.2 (ne_of_isBlank hc hneedle)
  obtain ⟨hbefore, hbehind⟩ := h.takeWhile_dropWhile hbelongs
  unfold Text.splitFirst?
  rw [List.span_eq_takeWhile_dropWhile, List.span_eq_takeWhile_dropWhile]
  generalize List.dropWhile (fun c => c != needle) other = otherBehind at hbehind ⊢
  cases hdrop : List.dropWhile (fun c => c != needle) text with
  | nil =>
      rw [hdrop] at hbehind
      rw [hbehind.eq_nil_iff.1 rfl]
      exact .none
  | cons c after =>
      -- What stands behind is the needle, which is not blank, and so it stands in both texts.
      have hc : c = needle := by
        have hhead : c ∈ (List.dropWhile (fun c => c != needle) text).head? := by rw [hdrop]; rfl
        simpa using eq_false_of_mem_head?_dropWhile hhead
      rw [hdrop, hc] at hbehind
      obtain ⟨otherAfter, hother, hafter⟩ := hbehind.exists_cons hneedle
      rw [hother]
      exact .some ⟨hbefore, hafter⟩

theorem trimStart (h : Respaced text other) : Respaced (trimStart text) (trimStart other) :=
  h.dropWhile fun _ hc => hc

theorem trim (h : Respaced text other) : Respaced (trim text) (trim other) :=
  (h.trimStart.reverse.dropWhile fun _ hc => hc).reverse

/-! ## Cutting at every character of a kind -/

theorem splitLoop {separates : Char → Bool}
    (hseparates : ∀ c, isBlank c = true → separates c = false) (h : Respaced text other)
    {piece otherPiece : Text} (hpiece : Respaced piece otherPiece) :
    List.Forall₂ Respaced (Text.splitLoop separates text piece [])
      (Text.splitLoop separates other otherPiece []) := by
  induction h generalizing piece otherPiece with
  | nil => exact .cons hpiece.reverse .nil
  | char c h ih =>
      rw [Text.splitLoop, Text.splitLoop]
      split
      · rw [splitLoop_eq, splitLoop_eq _ _ _ [otherPiece.reverse]]
        exact .cons hpiece.reverse (ih .nil)
      · exact ih (.char c hpiece)
  | blanks hrun hother h ih =>
      rw [splitLoop_append_of_forall fun c hc => hseparates c (hrun.blank c hc),
        splitLoop_append_of_forall fun c hc => hseparates c (hother.blank c hc)]
      exact ih (.blanks hrun.reverse hother.reverse hpiece)

theorem splitWhere {separates : Char → Bool}
    (hseparates : ∀ c, isBlank c = true → separates c = false) (h : Respaced text other) :
    List.Forall₂ Respaced (splitWhere separates text) (splitWhere separates other) :=
  h.splitLoop hseparates .nil

theorem topLevelLoop {needle : Char} (hneedle : isBlank needle = false) (h : Respaced text other)
    (depth : Nat) {piece otherPiece : Text} (hpiece : Respaced piece otherPiece) :
    List.Forall₂ Respaced (Text.topLevelLoop needle depth text piece [])
      (Text.topLevelLoop needle depth other otherPiece []) := by
  induction h generalizing depth piece otherPiece with
  | nil => exact .cons hpiece.reverse .nil
  | char c h ih =>
      rw [Text.topLevelLoop, Text.topLevelLoop]
      split
      · exact ih _ (.char c hpiece)
      · exact ih _ (.char c hpiece)
      · split
        · rw [topLevelLoop_eq, topLevelLoop_eq _ _ _ [otherPiece.reverse]]
          exact .cons hpiece.reverse (ih _ .nil)
        · exact ih _ (.char c hpiece)
  | blanks hrun hother h ih =>
      rw [topLevelLoop_append_of_blank hrun.blank hneedle,
        topLevelLoop_append_of_blank hother.blank hneedle]
      exact ih _ (.blanks hrun.reverse hother.reverse hpiece)

theorem splitTopLevel {needle : Char} (hneedle : isBlank needle = false)
    (h : Respaced text other) :
    List.Forall₂ Respaced (splitTopLevel needle text) (splitTopLevel needle other) :=
  h.topLevelLoop hneedle 0 .nil

/-! ## Brackets -/

theorem isBalanced_eq (h : Respaced text other) : isBalanced text = isBalanced other := by
  suffices ∀ pending, closesAll pending text = closesAll pending other from this []
  induction h with
  | nil => exact fun _ => rfl
  | char c h ih =>
      intro pending
      rw [closesAll, closesAll]
      split
      · exact ih _
      · split
        · rw [ih]
        · rfl
      · exact ih pending
  | blanks hrun hother h ih =>
      intro pending
      rw [closesAll_append_of_blank hrun.blank, closesAll_append_of_blank hother.blank, ih]

theorem closingLoop (h : Respaced text other) (pending : List Bracket)
    {passed otherPassed : Text} (hpassed : Respaced passed otherPassed) :
    Option.Rel (fun cut otherCut => Respaced cut.1 otherCut.1 ∧ Respaced cut.2 otherCut.2)
      (Text.closingLoop passed pending text) (Text.closingLoop otherPassed pending other) := by
  induction h generalizing pending passed otherPassed with
  | nil => exact .none
  | char c h ih =>
      rw [Text.closingLoop, Text.closingLoop]
      split
      · exact ih _ (.char c hpassed)
      · split
        · exact .none
        · split
          · exact .none
          · split
            · exact .some ⟨hpassed.reverse, h⟩
            · exact ih _ (.char c hpassed)
      · exact ih _ (.char c hpassed)
  | blanks hrun hother h ih =>
      rw [closingLoop_append_of_blank hrun.blank, closingLoop_append_of_blank hother.blank]
      exact ih _ (.blanks hrun.reverse hother.reverse hpassed)

theorem closing? (h : Respaced text other) (kind : Bracket) :
    Text.closing? kind text = none ∧ Text.closing? kind other = none ∨
      ∃ inside after otherInside otherAfter,
        Text.closing? kind text = some (inside, after) ∧
        Text.closing? kind other = some (otherInside, otherAfter) ∧
        Respaced inside otherInside ∧ Respaced after otherAfter := by
  have hloop := h.closingLoop [kind] .nil
  unfold Text.closing?
  generalize Text.closingLoop [] [kind] text = cut at hloop ⊢
  generalize Text.closingLoop [] [kind] other = otherCut at hloop ⊢
  cases hloop with
  | none => exact .inl ⟨rfl, rfl⟩
  | some hboth => exact .inr ⟨_, _, _, _, rfl, rfl, hboth.1, hboth.2⟩

/-! ## Words -/

/-- Respaced texts have the same runs of any kind of character that blanks are not of. -/
theorem runs_eq (h : Respaced text other) {belongs : Char → Bool}
    (hbelongs : ∀ c, isBlank c = true → belongs c = false) :
    runs belongs text = runs belongs other := by
  have hpass : ∀ {run : Text}, (∀ c ∈ run, isBlank c = true) → ∀ rest,
      runs belongs (run ++ rest) = runs belongs rest := by
    intro run hrun rest
    induction run with
    | nil => rfl
    | cons c run ih =>
        obtain ⟨hc, hrun⟩ := List.forall_mem_cons.1 hrun
        rw [List.cons_append, runs_cons_of_not (hbelongs c hc), ih hrun]
  have hcut : ∀ {run : Text}, IsBlankRun run → ∀ before rest,
      runs belongs (before ++ (run ++ rest)) = runs belongs before ++ runs belongs rest := by
    intro run hrun before rest
    obtain ⟨c, blanks, rfl, hc, hblanks⟩ := hrun.exists_cons
    rw [List.cons_append, runs_append_cons (hbelongs c hc), hpass hblanks]
  suffices ∀ before, runs belongs (before ++ text) = runs belongs (before ++ other) from this []
  induction h with
  | nil => exact fun _ => rfl
  | char c h ih =>
      intro before
      simpa using ih (before ++ [c])
  | blanks hrun hother h ih =>
      intro before
      rw [hcut hrun, hcut hother]
      exact congrArg (runs belongs before ++ ·) (ih [])

end Respaced

theorem words_eq_runs (text : Text) : words text = runs (fun c => !isBlank c) text := by
  simp [words, runs]

theorem Respaced.words_eq {text other : Text} (h : Respaced text other) :
    words text = words other := by
  rw [words_eq_runs, words_eq_runs]
  exact h.runs_eq fun c hc => by simp [hc]

/-! ## Blanks at the ends -/

section Ends

variable {c : Char} (hc : isBlank c = true)
include hc

theorem trimStart_cons (text : Text) : trimStart (c :: text) = trimStart text :=
  List.dropWhile_cons_of_pos hc

theorem trim_cons (text : Text) : trim (c :: text) = trim text := by
  rw [trim, trimStart_cons hc, trim]

theorem trimEnd_concat (text : Text) : trimEnd (text ++ [c]) = trimEnd text := by
  rw [trimEnd, List.reverse_append, List.reverse_singleton, List.singleton_append,
    List.dropWhile_cons_of_pos hc, trimEnd]

theorem trimStart_concat (text : Text) :
    trimStart (text ++ [c]) = if isAllBlank text then [] else trimStart text ++ [c] := by
  induction text with
  | nil => simp [trimStart, isAllBlank, hc]
  | cons d rest ih =>
      by_cases hd : isBlank d = true
      · rw [List.cons_append, trimStart_cons hd, ih, trimStart_cons hd]
        simp [isAllBlank, hd]
      · simp [trimStart, isAllBlank, hd]

theorem trim_concat (text : Text) : trim (text ++ [c]) = trim text := by
  rw [trim, trimStart_concat hc, trim]
  split
  · rename_i hall
    rw [isAllBlank, List.all_eq_true] at hall
    rw [trimStart, List.dropWhile_eq_nil_iff.2 hall]
  · exact trimEnd_concat hc _

variable {separates : Char → Bool}

theorem map_trim_splitLoop_concat (text piece : Text) :
    (splitLoop separates text (piece ++ [c]) []).map trim =
      (splitLoop separates text piece []).map trim := by
  induction text generalizing piece with
  | nil => simp [splitLoop, trim_cons hc]
  | cons d rest ih =>
      rw [splitLoop, splitLoop]
      split
      · rw [splitLoop_eq, splitLoop_eq _ _ _ [piece.reverse]]
        simp [trim_cons hc]
      · exact ih (d :: piece)

variable (hseparates : separates c = false)
include hseparates

theorem map_trim_splitWhere_cons (text : Text) :
    (splitWhere separates (c :: text)).map trim = (splitWhere separates text).map trim := by
  rw [splitWhere, splitLoop, if_neg (by simp [hseparates])]
  exact map_trim_splitLoop_concat hc text []

theorem map_trim_splitWhere_concat (text : Text) :
    (splitWhere separates (text ++ [c])).map trim = (splitWhere separates text).map trim := by
  suffices ∀ piece, (splitLoop separates (text ++ [c]) piece []).map trim =
      (splitLoop separates text piece []).map trim from this []
  induction text with
  | nil =>
      intro piece
      simp [splitLoop, hseparates, trim_concat hc]
  | cons d rest ih =>
      intro piece
      rw [List.cons_append, splitLoop, splitLoop]
      split
      · rw [splitLoop_eq, splitLoop_eq _ _ _ [piece.reverse], List.map_append,
          List.map_append, ih]
      · exact ih (d :: piece)

end Ends

/-- Whoever does not see a blank at an end of a text sees the trimmed text. -/
theorem eq_trim_of_ends {α : Type} (see : Text → α)
    (hcons : ∀ c text, isBlank c = true → see (c :: text) = see text)
    (hconcat : ∀ c text, isBlank c = true → see (text ++ [c]) = see text) (text : Text) :
    see (trim text) = see text := by
  have hend : ∀ text, see (trimEnd text) = see text := by
    intro text
    induction text using List.reverseRecOn with
    | nil => rfl
    | append_singleton text c ih =>
        by_cases hc : isBlank c = true
        · rw [trimEnd_concat hc, ih, hconcat c text hc]
        · simp [trimEnd, hc]
  rw [trim, hend]
  induction text with
  | nil => rfl
  | cons c rest ih =>
      by_cases hc : isBlank c = true
      · rw [trimStart_cons hc, ih, hcons c rest hc]
      · simp [trimStart, hc]

theorem isAllBlank_trim (text : Text) : isAllBlank (trim text) = isAllBlank text :=
  eq_trim_of_ends isAllBlank (fun c text hc => by simp [isAllBlank, hc])
    (fun c text hc => by simp [isAllBlank, hc]) text

theorem isEmpty_trim (text : Text) : (trim text).isEmpty = isAllBlank text := by
  rw [← isAllBlank_trim]
  cases htrim : trim text with
  | nil => rfl
  | cons c rest =>
      symm
      by_contra hblank
      rw [List.isEmpty_cons, Bool.not_eq_false, ← htrim, isAllBlank_trim, isAllBlank,
        List.all_eq_true] at hblank
      rw [trim, trimStart, List.dropWhile_eq_nil_iff.2 hblank] at htrim
      cases htrim

theorem statements_trim (line : Text) : statements (trim line) = statements line := by
  have hsemicolon : ∀ {c : Char}, isBlank c = true → (c == ';') = false :=
    fun hc => beq_false_of_ne (ne_of_isBlank hc (by decide))
  refine eq_trim_of_ends statements (fun c line hc => ?_) (fun c line hc => ?_) line
  · rw [statements, map_trim_splitWhere_cons hc (hsemicolon hc), ← statements]
  · rw [statements, map_trim_splitWhere_concat hc (hsemicolon hc), ← statements]

/-! ## Normalized blanks -/

theorem words_cons_of_isBlank {c : Char} (hc : isBlank c = true) (rest : Text) :
    words (c :: rest) = words rest := by
  rw [words_eq_runs, runs_cons_of_not (by simp [hc]), ← words_eq_runs]

theorem words_append_cons {c : Char} (hc : isBlank c = true) (before after : Text) :
    words (before ++ c :: after) = words before ++ words after := by
  rw [words_eq_runs, runs_append_cons (by simp [hc]), ← words_eq_runs, ← words_eq_runs]

theorem words_of_isAllBlank {text : Text} (h : isAllBlank text = true) : words text = [] := by
  rw [isAllBlank, List.all_eq_true] at h
  induction text with
  | nil => rfl
  | cons c rest ih =>
      obtain ⟨hc, hrest⟩ := List.forall_mem_cons.1 h
      rw [words_cons_of_isBlank hc, ih hrest]

theorem trimEnd_append {before after : Text} (hafter : isAllBlank after = false) :
    trimEnd (before ++ after) = before ++ trimEnd after := by
  have hne : (after.reverse.dropWhile isBlank).isEmpty = false := by
    simpa [isAllBlank] using hafter
  rw [trimEnd, List.reverse_append, List.dropWhile_append, hne]
  simp [trimEnd]

theorem trimEnd_append_of_isAllBlank {before after : Text} (hafter : isAllBlank after = true) :
    trimEnd (before ++ after) = trimEnd before := by
  rw [isAllBlank, List.all_eq_true] at hafter
  rw [trimEnd, List.reverse_append,
    List.dropWhile_append_of_pos fun c hc => hafter c (List.mem_reverse.1 hc), trimEnd]

theorem dropWhile_of_head {belongs : Char → Bool} {text : Text}
    (h : ∀ c ∈ text.head?, belongs c = false) : text.dropWhile belongs = text := by
  cases text with
  | nil => rfl
  | cons c rest => exact List.dropWhile_cons_of_neg (by simp [h c rfl])

section Word

variable {word rest : Text} (hne : word ≠ []) (hword : ∀ c ∈ word, isBlank c = false)
include hne hword

theorem trimStart_word_append (rest : Text) : trimStart (word ++ rest) = word ++ rest := by
  refine dropWhile_of_head fun c hc => hword c (List.mem_of_mem_head? ?_)
  rwa [List.head?_append_of_ne_nil _ hne] at hc

theorem trim_word_append_of_isAllBlank (hrest : isAllBlank rest = true) :
    trim (word ++ rest) = word := by
  have hend : word.reverse.dropWhile isBlank = word.reverse :=
    dropWhile_of_head fun c hc => hword c (List.mem_reverse.1 (List.mem_of_mem_head? hc))
  rw [trim, trimStart_word_append hne hword, trimEnd_append_of_isAllBlank hrest, trimEnd, hend, List.reverse_reverse]

theorem trim_word_append (hrest : isAllBlank rest = false) :
    trim (word ++ rest) = word ++ (rest.takeWhile isBlank ++ trim rest) := by
  have hcut : rest.takeWhile isBlank ++ trimStart rest = rest := List.takeWhile_append_dropWhile
  have hbehind : isAllBlank (trimStart rest) = false := by
    rw [← hcut, isAllBlank, List.all_append, Bool.and_eq_false_iff] at hrest
    refine hrest.resolve_left fun hsome => ?_
    rw [List.all_eq_false] at hsome
    obtain ⟨c, hc, hnot⟩ := hsome
    exact hnot (List.mem_takeWhile_imp hc)
  have hend : trimEnd rest = rest.takeWhile isBlank ++ trim rest := by
    rw [← hcut, trimEnd_append hbehind, hcut, trim]
  rw [trim, trimStart_word_append hne hword, trimEnd_append hrest, hend]

theorem words_word_append (hrest : ∀ c ∈ rest.head?, isBlank c = true) :
    words (word ++ rest) = word :: words rest := by
  rw [words_eq_runs, runs_append_of_head fun c hc => by simp [hrest c hc],
    runs_of_forall hne fun c hc => by simp [hword c hc], ← words_eq_runs]
  rfl

end Word

/-- Normalizing the blanks of a text respaces it between its ends. -/
theorem respaced_normalizeBlanks (text : Text) : Respaced (trim text) (normalizeBlanks text) := by
  -- The runs are the words; whatever stands between two of them is a run of blanks.
  induction text using run_induction (fun c => !isBlank c) with
  | nil => exact .nil
  | other c rest hc ih =>
      have hblank : isBlank c = true := by simpa using hc
      rw [trim_cons hblank, normalizeBlanks, words_cons_of_isBlank hblank]
      exact ih
  | run word rest hne hword hrest ih =>
      have hletter : ∀ c ∈ word, isBlank c = false := fun c hc => by simpa using hword c hc
      have hhead : ∀ c ∈ rest.head?, isBlank c = true := fun c hc => by simpa using hrest c hc
      rw [normalizeBlanks, words_word_append hne hletter hhead]
      cases hblank : isAllBlank rest with
      | true =>
          rw [trim_word_append_of_isAllBlank hne hletter hblank, words_of_isAllBlank hblank,
            List.intercalate_singleton]
          exact .refl word
      | false =>
          have hgap : IsBlankRun (rest.takeWhile isBlank) := by
            refine ⟨?_, fun c hc => List.mem_takeWhile_imp hc⟩
            cases rest with
            | nil => cases hblank
            | cons c rest => simp [hhead c rfl]
          have hlater : words rest ≠ [] := by
            intro hnil
            rw [normalizeBlanks, hnil] at ih
            have htrim := isAllBlank_trim rest
            rw [ih.eq_nil_iff.2 rfl, hblank] at htrim
            cases htrim
          have hspaced : [' '].intercalate (word :: words rest) =
              word ++ ([' '] ++ normalizeBlanks rest) := by
            obtain ⟨next, others, hothers⟩ := List.exists_cons_of_ne_nil hlater
            rw [normalizeBlanks, hothers, List.intercalate_cons_cons, List.append_assoc]
          rw [trim_word_append hne hletter hblank, hspaced]
          exact (Respaced.refl word).append
            (.blanks hgap (isBlankRun_singleton (by decide)) ih)

theorem length_normalizeBlanks_le (text : Text) :
    (normalizeBlanks text).length ≤ text.length := by
  -- A blank at the start is to spare: it pays for the space behind the word before it.
  suffices (normalizeBlanks text).length ≤ text.length ∧
      ((∀ c ∈ text.head?, isBlank c = true) →
        (normalizeBlanks text).length + 1 ≤ text.length ∨ text = []) from this.1
  induction text using run_induction (fun c => !isBlank c) with
  | nil => simp [normalizeBlanks, words, splitWhere_nil]
  | other c rest hc ih =>
      rw [normalizeBlanks, words_cons_of_isBlank (by simpa using hc), ← normalizeBlanks,
        List.length_cons]
      exact ⟨by omega, fun _ => .inl (by omega)⟩
  | run word rest hne hword hrest ih =>
      have hletter : ∀ c ∈ word, isBlank c = false := fun c hc => by simpa using hword c hc
      have hhead : ∀ c ∈ rest.head?, isBlank c = true := fun c hc => by simpa using hrest c hc
      have hpositive : 0 < word.length := List.length_pos_of_ne_nil hne
      constructor
      · rw [normalizeBlanks, words_word_append hne hletter hhead, List.length_append]
        cases hwords : words rest with
        | nil =>
            rw [List.intercalate_singleton]
            omega
        | cons next others =>
            have hlength : (normalizeBlanks rest).length + 1 ≤ rest.length := by
              refine (ih.2 hhead).resolve_right fun hnil => ?_
              rw [hnil] at hwords
              cases hwords
            rw [normalizeBlanks, hwords] at hlength
            rw [List.intercalate_cons_cons, List.length_append, List.length_append,
              List.length_singleton]
            omega
      · intro hblank
        obtain ⟨c, part, rfl⟩ := List.exists_cons_of_ne_nil hne
        have hc := hblank c rfl
        rw [hletter c List.mem_cons_self] at hc
        cases hc

end Diachrony.Text
