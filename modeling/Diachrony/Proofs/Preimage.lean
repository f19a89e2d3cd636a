import Mathlib.Data.List.Sort
import Diachrony.Proofs.Script
import Diachrony.Reversal

/-!
# Pre-images of a rule

Reversal undoes a rule at places chosen among the occurrences of its output.  Stated without
places: the pre-images of a word under a rule with an output are the older words of the
scripts that lead to it and show every context there, and a deletion is undone at one place
or not at all.
-/

namespace Diachrony

/-! ## Choosing places -/

/-- Whether places come in order, from `least` on and at least `width` apart. -/
def Spaced (width : Nat) : Nat → List Nat → Prop
  | _, [] => True
  | least, start :: rest => least ≤ start ∧ Spaced width (start + width) rest

theorem Spaced.weaken {width least smaller : Nat} {places : List Nat}
    (h : Spaced width least places) (hle : smaller ≤ least) : Spaced width smaller places := by
  cases places with
  | nil => trivial
  | cons start rest => exact ⟨Nat.le_trans hle h.1, h.2⟩

theorem Spaced.le_of_mem {width least place : Nat} {places : List Nat}
    (h : Spaced width least places) (hmem : place ∈ places) : least ≤ place := by
  induction places generalizing least with
  | nil => simp at hmem
  | cons start rest ih =>
      rcases List.mem_cons.1 hmem with rfl | hmem
      · exact h.1
      · have hrest := ih h.2 hmem
        have hstart := h.1
        omega

theorem Spaced.pairwise_lt {width least : Nat} {places : List Nat} (hwidth : 0 < width)
    (h : Spaced width least places) : places.Pairwise (· < ·) := by
  induction places generalizing least with
  | nil => exact List.Pairwise.nil
  | cons start rest ih =>
      refine List.Pairwise.cons ?_ (ih h.2)
      intro place hmem
      have hle := h.2.le_of_mem hmem
      omega

theorem mem_spacedSublists {width least : Nat} {places chosen : List Nat} :
    chosen ∈ spacedSublists width least places ↔
      chosen.Sublist places ∧ Spaced width least chosen := by
  induction places generalizing least chosen with
  | nil =>
      simp only [spacedSublists, List.mem_singleton, List.sublist_nil]
      constructor
      · rintro rfl
        exact ⟨rfl, trivial⟩
      · exact fun h => h.1
  | cons start rest ih =>
      simp only [spacedSublists, List.mem_append]
      constructor
      · rintro (hwith | hwithout)
        · split at hwith
          · rename_i hleast
            obtain ⟨others, hothers, rfl⟩ := List.mem_map.1 hwith
            have hrest := ih.1 hothers
            exact ⟨hrest.1.cons_cons start, hleast, hrest.2⟩
          · simp at hwith
        · have hrest := ih.1 hwithout
          exact ⟨hrest.1.cons start, hrest.2⟩
      · rintro ⟨hsub, hspaced⟩
        cases hsub with
        | cons _ hsub => exact Or.inr (ih.2 ⟨hsub, hspaced⟩)
        | cons_cons _ hsub =>
            refine Or.inl ?_
            rw [if_pos hspaced.1]
            exact List.mem_map_of_mem (ih.2 ⟨hsub, hspaced.2⟩)

namespace Rule

/-! ## Occurrences of the output -/

theorem mem_occurrences {rule : Rule} {tokens : List Token} {start : Nat} :
    start ∈ rule.occurrences tokens ↔
      rule.output ≠ [] ∧ rule.output <+: tokens.drop start ∧
        rule.contextHolds tokens start (start + rule.output.length) = true := by
  have hwidth : rule.output.length = 0 ↔ rule.output = [] := List.length_eq_zero_iff
  unfold occurrences
  dsimp only
  split
  · rename_i hshort
    simp only [List.not_mem_nil, false_iff, not_and]
    intro houtput hoccurs
    have hlength := hoccurs.length_le
    rw [List.length_drop] at hlength
    have hpos := List.length_pos_iff.2 houtput
    omega
  · rename_i hlong
    simp only [List.mem_filter, List.mem_range, Bool.and_eq_true, List.isPrefixOf_iff_prefix]
    constructor
    · rintro ⟨-, hoccurs, hcontext⟩
      exact ⟨fun houtput => hlong (Or.inl (hwidth.2 houtput)), hoccurs, hcontext⟩
    · rintro ⟨houtput, hoccurs, hcontext⟩
      have hlength := hoccurs.length_le
      rw [List.length_drop] at hlength
      have hpos := List.length_pos_iff.2 houtput
      exact ⟨by omega, hoccurs, hcontext⟩

theorem pairwise_occurrences (rule : Rule) (tokens : List Token) :
    (rule.occurrences tokens).Pairwise (· < ·) := by
  unfold occurrences
  dsimp only
  split
  · exact List.Pairwise.nil
  · exact List.pairwise_lt_range.filter _

/-! ## From a script to the places it rewrites -/

/-- The places of the word after the rule where a script has put an output; the script starts
at `position`. -/
def startsFrom (rule : Rule) : Nat → Script → List Nat
  | _, [] => []
  | position, some _ :: rest => rule.startsFrom (position + 1) rest
  | position, none :: rest => position :: rule.startsFrom (position + rule.output.length) rest

theorem spaced_startsFrom (rule : Rule) (position : Nat) (script : Script) :
    Spaced rule.output.length position (rule.startsFrom position script) := by
  induction script generalizing position with
  | nil => trivial
  | cons step rest ih =>
      cases step with
      | some token => exact (ih (position + 1)).weaken (Nat.le_succ position)
      | none => exact ⟨Nat.le_refl position, ih _⟩

theorem startsFrom_some_append (rule : Rule) (position : Nat) (tokens : List Token)
    (script : Script) :
    rule.startsFrom position (tokens.map some ++ script) =
      rule.startsFrom (position + tokens.length) script := by
  induction tokens generalizing position with
  | nil => rfl
  | cons token rest ih =>
      rw [List.map_cons, List.cons_append, startsFrom, ih, List.length_cons, Nat.add_assoc,
        Nat.add_comm 1]

theorem startsFrom_map_some (rule : Rule) (position : Nat) (tokens : List Token) :
    rule.startsFrom position (tokens.map some) = [] := by
  simpa [startsFrom] using rule.startsFrom_some_append position tokens []

theorem undoFrom_cons {rule : Rule} {position : Nat} {token : Token} {tokens : List Token}
    {chosen : List Nat} (h : Spaced rule.output.length (position + 1) chosen) :
    rule.undoFrom position (token :: tokens) chosen =
      token :: rule.undoFrom (position + 1) tokens chosen := by
  cases chosen with
  | nil => rfl
  | cons start rest =>
      have hbefore : start - position = start - (position + 1) + 1 := by
        have hstart := h.1
        omega
      simp only [undoFrom, hbefore, Nat.add_right_comm, List.take_succ_cons,
        List.drop_succ_cons, List.cons_append]

theorem undoFrom_startsFrom (rule : Rule) (position : Nat) (script : Script) :
    rule.undoFrom position (rule.newer script) (rule.startsFrom position script) =
      rule.older script := by
  induction script generalizing position with
  | nil => rfl
  | cons step rest ih =>
      cases step with
      | some token =>
          simp only [newer, older, startsFrom]
          rw [undoFrom_cons (rule.spaced_startsFrom _ rest), ih]
      | none => simp [newer, older, startsFrom, undoFrom, ih]

theorem occurs_of_mem_startsFrom {rule : Rule} {before : List Token} {script : Script}
    (h : rule.isApparent before script = true) {start : Nat}
    (hmem : start ∈ rule.startsFrom before.length script) :
    rule.output <+: (before.reverse ++ rule.newer script).drop start ∧
      rule.contextHolds (before.reverse ++ rule.newer script) start
        (start + rule.output.length) = true := by
  induction script generalizing before with
  | nil => simp [startsFrom] at hmem
  | cons step rest ih =>
      cases step with
      | some token =>
          have hlength : (token :: before).length = before.length + 1 := rfl
          have hrest := ih h (hlength ▸ hmem)
          simpa [newer] using hrest
      | none =>
          simp only [isApparent, Bool.and_eq_true] at h
          rcases List.mem_cons.1 hmem with rfl | hmem
          · have htake : (before.reverse ++ rule.newer (none :: rest)).take before.length =
                before.reverse := List.take_left' (by simp)
            have hdrop : (before.reverse ++ rule.newer (none :: rest)).drop before.length =
                rule.output ++ rule.newer rest := List.drop_left' (by simp)
            refine ⟨by simp [hdrop], ?_⟩
            simp only [contextHolds, leftMatches, rightMatches, Bool.and_eq_true]
            rw [htake, ← List.drop_drop, hdrop, List.reverse_reverse, List.drop_left]
            exact h.1
          · have hlength : (rule.output.reverse ++ before).length =
                before.length + rule.output.length := by simp [Nat.add_comm]
            rw [← hlength] at hmem
            have hrest := ih h.2 hmem
            simpa [newer] using hrest

/-! ## From chosen places to a script -/

theorem exists_script_of_spaced {rule : Rule} {tokens : List Token} {chosen : List Nat}
    {position : Nat} (houtput : rule.output ≠ [])
    (hspaced : Spaced rule.output.length position chosen)
    (hoccur : ∀ start ∈ chosen, rule.output <+: tokens.drop start ∧
      rule.contextHolds tokens start (start + rule.output.length) = true) :
    ∃ script, rule.newer script = tokens.drop position ∧
      rule.startsFrom position script = chosen ∧
      rule.isApparent (tokens.take position).reverse script = true := by
  induction chosen generalizing position with
  | nil =>
      exact ⟨(tokens.drop position).map some, newer_map_some rule _,
        startsFrom_map_some rule position _, isApparent_map_some rule _ _⟩
  | cons start rest ih =>
      obtain ⟨hle, hspaced⟩ := hspaced
      obtain ⟨hoccurs, hcontext⟩ := hoccur start List.mem_cons_self
      obtain ⟨script, hnewer, hstarts, happarent⟩ := ih hspaced
        fun place hmem => hoccur place (List.mem_cons_of_mem start hmem)
      have hstart : position + (start - position) = start := by omega
      have hdrop : tokens.drop start =
          rule.output ++ tokens.drop (start + rule.output.length) := by
        rw [← List.drop_drop]
        exact (List.prefix_iff_eq_append.1 hoccurs).symm
      have hlength : ((tokens.drop position).take (start - position)).length =
          start - position := by
        have hfit := hoccurs.length_le
        have hwidth := List.length_pos_iff.2 houtput
        rw [List.length_drop] at hfit
        rw [List.length_take, List.length_drop]
        omega
      have htake : (tokens.take start).reverse =
          ((tokens.drop position).take (start - position)).reverse ++
            (tokens.take position).reverse := by
        rw [← List.reverse_append, ← List.take_add, hstart]
      have hbehind : (tokens.take (start + rule.output.length)).reverse =
          rule.output.reverse ++ (tokens.take start).reverse := by
        rw [List.take_add, hdrop, List.take_left, List.reverse_append]
      refine ⟨((tokens.drop position).take (start - position)).map some ++ none :: script,
        ?_, ?_, ?_⟩
      · rw [newer_append, newer_map_some, newer, hnewer, ← hdrop]
        nth_rewrite 2 [← hstart]
        rw [← List.drop_drop, List.take_append_drop]
      · rw [startsFrom_some_append, hlength, hstart, startsFrom, hstarts]
      · rw [isApparent_some_append, ← htake]
        simp only [contextHolds, leftMatches, rightMatches, Bool.and_eq_true] at hcontext
        simp only [isApparent, Bool.and_eq_true]
        rw [hnewer, ← hbehind]
        exact ⟨hcontext, happarent⟩

/-! ## Pre-images -/

/-- The pre-images under a rule with an output, said without places. -/
theorem mem_changePreimages {rule : Rule} (houtput : rule.output ≠ [])
    {older newer : List Token} :
    older ∈ rule.changePreimages newer ↔
      ∃ script, rule.older script = older ∧ rule.newer script = newer ∧
        rule.isApparent [] script = true := by
  simp only [changePreimages, List.mem_map, mem_spacedSublists, undoAt]
  constructor
  · rintro ⟨chosen, ⟨hsub, hspaced⟩, rfl⟩
    obtain ⟨script, hnewer, hstarts, happarent⟩ := exists_script_of_spaced houtput hspaced
      fun start hmem => (mem_occurrences.1 (hsub.subset hmem)).2
    rw [List.drop_zero] at hnewer
    have holder := rule.undoFrom_startsFrom 0 script
    rw [hnewer, hstarts] at holder
    exact ⟨script, holder.symm, hnewer, by simpa using happarent⟩
  · rintro ⟨script, rfl, rfl, happarent⟩
    have hspaced := rule.spaced_startsFrom 0 script
    have hpairwise := hspaced.pairwise_lt (List.length_pos_iff.2 houtput)
    refine ⟨rule.startsFrom 0 script, ⟨?_, hspaced⟩, rule.undoFrom_startsFrom 0 script⟩
    refine List.sublist_of_subperm_of_pairwise (List.subperm_of_subset ?_ ?_) hpairwise
      (rule.pairwise_occurrences _)
    · exact hpairwise.imp Nat.ne_of_lt
    · intro start hmem
      have hoccurs := occurs_of_mem_startsFrom happarent hmem
      exact mem_occurrences.2 ⟨houtput, by simpa using hoccurs⟩

/-- What a rule could have been applied to: under a rule with an output, the older word of a
script that shows its contexts in the newer word; under a deletion, the word as it stands if
the source stage has all that is deleted, or the word with the input at one place in its
contexts. -/
def IsPreimage (rule : Rule) (source : Segmenter) (older newer : List Token) : Prop :=
  if rule.isDeletion then
    (older = newer ∧ ∀ token ∈ rule.input, source.contains token = true) ∨
      ∃ before after, newer = before ++ after ∧ older = before ++ rule.input ++ after ∧
        rule.leftHolds before.reverse = true ∧ rule.rightHolds after = true
  else
    ∃ script, rule.older script = older ∧ rule.newer script = newer ∧
      rule.isApparent [] script = true

theorem isPreimage_iff_of_output {rule : Rule} (houtput : rule.output ≠ []) {source : Segmenter}
    {older newer : List Token} :
    rule.IsPreimage source older newer ↔
      ∃ script, rule.older script = older ∧ rule.newer script = newer ∧
        rule.isApparent [] script = true := by
  have hchange : ¬ rule.isDeletion = true := fun hdeletion => houtput (isDeletion_iff.1 hdeletion)
  rw [IsPreimage, if_neg hchange]

theorem mem_deletionPreimages {rule : Rule} {source : Segmenter} {older newer : List Token} :
    older ∈ rule.deletionPreimages source newer ↔
      (older = newer ∧ ∀ token ∈ rule.input, source.contains token = true) ∨
        ∃ before after, newer = before ++ after ∧ older = before ++ rule.input ++ after ∧
          rule.leftHolds before.reverse = true ∧ rule.rightHolds after = true := by
  have hcontext : ∀ position, position ≤ newer.length →
      rule.contextHolds (rule.insertAt newer position) position
          (position + rule.input.length) =
        (rule.leftHolds (newer.take position).reverse &&
          rule.rightHolds (newer.drop position)) := by
    intro position hle
    have hlength : (newer.take position).length = position := List.length_take_of_le hle
    have hlength' : (newer.take position ++ rule.input).length =
        position + rule.input.length := by rw [List.length_append, hlength]
    rw [contextHolds, leftMatches, rightMatches, insertAt, List.drop_left' hlength',
      List.append_assoc, List.take_left' hlength]
  simp only [deletionPreimages, List.mem_append, List.mem_filterMap, List.mem_range]
  refine or_congr ?_ ⟨?_, ?_⟩
  · by_cases hall : rule.input.all source.contains = true
    · rw [if_pos hall, List.mem_singleton]
      exact ⟨fun h => ⟨h, by simpa using hall⟩, fun h => h.1⟩
    · rw [if_neg hall]
      simp only [List.not_mem_nil, false_iff, not_and]
      exact fun _ h => hall (List.all_eq_true.2 h)
  · rintro ⟨position, hposition, hsome⟩
    rw [hcontext position (by omega)] at hsome
    split at hsome
    · rename_i hholds
      rw [Bool.and_eq_true] at hholds
      cases hsome
      exact ⟨newer.take position, newer.drop position, (List.take_append_drop _ _).symm, rfl,
        hholds⟩
    · cases hsome
  · rintro ⟨before, after, rfl, rfl, hleft, hright⟩
    have hinsert : rule.insertAt (before ++ after) before.length =
        before ++ rule.input ++ after := by simp [insertAt]
    have hposition : before.length < (before ++ after).length + 1 := by
      rw [List.length_append]
      omega
    refine ⟨before.length, hposition, ?_⟩
    rw [hcontext _ (by simp), hinsert, List.take_left, List.drop_left, hleft, hright]
    rfl

theorem mem_preimages {rule : Rule} {source : Segmenter} {older newer : List Token} :
    older ∈ rule.preimages source newer ↔ rule.IsPreimage source older newer := by
  unfold preimages IsPreimage
  split
  · exact mem_deletionPreimages
  · rename_i hchange
    exact mem_changePreimages fun houtput => hchange (isDeletion_iff.2 houtput)

end Rule

end Diachrony
