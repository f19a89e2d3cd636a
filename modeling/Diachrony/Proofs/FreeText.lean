import Diachrony.Proofs.Runs

/-!
# Texts free of characters and names

A text is free of some characters and names if none of the characters occurs in it and none of
the names is one of its alphanumeric runs.  Cutting at a character that is not alphanumeric and
joining with one keep this, so it is carried from a text to its parts and back.
-/

namespace Diachrony.Text

/-- Whether none of the characters occurs in a text and none of the names as a whole run. -/
structure FreeOf (characters : List Char) (names : List Text) (text : Text) : Prop where
  characters : ∀ c ∈ text, c ∉ characters
  names : ∀ run ∈ runs isAlphanumeric text, run ∉ names

namespace FreeOf

variable {characters : List Char} {names : List Text}

theorem nil : FreeOf characters names [] :=
  ⟨by simp, by simp⟩

/-- Every text is free of nothing at all. -/
theorem of_nil (text : Text) : FreeOf [] [] text :=
  ⟨by simp, by simp⟩

theorem cons_characters_iff {c : Char} {text : Text} :
    FreeOf (c :: characters) names text ↔ c ∉ text ∧ FreeOf characters names text := by
  constructor
  · intro h
    exact ⟨fun hc => h.characters c hc List.mem_cons_self,
      fun d hd hin => h.characters d hd (List.mem_cons_of_mem c hin), h.names⟩
  · rintro ⟨hc, h⟩
    refine ⟨fun d hd hin => ?_, h.names⟩
    rcases List.mem_cons.1 hin with rfl | hin
    · exact hc hd
    · exact h.characters d hd hin

theorem of_isWholePart {part text : Text} (hpart : IsWholePart isAlphanumeric part text)
    (h : FreeOf characters names text) : FreeOf characters names part :=
  ⟨fun c hc => h.characters c (hpart.mem hc), fun run hrun => h.names run (hpart.runs_subset hrun)⟩

theorem append {before after : Text} (hafter : ∀ c ∈ after.head?, isAlphanumeric c = false)
    (hbefore : FreeOf characters names before) (h : FreeOf characters names after) :
    FreeOf characters names (before ++ after) := by
  constructor
  · intro c hc
    rcases List.mem_append.1 hc with hc | hc
    · exact hbefore.characters c hc
    · exact h.characters c hc
  · intro run hrun
    rw [runs_append_of_head hafter, List.mem_append] at hrun
    rcases hrun with hrun | hrun
    · exact hbefore.names run hrun
    · exact h.names run hrun

theorem cons {c : Char} {rest : Text} (hc : isAlphanumeric c = false) (hnot : c ∉ characters)
    (h : FreeOf characters names rest) : FreeOf characters names (c :: rest) := by
  constructor
  · intro d hd
    rcases List.mem_cons.1 hd with rfl | hd
    · exact hnot
    · exact h.characters d hd
  · rw [runs_cons_of_not hc]
    exact h.names

theorem append_cons {c : Char} {before after : Text} (hc : isAlphanumeric c = false)
    (hnot : c ∉ characters) (hbefore : FreeOf characters names before)
    (hafter : FreeOf characters names after) : FreeOf characters names (before ++ c :: after) :=
  append (by simpa using hc) hbefore (cons hc hnot hafter)

theorem intercalate {parts : List Text} (hblank : ' ' ∉ characters)
    (h : ∀ part ∈ parts, FreeOf characters names part) :
    FreeOf characters names ([' '].intercalate parts) := by
  induction parts with
  | nil => exact nil
  | cons part parts ih =>
      obtain ⟨hpart, hparts⟩ := List.forall_mem_cons.1 h
      cases parts with
      | nil => rwa [List.intercalate_singleton]
      | cons next parts =>
          rw [List.intercalate_cons_cons, List.append_assoc, List.singleton_append]
          exact append_cons (by decide) hblank hpart (ih hparts)

theorem normalizeBlanks {text : Text} (hblank : ' ' ∉ characters)
    (h : FreeOf characters names text) : FreeOf characters names (Text.normalizeBlanks text) := by
  refine intercalate hblank fun word hword => h.of_isWholePart ?_
  exact .of_mem_splitWhere (fun c => isAlphanumeric_of_isBlank) (List.mem_of_mem_filter hword)

end FreeOf

end Diachrony.Text
