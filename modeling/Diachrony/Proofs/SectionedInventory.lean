import Mathlib
import Diachrony.Inventory.Reader
import Diachrony.Proofs.RespacedStatements
import Diachrony.Proofs.RespacedVariables
import Diachrony.Proofs.Stages

/-!
# Inventories with and without headers

Without headers, a bare line is a list of phonemes until the first definition and a pattern from
then on; with headers, the section says what it is.  Where the headers stand at the same place the
two readers keep in step: what they have read is the same at every line, and whenever a bare line
comes they take it for the same thing.
-/

namespace Diachrony

open RuleText

/-! ## Parts -/

/-- What a part says, whatever line it stands on. -/
def InventoryPart.content : InventoryPart → InventorySection ⊕ Text
  | .header opened => .inl opened
  | .piece _ _ text => .inr text

def partsFrom (number : Nat) (lines : List Text) : List InventoryPart :=
  (lines.zipIdx number).flatMap fun (line, number) => InventoryPart.ofLine (number, line)

theorem inventoryParts_eq (text : Text) : inventoryParts text = partsFrom 1 (Text.lines text) := by
  rw [inventoryParts, Text.numberedLines, List.flatMap_map]
  rfl

theorem partsFrom_cons (number : Nat) (line : Text) (lines : List Text) :
    partsFrom number (line :: lines) =
      InventoryPart.ofLine (number, line) ++ partsFrom (number + 1) lines := by
  simp [partsFrom, List.zipIdx_cons]

theorem partsFrom_append (number : Nat) (lines others : List Text) :
    partsFrom number (lines ++ others) =
      partsFrom number lines ++ partsFrom (number + lines.length) others := by
  simp [partsFrom, List.zipIdx_append]

theorem map_content_ofLine (number other : Nat) (line : Text) :
    (InventoryPart.ofLine (number, line)).map InventoryPart.content =
      (InventoryPart.ofLine (other, line)).map InventoryPart.content := by
  unfold InventoryPart.ofLine
  dsimp only
  split
  · rfl
  · split
    · rfl
    · rw [List.map_map, List.map_map]
      rfl

theorem map_content_partsFrom (number other : Nat) (lines : List Text) :
    (partsFrom number lines).map InventoryPart.content =
      (partsFrom other lines).map InventoryPart.content := by
  induction lines generalizing number other with
  | nil => rfl
  | cons line lines ih =>
      rw [partsFrom_cons, partsFrom_cons, List.map_append, List.map_append,
        map_content_ofLine number other, ih (number + 1) (other + 1)]

/-- Lines without headers say their pieces. -/
theorem map_content_partsFrom_of_no_header {lines : List Text}
    (h : ∀ line ∈ lines, InventorySection.ofHeader? (Text.trim line) = none) (number : Nat) :
    (partsFrom number lines).map InventoryPart.content =
      (lines.flatMap statedPieces).map Sum.inr := by
  induction lines generalizing number with
  | nil => rfl
  | cons line lines ih =>
      obtain ⟨hline, hlines⟩ := List.forall_mem_cons.1 h
      rw [partsFrom_cons, List.map_append, ih hlines, List.flatMap_cons, List.map_append]
      congr 1
      unfold InventoryPart.ofLine statedPieces
      dsimp only
      rw [Text.isEmpty_trim, hline, Text.statements_trim]
      split
      · rfl
      · rw [List.map_map]
        rfl

/-! ## One part -/

/-- The reading that keeps what it read up to an error is the plain one, with the reading lost. -/
theorem foldlM_add_eq [Limits] (draft : InventoryDraft) (parts : List InventoryPart) :
    parts.foldlM InventoryDraft.add draft =
      (draft.addAll parts).2.elim (.ok (draft.addAll parts).1) .error := by
  induction parts generalizing draft with
  | nil => rfl
  | cons part parts ih =>
      rw [List.foldlM_cons, InventoryDraft.addAll]
      cases draft.add part with
      | error failure => rfl
      | ok next => exact ih next

theorem readInventory_eq [Limits] (text : Text) :
    readInventory text =
      (inventoryParts text).foldlM InventoryDraft.add .empty >>= InventoryDraft.finish := by
  rw [foldlM_add_eq, readInventory, InventoryDraft.ofText]
  rcases InventoryDraft.empty.addAll (inventoryParts text) with ⟨draft, _ | failure⟩
  · rfl
  · rfl

namespace InventoryDraft

variable {draft next : InventoryDraft}

theorem add_header [Limits] (draft : InventoryDraft) (opened : InventorySection) :
    draft.add (.header opened) = .ok { draft with current := opened } :=
  rfl

theorem define_eq_ok [Limits] {definition : Definition} (h : draft.define definition = .ok next) :
    ∃ table redefinitions, next = { draft with table, redefinitions } ∧
      table.definitions ≠ [] := by
  unfold define at h
  cases htable : draft.table.define definition true with
  | error failure =>
      rw [htable] at h
      cases h
  | ok table =>
      rw [htable] at h
      cases h
      refine ⟨table, _, rfl, fun hnil => ?_⟩
      have hname := (VariableTable.mem_names_define htable).2 (.inr rfl)
      simp [VariableTable.names, hnil] at hname

/-- What taking in one piece does: it enters a definition, lists phonemes or notes a pattern. -/
theorem add_piece_cases [Limits] {line : Nat} {source text : Text}
    (h : draft.add (.piece line source text) = .ok next) :
    (isDefinition text = true ∧ ∃ table redefinitions,
        next = { draft with table, redefinitions } ∧ table.definitions ≠ []) ∨
      (isDefinition text = false ∧ draft.takesLists = true ∧
        ∃ listed, next = { draft with listed }) ∨
      (isDefinition text = false ∧ draft.takesLists = false ∧
        next = { draft with patternLines := ⟨line, text⟩ :: draft.patternLines }) := by
  unfold add at h
  dsimp only at h
  split at h
  · rename_i hdefinition
    split at h
    · cases h
    · exact .inl ⟨hdefinition, define_eq_ok h⟩
  · rename_i hdefinition
    rw [Bool.not_eq_true] at hdefinition
    split at h
    · rename_i htakes
      split at h
      · cases h
      · cases h
        exact .inr (.inl ⟨hdefinition, htakes, _, rfl⟩)
    · rename_i htakes
      rw [Bool.not_eq_true] at htakes
      cases h
      exact .inr (.inr ⟨hdefinition, htakes, rfl⟩)

section AddPiece

variable [Limits] {line : Nat} {source text : Text}
  (h : draft.add (.piece line source text) = .ok next)
include h

theorem current_of_add_piece : next.current = draft.current := by
  rcases add_piece_cases h with ⟨-, _, _, rfl, -⟩ | ⟨-, -, _, rfl⟩ | ⟨-, -, rfl⟩
  · rfl
  · rfl
  · rfl

theorem defined_of_add_piece (hdefined : draft.table.definitions ≠ []) :
    next.table.definitions ≠ [] := by
  rcases add_piece_cases h with ⟨-, table, _, rfl, htable⟩ | ⟨-, -, _, rfl⟩ | ⟨-, -, rfl⟩
  · exact htable
  · exact hdefined
  · exact hdefined

theorem defined_of_add_definition (htext : isDefinition text = true) :
    next.table.definitions ≠ [] := by
  rcases add_piece_cases h with ⟨-, table, _, rfl, htable⟩ | ⟨hno, -⟩ | ⟨hno, -⟩
  · exact htable
  · rw [htext] at hno
    cases hno
  · rw [htext] at hno
    cases hno

theorem same_of_add_list (htext : isDefinition text = false) (htakes : draft.takesLists = true) :
    next.table = draft.table ∧ next.patternLines = draft.patternLines := by
  rcases add_piece_cases h with ⟨hno, -⟩ | ⟨-, -, _, rfl⟩ | ⟨-, hno, -⟩
  · rw [htext] at hno
    cases hno
  · exact ⟨rfl, rfl⟩
  · rw [htakes] at hno
    cases hno

end AddPiece

/-- Whether two drafts have the same definitions, lists and patterns, whatever lines they were
read from. -/
structure SameContent (draft other : InventoryDraft) : Prop where
  table : draft.table.Corresponds Eq other.table
  listed : draft.listed = other.listed
  patterns : draft.patternLines.map PatternLine.text = other.patternLines.map PatternLine.text

variable {other : InventoryDraft}

theorem agree_define [Limits] (h : draft.SameContent other)
    {definition otherDefinition : Definition} (hname : definition.name = otherDefinition.name)
    (hvalue : definition.value = otherDefinition.value) :
    Agree SameContent (draft.define definition) (other.define otherDefinition) := by
  have htable := h.table.agree_define hname hvalue true
  unfold define
  generalize draft.table.define definition true = table at htable ⊢
  generalize other.table.define otherDefinition true = otherTable at htable ⊢
  cases htable with
  | error failure otherFailure => exact .error _ _
  | ok htable => exact .ok ⟨htable, h.listed, h.patterns⟩

/-- Drafts of the same content take a piece in alike if they take bare pieces for the same. -/
theorem agree_add_piece [Limits] (h : draft.SameContent other) (line otherLine : Nat)
    (source otherSource : Text) {text : Text}
    (htakes : isDefinition text = false → draft.takesLists = other.takesLists) :
    Agree SameContent (draft.add (.piece line source text))
      (other.add (.piece otherLine otherSource text)) := by
  unfold add
  dsimp only
  split
  · cases parseDefinition text with
    | error cause => exact .error _ _
    | ok read => exact agree_define h rfl rfl
  · rename_i hdefinition
    rw [← htakes (Bool.not_eq_true _ ▸ hdefinition)]
    split
    · split
      · exact .error _ _
      · exact .ok ⟨h.table, by rw [h.listed], h.patterns⟩
    · exact .ok ⟨h.table, h.listed, by rw [List.map_cons, List.map_cons, h.patterns]⟩

end InventoryDraft

/-! ## Two readers in step -/

section Steps

open InventoryDraft

variable {plain sectioned : InventoryDraft}

/-- While lists are read: nothing is defined yet, so the reader without headers takes bare pieces
for lists, as the section says to the other one. -/
structure Listing (plain sectioned : InventoryDraft) : Prop where
  content : plain.SameContent sectioned
  current : plain.current = .unsectioned
  opened : sectioned.current = .phonemes
  undefined : plain.table.definitions = []
  patternless : plain.patternLines = []

/-- While definitions are read, behind the first one. -/
structure Declaring (plain sectioned : InventoryDraft) : Prop where
  content : plain.SameContent sectioned
  current : plain.current = .unsectioned
  opened : sectioned.current = .phonemes
  defined : plain.table.definitions ≠ []

/-- Behind the second header: until a header comes, the reader without headers takes bare pieces
for patterns because something is defined. -/
structure Following (plain sectioned : InventoryDraft) : Prop where
  content : plain.SameContent sectioned
  current : plain.current = sectioned.current ∨
    plain.current = .unsectioned ∧ sectioned.current = .phonotactics ∧
      plain.table.definitions ≠ []

theorem Listing.agree_add [Limits] (h : Listing plain sectioned) (line otherLine : Nat)
    (source otherSource : Text) {text : Text} (htext : isDefinition text = false) :
    Agree Listing (plain.add (.piece line source text))
      (sectioned.add (.piece otherLine otherSource text)) := by
  have htakes : plain.takesLists = true := by
    simp [takesLists, h.current, h.undefined, h.patternless]
  have hsectioned : sectioned.takesLists = true := by simp [takesLists, h.opened]
  refine (agree_add_piece h.content line otherLine source otherSource fun _ =>
    htakes.trans hsectioned.symm).keep.mono fun next otherNext hnext => ?_
  obtain ⟨hplain, hother, hcontent⟩ := hnext
  obtain ⟨htable, hpatterns⟩ := same_of_add_list hplain htext htakes
  exact
    { content := hcontent
      current := (current_of_add_piece hplain).trans h.current
      opened := (current_of_add_piece hother).trans h.opened
      undefined := htable ▸ h.undefined
      patternless := hpatterns.trans h.patternless }

theorem agree_add_definition [Limits] (hcontent : plain.SameContent sectioned)
    (hcurrent : plain.current = .unsectioned) (hopened : sectioned.current = .phonemes)
    (line otherLine : Nat) (source otherSource : Text) {text : Text}
    (htext : isDefinition text = true) :
    Agree Declaring (plain.add (.piece line source text))
      (sectioned.add (.piece otherLine otherSource text)) := by
  have hbare : isDefinition text = false → plain.takesLists = sectioned.takesLists := by
    intro hno
    rw [htext] at hno
    cases hno
  refine (agree_add_piece hcontent line otherLine source otherSource hbare).keep.mono
    fun next otherNext hnext => ?_
  obtain ⟨hplain, hother, hcontent⟩ := hnext
  exact
    { content := hcontent
      current := (current_of_add_piece hplain).trans hcurrent
      opened := (current_of_add_piece hother).trans hopened
      defined := defined_of_add_definition hplain htext }

theorem Following.takesLists_eq (h : Following plain sectioned) :
    plain.takesLists = sectioned.takesLists := by
  have hdefinitions : plain.table.definitions.isEmpty = sectioned.table.definitions.isEmpty := by
    rw [Bool.eq_iff_iff, List.isEmpty_iff_length_eq_zero, List.isEmpty_iff_length_eq_zero]
    exact iff_of_eq (congrArg (· = 0) h.content.table.size_eq)
  have hpatterns : plain.patternLines.isEmpty = sectioned.patternLines.isEmpty := by
    rw [← List.isEmpty_map, h.content.patterns, List.isEmpty_map]
  rcases h.current with hcurrent | ⟨hplain, hsectioned, hdefined⟩
  · rw [takesLists, takesLists, hcurrent, hdefinitions, hpatterns]
  · simp [takesLists, hplain, hsectioned, hdefined]

theorem Following.agree_add [Limits] (h : Following plain sectioned)
    {part otherPart : InventoryPart} (hpart : part.content = otherPart.content) :
    Agree Following (plain.add part) (sectioned.add otherPart) := by
  cases part with
  | header opened =>
      cases otherPart with
      | header otherOpened =>
          cases hpart
          exact .ok ⟨⟨h.content.table, h.content.listed, h.content.patterns⟩, .inl rfl⟩
      | piece line source text => cases hpart
  | piece line source text =>
      cases otherPart with
      | header opened => cases hpart
      | piece otherLine otherSource otherText =>
          cases hpart
          refine (agree_add_piece h.content line otherLine source otherSource fun _ =>
            h.takesLists_eq).keep.mono fun next otherNext hnext => ?_
          obtain ⟨hplain, hother, hcontent⟩ := hnext
          refine ⟨hcontent, ?_⟩
          rw [current_of_add_piece hplain, current_of_add_piece hother]
          exact h.current.imp_right fun hopened =>
            ⟨hopened.1, hopened.2.1, defined_of_add_piece hplain hopened.2.2⟩

/-- The second header ends the section of the definitions for one reader, and the first
definition has ended the lists for the other. -/
theorem Declaring.agree_header (h : Declaring plain sectioned) :
    Following plain { sectioned with current := .phonotactics } :=
  ⟨⟨h.content.table, h.content.listed, h.content.patterns⟩, .inr ⟨h.current, rfl, h.defined⟩⟩

end Steps

/-! ## Blocks of lines -/

inductive SamePiece (holds : Text → Prop) : InventoryPart → InventoryPart → Prop
  | piece (line otherLine : Nat) (source otherSource : Text) {text : Text} (h : holds text) :
      SamePiece holds (.piece line source text) (.piece otherLine otherSource text)

theorem samePiece_of_content {holds : Text → Prop} {part other : InventoryPart} {text : Text}
    (hpart : part.content = .inr text) (hother : other.content = .inr text) (h : holds text) :
    SamePiece holds part other := by
  cases part with
  | header opened => cases hpart
  | piece line source text =>
      cases other with
      | header opened => cases hother
      | piece otherLine otherSource otherText =>
          cases hpart
          cases hother
          exact .piece line otherLine source otherSource h

theorem samePiece_of_map_content {holds : Text → Prop} {parts others : List InventoryPart}
    {texts : List Text} (hparts : parts.map InventoryPart.content = texts.map Sum.inr)
    (hothers : others.map InventoryPart.content = texts.map Sum.inr)
    (htexts : ∀ text ∈ texts, holds text) :
    List.Forall₂ (SamePiece holds) parts others := by
  induction texts generalizing parts others with
  | nil =>
      rw [List.map_nil, List.map_eq_nil_iff] at hparts hothers
      rw [hparts, hothers]
      exact .nil
  | cons text texts ih =>
      obtain ⟨part, parts, rfl, hpart, hparts⟩ := List.map_eq_cons_iff.1 hparts
      obtain ⟨other, others, rfl, hother, hothers⟩ := List.map_eq_cons_iff.1 hothers
      obtain ⟨htext, htexts⟩ := List.forall_mem_cons.1 htexts
      exact .cons (samePiece_of_content hpart hother htext) (ih hparts hothers htexts)

section Blocks

open InventoryDraft

variable {declared : List Text} {bare classes : List Text}
  (hheader : ∀ line ∈ declared, InventorySection.ofHeader? (Text.trim line) = none)
  (hpieces : declared.flatMap statedPieces = bare ++ classes)
include hheader hpieces

/-- The parts of lists with definitions behind them fall into the ones and the others. -/
theorem exists_partsFrom_eq_append (number : Nat) :
    ∃ lists definitions, partsFrom number declared = lists ++ definitions ∧
      lists.map InventoryPart.content = bare.map Sum.inr ∧
      definitions.map InventoryPart.content = classes.map Sum.inr := by
  have hcontent := map_content_partsFrom_of_no_header hheader number
  rw [hpieces, List.map_append] at hcontent
  exact List.map_eq_append_iff.1 hcontent

theorem agree_declared [Limits] (hbare : ∀ piece ∈ bare, isDefinition piece = false)
    (hclasses : ∀ piece ∈ classes, isDefinition piece = true) (hne : classes ≠ [])
    {plain sectioned : InventoryDraft} (h : Listing plain sectioned) (number other : Nat) :
    Agree Declaring ((partsFrom number declared).foldlM InventoryDraft.add plain)
      ((partsFrom other declared).foldlM InventoryDraft.add sectioned) := by
  obtain ⟨lists, definitions, hparts, hlists, hdefinitions⟩ :=
    exists_partsFrom_eq_append hheader hpieces number
  obtain ⟨otherLists, otherDefinitions, hotherParts, hotherLists, hotherDefinitions⟩ :=
    exists_partsFrom_eq_append hheader hpieces other
  rw [hparts, hotherParts, List.foldlM_append, List.foldlM_append]
  refine (Agree.foldlM (samePiece_of_map_content hlists hotherLists hbare) h ?_).bind ?_
  · rintro _ _ ⟨line, otherLine, source, otherSource, htext⟩ plain sectioned h
    exact h.agree_add line otherLine source otherSource htext
  · intro plain sectioned h
    have hsame := samePiece_of_map_content hdefinitions hotherDefinitions hclasses
    cases hsame with
    | nil => exact absurd (List.map_eq_nil_iff.1 hdefinitions.symm) hne
    | cons hfirst hrest =>
        obtain ⟨line, otherLine, source, otherSource, htext⟩ := hfirst
        rw [List.foldlM_cons, List.foldlM_cons]
        refine (agree_add_definition h.content h.current h.opened line otherLine source otherSource
          htext).bind fun plain sectioned h => Agree.foldlM hrest h ?_
        rintro _ _ ⟨line, otherLine, source, otherSource, htext⟩ plain sectioned h
        exact agree_add_definition h.content h.current h.opened line otherLine source otherSource
          htext

end Blocks

theorem agree_following [Limits] {plain sectioned : InventoryDraft} (h : Following plain sectioned)
    (lines : List Text) (number other : Nat) :
    Agree Following ((partsFrom number lines).foldlM InventoryDraft.add plain)
      ((partsFrom other lines).foldlM InventoryDraft.add sectioned) := by
  have hsame : List.Forall₂ (fun part otherPart => part.content = otherPart.content)
      (partsFrom number lines) (partsFrom other lines) := by
    have hcontent := map_content_partsFrom number other lines
    rw [← List.forall₂_eq_eq_eq] at hcontent
    exact List.forall₂_map_left_iff.1 (List.forall₂_map_right_iff.1 hcontent)
  exact .foldlM hsame h fun part otherPart hpart plain sectioned h => h.agree_add hpart

/-! ## Pattern lines -/

namespace RuleText.Fragment

variable {ε δ α β : Type} {f : α → Except ε (List β)} {g : α → Except δ (List β)}

mutual

theorem agree_splice (h : ∀ content, Agree Eq (f content) (g content)) (fragment : Fragment α) :
    Agree Eq (splice f fragment) (splice g fragment) := by
  cases fragment with
  | fixed content =>
      rw [splice, splice]
      exact (h content).map fun _ _ hsame => congrArg (List.map fixed) hsame
  | group inner =>
      rw [splice, splice]
      exact (agree_spliceAll h inner).map fun _ _ hsame =>
        congrArg (fun inner => [group inner]) hsame

theorem agree_spliceAll (h : ∀ content, Agree Eq (f content) (g content))
    (fragments : List (Fragment α)) :
    Agree Eq (spliceAll f fragments) (spliceAll g fragments) := by
  cases fragments with
  | nil =>
      rw [spliceAll, spliceAll]
      exact .ok rfl
  | cons fragment rest =>
      rw [spliceAll, spliceAll]
      refine (agree_splice h fragment).bind fun first _ hfirst => ?_
      refine (agree_spliceAll h rest).bind fun others _ hothers => .ok ?_
      rw [hfirst, hothers]

end

end RuleText.Fragment

section PatternLines

variable (line other : Nat) (symbols : SymbolTable)

theorem agree_inlineClass (inside : Text) :
    Agree Eq (inlineClass line symbols inside) (inlineClass other symbols inside) := by
  refine ((Agree.refl (flattenClass inside)).mapError _ _).bind fun members _ hmembers => ?_
  subst hmembers
  refine (Agree.mapM_same (fun member => ?_) members).bind fun tokens _ htokens => .ok ?_
  · cases member with
    | none => exact .error _ _
    | some token =>
        dsimp only
        split
        · exact .ok rfl
        · exact .error _ _
  · rw [htokens]

theorem slotLoop_open_of_none {rest : Text} (hclose : Text.closing? .square rest = none)
    (slots : List TokenSet) :
    slotLoop line symbols slots ('[' :: rest) =
      .error (.malformedPattern line "unclosed class") := by
  unfold slotLoop
  dsimp only
  rw [if_neg (by decide), if_pos rfl]
  split
  · rfl
  · rename_i hsome
    rw [hclose] at hsome
    cases hsome

theorem slotLoop_open_of_some {rest inside after : Text}
    (hclose : Text.closing? .square rest = some (inside, after)) (slots : List TokenSet) :
    slotLoop line symbols slots ('[' :: rest) =
      inlineClass line symbols inside >>= fun slot =>
        slotLoop line symbols (slot :: slots) after := by
  conv_lhs => unfold slotLoop
  dsimp only
  rw [if_neg (by decide), if_pos rfl]
  split
  · rename_i hnone
    rw [hclose] at hnone
    cases hnone
  · rename_i found behind hsome
    rw [hclose] at hsome
    cases hsome
    cases inlineClass line symbols inside with
    | error failure => rfl
    | ok slot => rfl

theorem agree_namedSlot (entry : SymbolEntry) :
    Agree Eq (namedSlot line entry) (namedSlot other entry) := by
  unfold namedSlot
  split
  · exact .ok rfl
  · split
    · exact .error _ _
    · exact .ok rfl

theorem agree_slotLoop (slots : List TokenSet) (text : Text) :
    Agree Eq (slotLoop line symbols slots text) (slotLoop other symbols slots text) := by
  induction hlength : text.length using Nat.strongRecOn generalizing text slots with
  | ind length ih =>
      subst hlength
      cases text with
      | nil =>
          unfold slotLoop
          exact .ok rfl
      | cons c rest =>
          by_cases hopen : c = '['
          · subst hopen
            cases hclose : Text.closing? .square rest with
            | none =>
                rw [slotLoop_open_of_none line symbols hclose,
                  slotLoop_open_of_none other symbols hclose]
                exact .error _ _
            | some cut =>
                obtain ⟨inside, after⟩ := cut
                have hshort := Text.closing?_length hclose
                rw [slotLoop_open_of_some line symbols hclose,
                  slotLoop_open_of_some other symbols hclose]
                refine (agree_inlineClass line other symbols inside).bind fun slot _ hslot => ?_
                subst hslot
                exact ih _ (by rw [List.length_cons]; omega) _ after rfl
          · unfold slotLoop
            dsimp only
            rw [if_neg hopen, if_neg hopen]
            split
            · exact ih _ (Nat.lt_succ_self _) slots rest rfl
            · split
              · exact .error _ _
              · cases symbols.longestAt? (c :: rest) with
                | none => exact .error _ _
                | some entry =>
                    have hslot := agree_namedSlot line other entry
                    dsimp only
                    generalize namedSlot line entry = slot at hslot ⊢
                    generalize namedSlot other entry = otherSlot at hslot ⊢
                    cases hslot with
                    | error failure otherFailure => exact .error _ _
                    | ok hslot =>
                        subst hslot
                        refine ih _ ?_ _ _ rfl
                        rw [List.length_drop, List.length_cons]
                        omega

theorem agree_readPatternLine [Limits] (text : Text) :
    Agree Eq (readPatternLine symbols line text) (readPatternLine symbols other text) := by
  refine ((Agree.refl (parseFragments text)).mapError _ _).bind fun fragments _ hfragments => ?_
  subst hfragments
  refine (Fragment.agree_spliceAll (agree_slotLoop line other symbols []) fragments).bind
    fun slotted _ hslotted => ?_
  subst hslotted
  dsimp only
  split
  · exact .error _ _
  · exact .ok rfl

end PatternLines

/-! ## Finishing -/

theorem agree_patterns [Limits] {draft other : InventoryDraft} (h : draft.SameContent other)
    (symbols : SymbolTable) : Agree Eq (draft.patterns symbols) (other.patterns symbols) := by
  have hlines : List.Forall₂ (fun pending otherPending =>
      PatternLine.text pending = PatternLine.text otherPending)
        draft.patternLines.reverse other.patternLines.reverse := by
    have hpatterns := h.patterns
    rw [← List.forall₂_eq_eq_eq] at hpatterns
    exact List.rel_reverse (List.forall₂_map_left_iff.1 (List.forall₂_map_right_iff.1 hpatterns))
  have hstart : (Collector.empty : Collector Pattern) = Collector.empty := rfl
  refine (Agree.foldlM hlines hstart ?_).bind fun collected _ hcollected =>
    .ok (hcollected ▸ rfl)
  intro pending otherPending htext collector _ hsame
  subst hsame
  rw [htext]
  refine (agree_readPatternLine _ _ symbols _).bind fun patterns _ hpatterns => ?_
  subst hpatterns
  exact .refl _

theorem classes_eq_of_respaced {draft other : InventoryDraft} (h : draft.SameContent other)
    {resolved otherResolved : ResolvedVariables} (hresolved : resolved.Respaced otherResolved) :
    draft.classes resolved = other.classes otherResolved := by
  have hmembers : ∀ name, literalTokens ((resolved.find? name).getD []) =
      literalTokens ((otherResolved.find? name).getD []) := by
    intro name
    have hlookup := hresolved.values.lookup name
    unfold ResolvedVariables.find?
    generalize resolved.values.lookup name = value at hlookup ⊢
    generalize otherResolved.values.lookup name = otherValue at hlookup ⊢
    cases hlookup with
    | none => rfl
    | some hvalue => exact literalTokens_eq_of_respaced hvalue
  simp only [InventoryDraft.classes, h.table.names_eq, hmembers]

theorem agree_finish [Limits] {draft other : InventoryDraft} (h : draft.SameContent other) :
    Agree Eq draft.finish other.finish := by
  have htable : draft.table.Respaced other.table :=
    h.table.mono fun value _ hsame => hsame ▸ RespacedPieces.refl _
  refine ((agree_resolveAll htable).mapError _ _).bind fun resolved otherResolved hresolved => ?_
  dsimp only
  rw [classes_eq_of_respaced h hresolved, h.listed]
  split
  · exact .error _ _
  · exact (agree_patterns h _).bind fun patterns _ hpatterns => .ok (hpatterns ▸ rfl)

/-! ## Headers -/

theorem partsFrom_header_phonemes (number : Nat) (lines : List Text) :
    partsFrom number ("[inventory]".toList :: lines) =
      .header .phonemes :: partsFrom (number + 1) lines := by
  rw [partsFrom_cons]
  rfl

theorem partsFrom_header_phonotactics (number : Nat) (lines : List Text) :
    partsFrom number ("[phonotactics]".toList :: lines) =
      .header .phonotactics :: partsFrom (number + 1) lines := by
  rw [partsFrom_cons]
  rfl

/-- Lists followed by definitions, and then anything, give the same inventory whether or not the
headers of the two sections are written: both readers fail, or both read the same. -/
theorem readInventory_sectioned [Limits] {plain sectioned : Text}
    {declared rest bare classes : List Text} (hplain : Text.lines plain = declared ++ rest)
    (hsectioned : Text.lines sectioned =
      ["[inventory]".toList] ++ declared ++ ["[phonotactics]".toList] ++ rest)
    (hheader : ∀ line ∈ declared, InventorySection.ofHeader? (Text.trim line) = none)
    (hpieces : declared.flatMap statedPieces = bare ++ classes)
    (hbare : ∀ piece ∈ bare, isDefinition piece = false)
    (hclasses : ∀ piece ∈ classes, isDefinition piece = true) (hne : classes ≠ []) :
    (readInventory sectioned).toOption = (readInventory plain).toOption := by
  have hlisting : Listing .empty { InventoryDraft.empty with current := .phonemes } :=
    { content := ⟨.nil, rfl, rfl⟩
      current := rfl
      opened := rfl
      undefined := rfl
      patternless := rfl }
  have hread : Agree Following ((inventoryParts plain).foldlM InventoryDraft.add .empty)
      ((inventoryParts sectioned).foldlM InventoryDraft.add .empty) := by
    rw [inventoryParts_eq, inventoryParts_eq, hplain, hsectioned, List.append_assoc,
      List.append_assoc, List.singleton_append, List.singleton_append, partsFrom_header_phonemes,
      partsFrom_append, partsFrom_append, partsFrom_header_phonotactics, List.foldlM_append,
      List.foldlM_cons, InventoryDraft.add_header, ok_bind, List.foldlM_append]
    refine (agree_declared hheader hpieces hbare hclasses hne hlisting 1 2).bind
      fun plain sectioned h => ?_
    rw [List.foldlM_cons, InventoryDraft.add_header, ok_bind]
    exact agree_following h.agree_header rest _ _
  rw [readInventory_eq, readInventory_eq]
  exact (hread.bind fun _ _ h => agree_finish h.content).toOption_eq.symm

/-- Lists and a class, and behind them a section that lists again. -/
theorem readInventory_sectioned_vowels :
    readInventory "p; s\nV = a\n[phonemes]\nu".toList =
        .ok ⟨TokenSet.ofList ["a", "p", "s", "u"], [], [("V", TokenSet.ofList ["a"])]⟩ ∧
      (readInventory "[inventory]\np; s\nV = a\n[phonotactics]\n[phonemes]\nu".toList).toOption =
        (readInventory "p; s\nV = a\n[phonemes]\nu".toList).toOption := by
  have hplain : Text.lines "p; s\nV = a\n[phonemes]\nu".toList =
      ["p; s".toList, "V = a".toList] ++ ["[phonemes]".toList, "u".toList] := by decide
  have hsectioned :
      Text.lines "[inventory]\np; s\nV = a\n[phonotactics]\n[phonemes]\nu".toList =
        ["[inventory]".toList] ++ ["p; s".toList, "V = a".toList] ++ ["[phonotactics]".toList] ++
          ["[phonemes]".toList, "u".toList] := by decide
  have hpieces : ["p; s".toList, "V = a".toList].flatMap statedPieces =
      ["p".toList, "s".toList] ++ ["V = a".toList] := by decide
  exact ⟨by cbv, readInventory_sectioned hplain hsectioned (by decide) hpieces (by decide)
    (by decide) (by decide)⟩

end Diachrony
