import Diachrony.Proofs.ClassReaders
import Diachrony.Proofs.PatternLanguage

/-!
# Well-formed inventories

Phonemes come into an inventory from lists and from the values of classes, and the slots of its
patterns from class names, phonemes and bracketed classes.  All phonemes are cut out by one reader,
and every slot is checked against them, so whatever the text, an inventory that is read keeps to
one shape.
-/

namespace Diachrony

open RuleText

/-- Whether a slot admits something, and nothing but phonemes. -/
def TokenSet.IsSlot (phonemes slot : TokenSet) : Prop :=
  slot.toList ≠ [] ∧ ∀ token ∈ slot.toList, token ∈ phonemes.toList

def Pattern.IsOver (phonemes : TokenSet) (pattern : Pattern) : Prop :=
  pattern.slots ≠ [] ∧ ∀ slot ∈ pattern.slots, phonemes.IsSlot slot

/-- What every inventory keeps to that has been read from a text. -/
structure Inventory.IsWellFormed [Limits] (inventory : Inventory) : Prop where
  phonemes : ∀ token ∈ inventory.phonemes.toList, token ≠ "" ∧ token ≠ "#" ∧ token ≠ "∅" ∧
    ∀ c ∈ token.toList, Text.isBlank c = false ∧
      c ∉ ['[', ']', '(', ')', '!', '>', '/', '_', ';', '=']
  classes : ∀ name members, (name, members) ∈ inventory.classes →
    (name ≠ "" ∧ ∀ c ∈ name.toList, Text.isAlphanumeric c = true) ∧
      ∀ token ∈ members.toList, token ∈ inventory.phonemes.toList
  patterns : ∀ pattern ∈ inventory.patterns, pattern.IsOver inventory.phonemes
  distinct : inventory.patterns.Nodup
  phonemes_le : inventory.phonemes.size ≤ Limits.phonemes
  patterns_le : inventory.patterns.length ≤ Limits.patterns

/-! ## Slots -/

section Slots

variable {classes : List (String × TokenSet)} {phonemes : TokenSet}
  (hclasses : ∀ name members, (name, members) ∈ classes →
    ∀ token ∈ members.toList, token ∈ phonemes.toList)
include hclasses

theorem mem_phonemes_of_mem_namedTokens {name : String}
    (hname : name ∈ symbolNames classes phonemes) {token : Token}
    (h : token ∈ (namedTokens classes name).toList) : token ∈ phonemes.toList := by
  rw [namedTokens] at h
  cases hlookup : classes.lookup name with
  | some members =>
      rw [hlookup] at h
      obtain ⟨before, after, hsplit, -⟩ := List.lookup_eq_some_iff.1 hlookup
      exact hclasses name members (by simp [hsplit]) token h
  | none =>
      rw [hlookup, Option.getD_none, TokenSet.mem_ofList, List.mem_singleton] at h
      rw [h]
      exact mem_phonemes_of_lookup_eq_none hname hlookup

theorem ReadsSlots.isSlot {text : Text} {slots : List TokenSet}
    (h : ReadsSlots classes phonemes text slots) : ∀ slot ∈ slots, phonemes.IsSlot slot := by
  induction h with
  | nil => simp
  | gap hc hrest ih => exact ih
  | oneOf hne hinside hmembers hafter ih =>
      refine List.forall_mem_cons.2 ⟨⟨fun hnil => hne ?_, fun token htoken => ?_⟩, ih⟩
      · refine List.eq_nil_iff_forall_not_mem.2 fun token htoken => ?_
        have hmem := TokenSet.mem_ofList.2 htoken
        simp [hnil] at hmem
      · exact hmembers token (TokenSet.mem_ofList.1 htoken)
  | symbol hfirst hlongest hne hrest ih =>
      exact List.forall_mem_cons.2
        ⟨⟨hne, fun _ => mem_phonemes_of_mem_namedTokens hclasses hlongest.mem⟩, ih⟩

theorem LeavesSlots.isSlot {text : Text} {slots : List TokenSet}
    (h : LeavesSlots classes phonemes text slots) : ∀ slot ∈ slots, phonemes.IsSlot slot := by
  induction h with
  | fixed hfixed hslots => exact hslots.isSlot hclasses
  | kept hfixed hbefore hbalanced hinside hafter ihinside ihafter =>
      exact List.forall_mem_append.2
        ⟨hbefore.isSlot hclasses, List.forall_mem_append.2 ⟨ihinside, ihafter⟩⟩
  | dropped hfixed hbefore hbalanced hafter ih =>
      exact List.forall_mem_append.2 ⟨hbefore.isSlot hclasses, ih⟩

end Slots

/-! ## Collected patterns -/

/-- Whether a collector keeps every element once, counts them, and keeps only such of a kind. -/
structure Collector.IsSound {α : Type} [BEq α] [LawfulBEq α] [Hashable α] (holds : α → Prop)
    (collector : Collector α) : Prop where
  agree : ∀ a, collector.seen.contains a = collector.latestFirst.contains a
  size : collector.size = collector.latestFirst.length
  nodup : collector.latestFirst.Nodup
  all : ∀ a ∈ collector.latestFirst, holds a

namespace Collector.IsSound

variable {α : Type} [BEq α] [LawfulBEq α] [Hashable α] {holds : α → Prop}
  {collector : Collector α}

theorem empty : (Collector.empty : Collector α).IsSound holds where
  agree := by simp [Collector.empty]
  size := by simp [Collector.empty, Collector.size]
  nodup := List.nodup_nil
  all := by simp [Collector.empty]

theorem push (h : collector.IsSound holds) {a : α} (ha : holds a) :
    (collector.push a).IsSound holds := by
  unfold Collector.push
  split
  · exact h
  · rename_i hnew
    rw [Bool.not_eq_true] at hnew
    have hmem : a ∉ collector.latestFirst := by
      rw [h.agree] at hnew
      simpa using hnew
    exact
      { agree := fun b => by
          rw [Std.HashSet.contains_insert, List.contains_cons, h.agree b, BEq.comm]
        size := by
          have hsize := h.size
          rw [Collector.size] at hsize ⊢
          rw [Std.HashSet.size_insert, if_neg (by simp [← Std.HashSet.contains_iff_mem, hnew]),
            hsize, List.length_cons]
        nodup := List.nodup_cons.2 ⟨hmem, h.nodup⟩
        all := List.forall_mem_cons.2 ⟨ha, h.all⟩ }

theorem pushAll (h : collector.IsSound holds) {elements : List α}
    (helements : ∀ a ∈ elements, holds a) : (collector.pushAll elements).IsSound holds := by
  induction elements generalizing collector with
  | nil => exact h
  | cons a elements ih =>
      obtain ⟨ha, hrest⟩ := List.forall_mem_cons.1 helements
      exact ih (h.push ha) hrest

end Collector.IsSound

theorem Collector.size_pushAll_le {α : Type} [BEq α] [LawfulBEq α] [Hashable α]
    (collector : Collector α) (elements : List α) :
    (collector.pushAll elements).size ≤ collector.size + elements.length := by
  induction elements generalizing collector with
  | nil => exact Nat.le_refl _
  | cons a elements ih =>
      have hpush : (collector.push a).size ≤ collector.size + 1 := by
        unfold Collector.push
        split
        · exact Nat.le_succ _
        · exact Std.HashSet.size_insert_le
      have hrest := ih (collector.push a)
      rw [List.length_cons]
      exact hrest.trans (by omega)

/-! ## Drafts -/

/-- What the definitions and lists of a draft keep to, whatever parts have been read. -/
structure InventoryDraft.IsWellFormed (draft : InventoryDraft) : Prop where
  names : ∀ name ∈ draft.table.names, isVariableName name = true
  listed : ∀ token ∈ draft.listed, IsPhoneme token

namespace InventoryDraft.IsWellFormed

variable {draft next : InventoryDraft}

theorem empty : InventoryDraft.empty.IsWellFormed where
  names := by simp [InventoryDraft.empty, VariableTable.empty, VariableTable.names]
  listed := by simp [InventoryDraft.empty]

theorem define [Limits] (h : draft.IsWellFormed) {definition : Definition}
    (hname : isVariableName definition.name = true) (hnext : draft.define definition = .ok next) :
    next.IsWellFormed := by
  unfold InventoryDraft.define at hnext
  split at hnext
  · cases hnext
  · rename_i table htable
    cases hnext
    refine ⟨fun name hmem => ?_, h.listed⟩
    rcases (VariableTable.mem_names_define htable).1 hmem with hmem | rfl
    · exact h.names name hmem
    · exact hname

theorem add [Limits] (h : draft.IsWellFormed) {part : InventoryPart}
    (hnext : draft.add part = .ok next) : next.IsWellFormed := by
  cases part with
  | header opened =>
      cases hnext
      exact ⟨h.names, h.listed⟩
  | piece line source text =>
      unfold InventoryDraft.add at hnext
      dsimp only at hnext
      split at hnext
      · split at hnext
        · cases hnext
        · rename_i name value hparse
          exact h.define (of_parseDefinition hparse).1 hnext
      · split at hnext
        · split at hnext
          · cases hnext
          · cases hnext
            refine ⟨h.names, List.forall_mem_append.2 ⟨fun token hmem => ?_, h.listed⟩⟩
            obtain ⟨piece, -, hpiece⟩ := List.mem_flatMap.1 (List.mem_reverse.1 hmem)
            exact isPhoneme_of_mem_literalTokens hpiece
        · cases hnext
          exact ⟨h.names, h.listed⟩

variable (h : draft.IsWellFormed) (resolved : ResolvedVariables)
include h

theorem classes {name : String} {members : TokenSet}
    (hmem : (name, members) ∈ draft.classes resolved) :
    isVariableName name.toList = true ∧ ∀ token ∈ members.toList, IsPhoneme token := by
  rw [InventoryDraft.classes, List.mem_mergeSort, List.mem_map] at hmem
  obtain ⟨spelling, hspelling, heq⟩ := hmem
  cases heq
  refine ⟨by rw [String.toList_ofList]; exact h.names spelling hspelling, fun token htoken => ?_⟩
  exact isPhoneme_of_mem_literalTokens (TokenSet.mem_ofList.1 htoken)

end InventoryDraft.IsWellFormed

theorem isWellFormed_of_parts [Limits] {parts : List InventoryPart} {draft : InventoryDraft}
    (h : parts.foldlM InventoryDraft.add .empty = .ok draft) : draft.IsWellFormed :=
  of_foldlM InventoryDraft.IsWellFormed .empty (fun _ _ _ _ hdraft hnext => hdraft.add hnext) h

/-! ## Inventories -/

/-- A phoneme is free of blanks and of the syntax of rules, and is no mark. -/
theorem RuleText.IsPhoneme.plain {token : Token} (h : IsPhoneme token) :
    token ≠ "" ∧ token ≠ "#" ∧ token ≠ "∅" ∧ ∀ c ∈ token.toList, Text.isBlank c = false ∧
      c ∉ ['[', ']', '(', ')', '!', '>', '/', '_', ';', '='] := by
  have hmark := h.not_mark
  simp only [marks, List.mem_cons, List.not_mem_nil, or_false, not_or] at hmark
  refine ⟨h.ne_empty, hmark.1, hmark.2, fun c hc => ?_⟩
  have hdelimiter := h.not_delimiter c hc
  rw [isDelimiter, Bool.or_eq_false_iff, List.contains_eq_mem, decide_eq_false_iff_not]
    at hdelimiter
  exact hdelimiter

theorem isVariableName_toList_iff {name : String} :
    isVariableName name.toList = true ↔
      name ≠ "" ∧ ∀ c ∈ name.toList, Text.isAlphanumeric c = true := by
  rw [isVariableName, Bool.and_eq_true, Bool.not_eq_true', List.isEmpty_eq_false_iff, Ne,
    String.toList_eq_nil_iff, List.all_eq_true]

/-- The tables of symbols that patterns are read with have no empty name. -/
theorem empty_notMem_symbolNames {classes : List (String × TokenSet)} {phonemes : TokenSet}
    (hclasses : ∀ name members, (name, members) ∈ classes → isVariableName name.toList = true)
    (hphonemes : ∀ token ∈ phonemes.toList, IsPhoneme token) :
    "" ∉ symbolNames classes phonemes := by
  intro hmem
  rcases List.mem_append.1 hmem with hmem | hmem
  · obtain ⟨⟨name, members⟩, hpair, rfl⟩ := List.mem_map.1 hmem
    exact absurd (hclasses _ _ hpair) (by decide)
  · exact (hphonemes _ hmem).ne_empty rfl

theorem InventoryDraft.of_patterns [Limits] {draft : InventoryDraft}
    {classes : List (String × TokenSet)} {phonemes : TokenSet} {patterns : List Pattern}
    (hnames : "" ∉ symbolNames classes phonemes)
    (hclasses : ∀ name members, (name, members) ∈ classes →
      ∀ token ∈ members.toList, token ∈ phonemes.toList)
    (h : draft.patterns (SymbolTable.of classes phonemes) = .ok patterns) :
    patterns.Nodup ∧ patterns.length ≤ Limits.patterns ∧
      ∀ pattern ∈ patterns, pattern.IsOver phonemes := by
  obtain ⟨collected, hcollected, h⟩ := bind_eq_ok.1 h
  cases h
  have hkept : collected.IsSound (Pattern.IsOver phonemes) ∧ collected.size ≤ Limits.patterns := by
    refine of_foldlM (fun collector =>
      collector.IsSound (Pattern.IsOver phonemes) ∧ collector.size ≤ Limits.patterns)
      ⟨.empty, Nat.zero_le _⟩ (fun pending _ collector next hcollector hstep => ?_) hcollected
    obtain ⟨found, hfound, hstep⟩ := bind_eq_ok.1 hstep
    dsimp only at hstep
    split at hstep
    · cases hstep
    · rename_i hsize
      cases hstep
      refine ⟨hcollector.1.pushAll fun pattern hmem => ?_, Nat.le_of_not_gt hsize⟩
      obtain ⟨hne, hline⟩ := (mem_readPatternLine_iff hnames hfound).1 hmem
      exact ⟨hne, hline.isSlot hclasses⟩
  obtain ⟨hsound, hsize⟩ := hkept
  refine ⟨List.nodup_reverse.2 hsound.nodup, ?_, fun pattern hmem => ?_⟩
  · rw [Collector.toList, List.length_reverse, ← hsound.size]
    exact hsize
  · exact hsound.all pattern (List.mem_reverse.1 hmem)

theorem foldlM_readPatternLine_eq_ok [Limits] {symbols : SymbolTable} {lines : List PatternLine}
    {found : List (List Pattern)} {collector : Collector Pattern}
    (hlines : List.Forall₂ (fun pending patterns =>
      readPatternLine symbols pending.line pending.text = .ok patterns) lines found)
    (hsize : collector.size + found.flatten.length ≤ Limits.patterns) :
    lines.foldlM (fun collector pending => do
      let collector := Collector.pushAll collector
        (← readPatternLine symbols pending.line pending.text)
      if collector.size > Limits.patterns then
        .error (.tooManyPatterns (Limits.patterns + 1) Limits.patterns)
      else .ok collector) collector = .ok (collector.pushAll found.flatten) := by
  induction hlines generalizing collector with
  | nil => rfl
  | @cons pending patterns lines found hfirst hothers ih =>
      rw [List.flatten_cons, List.length_append] at hsize
      have hpushed := collector.size_pushAll_le patterns
      rw [List.foldlM_cons, hfirst, ok_bind]
      dsimp only
      rw [if_neg (by omega), ok_bind, ih (by omega), Collector.pushAll, Collector.pushAll,
        Collector.pushAll, List.flatten_cons, List.foldl_append]

theorem InventoryDraft.patterns_eq_ok [Limits] {draft : InventoryDraft} {symbols : SymbolTable}
    (found : List (List Pattern))
    (hlines : draft.patternLines.reverse.mapM (fun pending =>
      readPatternLine symbols pending.line pending.text) = .ok found)
    (hsize : found.flatten.length ≤ Limits.patterns) :
    draft.patterns symbols = .ok (distinct found.flatten) := by
  have hstart : (Collector.empty : Collector Pattern).size + found.flatten.length ≤
      Limits.patterns := by simpa [Collector.size, Collector.empty] using hsize
  rw [InventoryDraft.patterns, foldlM_readPatternLine_eq_ok (mapM_eq_ok_iff.1 hlines) hstart]
  rfl

/-- What a draft is finished to. -/
theorem InventoryDraft.finish_eq_ok_iff [Limits] {draft : InventoryDraft} {inventory : Inventory} :
    draft.finish = .ok inventory ↔
      ∃ resolved, draft.table.resolveAll = .ok resolved ∧
        inventory.classes = draft.classes resolved ∧
        inventory.phonemes = TokenSet.ofList (draft.listed.reverse ++
          inventory.classes.flatMap fun (_, members) => members.toList) ∧
        inventory.phonemes.size ≤ Limits.phonemes ∧
        draft.patterns (SymbolTable.of inventory.classes inventory.phonemes) =
          .ok inventory.patterns := by
  rw [InventoryDraft.finish, bind_eq_ok]
  simp only [mapError_eq_ok]
  constructor
  · rintro ⟨resolved, hresolved, h⟩
    split at h
    · cases h
    · rename_i hsize
      obtain ⟨patterns, hpatterns, h⟩ := bind_eq_ok.1 h
      cases h
      exact ⟨resolved, hresolved, rfl, rfl, Nat.le_of_not_gt hsize, hpatterns⟩
  · obtain ⟨phonemes, patterns, classes⟩ := inventory
    rintro ⟨resolved, hresolved, hclasses, hphonemes, hsize, hpatterns⟩
    dsimp only at hclasses hphonemes hsize hpatterns
    subst hclasses hphonemes
    exact ⟨resolved, hresolved, (if_neg (Nat.not_lt.2 hsize)).trans
      (bind_eq_ok.2 ⟨patterns, hpatterns, rfl⟩)⟩

theorem InventoryDraft.IsWellFormed.finish [Limits] {draft : InventoryDraft} {inventory : Inventory}
    (hdraft : draft.IsWellFormed) (h : draft.finish = .ok inventory) :
    inventory.IsWellFormed := by
  obtain ⟨resolved, -, hclasses, hphonemes, hsize, hpatterns⟩ := InventoryDraft.finish_eq_ok_iff.1 h
  have hnamed : ∀ name members, (name, members) ∈ inventory.classes →
      isVariableName name.toList = true ∧ ∀ token ∈ members.toList, IsPhoneme token := by
    rw [hclasses]
    exact fun name members => hdraft.classes resolved
  have hmembers : ∀ name members, (name, members) ∈ inventory.classes →
      ∀ token ∈ members.toList, token ∈ inventory.phonemes.toList := by
    intro name members hpair token htoken
    rw [hphonemes, TokenSet.mem_ofList]
    exact List.mem_append_right _ (List.mem_flatMap.2 ⟨(name, members), hpair, htoken⟩)
  have hphoneme : ∀ token ∈ inventory.phonemes.toList, IsPhoneme token := by
    intro token hmem
    rw [hphonemes, TokenSet.mem_ofList] at hmem
    rcases List.mem_append.1 hmem with hmem | hmem
    · exact hdraft.listed token (List.mem_reverse.1 hmem)
    · obtain ⟨⟨name, members⟩, hpair, htoken⟩ := List.mem_flatMap.1 hmem
      exact (hnamed name members hpair).2 token htoken
  have hnames := empty_notMem_symbolNames (fun _ _ hpair => (hnamed _ _ hpair).1) hphoneme
  obtain ⟨hnodup, hlength, hpattern⟩ := InventoryDraft.of_patterns hnames hmembers hpatterns
  exact
    { phonemes := fun token hmem => (hphoneme token hmem).plain
      classes := fun name members hpair => 
        ⟨isVariableName_toList_iff.1 (hnamed name members hpair).1, hmembers name members hpair⟩
      patterns := hpattern
      distinct := hnodup
      phonemes_le := hsize
      patterns_le := hlength }

/-- Every inventory that is read is well formed. -/
theorem isWellFormed_of_readInventory [Limits] {text : Text} {inventory : Inventory}
    (h : readInventory text = .ok inventory) : inventory.IsWellFormed := by
  rw [readInventory_eq] at h
  obtain ⟨draft, hparts, h⟩ := bind_eq_ok.1 h
  exact (isWellFormed_of_parts hparts).finish h

/-- A mark in a list is no phoneme, a class brings its members along, and a line with a group has
two patterns. -/
theorem isWellFormed_of_readInventory_vowels :
    ∃ inventory, readInventory "p, #, s\nV = [a i]\n[s p]V(V)".toList = .ok inventory ∧
      inventory.phonemes = TokenSet.ofList ["a", "i", "p", "s"] ∧
      inventory.patterns.length = 2 ∧ inventory.IsWellFormed := by
  have hparts : (inventoryParts "p, #, s\nV = [a i]\n[s p]V(V)".toList).foldlM
      InventoryDraft.add .empty =
        .ok ⟨.unsectioned,
          VariableTable.empty.append ⟨"V".toList, "[a i]".toList, 2, "V = [a i]"⟩ rfl, [],
          ["s", "p"], [⟨3, "[s p]V(V)".toList⟩]⟩ := by cbv
  have hread : readInventory "p, #, s\nV = [a i]\n[s p]V(V)".toList =
      .ok ⟨TokenSet.ofList ["a", "i", "p", "s"],
        [⟨[TokenSet.ofList ["p", "s"], TokenSet.ofList ["a", "i"], TokenSet.ofList ["a", "i"]]⟩,
          ⟨[TokenSet.ofList ["p", "s"], TokenSet.ofList ["a", "i"]]⟩],
        [("V", TokenSet.ofList ["a", "i"])]⟩ := by
    rw [readInventory_eq, hparts, ok_bind, InventoryDraft.finish_eq_ok_iff]
    refine ⟨⟨["V".toList], [("V".toList, "[a i]".toList)]⟩, by cbv, by cbv, by cbv, by cbv, ?_⟩
    rw [InventoryDraft.patterns_eq_ok
      [[⟨[TokenSet.ofList ["p", "s"], TokenSet.ofList ["a", "i"], TokenSet.ofList ["a", "i"]]⟩,
        ⟨[TokenSet.ofList ["p", "s"], TokenSet.ofList ["a", "i"]]⟩]] (by cbv) (by decide),
      distinct_eq_eraseDups]
    cbv
  exact ⟨_, hread, rfl, rfl, isWellFormed_of_readInventory hread⟩

end Diachrony
