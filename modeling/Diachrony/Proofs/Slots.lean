import Diachrony.Proofs.ContextGrammar
import Diachrony.Proofs.LongestMatch
import Diachrony.Proofs.SectionedInventory

/-!
# Slots read from the fixed text of a pattern

The fixed text of a pattern line is read from the left: blanks and commas separate, a bracketed
class is one slot, and so is the longest class name or phoneme that stands at a place.  The table
of symbols is sorted by length and searched from the front; sorting keeps the order of symbols of
one length, so a name is that of a class before it is that of a phoneme.
-/

namespace Diachrony

open RuleText

/-- What a pattern line may mention by name. -/
def symbolNames (classes : List (String × TokenSet)) (phonemes : TokenSet) : List String :=
  classes.map Prod.fst ++ phonemes.toList

/-- What may stand where a pattern line has a name: the members of the class of this name, or else
the phoneme itself. -/
def namedTokens (classes : List (String × TokenSet)) (name : String) : TokenSet :=
  (classes.lookup name).getD (TokenSet.ofList [name])

/-- A name that no class has is a phoneme. -/
theorem mem_phonemes_of_lookup_eq_none {classes : List (String × TokenSet)} {phonemes : TokenSet}
    {name : String} (hname : name ∈ symbolNames classes phonemes)
    (hlookup : classes.lookup name = none) : name ∈ phonemes.toList := by
  refine (List.mem_append.1 hname).resolve_left fun hmem => ?_
  obtain ⟨pair, hpair, rfl⟩ := List.mem_map.1 hmem
  simpa using List.lookup_eq_none_iff.1 hlookup pair hpair

/-- Which slots a fixed text of a pattern line is read as. -/
inductive ReadsSlots (classes : List (String × TokenSet)) (phonemes : TokenSet) :
    Text → List TokenSet → Prop
  | nil : ReadsSlots classes phonemes [] []
  | gap {c : Char} {rest : Text} {slots : List TokenSet} (hc : Text.isBlank c = true ∨ c = ',')
      (hrest : ReadsSlots classes phonemes rest slots) :
      ReadsSlots classes phonemes (c :: rest) slots
  | oneOf {inside after : Text} {tokens : List Token} {slots : List TokenSet} (hne : tokens ≠ [])
      (hinside : Lists inside (tokens.map some))
      (hmembers : ∀ token ∈ tokens, token ∈ phonemes.toList)
      (hafter : ReadsSlots classes phonemes after slots) :
      ReadsSlots classes phonemes ('[' :: (inside ++ ']' :: after))
        (TokenSet.ofList tokens :: slots)
  | symbol {name : String} {rest : Text} {slots : List TokenSet}
      (hfirst : ∀ c ∈ name.toList.head?, Text.isBlank c = false ∧ c ∉ [',', '[', ']'])
      (hlongest : IsLongestAt (symbolNames classes phonemes) (name.toList ++ rest) name)
      (hne : (namedTokens classes name).toList ≠ [])
      (hrest : ReadsSlots classes phonemes rest slots) :
      ReadsSlots classes phonemes (name.toList ++ rest) (namedTokens classes name :: slots)

/-! ## The table of symbols -/

/-- Sorting keeps the order of elements that may stand in either order. -/
theorem filter_mergeSort {α : Type} {le : α → α → Bool} {keep : α → Bool} {elements : List α}
    (htrans : ∀ a b c, le a b = true → le b c = true → le a c = true)
    (htotal : ∀ a b, (le a b || le b a) = true)
    (hkeep : ∀ a ∈ elements.filter keep, ∀ b ∈ elements.filter keep, le a b = true) :
    (elements.mergeSort le).filter keep = elements.filter keep := by
  have hpairwise : (elements.filter keep).Pairwise fun a b => le a b = true :=
    List.pairwise_of_forall_mem_list hkeep
  have hsublist := (List.sublist_mergeSort htrans htotal hpairwise List.filter_sublist).filter keep
  simp only [List.filter_filter, Bool.and_self] at hsublist
  exact (hsublist.eq_of_length
    ((List.mergeSort_perm elements le).filter keep).length_eq.symm).symm

namespace SymbolTable

variable {classes : List (String × TokenSet)} {phonemes : TokenSet}

/-- The entry of a name: that of the class of this name, or else that of the phoneme. -/
def entryOf (classes : List (String × TokenSet)) (name : String) : SymbolEntry :=
  ⟨name, name.toList, (classes.lookup name).elim .phoneme .phonemeClass⟩

/-- The entries before they are sorted. -/
def unsorted (classes : List (String × TokenSet)) (phonemes : TokenSet) : List SymbolEntry :=
  (classes.map fun (name, members) => ⟨name, name.toList, .phonemeClass members⟩) ++
    phonemes.toList.map fun token => ⟨token, token.toList, .phoneme⟩

theorem entries_of : (SymbolTable.of classes phonemes).entries =
    (unsorted classes phonemes).mergeSort
      fun a b => decide (b.spelling.length ≤ a.spelling.length) := rfl

theorem lengthOrder_trans (a b c : SymbolEntry)
    (hab : decide (b.spelling.length ≤ a.spelling.length) = true)
    (hbc : decide (c.spelling.length ≤ b.spelling.length) = true) :
    decide (c.spelling.length ≤ a.spelling.length) = true := by
  rw [decide_eq_true_eq] at *
  exact Nat.le_trans hbc hab

theorem lengthOrder_total (a b : SymbolEntry) :
    (decide (b.spelling.length ≤ a.spelling.length) ||
      decide (a.spelling.length ≤ b.spelling.length)) = true := by
  rw [Bool.or_eq_true, decide_eq_true_eq, decide_eq_true_eq]
  exact Nat.le_total _ _

theorem spelling_of_mem_unsorted {entry : SymbolEntry} (h : entry ∈ unsorted classes phonemes) :
    entry.name ∈ symbolNames classes phonemes ∧ entry.spelling = entry.name.toList := by
  rcases List.mem_append.1 h with h | h
  · obtain ⟨⟨name, members⟩, hmem, rfl⟩ := List.mem_map.1 h
    exact ⟨List.mem_append_left _ (List.mem_map_of_mem hmem), rfl⟩
  · obtain ⟨token, hmem, rfl⟩ := List.mem_map.1 h
    exact ⟨List.mem_append_right _ hmem, rfl⟩

theorem mem_names_iff {name : String} :
    name ∈ symbolNames classes phonemes ↔
      ∃ entry ∈ unsorted classes phonemes, entry.name = name := by
  constructor
  · intro h
    rcases List.mem_append.1 h with h | h
    · obtain ⟨pair, hmem, rfl⟩ := List.mem_map.1 h
      exact ⟨_, List.mem_append_left _ (List.mem_map_of_mem hmem), rfl⟩
    · exact ⟨_, List.mem_append_right _ (List.mem_map_of_mem h), rfl⟩
  · rintro ⟨entry, hmem, rfl⟩
    exact (spelling_of_mem_unsorted hmem).1

/-- The first entry of a name is that of the class, if there is one. -/
theorem find?_unsorted {name : String} (h : name ∈ symbolNames classes phonemes) :
    (unsorted classes phonemes).find? (·.name == name) = some (entryOf classes name) := by
  have hclasses : (classes.map fun (name, members) =>
      (⟨name, name.toList, .phonemeClass members⟩ : SymbolEntry)).find? (·.name == name) =
        (classes.lookup name).map fun members => ⟨name, name.toList, .phonemeClass members⟩ := by
    clear h
    induction classes with
    | nil => rfl
    | cons pair classes ih =>
        obtain ⟨other, members⟩ := pair
        rw [List.map_cons, List.find?_cons, List.lookup_cons]
        by_cases hname : other = name
        · subst hname
          simp
        · have hother : (other == name) = false := beq_eq_false_iff_ne.2 hname
          have hsame : (name == other) = false := beq_eq_false_iff_ne.2 (Ne.symm hname)
          simp [hother, hsame, ih]
  rw [unsorted, List.find?_append, hclasses, entryOf]
  cases hlookup : classes.lookup name with
  | some members => rfl
  | none =>
      have hphoneme := mem_phonemes_of_lookup_eq_none h hlookup
      have hfind : phonemes.toList.find? (· == name) = some name := by
        have hsome : (phonemes.toList.find? (· == name)).isSome = true :=
          List.find?_isSome.2 ⟨name, hphoneme, beq_self_eq_true name⟩
        obtain ⟨found, hfound⟩ := Option.isSome_iff_exists.1 hsome
        have hsame : (found == name) = true := by simpa using List.find?_some hfound
        rw [hfound, eq_of_beq hsame]
      rw [Option.map_none, Option.none_or, List.find?_map]
      exact congrArg (Option.map _) hfind

/-- What is found at the start of a text is the entry of the longest name that stands there. -/
theorem eq_of_longestAt? (hnames : "" ∉ symbolNames classes phonemes) {text : Text}
    {entry : SymbolEntry} (h : (SymbolTable.of classes phonemes).longestAt? text = some entry) :
    ∃ name, IsLongestAt (symbolNames classes phonemes) text name ∧
      entry = entryOf classes name := by
  rw [longestAt?, entries_of] at h
  obtain ⟨hstands, before, after, hsplit, hbefore⟩ := List.find?_eq_some_iff_append.1 h
  have hmem : ∀ other, other ∈ before ++ entry :: after ↔ other ∈ unsorted classes phonemes := by
    rw [← hsplit]
    exact fun other => List.mem_mergeSort
  obtain ⟨hname, hspelling⟩ := spelling_of_mem_unsorted ((hmem entry).1 (by simp))
  rw [hspelling, List.isPrefixOf_iff_prefix] at hstands
  refine ⟨entry.name, ⟨hname, fun hempty => hnames (hempty ▸ hname), hstands, ?_⟩, ?_⟩
  · -- An entry tried before the one found does not stand here; one tried later is no longer.
    intro other hother hstarts
    obtain ⟨tried, htried, rfl⟩ := mem_names_iff.1 hother
    have hsorted := List.pairwise_mergeSort lengthOrder_trans lengthOrder_total
      (unsorted classes phonemes)
    rw [hsplit] at hsorted
    rw [← String.length_toList, ← String.length_toList, ← hspelling,
      ← (spelling_of_mem_unsorted htried).2]
    rw [← (spelling_of_mem_unsorted htried).2] at hstarts
    rcases List.mem_append.1 ((hmem tried).2 htried) with hmem | hmem
    · have hnot := hbefore tried hmem
      rw [List.isPrefixOf_iff_prefix.2 hstarts] at hnot
      cases hnot
    · rcases List.mem_cons.1 hmem with rfl | hmem
      · exact Nat.le_refl _
      · have hlater := (List.pairwise_cons.1 (List.pairwise_append.1 hsorted).2.1).1 tried hmem
        exact of_decide_eq_true hlater
  · -- The entries of this name are all as long, so the first of them is first in the sorted list.
    have hlength : ∀ a ∈ (unsorted classes phonemes).filter (·.name == entry.name),
        a.spelling = entry.name.toList := by
      intro a ha
      obtain ⟨hmem, hname⟩ := List.mem_filter.1 ha
      rw [(spelling_of_mem_unsorted hmem).2, eq_of_beq hname]
    have hkept : ((unsorted classes phonemes).mergeSort fun a b =>
        decide (b.spelling.length ≤ a.spelling.length)).filter (·.name == entry.name) =
          (unsorted classes phonemes).filter (·.name == entry.name) :=
      filter_mergeSort lengthOrder_trans lengthOrder_total fun a ha b hb => by
        simp [hlength a ha, hlength b hb]
    have hnone : before.filter (·.name == entry.name) = [] := by
      refine List.filter_eq_nil_iff.2 fun other hother hname => ?_
      have hnot := hbefore other hother
      have hin := (hmem other).1 (List.mem_append_left _ hother)
      rw [(spelling_of_mem_unsorted hin).2, eq_of_beq hname,
        List.isPrefixOf_iff_prefix.2 hstands] at hnot
      cases hnot
    have hfirst := find?_unsorted hname
    rw [← List.head?_filter, ← hkept, hsplit, List.filter_append, hnone, List.nil_append,
      List.filter_cons, if_pos (beq_self_eq_true entry.name), List.head?_cons] at hfirst
    exact Option.some.inj hfirst

/-- Behind its first character, the rest of a name is passed over. -/
theorem drop_spelling {name : String} {c : Char} {part : Text} (hname : name.toList = c :: part)
    (rest : Text) : (part ++ rest).drop ((entryOf classes name).spelling.length - 1) = rest := by
  rw [entryOf, hname, List.length_cons, Nat.add_sub_cancel, List.drop_left]

theorem longestAt?_of_isLongestAt (hnames : "" ∉ symbolNames classes phonemes) {text : Text}
    {name : String} (h : IsLongestAt (symbolNames classes phonemes) text name) :
    (SymbolTable.of classes phonemes).longestAt? text = some (entryOf classes name) := by
  cases hfound : (SymbolTable.of classes phonemes).longestAt? text with
  | none =>
      obtain ⟨entry, hmem, rfl⟩ := mem_names_iff.1 h.mem
      rw [longestAt?, entries_of, List.find?_eq_none] at hfound
      refine absurd ?_ (hfound entry (List.mem_mergeSort.2 hmem))
      rw [(spelling_of_mem_unsorted hmem).2, List.isPrefixOf_iff_prefix]
      exact h.stands
  | some entry =>
      obtain ⟨other, hother, rfl⟩ := eq_of_longestAt? hnames hfound
      rw [h.unique hother]

end SymbolTable

/-! ## Reading slots -/

section ReadSlots

variable {classes : List (String × TokenSet)} {phonemes : TokenSet} {line : Nat}

theorem flattenClass_eq_ok_iff_lists {inside : Text} {members : List (Option Token)} :
    flattenClass inside = .ok members ↔ members ≠ [] ∧ Lists inside members := by
  simp only [flattenClass, bind_eq_ok, parseItems_eq_ok_iff, classMembers_eq_ok_iff, lists_iff]
  constructor
  · rintro ⟨items, hitems, hne, hmembers⟩
    exact ⟨hne, items, hitems, hmembers⟩
  · rintro ⟨hne, items, hitems, hmembers⟩
    exact ⟨items, hitems, hne, hmembers⟩

theorem RuleText.Lists.closing? {inside : Text} {members : List (Option Token)}
    (h : Lists inside members) (after : Text) :
    Text.closing? .square (inside ++ ']' :: after) = some (inside, after) := by
  obtain ⟨items, hitems, -⟩ := lists_iff.1 h
  exact hitems.isNested.closing? .square after

/-- A class of a pattern line lists phonemes, without the empty option. -/
theorem inlineClass_eq_ok_iff {inside : Text} {slot : TokenSet} :
    inlineClass line (SymbolTable.of classes phonemes) inside = .ok slot ↔
      ∃ tokens, tokens ≠ [] ∧ Lists inside (tokens.map some) ∧
        (∀ token ∈ tokens, token ∈ phonemes.toList) ∧ slot = TokenSet.ofList tokens := by
  simp only [inlineClass, bind_eq_ok, mapError_eq_ok, flattenClass_eq_ok_iff_lists, mapM_eq_ok_iff,
    Except.ok.injEq]
  constructor
  · rintro ⟨members, ⟨hne, hlists⟩, tokens, hforall, rfl⟩
    have hmember : List.Forall₂ (fun member token =>
        member = some token ∧ token ∈ phonemes.toList) members tokens := by
      refine hforall.imp fun member token hstep => ?_
      cases member with
      | none => cases hstep
      | some other =>
          split at hstep
          · rename_i heq
            cases heq
          · rename_i heq
            cases heq
            split at hstep
            · rename_i hlisted
              cases hstep
              exact ⟨rfl, TokenSet.contains_iff.1 hlisted⟩
            · cases hstep
    obtain rfl : members = tokens.map some := by
      rw [← List.forall₂_eq_eq_eq, List.forall₂_map_right_iff]
      exact hmember.imp fun _ _ => And.left
    refine ⟨tokens, fun hnil => hne (congrArg (List.map some) hnil), hlists, ?_, rfl⟩
    intro token htoken
    obtain ⟨-, -, -, hlisted⟩ := exists_left_of_forall₂ hmember htoken
    exact hlisted
  · rintro ⟨tokens, hne, hlists, hall, rfl⟩
    refine ⟨tokens.map some, ⟨by simpa using hne, hlists⟩, tokens, ?_, rfl⟩
    rw [List.forall₂_map_left_iff, List.forall₂_same]
    exact fun token htoken => if_pos (TokenSet.contains_iff.2 (hall token htoken))

theorem namedSlot_eq_ok_iff {name : String} {slot : TokenSet} :
    namedSlot line (SymbolTable.entryOf classes name) = .ok slot ↔
      (namedTokens classes name).toList ≠ [] ∧ slot = namedTokens classes name := by
  rw [namedSlot, SymbolTable.entryOf, namedTokens]
  cases classes.lookup name with
  | none =>
      have hne : (TokenSet.ofList [name]).toList ≠ [] :=
        List.ne_nil_of_mem (TokenSet.mem_ofList.2 (List.mem_singleton_self name))
      simpa [hne] using eq_comm
  | some members =>
      simp only [Option.elim_some, Option.getD_some, TokenSet.isEmpty, List.isEmpty_iff]
      split
      · rename_i hempty
        simp [hempty]
      · rename_i hne
        simpa [hne] using eq_comm

theorem slotLoop_nil (symbols : SymbolTable) (found : List TokenSet) :
    slotLoop line symbols found [] = .ok found.reverse := by
  unfold slotLoop
  rfl

theorem slotLoop_gap {c : Char} (hc : Text.isBlank c = true ∨ c = ',') (symbols : SymbolTable)
    (found : List TokenSet) (rest : Text) :
    slotLoop line symbols found (c :: rest) = slotLoop line symbols found rest := by
  conv_lhs => unfold slotLoop
  exact if_pos (by simpa using hc)

theorem slotLoop_symbol {symbols : SymbolTable} {c : Char} {rest : Text} {entry : SymbolEntry}
    {slot : TokenSet} (hc : Text.isBlank c = false ∧ c ∉ [',', '[', ']'])
    (hentry : symbols.longestAt? (c :: rest) = some entry)
    (hslot : namedSlot line entry = .ok slot) (found : List TokenSet) :
    slotLoop line symbols found (c :: rest) =
      slotLoop line symbols (slot :: found) (rest.drop (entry.spelling.length - 1)) := by
  obtain ⟨hblank, hplain⟩ := hc
  simp only [List.mem_cons, List.not_mem_nil, or_false, not_or] at hplain
  have hgap : ¬ (Text.isBlank c || c == ',') = true := by simp [hblank, hplain.1]
  conv_lhs => unfold slotLoop
  dsimp only
  rw [if_neg hgap, if_neg hplain.2.1, if_neg hplain.2.2]
  simp only [hentry, hslot]

/-- The slots read are those of the text that is left, behind the ones read before. -/
theorem exists_of_slotLoop (hnames : "" ∉ symbolNames classes phonemes) {text : Text}
    {found slots : List TokenSet}
    (h : slotLoop line (SymbolTable.of classes phonemes) found text = .ok slots) :
    ∃ others, ReadsSlots classes phonemes text others ∧ slots = found.reverse ++ others := by
  fun_induction slotLoop line (SymbolTable.of classes phonemes) found text with
  | case1 found =>
      cases h
      exact ⟨[], .nil, (List.append_nil _).symm⟩
  | case2 found c rest hgap ih =>
      obtain ⟨others, hothers, rfl⟩ := ih h
      exact ⟨others, .gap (by simpa using hgap) hothers, rfl⟩
  | case3 => cases h
  | case4 => cases h
  | case5 found rest inside after hclose _ slot hslot _ ih =>
      obtain ⟨others, hothers, rfl⟩ := ih h
      obtain ⟨tokens, hne, hlists, hall, rfl⟩ := inlineClass_eq_ok_iff.1 hslot
      rw [(Text.closing?_eq_some_iff.1 hclose).1]
      exact ⟨_, .oneOf hne hlists hall hothers, by simp⟩
  | case6 => cases h
  | case7 => cases h
  | case8 => cases h
  | case9 found c rest hgap hopen hclosed entry hentry slot hslot ih =>
      obtain ⟨others, hothers, rfl⟩ := ih h
      obtain ⟨name, hlongest, rfl⟩ := SymbolTable.eq_of_longestAt? hnames hentry
      obtain ⟨hne, rfl⟩ := namedSlot_eq_ok_iff.1 hslot
      obtain ⟨after, hafter⟩ := hlongest.stands
      obtain ⟨d, part, hname⟩ := List.exists_cons_of_ne_nil hlongest.toList_ne_nil
      rw [hname, List.cons_append] at hafter
      obtain ⟨rfl, rfl⟩ := List.cons.inj hafter
      have hfirst : ∀ c ∈ name.toList.head?, Text.isBlank c = false ∧ c ∉ [',', '[', ']'] := by
        simp only [Bool.or_eq_true, beq_iff_eq, not_or, Bool.not_eq_true] at hgap
        simpa [hname] using ⟨hgap.1, hgap.2, hopen, hclosed⟩
      rw [SymbolTable.drop_spelling hname] at hothers
      rw [← List.cons_append, ← hname] at hlongest ⊢
      exact ⟨_, .symbol hfirst hlongest hne hothers, by simp⟩

theorem slotLoop_of_readsSlots (hnames : "" ∉ symbolNames classes phonemes) {text : Text}
    {others : List TokenSet} (h : ReadsSlots classes phonemes text others)
    (found : List TokenSet) :
    slotLoop line (SymbolTable.of classes phonemes) found text =
      .ok (found.reverse ++ others) := by
  induction h generalizing found with
  | nil => rw [slotLoop_nil, List.append_nil]
  | gap hc hrest ih => rw [slotLoop_gap hc, ih]
  | oneOf hne hinside hmembers hafter ih =>
      rw [slotLoop_open_of_some line _ (hinside.closing? _),
        inlineClass_eq_ok_iff.2 ⟨_, hne, hinside, hmembers, rfl⟩, ok_bind, ih, List.reverse_cons,
        List.append_assoc, List.singleton_append]
  | @symbol name rest slots hfirst hlongest hne hrest ih =>
      obtain ⟨c, part, hname⟩ := List.exists_cons_of_ne_nil hlongest.toList_ne_nil
      have hentry := SymbolTable.longestAt?_of_isLongestAt hnames hlongest
      rw [hname, List.cons_append] at hentry ⊢
      rw [slotLoop_symbol (hfirst c (by rw [hname]; rfl)) hentry (namedSlot_eq_ok_iff.2 ⟨hne, rfl⟩),
        SymbolTable.drop_spelling hname, ih, List.reverse_cons, List.append_assoc,
        List.singleton_append]

/-- What a fixed text of a pattern line is read as. -/
theorem readSlots_eq_ok_iff (hnames : "" ∉ symbolNames classes phonemes) {text : Text}
    {slots : List TokenSet} :
    readSlots line (SymbolTable.of classes phonemes) text = .ok slots ↔
      ReadsSlots classes phonemes text slots := by
  constructor
  · intro h
    obtain ⟨others, hothers, rfl⟩ := exists_of_slotLoop hnames h
    exact hothers
  · exact fun h => slotLoop_of_readsSlots hnames h []

end ReadSlots

end Diachrony
