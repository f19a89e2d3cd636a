import Diachrony.Proofs.OpenClasses
import Diachrony.Proofs.OptionalGroups
import Diachrony.Proofs.RespacedStatements

/-!
# The meaning of a context side

A context side is cut into fixed texts and groups, its variants are written out, read again as
items, and expanded.  No class goes over the edge of a fixed text, so each of them is read by
itself, and in the end the side is expanded to what it stands for.
-/

namespace Diachrony.RuleText

/-! ## Fixed texts -/

def itemsOf (text : Text) : List Item :=
  (parseItems text).toOption.getD []

def IsRead (text : Text) : Prop :=
  Reads text (itemsOf text)

theorem Reads.itemsOf_eq {text : Text} {items : List Item} (h : Reads text items) :
    itemsOf text = items := by
  rw [itemsOf, parseItems_eq_ok_iff.2 h]
  rfl

theorem Reads.isRead {text : Text} {items : List Item} (h : Reads text items) : IsRead text := by
  rw [IsRead, h.itemsOf_eq]
  exact h

theorem reads_cons_iff_of_isBlank {c : Char} (hc : Text.isBlank c = true) {text : Text}
    {items : List Item} : Reads (c :: text) items ↔ Reads text items := by
  refine ⟨fun h => ?_, .blank hc⟩
  have hloop := parseItems_eq_ok_iff.2 h
  rw [parseItems, itemLoop, if_pos hc] at hloop
  exact parseItems_eq_ok_iff.1 hloop

theorem reads_concat_iff_of_isBlank {c : Char} (hc : Text.isBlank c = true) {text : Text}
    {items : List Item} : Reads (text ++ [c]) items ↔ Reads text items := by
  have hblank : Reads [c] [] := .blank hc .nil
  have hend := continuesLiteral_of_mem_head?_cons (not_continuesLiteral_of_isBlank hc) []
  constructor
  · intro h
    have hopen : openClasses? 0 text = some 0 := by
      have hwhole := h.openClasses?_eq 0
      rw [openClasses?_append, Option.bind_eq_some_iff] at hwhole
      obtain ⟨depth, hdepth, hbehind⟩ := hwhole
      rw [openClasses?_cons_of_isPlain (Text.isPlain_of_isBlank hc)] at hbehind
      exact hdepth.trans hbehind
    obtain ⟨first, others, rfl, hfirst, hothers⟩ := h.exists_of_append hopen hend
    rwa [hothers.unique hblank, List.append_nil]
  · intro h
    rw [← List.append_nil items]
    exact h.append hblank hend

theorem reads_normalizeBlanks_iff {text : Text} {items : List Item} :
    Reads (Text.normalizeBlanks text) items ↔ Reads text items := by
  have htrim : Reads (Text.trim text) items = Reads text items :=
    Text.eq_trim_of_ends (fun text => Reads text items)
      (fun _ _ hc => propext (reads_cons_iff_of_isBlank hc))
      (fun _ _ hc => propext (reads_concat_iff_of_isBlank hc)) text
  rw [← parseItems_eq_ok_iff, ← parseItems_eq_of_respaced (Text.respaced_normalizeBlanks text),
    parseItems_eq_ok_iff, htrim]

/-- Texts that leave no class open are read one by one when they stand side by side. -/
theorem reads_intercalate_iff {contents : List Text}
    (hopen : ∀ content ∈ contents, openClasses? 0 content = some 0) {items : List Item} :
    Reads ([' '].intercalate contents) items ↔
      (∀ content ∈ contents, IsRead content) ∧ items = contents.flatMap itemsOf := by
  induction contents generalizing items with
  | nil =>
      constructor
      · exact fun h => ⟨by simp, h.unique .nil⟩
      · rintro ⟨-, rfl⟩
        exact .nil
  | cons content contents ih =>
      obtain ⟨hfirst, hrest⟩ := List.forall_mem_cons.1 hopen
      rw [List.forall_mem_cons, List.flatMap_cons]
      cases contents with
      | nil =>
          rw [List.intercalate_singleton, List.flatMap_nil, List.append_nil]
          constructor
          · exact fun h => ⟨⟨h.isRead, by simp⟩, h.itemsOf_eq.symm⟩
          · rintro ⟨⟨hread, -⟩, rfl⟩
            exact hread
      | cons next contents =>
          have hspace : continuesLiteral ' ' = false := by decide
          have hend := continuesLiteral_of_mem_head?_cons hspace
            ([' '].intercalate (next :: contents))
          rw [List.intercalate_cons_cons, List.append_assoc, List.singleton_append]
          constructor
          · intro h
            obtain ⟨first, others, rfl, hcontent, hothers⟩ := h.exists_of_append hfirst hend
            obtain ⟨hread, rfl⟩ := (ih hrest).1 ((reads_cons_iff_of_isBlank (by decide)).1 hothers)
            exact ⟨⟨hcontent.isRead, hread⟩, by rw [hcontent.itemsOf_eq]⟩
          · rintro ⟨⟨hcontent, hread⟩, rfl⟩
            exact Reads.append hcontent (.blank (by decide) ((ih hrest).2 ⟨hread, rfl⟩)) hend

theorem parseItems_variant_iff {contents : List Text}
    (hopen : ∀ content ∈ contents, openClasses? 0 content = some 0) {items : List Item} :
    parseItems (Text.normalizeBlanks ([' '].intercalate contents)) = .ok items ↔
      (∀ content ∈ contents, IsRead content) ∧ items = contents.flatMap itemsOf := by
  rw [parseItems_eq_ok_iff, reads_normalizeBlanks_iff, reads_intercalate_iff hopen]

/-! ## Fixed texts and groups -/

/-- Which sequences fixed texts and groups stand for, the texts read as items. -/
def Yields (fragments : List (Fragment Text)) (sequence : List Token) : Prop :=
  ∃ contents, Fragment.Leaves fragments contents ∧
    sequence ∈ sequencesFrom [[]] (contents.flatMap itemsOf)

theorem yields_nil_iff {sequence : List Token} : Yields [] sequence ↔ sequence = [] := by
  simp [Yields, Fragment.leaves_nil_iff, sequencesFrom]

theorem yields_fixed_cons_iff {content : Text} {rest : List (Fragment Text)}
    {sequence : List Token} :
    Yields (.fixed content :: rest) sequence ↔ ∃ first ∈ sequencesFrom [[]] (itemsOf content),
      ∃ tail, Yields rest tail ∧ sequence = first ++ tail := by
  constructor
  · rintro ⟨contents, hleaves, hmem⟩
    obtain ⟨others, hothers, rfl⟩ := Fragment.leaves_fixed_cons_iff.1 hleaves
    rw [List.flatMap_cons, mem_sequencesFrom_append_iff] at hmem
    obtain ⟨first, hfirst, tail, htail, rfl⟩ := hmem
    exact ⟨first, hfirst, tail, ⟨others, hothers, htail⟩, rfl⟩
  · rintro ⟨first, hfirst, tail, ⟨others, hothers, htail⟩, rfl⟩
    refine ⟨content :: others, .fixed hothers, ?_⟩
    rw [List.flatMap_cons, mem_sequencesFrom_append_iff]
    exact ⟨first, hfirst, tail, htail, rfl⟩

theorem yields_group_cons_iff {inner rest : List (Fragment Text)} {sequence : List Token} :
    Yields (.group inner :: rest) sequence ↔ ∃ first tail, (Yields inner first ∨ first = []) ∧
      Yields rest tail ∧ sequence = first ++ tail := by
  constructor
  · rintro ⟨contents, hleaves, hmem⟩
    obtain ⟨kept, others, hkept, hothers, rfl⟩ := Fragment.leaves_group_cons_iff.1 hleaves
    rw [List.flatMap_append, mem_sequencesFrom_append_iff] at hmem
    obtain ⟨first, hfirst, tail, htail, rfl⟩ := hmem
    refine ⟨first, tail, ?_, ⟨others, hothers, htail⟩, rfl⟩
    rcases hkept with hkept | rfl
    · exact .inl ⟨kept, hkept, hfirst⟩
    · exact .inr (by simpa [sequencesFrom] using hfirst)
  · rintro ⟨first, tail, ⟨kept, hkept, hfirst⟩ | rfl, ⟨others, hothers, htail⟩, rfl⟩
    · refine ⟨kept ++ others, .kept hkept hothers, ?_⟩
      rw [List.flatMap_append, mem_sequencesFrom_append_iff]
      exact ⟨first, hfirst, tail, htail, rfl⟩
    · exact ⟨others, .dropped hothers, htail⟩

theorem exists_mem_sequencesFrom {items : List Item} (h : ∀ item ∈ items, item.options ≠ []) :
    ∃ sequence, sequence ∈ sequencesFrom [[]] items := by
  induction items with
  | nil => exact ⟨[], List.mem_singleton_self []⟩
  | cons item items ih =>
      obtain ⟨hitem, hitems⟩ := List.forall_mem_cons.1 h
      obtain ⟨option, hoption⟩ := List.exists_mem_of_ne_nil _ hitem
      obtain ⟨tail, htail⟩ := ih hitems
      exact ⟨option ++ tail, mem_sequencesFrom_cons_iff.2 ⟨option, hoption, tail, htail, rfl⟩⟩

theorem Reads.options_ne_nil {text : Text} {items : List Item} (h : Reads text items) {item : Item}
    (hmem : item ∈ items) : item.options ≠ [] := by
  cases item with
  | literal token => exact List.cons_ne_nil _ _
  | oneOf members => simpa [Item.options] using h.members_ne_nil hmem

theorem exists_yields {fragments : List (Fragment Text)}
    (hread : Fragment.AllOf IsRead fragments) : ∃ sequence, Yields fragments sequence := by
  have hoptions : ∀ item ∈ (Fragment.keptAll fragments).flatMap itemsOf, item.options ≠ [] := by
    intro item hmem
    obtain ⟨content, hcontent, hitem⟩ := List.mem_flatMap.1 hmem
    exact Reads.options_ne_nil (Fragment.allOf_iff_keptAll.1 hread content hcontent) hitem
  obtain ⟨sequence, hsequence⟩ := exists_mem_sequencesFrom hoptions
  exact ⟨sequence, _, Fragment.leaves_keptAll fragments, hsequence⟩

/-! ## Cutting a context side -/

theorem reverse_pushFixed (piece : Text) (fragments : List (Fragment Text)) :
    (pushFixed piece fragments).reverse = fragments.reverse ++ pushFixed piece [] := by
  unfold pushFixed
  split
  · exact (List.append_nil _).symm
  · exact List.reverse_cons

/-- What has been passed and what is left make up the text, wherever the two are parted. -/
theorem reverse_cons_append (c : Char) (piece text : Text) :
    (c :: piece).reverse ++ text = piece.reverse ++ c :: text := by
  rw [List.reverse_cons, List.append_assoc, List.singleton_append]

theorem reads_of_isAllBlank {text : Text} (h : Text.isAllBlank text = true) : Reads text [] := by
  induction text with
  | nil => exact .nil
  | cons c rest ih =>
      rw [Text.isAllBlank, List.all_cons, Bool.and_eq_true] at h
      exact .blank h.1 (ih h.2)

theorem reads_reverse_of_isAllBlank {piece : Text} (h : Text.isAllBlank piece = true) :
    Reads piece.reverse [] := by
  refine reads_of_isAllBlank ?_
  rw [Text.isAllBlank, List.all_reverse]
  exact h

theorem isRead_of_pushFixed {piece : Text} (h : Fragment.AllOf IsRead (pushFixed piece [])) :
    IsRead piece.reverse := by
  unfold pushFixed at h
  split at h
  · rename_i hblank
    exact (reads_reverse_of_isAllBlank hblank).isRead
  · exact h.1

/-- A piece of the side comes before what the fragments behind it stand for. -/
theorem yields_pushFixed_append_iff {piece : Text} {rest : List (Fragment Text)}
    {sequence : List Token} :
    Yields (pushFixed piece [] ++ rest) sequence ↔
      ∃ first ∈ sequencesFrom [[]] (itemsOf piece.reverse), ∃ tail, Yields rest tail ∧
        sequence = first ++ tail := by
  unfold pushFixed
  split
  · rename_i hblank
    rw [(reads_reverse_of_isAllBlank hblank).itemsOf_eq]
    simp [sequencesFrom]
  · exact yields_fixed_cons_iff

/-- Cutting a context side leaves no class open in any of its fixed texts. -/
theorem allOf_openClasses?_of_fragmentLoop {depth : Nat} {piece text : Text}
    {fragments result : List (Fragment Text)}
    (hpiece : openClasses? 0 piece.reverse = some depth)
    (htext : openClasses? depth text = some 0)
    (hfragments : Fragment.AllOf (fun content => openClasses? 0 content = some 0) fragments)
    (h : fragmentLoop depth piece fragments text = .ok result) :
    Fragment.AllOf (fun content => openClasses? 0 content = some 0) result := by
  have hpushed : ∀ {depth : Nat} {piece : Text} {c : Char},
      openClasses? 0 piece.reverse = some depth →
        openClasses? 0 (c :: piece).reverse = openClasses? depth [c] := by
    intro depth piece c hpiece
    rw [List.reverse_cons, openClasses?_append, hpiece, Option.bind_some]
  fun_induction fragmentLoop depth piece fragments text generalizing result with
  | case1 depth piece fragments =>
      cases h
      cases htext
      have hall := Fragment.allOf_iff.1 (allOf_pushFixed hpiece hfragments)
      exact Fragment.allOf_iff.2 fun fragment hmem => hall fragment (List.mem_reverse.1 hmem)
  | case2 depth piece fragments rest ih =>
      exact ih ((hpushed hpiece).trans rfl) htext hfragments h
  | case3 depth piece fragments rest hopen ih =>
      rw [openClasses?, if_neg hopen, if_pos rfl] at htext
      split at htext
      · cases htext
      · rename_i hdepth
        refine ih ((hpushed hpiece).trans ?_) htext hfragments h
        rw [openClasses?, if_neg hopen, if_pos rfl, if_neg hdepth, openClasses?]
  | case4 => cases h
  | case5 => cases h
  | case6 depth piece fragments c rest hopen hsquare hround inside after hclose _ inner hinner
      ihinner ih =>
      obtain ⟨rfl, rfl⟩ := hround
      have hinside := openClasses?_of_closing?_round hclose 0
      rw [openClasses?, if_neg hopen, if_neg hsquare, Text.eq_append_of_closing? hclose,
        openClasses?_append, hinside, Option.bind_some] at htext
      exact ih rfl htext ⟨ihinner rfl hinside trivial hinner, allOf_pushFixed hpiece hfragments⟩ h
  | case7 => cases h
  | case8 depth piece fragments c rest hopen hclose _ _ ih =>
      rw [openClasses?, if_neg hopen, if_neg hclose] at htext
      refine ih ((hpushed hpiece).trans ?_) htext hfragments h
      rw [openClasses?, if_neg hopen, if_neg hclose, openClasses?]

theorem exists_of_fragmentLoop {depth : Nat} {piece text : Text}
    {fragments result : List (Fragment Text)}
    (h : fragmentLoop depth piece fragments text = .ok result) :
    ∃ parts, result = fragments.reverse ++ parts ∧ (Fragment.AllOf IsRead parts →
      ∀ sequence, StandsFor (piece.reverse ++ text) sequence ↔ Yields parts sequence) := by
  fun_induction fragmentLoop depth piece fragments text generalizing result with
  | case1 depth piece fragments =>
      cases h
      refine ⟨pushFixed piece [], reverse_pushFixed piece fragments, fun hread sequence => ?_⟩
      rw [standsFor_append_iff (isRead_of_pushFixed hread) (by simp),
        ← List.append_nil (pushFixed piece []), yields_pushFixed_append_iff]
      simp only [standsFor_nil_iff, yields_nil_iff]
  | case2 depth piece fragments rest ih =>
      obtain ⟨parts, hresult, hparts⟩ := ih h
      exact ⟨parts, hresult, by rwa [reverse_cons_append] at hparts⟩
  | case3 depth piece fragments rest _ ih =>
      obtain ⟨parts, hresult, hparts⟩ := ih h
      exact ⟨parts, hresult, by rwa [reverse_cons_append] at hparts⟩
  | case4 => cases h
  | case5 => cases h
  | case6 depth piece fragments c rest _ _ hround inside after hclose _ inner hinner ihinner ih =>
      obtain ⟨rfl, rfl⟩ := hround
      obtain ⟨innerParts, hinnerParts, hinside⟩ := ihinner hinner
      obtain rfl : inner = innerParts := hinnerParts
      obtain ⟨parts, hresult, hafter⟩ := ih h
      refine ⟨pushFixed piece [] ++ .group inner :: parts, ?_, fun hread sequence => ?_⟩
      · rw [hresult, List.reverse_cons, reverse_pushFixed]
        simp
      · rw [Fragment.allOf_iff, List.forall_mem_append, List.forall_mem_cons] at hread
        obtain ⟨hpieceRead, hinnerRead, hpartsRead⟩ := hread
        have hgroup : ∀ tail, StandsFor ('(' :: rest) tail ↔
            Yields (.group inner :: parts) tail := by
          intro tail
          have hkept : ∀ first, StandsFor inside first ↔ Yields inner first := hinside hinnerRead
          have hbehind : ∀ tail, StandsFor after tail ↔ Yields parts tail :=
            hafter (Fragment.allOf_iff.2 hpartsRead)
          rw [standsFor_group_iff hclose, yields_group_cons_iff]
          simp only [hkept, hbehind, exists_yields hinnerRead, and_true]
        have hopener : continuesLiteral '(' = false := by decide
        have hend := continuesLiteral_of_mem_head?_cons hopener rest
        have hread := isRead_of_pushFixed (Fragment.allOf_iff.2 hpieceRead)
        rw [standsFor_append_iff hread hend, yields_pushFixed_append_iff]
        simp only [hgroup]
  | case7 => cases h
  | case8 depth piece fragments c rest _ _ _ _ ih =>
      obtain ⟨parts, hresult, hparts⟩ := ih h
      exact ⟨parts, hresult, by rwa [reverse_cons_append] at hparts⟩

/-! ## Expanding a context side -/

section ExpandContext

variable {side : ContextSide} {text : Text} {constraints : List Constraint}

/-- The variants of a side are read as what its fragments leave, and expanded to what they stand
for. -/
theorem mem_flatten_iff_yields {fragments : List (Fragment Text)} {found : List (List (List Token))}
    (hopen : Fragment.AllOf (fun content => openClasses? 0 content = some 0) fragments)
    (h : (distinct ((Fragment.enumerate fragments).map fun contents =>
      Text.normalizeBlanks ([' '].intercalate contents))).mapM (fun variant => do
        let items ← parseItems variant
        pure (contextSequences items)) = .ok found) :
    Fragment.AllOf IsRead fragments ∧
      ∀ sequence, sequence ∈ found.flatten ↔ Yields fragments sequence := by
  have hall := mapM_eq_ok_iff.1 h
  have hleft : ∀ contents, Fragment.Leaves fragments contents →
      (∀ content ∈ contents, IsRead content) ∧
        contextSequences (contents.flatMap itemsOf) ∈ found := by
    intro contents hleaves
    obtain ⟨sequences, hsequences, hstep⟩ := exists_right_of_forall₂ hall <|
      mem_distinct.2 (List.mem_map_of_mem (Fragment.mem_enumerate_iff.2 hleaves))
    obtain ⟨items, hitems, hstep⟩ := bind_eq_ok.1 hstep
    cases hstep
    obtain ⟨hread, rfl⟩ := (parseItems_variant_iff (hleaves.all hopen)).1 hitems
    exact ⟨hread, hsequences⟩
  have hright : ∀ sequences ∈ found, ∃ contents, Fragment.Leaves fragments contents ∧
      sequences = contextSequences (contents.flatMap itemsOf) := by
    intro sequences hmem
    obtain ⟨variant, hvariant, hstep⟩ := exists_left_of_forall₂ hall hmem
    obtain ⟨contents, hcontents, rfl⟩ := List.mem_map.1 (mem_distinct.1 hvariant)
    have hleaves := Fragment.mem_enumerate_iff.1 hcontents
    obtain ⟨items, hitems, hstep⟩ := bind_eq_ok.1 hstep
    cases hstep
    obtain ⟨-, rfl⟩ := (parseItems_variant_iff (hleaves.all hopen)).1 hitems
    exact ⟨contents, hleaves, rfl⟩
  constructor
  · have hleaves := Fragment.leaves_keptAll fragments
    exact Fragment.allOf_iff_keptAll.2 (hleft _ hleaves).1
  · intro sequence
    rw [List.mem_flatten]
    constructor
    · rintro ⟨sequences, hsequences, hmem⟩
      obtain ⟨contents, hleaves, rfl⟩ := hright sequences hsequences
      exact ⟨contents, hleaves, mem_distinct.1 hmem⟩
    · rintro ⟨contents, hleaves, hmem⟩
      exact ⟨_, (hleft contents hleaves).2, mem_distinct.2 hmem⟩

theorem exists_fragments_of_expandContext [Limits]
    (h : expandContext side (some text) = .ok constraints) :
    ∃ whole fragments, ∃ found : List (List Token),
      Reads (withoutParentheses text) whole ∧ isVacuous whole = false ∧
      Fragment.AllOf IsRead fragments ∧
      (∀ sequence, StandsFor text sequence ↔ Yields fragments sequence) ∧
      (∀ sequence, sequence ∈ found ↔ Yields fragments sequence) ∧
      constraints = distinct (found.map toConstraint) := by
  obtain ⟨variants, hvariants, h⟩ := bind_eq_ok.1 h
  obtain ⟨fragments, hfragments, hvariants⟩ := bind_eq_ok.1 hvariants
  obtain ⟨whole, hwhole, h⟩ := bind_eq_ok.1 h
  rw [parseItems_eq_ok_iff] at hwhole
  dsimp only at hvariants
  split at hvariants
  · cases hvariants
  cases hvariants
  split at h
  · cases h
  rename_i hvacuous
  obtain ⟨found, hfound, h⟩ := bind_eq_ok.1 h
  cases h
  have htext : openClasses? 0 text = some 0 := by
    rw [← openClasses?_withoutParentheses]
    exact hwhole.openClasses?_eq 0
  have hstart : Fragment.AllOf (fun content => openClasses? 0 content = some 0) [] := trivial
  have hopen := allOf_openClasses?_of_fragmentLoop rfl htext hstart hfragments
  obtain ⟨hread, hyields⟩ := mem_flatten_iff_yields hopen hfound
  obtain ⟨parts, hparts, hstands⟩ := exists_of_fragmentLoop hfragments
  obtain rfl : fragments = parts := hparts
  exact ⟨whole, fragments, found.flatten, hwhole, by simpa using hvacuous, hread, hstands hread,
    hyields, rfl⟩

theorem exists_of_expandContext [Limits] (h : expandContext side (some text) = .ok constraints) :
    ∃ whole, Reads (withoutParentheses text) whole ∧ isVacuous whole = false ∧
      constraints.Nodup ∧ ∀ constraint, constraint ∈ constraints ↔
        ∃ sequence, StandsFor text sequence ∧ toConstraint sequence = constraint := by
  obtain ⟨whole, fragments, found, hwhole, hvacuous, -, hstands, hfound, rfl⟩ :=
    exists_fragments_of_expandContext h
  refine ⟨whole, hwhole, hvacuous, distinct_nodup _, fun constraint => ?_⟩
  simp only [mem_distinct, List.mem_map, hfound, hstands]

theorem exists_standsFor_of_expandContext [Limits]
    (h : expandContext side (some text) = .ok constraints) :
    ∃ sequence, StandsFor text sequence := by
  obtain ⟨-, fragments, -, -, -, hread, hstands, -, -⟩ := exists_fragments_of_expandContext h
  obtain ⟨sequence, hsequence⟩ := exists_yields hread
  exact ⟨sequence, (hstands sequence).2 hsequence⟩

theorem toConstraint_eq_some_iff {sequence tokens : List Token} :
    toConstraint sequence = some tokens ↔ tokens ≠ [] ∧ sequence = tokens := by
  cases sequence with
  | nil =>
      constructor
      · intro h
        cases h
      · rintro ⟨hne, rfl⟩
        exact absurd rfl hne
  | cons token rest =>
      constructor
      · intro h
        cases h
        exact ⟨List.cons_ne_nil token rest, rfl⟩
      · rintro ⟨-, rfl⟩
        rfl

theorem toConstraint_eq_none_iff {sequence : List Token} :
    toConstraint sequence = none ↔ sequence = [] := by
  simp [toConstraint]

theorem nil_mem_sequencesFrom_iff {items : List Item} :
    [] ∈ sequencesFrom [[]] items ↔ ∀ item ∈ items, [] ∈ item.options := by
  induction items with
  | nil => simp [sequencesFrom]
  | cons item items ih =>
      rw [mem_sequencesFrom_cons_iff, List.forall_mem_cons, ← ih]
      constructor
      · rintro ⟨option, hoption, tail, htail, hnil⟩
        obtain ⟨rfl, rfl⟩ := List.append_eq_nil_iff.1 hnil.symm
        exact ⟨hoption, htail⟩
      · rintro ⟨hoption, htail⟩
        exact ⟨[], hoption, [], htail, rfl⟩

theorem isVacuous_of_nil_mem {items : List Item} (hne : items ≠ [])
    (h : [] ∈ sequencesFrom [[]] items) : isVacuous items = true := by
  rw [isVacuous, Bool.and_eq_true, Bool.not_eq_true', List.isEmpty_eq_false_iff, List.all_eq_true]
  refine ⟨hne, fun item hmem => ?_⟩
  have hoption := nil_mem_sequencesFrom_iff.1 h item hmem
  cases item with
  | literal token => cases List.mem_singleton.1 hoption
  | oneOf members =>
      obtain ⟨member, hmember, hnone⟩ := List.mem_map.1 hoption
      cases member with
      | none => simpa using hmember
      | some token => cases hnone

theorem isAllBlank_of_reads_nil (h : Reads text []) : Text.isAllBlank text = true := by
  generalize hitems : ([] : List Item) = items at h
  induction h with
  | nil => rfl
  | blank hc hrest ih =>
      rw [Text.isAllBlank, List.all_cons, hc, Bool.true_and]
      exact ih hitems
  | literal => cases hitems
  | oneOf => cases hitems

/-- The expansion of a context side is what the side means: each sequence the side stands for,
once, where the empty one is no constraint at all.  Only a side with groups, or a blank one, can
leave no constraint. -/
theorem expandContext_standsFor [Limits] (h : expandContext side (some text) = .ok constraints) :
    constraints.Nodup ∧
      (∀ sequence, some sequence ∈ constraints ↔ sequence ≠ [] ∧ StandsFor text sequence) ∧
      (none ∈ constraints ↔ StandsFor text []) ∧
      (Text.isAllBlank text = false → '(' ∉ text → ')' ∉ text → none ∉ constraints) := by
  obtain ⟨whole, hwhole, hvacuous, hnodup, hmem⟩ := exists_of_expandContext h
  have hnone : none ∈ constraints ↔ StandsFor text [] := by
    simp only [hmem, toConstraint_eq_none_iff, exists_eq_right]
  refine ⟨hnodup, fun sequence => ?_, hnone, fun hblank hopen hclose hmember => ?_⟩
  · rw [hmem]
    constructor
    · rintro ⟨found, hfound, hsequence⟩
      obtain ⟨hne, rfl⟩ := toConstraint_eq_some_iff.1 hsequence
      exact ⟨hne, hfound⟩
    · rintro ⟨hne, hstands⟩
      exact ⟨sequence, hstands, toConstraint_eq_some_iff.2 ⟨hne, rfl⟩⟩
  · -- Without groups the side is read as a whole, and the check on it rules the empty sequence out.
    have hsame : withoutParentheses text = text := by
      refine (List.map_congr_left fun c hc => ?_).trans (List.map_id text)
      have hround : c ≠ '(' ∧ c ≠ ')' :=
        ⟨fun heq => hopen (heq ▸ hc), fun heq => hclose (heq ▸ hc)⟩
      simp [hround]
    rw [hsame] at hwhole
    have hread : StandsFor text [] := hnone.1 hmember
    rw [← List.append_nil text, standsFor_append_iff hwhole (by simp)] at hread
    obtain ⟨first, hfirst, tail, -, hnil⟩ := hread
    obtain ⟨rfl, -⟩ := List.append_eq_nil_iff.1 hnil.symm
    have hne : whole ≠ [] := by
      rintro rfl
      rw [isAllBlank_of_reads_nil hwhole] at hblank
      cases hblank
    rw [isVacuous_of_nil_mem hne hfirst] at hvacuous
    cases hvacuous

/-- A dropped group takes the one nested in it along, and with the empty option nothing is left
of the side; a class before a boundary leaves at least that. -/
theorem expandContext_standsFor_cluster :
    (expandContext .left (some "(s (p)) [t _]".toList) =
        .ok [some ["s", "p", "t"], some ["s", "p"], some ["s", "t"], some ["s"], some ["t"], none] ∧
      StandsFor "(s (p)) [t _]".toList ["s", "t"] ∧ StandsFor "(s (p)) [t _]".toList [] ∧
      ¬ StandsFor "(s (p)) [t _]".toList ["p", "t"]) ∧
    expandContext .right (some "[a _]#".toList) = .ok [some ["a", "#"], some ["#"]] ∧
      none ∉ [some ["a", "#"], some ["#"]] := by
  have hgroups : expandContext .left (some "(s (p)) [t _]".toList) = .ok [some ["s", "p", "t"],
      some ["s", "p"], some ["s", "t"], some ["s"], some ["t"], none] := by cbv
  have hplain : expandContext .right (some "[a _]#".toList) =
      .ok [some ["a", "#"], some ["#"]] := by cbv
  obtain ⟨-, hsome, hnone, -⟩ := expandContext_standsFor hgroups
  obtain ⟨-, -, -, hconstrained⟩ := expandContext_standsFor hplain
  refine ⟨⟨hgroups, ((hsome _).1 (by decide)).2, hnone.1 (by decide), fun hstands => ?_⟩, hplain,
    hconstrained (by decide) (by decide) (by decide)⟩
  exact absurd ((hsome _).2 ⟨List.cons_ne_nil _ _, hstands⟩) (by decide)

end ExpandContext

end Diachrony.RuleText
