import Diachrony.Proofs.Computation
import Diachrony.Proofs.ItemGrammar
import Diachrony.RuleText.Context

/-!
# The grammar of a context side

`StandsFor text sequence` says what a context side means without reading it twice: words stand
for themselves, a class for any one of its members, and a group for what is in it or for nothing
at all.  A bracket is found to belong to its partner by what stands between the two.
-/

namespace Diachrony.RuleText

/-- The member that a word of a class is: the marks are the empty option. -/
def memberOf (token : Token) : Option Token :=
  if token = emptyMark ∨ token = nullMark then none else some token

/-- Which members are listed between the brackets of a class.  A class inside contributes its
members, and it has some. -/
inductive Lists : Text → List (Option Token) → Prop
  | nil : Lists [] []
  | blank {c : Char} {rest : Text} {members : List (Option Token)}
      (hc : Text.isBlank c = true) (hrest : Lists rest members) : Lists (c :: rest) members
  | word {word rest : Text} {members : List (Option Token)} (hne : word ≠ [])
      (hword : ∀ c ∈ word, continuesLiteral c = true)
      (hend : ∀ c ∈ rest.head?, continuesLiteral c = false) (hrest : Lists rest members) :
      Lists (word ++ rest) (memberOf (String.ofList word) :: members)
  | oneOf {inside after : Text} {inner members : List (Option Token)} (hne : inner ≠ [])
      (hinside : Lists inside inner) (hafter : Lists after members) :
      Lists ('[' :: (inside ++ ']' :: after)) (inner ++ members)

/-- Which token sequences a context side stands for.  What a dropped group has in it is to be a
context side as well, but does not matter further. -/
inductive StandsFor : Text → List Token → Prop
  | nil : StandsFor [] []
  | blank {c : Char} {rest : Text} {sequence : List Token} (hc : Text.isBlank c = true)
      (hrest : StandsFor rest sequence) : StandsFor (c :: rest) sequence
  | word {word rest : Text} {sequence : List Token} (hne : word ≠ [])
      (hword : ∀ c ∈ word, continuesLiteral c = true)
      (hend : ∀ c ∈ rest.head?, continuesLiteral c = false) (hrest : StandsFor rest sequence) :
      StandsFor (word ++ rest) (String.ofList word :: sequence)
  | oneOf {inside after : Text} {members : List (Option Token)} {member : Option Token}
      {sequence : List Token} (hinside : Lists inside members) (hmember : member ∈ members)
      (hafter : StandsFor after sequence) :
      StandsFor ('[' :: (inside ++ ']' :: after)) (member.toList ++ sequence)
  | kept {inside after : Text} {first sequence : List Token} (hinside : StandsFor inside first)
      (hafter : StandsFor after sequence) :
      StandsFor ('(' :: (inside ++ ')' :: after)) (first ++ sequence)
  | dropped {inside after : Text} {content sequence : List Token}
      (hinside : StandsFor inside content) (hafter : StandsFor after sequence) :
      StandsFor ('(' :: (inside ++ ')' :: after)) sequence

/-! ## Nested texts -/

/-- Whether a walk to the partner of a bracket goes over a text and comes out at the same
depth. -/
def IsNested (text : Text) : Prop :=
  ∀ (passed : Text) (pending : List Bracket) (rest : Text), pending ≠ [] →
    Text.closingLoop passed pending (text ++ rest) =
      Text.closingLoop (text.reverse ++ passed) pending rest

namespace IsNested

theorem nil : IsNested [] := fun _ _ _ _ => rfl

theorem append {text other : Text} (h : IsNested text) (hother : IsNested other) :
    IsNested (text ++ other) := by
  intro passed pending rest hpending
  rw [List.append_assoc, h _ _ _ hpending, hother _ _ _ hpending, List.reverse_append,
    List.append_assoc]

theorem plain {text : Text} (htext : ∀ c ∈ text, Bracket.IsPlain c) : IsNested text := by
  induction text with
  | nil => exact .nil
  | cons c rest ih =>
      obtain ⟨⟨hopened, hclosed⟩, hrest⟩ := List.forall_mem_cons.1 htext
      intro passed pending behind hpending
      rw [List.cons_append, Text.closingLoop]
      simp only [hopened, hclosed]
      rw [ih hrest _ _ _ hpending, List.reverse_cons, List.append_assoc, List.singleton_append]

theorem bracketed {opener : Char} {inside : Text} (h : IsNested inside) (kind : Bracket)
    (hopener : Bracket.opened? opener = some kind) :
    IsNested (opener :: (inside ++ [kind.closer])) := by
  intro passed pending rest hpending
  rw [List.cons_append, Text.closingLoop]
  simp only [hopener]
  rw [List.append_assoc, h _ _ _ (List.cons_ne_nil kind pending), List.singleton_append,
    Text.closingLoop]
  simp [Bracket.opened?_closer, Bracket.closed?_closer, hpending]

theorem closing? {inside : Text} (h : IsNested inside) (kind : Bracket) (after : Text) :
    Text.closing? kind (inside ++ kind.closer :: after) = some (inside, after) := by
  rw [Text.closing?, h _ _ _ (List.cons_ne_nil kind []), Text.closingLoop]
  simp [Bracket.opened?_closer, Bracket.closed?_closer]

end IsNested

theorem isNested_singleton_of_isBlank {c : Char} (hc : Text.isBlank c = true) : IsNested [c] :=
  .plain (List.forall_mem_singleton.2 (Text.isPlain_of_isBlank hc))

theorem isNested_of_word {word : Text} (hword : ∀ c ∈ word, continuesLiteral c = true) :
    IsNested word :=
  .plain fun c hc => isPlain_of_continuesLiteral (hword c hc)

theorem Reads.isNested {text : Text} {items : List Item} (h : Reads text items) :
    IsNested text := by
  induction h with
  | nil => exact .nil
  | blank hc hrest ih => exact (isNested_singleton_of_isBlank hc).append ih
  | literal hne hword hend hrest ih => exact (isNested_of_word hword).append ih
  | @oneOf rest inside after inner items members hclose hinside hmembers hafter ihinside ihafter =>
      have hclass : IsNested ('[' :: (inside ++ [Bracket.square.closer])) :=
        ihinside.bracketed .square rfl
      rw [Text.eq_append_of_closing? hclose]
      simpa using hclass.append ihafter

/-! ## Classes -/

theorem Reads.closing?_append {text inside after : Text} {inner : List Item}
    (h : Reads inside inner) (hclose : Text.closing? .square text = some (inside, after))
    (rest : Text) : Text.closing? .square (text ++ rest) = some (inside, after ++ rest) := by
  rw [Text.eq_append_of_closing? hclose, List.append_assoc, List.cons_append]
  exact h.isNested.closing? .square _

theorem continuesLiteral_of_mem_head?_cons {c : Char} (hc : continuesLiteral c = false)
    (rest : Text) : ∀ d ∈ (c :: rest).head?, continuesLiteral d = false := by
  intro d hd
  cases hd
  exact hc

theorem continuesLiteral_of_mem_head?_append {text rest : Text}
    (htext : ∀ c ∈ text.head?, continuesLiteral c = false)
    (hrest : ∀ c ∈ rest.head?, continuesLiteral c = false) :
    ∀ c ∈ (text ++ rest).head?, continuesLiteral c = false := by
  cases text with
  | nil => exact hrest
  | cons c text => exact htext

theorem contributed_literal (token : Token) :
    (Item.literal token).contributed = [memberOf token] := by
  simp [Item.contributed, memberOf]

theorem lists_iff {inside : Text} {members : List (Option Token)} :
    Lists inside members ↔
      ∃ inner, Reads inside inner ∧ members = inner.flatMap Item.contributed := by
  constructor
  · intro h
    induction h with
    | nil => exact ⟨[], .nil, rfl⟩
    | blank hc hrest ih =>
        obtain ⟨inner, hinner, rfl⟩ := ih
        exact ⟨inner, .blank hc hinner, rfl⟩
    | word hne hword hend hrest ih =>
        obtain ⟨inner, hinner, rfl⟩ := ih
        refine ⟨_, .literal hne hword hend hinner, ?_⟩
        rw [List.flatMap_cons, contributed_literal, List.singleton_append]
    | oneOf hne hinside hafter ihinside ihafter =>
        obtain ⟨inner, hinner, rfl⟩ := ihinside
        obtain ⟨others, hothers, rfl⟩ := ihafter
        have hmembers := classMembers_eq_ok_iff.2 ⟨hne, rfl⟩
        exact ⟨_, .oneOf (hinner.isNested.closing? .square _) hinner hmembers hothers, rfl⟩
  · rintro ⟨inner, hinner, rfl⟩
    induction hinner with
    | nil => exact .nil
    | blank hc hrest ih => exact .blank hc ih
    | literal hne hword hend hrest ih =>
        rw [List.flatMap_cons, contributed_literal]
        exact .word hne hword hend ih
    | oneOf hclose hinside hmembers hafter ihinside ihafter =>
        obtain ⟨hne, rfl⟩ := classMembers_eq_ok_iff.1 hmembers
        rw [Text.eq_append_of_closing? hclose]
        exact .oneOf hne ihinside ihafter

theorem Reads.unique {text : Text} {items others : List Item} (h : Reads text items)
    (hothers : Reads text others) : items = others :=
  Except.ok.inj ((parseItems_eq_ok_iff.2 h).symm.trans (parseItems_eq_ok_iff.2 hothers))

/-! ## What the parts of a context side stand for -/

theorem StandsFor.isNested {text : Text} {sequence : List Token} (h : StandsFor text sequence) :
    IsNested text := by
  induction h with
  | nil => exact .nil
  | blank hc hrest ih => exact (isNested_singleton_of_isBlank hc).append ih
  | word hne hword hend hrest ih => exact (isNested_of_word hword).append ih
  | @oneOf inside after members member sequence hinside hmember hafter ih =>
      obtain ⟨inner, hinner, -⟩ := lists_iff.1 hinside
      have hclass : IsNested ('[' :: (inside ++ [']'])) := hinner.isNested.bracketed .square rfl
      simpa using hclass.append ih
  | @kept inside after first sequence hinside hafter ihinside ihafter
  | @dropped inside after content sequence hinside hafter ihinside ihafter =>
      have hgroup : IsNested ('(' :: (inside ++ [')'])) := ihinside.bracketed .round rfl
      simpa using hgroup.append ihafter

theorem standsFor_nil_iff {sequence : List Token} : StandsFor [] sequence ↔ sequence = [] := by
  constructor
  · intro h
    generalize htext : ([] : Text) = text at h
    cases h with
    | nil => rfl
    | word hne hword hend hrest => exact absurd (List.append_eq_nil_iff.1 htext.symm).1 hne
    | _ => cases htext
  · rintro rfl
    exact .nil

/-- The first character of a context side says which part it begins with. -/
theorem StandsFor.cons_cases {c : Char} {rest : Text} {sequence : List Token}
    (h : StandsFor (c :: rest) sequence) :
    (Text.isBlank c = true ∧ StandsFor rest sequence) ∨
    (continuesLiteral c = true ∧ ∃ word after tail, rest = word ++ after ∧
      (∀ d ∈ word, continuesLiteral d = true) ∧
      (∀ d ∈ after.head?, continuesLiteral d = false) ∧ StandsFor after tail ∧
      sequence = String.ofList (c :: word) :: tail) ∨
    (c = '[' ∧ ∃ inside after members tail, rest = inside ++ ']' :: after ∧
      Lists inside members ∧ (∃ member ∈ members, sequence = member.toList ++ tail) ∧
      StandsFor after tail) ∨
    (c = '(' ∧ ∃ inside after first tail, rest = inside ++ ')' :: after ∧
      (StandsFor inside first ∨ first = [] ∧ ∃ content, StandsFor inside content) ∧
      StandsFor after tail ∧ sequence = first ++ tail) := by
  generalize htext : c :: rest = text at h
  cases h with
  | nil => cases htext
  | blank hc hrest =>
      cases htext
      exact .inl ⟨hc, hrest⟩
  | word hne hword hend hrest =>
      obtain ⟨d, word, rfl⟩ := List.exists_cons_of_ne_nil hne
      cases htext
      obtain ⟨hd, hword⟩ := List.forall_mem_cons.1 hword
      exact .inr (.inl ⟨hd, word, _, _, rfl, hword, hend, hrest, rfl⟩)
  | oneOf hinside hmember hafter =>
      cases htext
      exact .inr (.inr (.inl ⟨rfl, _, _, _, _, rfl, hinside, ⟨_, hmember, rfl⟩, hafter⟩))
  | kept hinside hafter =>
      cases htext
      exact .inr (.inr (.inr ⟨rfl, _, _, _, _, rfl, .inl hinside, hafter, rfl⟩))
  | dropped hinside hafter =>
      cases htext
      exact .inr (.inr (.inr ⟨rfl, _, _, [], _, rfl, .inr ⟨rfl, _, hinside⟩, hafter, rfl⟩))

theorem standsFor_cons_iff_of_isBlank {c : Char} (hc : Text.isBlank c = true) {rest : Text}
    {sequence : List Token} : StandsFor (c :: rest) sequence ↔ StandsFor rest sequence := by
  refine ⟨fun h => ?_, .blank hc⟩
  rcases h.cons_cases with ⟨-, hrest⟩ | ⟨hword, -⟩ | ⟨rfl, -⟩ | ⟨rfl, -⟩
  · exact hrest
  · rw [(continuesLiteral_eq_true_iff.1 hword).1] at hc
    cases hc
  · exact absurd hc (by decide)
  · exact absurd hc (by decide)

theorem standsFor_word_append_iff {word rest : Text} (hne : word ≠ [])
    (hword : ∀ c ∈ word, continuesLiteral c = true)
    (hend : ∀ c ∈ rest.head?, continuesLiteral c = false) {sequence : List Token} :
    StandsFor (word ++ rest) sequence ↔
      ∃ option ∈ (Item.literal (String.ofList word)).options, ∃ tail, StandsFor rest tail ∧
        sequence = option ++ tail := by
  simp only [Item.options, List.mem_singleton, exists_eq_left, List.singleton_append]
  constructor
  · intro h
    obtain ⟨c, word, rfl⟩ := List.exists_cons_of_ne_nil hne
    obtain ⟨hc, hword⟩ := List.forall_mem_cons.1 hword
    rcases h.cons_cases with ⟨hblank, -⟩ |
      ⟨-, other, after, tail, htext, hother, hstop, htail, rfl⟩ | ⟨rfl, -⟩ | ⟨rfl, -⟩
    · rw [(continuesLiteral_eq_true_iff.1 hc).1] at hblank
      cases hblank
    · replace htext : word ++ rest = other ++ after := htext
      obtain rfl : word = other := by
        have hfirst := Text.takeWhile_append_of_head hword hend
        have hsecond := Text.takeWhile_append_of_head hother hstop
        rw [← hfirst, ← hsecond, htext]
      rw [List.append_cancel_left htext]
      exact ⟨tail, htail, rfl⟩
    · exact absurd hc (by decide)
    · exact absurd hc (by decide)
  · rintro ⟨tail, htail, rfl⟩
    exact .word hne hword hend htail

theorem standsFor_class_iff {rest inside after : Text} {inner : List Item}
    {members : List (Option Token)} (hclose : Text.closing? .square rest = some (inside, after))
    (hinside : Reads inside inner) (hmembers : classMembers inner = .ok members)
    {sequence : List Token} :
    StandsFor ('[' :: rest) sequence ↔
      ∃ option ∈ (Item.oneOf members).options, ∃ tail, StandsFor after tail ∧
        sequence = option ++ tail := by
  obtain ⟨-, hmembers⟩ := classMembers_eq_ok_iff.1 hmembers
  simp only [Item.options, List.mem_map, exists_exists_and_eq_and]
  constructor
  · intro h
    rcases h.cons_cases with ⟨hblank, -⟩ | ⟨hword, -⟩ |
      ⟨-, found, behind, others, tail, rfl, hlists, ⟨member, hmember, rfl⟩, htail⟩ | ⟨hround, -⟩
    · exact absurd hblank (by decide)
    · exact absurd hword (by decide)
    · obtain ⟨items, hitems, rfl⟩ := lists_iff.1 hlists
      cases (hitems.isNested.closing? .square behind).symm.trans hclose
      rw [hitems.unique hinside, ← hmembers] at hmember
      exact ⟨member, hmember, tail, htail, rfl⟩
    · exact absurd hround (by decide)
  · rintro ⟨member, hmember, tail, htail, rfl⟩
    rw [Text.eq_append_of_closing? hclose]
    exact .oneOf (lists_iff.2 ⟨inner, hinside, hmembers⟩) hmember htail

theorem standsFor_group_iff {rest inside after : Text}
    (hclose : Text.closing? .round rest = some (inside, after)) {sequence : List Token} :
    StandsFor ('(' :: rest) sequence ↔
      ∃ first tail, (StandsFor inside first ∨ first = [] ∧ ∃ content, StandsFor inside content) ∧
        StandsFor after tail ∧ sequence = first ++ tail := by
  constructor
  · intro h
    rcases h.cons_cases with ⟨hblank, -⟩ | ⟨hword, -⟩ | ⟨hsquare, -⟩ |
      ⟨-, found, behind, first, tail, rfl, hfirst, htail, rfl⟩
    · exact absurd hblank (by decide)
    · exact absurd hword (by decide)
    · exact absurd hsquare (by decide)
    · have hnested : IsNested found := by
        rcases hfirst with hfirst | ⟨-, content, hcontent⟩
        · exact hfirst.isNested
        · exact hcontent.isNested
      cases (hnested.closing? .round behind).symm.trans hclose
      exact ⟨first, tail, hfirst, htail, rfl⟩
  · rintro ⟨first, tail, hfirst, htail, rfl⟩
    rw [Text.eq_append_of_closing? hclose]
    rcases hfirst with hfirst | ⟨rfl, content, hcontent⟩
    · exact .kept hfirst htail
    · exact .dropped hcontent htail

/-! ## What items stand for -/

theorem mem_sequencesFrom_iff {sequences : List (List Token)} {items : List Item}
    {sequence : List Token} :
    sequence ∈ sequencesFrom sequences items ↔
      ∃ first ∈ sequences, ∃ tail ∈ sequencesFrom [[]] items, sequence = first ++ tail := by
  induction items generalizing sequences sequence with
  | nil => simp [sequencesFrom]
  | cons item items ih =>
      have hextended : ∀ {starts : List (List Token)} {sequence : List Token},
          sequence ∈ sequencesFrom starts (item :: items) ↔ ∃ start ∈ starts,
            ∃ option ∈ item.options, ∃ tail ∈ sequencesFrom [[]] items,
              sequence = start ++ (option ++ tail) := by
        intro starts sequence
        rw [sequencesFrom, ih]
        simp only [List.mem_flatMap, List.mem_map]
        constructor
        · rintro ⟨_, ⟨start, hstart, option, hoption, rfl⟩, tail, htail, rfl⟩
          exact ⟨start, hstart, option, hoption, tail, htail, List.append_assoc ..⟩
        · rintro ⟨start, hstart, option, hoption, tail, htail, rfl⟩
          exact ⟨start ++ option, ⟨start, hstart, option, hoption, rfl⟩, tail, htail,
            (List.append_assoc ..).symm⟩
      simp only [hextended, List.mem_singleton, exists_eq_left, List.nil_append]
      constructor
      · rintro ⟨start, hstart, option, hoption, tail, htail, rfl⟩
        exact ⟨start, hstart, _, ⟨option, hoption, tail, htail, rfl⟩, rfl⟩
      · rintro ⟨start, hstart, _, ⟨option, hoption, tail, htail, rfl⟩, rfl⟩
        exact ⟨start, hstart, option, hoption, tail, htail, rfl⟩

theorem mem_sequencesFrom_cons_iff {item : Item} {items : List Item} {sequence : List Token} :
    sequence ∈ sequencesFrom [[]] (item :: items) ↔
      ∃ option ∈ item.options, ∃ tail ∈ sequencesFrom [[]] items, sequence = option ++ tail := by
  rw [sequencesFrom, mem_sequencesFrom_iff]
  simp

theorem mem_sequencesFrom_append_iff {items others : List Item} {sequence : List Token} :
    sequence ∈ sequencesFrom [[]] (items ++ others) ↔
      ∃ first ∈ sequencesFrom [[]] items, ∃ tail ∈ sequencesFrom [[]] others,
        sequence = first ++ tail := by
  induction items generalizing sequence with
  | nil => simp [sequencesFrom]
  | cons item items ih =>
      simp only [List.cons_append, mem_sequencesFrom_cons_iff, ih]
      constructor
      · rintro ⟨option, hoption, _, ⟨first, hfirst, tail, htail, rfl⟩, rfl⟩
        exact ⟨option ++ first, ⟨option, hoption, first, hfirst, rfl⟩, tail, htail,
          (List.append_assoc ..).symm⟩
      · rintro ⟨_, ⟨option, hoption, first, hfirst, rfl⟩, tail, htail, rfl⟩
        exact ⟨option, hoption, first ++ tail, ⟨first, hfirst, tail, htail, rfl⟩,
          List.append_assoc ..⟩

/-- A text that is read as items stands for the options of these, and the rest follows. -/
theorem standsFor_append_iff {text rest : Text} {items : List Item} (h : Reads text items)
    (hend : ∀ c ∈ rest.head?, continuesLiteral c = false) {sequence : List Token} :
    StandsFor (text ++ rest) sequence ↔
      ∃ first ∈ sequencesFrom [[]] items, ∃ tail, StandsFor rest tail ∧
        sequence = first ++ tail := by
  -- One more item in front: an option of it comes before what the others stand for.
  have hcons : ∀ {text behind : Text} {item : Item} {items : List Item},
      (∀ {sequence}, StandsFor text sequence ↔ ∃ option ∈ item.options, ∃ tail,
        StandsFor behind tail ∧ sequence = option ++ tail) →
      (∀ {sequence}, StandsFor behind sequence ↔ ∃ first ∈ sequencesFrom [[]] items, ∃ tail,
        StandsFor rest tail ∧ sequence = first ++ tail) →
      ∀ {sequence}, StandsFor text sequence ↔ ∃ first ∈ sequencesFrom [[]] (item :: items),
        ∃ tail, StandsFor rest tail ∧ sequence = first ++ tail := by
    intro text behind item items hitem hitems sequence
    simp only [hitem, hitems, mem_sequencesFrom_cons_iff]
    constructor
    · rintro ⟨option, hoption, _, ⟨first, hfirst, tail, htail, rfl⟩, rfl⟩
      exact ⟨option ++ first, ⟨option, hoption, first, hfirst, rfl⟩, tail, htail,
        (List.append_assoc ..).symm⟩
    · rintro ⟨_, ⟨option, hoption, first, hfirst, rfl⟩, tail, htail, rfl⟩
      exact ⟨option, hoption, first ++ tail, ⟨first, hfirst, tail, htail, rfl⟩,
        List.append_assoc ..⟩
  induction h generalizing sequence with
  | nil => simp [sequencesFrom]
  | blank hc hrest ih =>
      rw [List.cons_append, standsFor_cons_iff_of_isBlank hc]
      exact ih
  | @literal word text items hne hword hstop hrest ih =>
      have hhead := continuesLiteral_of_mem_head?_append hstop hend
      rw [List.append_assoc]
      exact hcons (standsFor_word_append_iff hne hword hhead) ih
  | @oneOf text inside after inner items members hclose hinside hmembers hafter ihinside ihafter =>
      have hbehind := hinside.closing?_append hclose rest
      exact hcons (standsFor_class_iff hbehind hinside hmembers) ihafter

end Diachrony.RuleText
