import Diachrony.Proofs.Nesting
import Diachrony.RuleText.Item

/-!
# The grammar of a rule side

`Reads text items` says which texts are read as which items: blanks separate, a word is a
maximal run of characters that continue a literal, and a class is a bracketed text that is
read as its members.  `parseItems` follows the grammar exactly.
-/

namespace Diachrony.RuleText

/-- Which items a text is read as. -/
inductive Reads : Text → List Item → Prop
  | nil : Reads [] []
  | blank {c : Char} {rest : Text} {items : List Item} (hc : Text.isBlank c = true)
      (hrest : Reads rest items) : Reads (c :: rest) items
  | literal {word rest : Text} {items : List Item} (hne : word ≠ [])
      (hword : ∀ c ∈ word, continuesLiteral c = true)
      (hend : ∀ c ∈ rest.head?, continuesLiteral c = false) (hrest : Reads rest items) :
      Reads (word ++ rest) (.literal (String.ofList word) :: items)
  | oneOf {rest inside after : Text} {inner items : List Item} {members : List (Option Token)}
      (hclose : Text.closing? .square rest = some (inside, after)) (hinside : Reads inside inner)
      (hmembers : classMembers inner = .ok members) (hafter : Reads after items) :
      Reads ('[' :: rest) (.oneOf members :: items)

theorem continuesLiteral_eq_true_iff {c : Char} :
    continuesLiteral c = true ↔ Text.isBlank c = false ∧ c ∉ ['[', ']', '(', ')'] := by
  simp [continuesLiteral]

theorem isPlain_of_continuesLiteral {c : Char} (hc : continuesLiteral c = true) :
    Bracket.IsPlain c :=
  Bracket.isPlain_of_not_mem (continuesLiteral_eq_true_iff.1 hc).2

theorem exists_reads_of_itemLoop {before result : List Item} {text : Text}
    (h : itemLoop before text = .ok result) :
    ∃ items, result = before.reverse ++ items ∧ Reads text items := by
  fun_induction itemLoop before text generalizing result with
  | case1 before =>
      cases h
      exact ⟨[], by simp, .nil⟩
  | case2 before c rest hblank ih =>
      obtain ⟨items, hresult, hrest⟩ := ih h
      exact ⟨items, hresult, .blank hblank hrest⟩
  | case3 => cases h
  | case4 => cases h
  | case5 => cases h
  | case6 before rest inside after hclose _ inner hinner members hmembers _ ihinner ih =>
      obtain ⟨others, rfl, hinside⟩ := ihinner hinner
      obtain ⟨items, hresult, hafter⟩ := ih h
      exact ⟨.oneOf members :: items, by simp [hresult], .oneOf hclose hinside hmembers hafter⟩
  | case7 => cases h
  | case8 => cases h
  | case9 before c rest hblank hopen hclose hround hlt ih =>
      obtain ⟨items, hresult, hrest⟩ := ih h
      have hc : continuesLiteral c = true := by
        simp only [not_or] at hround
        simp [continuesLiteral, hblank, hopen, hclose, hround]
      have hword : ∀ d ∈ c :: rest.takeWhile continuesLiteral, continuesLiteral d = true := by
        intro d hd
        rcases List.mem_cons.1 hd with rfl | hd
        · exact hc
        · exact List.mem_takeWhile_imp hd
      have hend : ∀ d ∈ (rest.dropWhile continuesLiteral).head?, continuesLiteral d = false :=
        fun d hd => Text.eq_false_of_mem_head?_dropWhile hd
      have hreads := Reads.literal (List.cons_ne_nil c _) hword hend hrest
      rw [List.cons_append, List.takeWhile_append_dropWhile] at hreads
      exact ⟨_, by rw [hresult]; simp, hreads⟩

theorem Reads.itemLoop_eq {text : Text} {items : List Item} (h : Reads text items)
    (before : List Item) : itemLoop before text = .ok (before.reverse ++ items) := by
  induction h generalizing before with
  | nil => simp [itemLoop]
  | blank hc hrest ih =>
      rw [itemLoop, if_pos hc]
      exact ih before
  | @literal word rest items hne hword hend hrest ih =>
      obtain ⟨c, word, rfl⟩ := List.exists_cons_of_ne_nil hne
      obtain ⟨hc, hword⟩ := List.forall_mem_cons.1 hword
      obtain ⟨hblank, hplain⟩ := continuesLiteral_eq_true_iff.1 hc
      have htake : (word ++ rest).takeWhile continuesLiteral = word :=
        Text.takeWhile_append_of_head hword hend
      have hdrop : (word ++ rest).dropWhile continuesLiteral = rest :=
        Text.dropWhile_append_of_head hword hend
      simp only [List.mem_cons, List.not_mem_nil, or_false, not_or] at hplain
      rw [List.cons_append, itemLoop]
      simp only [hblank, hplain, htake, hdrop, ih]
      simp
  | @oneOf rest inside after inner items members hclose hinside hmembers hafter ihinside ihafter =>
      rw [itemLoop, if_neg (by decide), if_pos rfl]
      split
      · rename_i hnone
        rw [hclose] at hnone
        cases hnone
      · rename_i inside' after' hsome
        rw [hclose] at hsome
        cases hsome
        simp [ihinside, hmembers, ihafter]

/-- Parsing follows the grammar. -/
theorem parseItems_eq_ok_iff {text : Text} {items : List Item} :
    parseItems text = .ok items ↔ Reads text items := by
  constructor
  · intro h
    obtain ⟨items', rfl, hreads⟩ := exists_reads_of_itemLoop h
    exact hreads
  · intro h
    exact h.itemLoop_eq []

/-! ## What is said of the words of a text holds of its items -/

/-- Whether all tokens of an item have a property; the empty option is not a token. -/
def Item.All (holds : Token → Prop) : Item → Prop
  | literal token => holds token
  | oneOf members => ∀ token, some token ∈ members → holds token

theorem Item.All.of_contributed {holds : Token → Prop} {item : Item} (h : item.All holds)
    {token : Token} (hmem : some token ∈ item.contributed) : holds token := by
  cases item with
  | literal written =>
      simp only [contributed, List.mem_singleton] at hmem
      split at hmem
      · cases hmem
      · cases hmem
        exact h
  | oneOf members => exact h token hmem

theorem classMembers_eq_ok_iff {items : List Item} {members : List (Option Token)} :
    classMembers items = .ok members ↔ members ≠ [] ∧ members = items.flatMap Item.contributed := by
  unfold classMembers
  dsimp only
  split
  · rename_i hempty
    rw [List.isEmpty_iff] at hempty
    constructor
    · intro h
      cases h
    · rintro ⟨hne, rfl⟩
      exact absurd hempty hne
  · rename_i hne
    rw [List.isEmpty_iff] at hne
    constructor
    · intro h
      cases h
      exact ⟨hne, rfl⟩
    · rintro ⟨-, rfl⟩
      rfl

theorem exists_of_mem_classMembers {items : List Item} {members : List (Option Token)}
    (h : classMembers items = .ok members) {member : Option Token} (hmem : member ∈ members) :
    ∃ item ∈ items, member ∈ item.contributed := by
  rw [(classMembers_eq_ok_iff.1 h).2] at hmem
  exact List.mem_flatMap.1 hmem

theorem continuesLiteral_of_isAlphanumeric {c : Char} (hc : Text.isAlphanumeric c = true) :
    continuesLiteral c = true := by
  have hother : ∀ d ∈ ['[', ']', '(', ')'], Text.isAlphanumeric d = false :=
    forall_mem_of_all (by decide)
  refine continuesLiteral_eq_true_iff.2 ⟨?_, fun hmem => ?_⟩
  · by_contra hblank
    rw [Text.isAlphanumeric_of_isBlank (by simpa using hblank)] at hc
    cases hc
  · rw [hother c hmem] at hc
    cases hc

section Reads

variable {belongs : Char → Bool} {text : Text} {items : List Item}

/-- A property of the words of a text is one of all tokens of its items.  The words end where
no literal continues, so they cut no run of a kind of character that continues literals. -/
theorem Reads.all (h : Reads text items)
    (hbelongs : ∀ c, belongs c = true → continuesLiteral c = true) {holds : Token → Prop}
    (hword : ∀ word, Text.IsWholePart belongs word text → word ≠ [] →
      (∀ c ∈ word, continuesLiteral c = true) → holds (String.ofList word)) :
    ∀ item ∈ items, item.All holds := by
  have hends : ∀ {c : Char}, continuesLiteral c = false → belongs c = false := by
    intro c hc
    by_contra hnot
    rw [hbelongs c (by simpa using hnot)] at hc
    cases hc
  induction h with
  | nil => simp
  | @blank c rest items hc hrest ih =>
      refine ih fun word hpart => hword word ?_
      exact hpart.trans (.right_of_cons (hends (by simp [continuesLiteral, hc])) [] rest)
  | @literal word rest items hne hcontinues hend hrest ih =>
      have hhead : ∀ c ∈ rest.head?, belongs c = false := fun c hc => hends (hend c hc)
      intro item hmem
      rcases List.mem_cons.1 hmem with rfl | hmem
      · exact hword word (.left_of_head hhead) hne hcontinues
      · exact ih (fun word hpart => hword word (hpart.trans (.right_of_head hhead))) item hmem
  | @oneOf rest inside after inner items members hclose hinside hmembers hafter ihinside ihafter =>
      obtain rfl := Text.eq_append_of_closing? hclose
      -- No literal goes on over a bracket, so the inside and the text behind are whole parts.
      have hopen : belongs '[' = false := hends (by decide)
      have hclosed : belongs Bracket.square.closer = false := hends (by decide)
      have hrest : Text.IsWholePart belongs (inside ++ Bracket.square.closer :: after)
          ('[' :: (inside ++ Bracket.square.closer :: after)) := .right_of_cons hopen [] _
      intro item hmem
      rcases List.mem_cons.1 hmem with rfl | hmem
      · intro token htoken
        obtain ⟨item, hitem, hcontributed⟩ := exists_of_mem_classMembers hmembers htoken
        have hall := ihinside fun word hpart =>
          hword word ((hpart.trans (.left_of_cons hclosed inside after)).trans hrest)
        exact (hall item hitem).of_contributed hcontributed
      · exact ihafter (fun word hpart =>
          hword word ((hpart.trans (.right_of_cons hclosed inside after)).trans hrest)) item hmem

theorem Reads.members_ne_nil (h : Reads text items) {members : List (Option Token)}
    (hmem : .oneOf members ∈ items) : members ≠ [] := by
  induction h with
  | nil => cases hmem
  | blank hc hrest ih => exact ih hmem
  | literal hne hword hend hrest ih =>
      rcases List.mem_cons.1 hmem with hfirst | hmem
      · cases hfirst
      · exact ih hmem
  | oneOf hclose hinside hmembers hafter ihinside ihafter =>
      rcases List.mem_cons.1 hmem with hfirst | hmem
      · cases hfirst
        exact (classMembers_eq_ok_iff.1 hmembers).1
      · exact ihafter hmem

theorem Reads.member_ne_mark (h : Reads text items) {members : List (Option Token)}
    (hmem : .oneOf members ∈ items) {token : Token} (htoken : some token ∈ members) :
    token ≠ emptyMark ∧ token ≠ nullMark := by
  induction h generalizing members with
  | nil => cases hmem
  | blank hc hrest ih => exact ih hmem htoken
  | literal hne hword hend hrest ih =>
      rcases List.mem_cons.1 hmem with hfirst | hmem
      · cases hfirst
      · exact ih hmem htoken
  | oneOf hclose hinside hmembers hafter ihinside ihafter =>
      rcases List.mem_cons.1 hmem with hfirst | hmem
      · cases hfirst
        obtain ⟨item, hitem, hcontributed⟩ := exists_of_mem_classMembers hmembers htoken
        cases item with
        | literal written =>
            simp only [Item.contributed, List.mem_singleton] at hcontributed
            split at hcontributed
            · cases hcontributed
            · rename_i hmark
              cases hcontributed
              simpa [not_or] using hmark
        | oneOf others => exact ihinside hitem hcontributed
      · exact ihafter hmem htoken

/-- A literal beside the classes has no character that occurs inside brackets only. -/
theorem Reads.not_mem_literal (h : Reads text items) {needle : Char}
    (hcount : Text.topLevelCount needle 0 text = 0) {token : Token}
    (hmem : .literal token ∈ items) : needle ∉ token.toList := by
  induction h with
  | nil => cases hmem
  | @blank c rest items hc hrest ih =>
      have hpart : ∀ d ∈ [c], Bracket.IsPlain d :=
        List.forall_mem_singleton.2 (Text.isPlain_of_isBlank hc)
      have hsum := Text.topLevelCount_append needle hpart rest
      exact ih (by rw [List.singleton_append] at hsum; omega) hmem
  | @literal word rest items hne hword hend hrest ih =>
      have hsum := Text.topLevelCount_append needle
        (fun c hc => isPlain_of_continuesLiteral (hword c hc)) rest
      rcases List.mem_cons.1 hmem with hfirst | hmem
      · cases hfirst
        rw [String.toList_ofList]
        exact List.count_eq_zero.1 (by omega)
      · exact ih (by omega) hmem
  | @oneOf rest inside after inner items members hclose hinside hmembers hafter ihinside ihafter =>
      rw [Text.topLevelCount_of_closing? rfl hclose] at hcount
      rcases List.mem_cons.1 hmem with hfirst | hmem
      · cases hfirst
      · exact ihafter hcount hmem

end Reads

end Diachrony.RuleText
