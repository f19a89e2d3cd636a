import Diachrony.Proofs.ContextMarks
import Diachrony.Proofs.SpacedWords

/-!
# Items written and read again

The written form of items has one space between any two of them and between any two members of a
class, and `_` for the empty option.  Reading gives words without blanks and brackets, and no member
of a class is a mark, so each item is read back from its own written form, and they are read one by
one because none of them leaves a class open.
-/

namespace Diachrony.RuleText

/-- Whether an item has a written form it is read back from: its tokens are words, and a class has a
member and no mark among its members. -/
def Item.IsRenderable : Item → Prop
  | literal token => IsReadable token
  | oneOf members => members ≠ [] ∧ ∀ token, some token ∈ members →
      IsReadable token ∧ token ≠ emptyMark ∧ token ≠ nullMark

/-! ## What is read can be written -/

theorem isReadable_of_word {word : Text} (hne : word ≠ [])
    (hword : ∀ c ∈ word, continuesLiteral c = true) : IsReadable (String.ofList word) := by
  refine ⟨fun hempty => hne (by simpa using congrArg String.toList hempty), ?_⟩
  rwa [String.toList_ofList]

theorem Reads.isRenderable {text : Text} {items : List Item} (h : Reads text items) :
    ∀ item ∈ items, item.IsRenderable := by
  have hwords : ∀ item ∈ items, item.All IsReadable :=
    h.all (fun _ => id) fun word _ => isReadable_of_word
  intro item hmem
  cases item with
  | literal token => exact hwords _ hmem
  | oneOf members =>
      exact ⟨h.members_ne_nil hmem, fun token htoken =>
        ⟨hwords _ hmem token htoken, h.member_ne_mark hmem htoken⟩⟩

/-! ## What is written is read -/

theorem isReadable_emptyMark : IsReadable emptyMark := by
  refine isReadable_of_word (List.cons_ne_nil '_' []) fun c hc => ?_
  rw [List.mem_singleton.1 hc]
  decide

theorem IsReadable.isWord {token : Token} (h : IsReadable token) : Text.IsWord token :=
  ⟨h.ne_empty, fun c hc => (continuesLiteral_eq_true_iff.1 (h.continuesLiteral c hc)).1⟩

theorem reads_spaced_of_isReadable {tokens : List Token}
    (htokens : ∀ token ∈ tokens, IsReadable token) :
    Reads (Text.spaced tokens) (tokens.map Item.literal) :=
  reads_spaced (fun token hmem => (htokens token hmem).isWord)
    fun token hmem => (htokens token hmem).continuesLiteral

/-- A member is read back from what is written for it. -/
theorem memberOf_getD {member : Option Token}
    (h : ∀ token ∈ member, token ≠ emptyMark ∧ token ≠ nullMark) :
    memberOf (member.getD emptyMark) = member := by
  cases member with
  | none => exact if_pos (.inl rfl)
  | some token =>
      obtain ⟨hempty, hnull⟩ := h token rfl
      exact if_neg (not_or.2 ⟨hempty, hnull⟩)

theorem contributed_written {members : List (Option Token)}
    (h : ∀ token, some token ∈ members → token ≠ emptyMark ∧ token ≠ nullMark) :
    ((members.map (·.getD emptyMark)).map Item.literal).flatMap Item.contributed = members := by
  rw [List.map_map, List.flatMap_map]
  induction members with
  | nil => rfl
  | cons member members ih =>
      have hfirst : memberOf (member.getD emptyMark) = member :=
        memberOf_getD fun token htoken => h token (htoken ▸ List.mem_cons_self)
      rw [List.flatMap_cons, ih fun token htoken => h token (List.mem_cons_of_mem member htoken),
        Function.comp_apply, contributed_literal, hfirst, List.singleton_append]

theorem toList_render_oneOf (members : List (Option Token)) :
    (Item.oneOf members).render.toList =
      '[' :: (Text.spaced (members.map (·.getD emptyMark)) ++ [']']) := by
  rw [Item.render, String.toList_append, String.toList_append, Text.toList_intercalate_space]
  rfl

theorem Item.IsRenderable.reads {item : Item} (h : item.IsRenderable) :
    Reads item.render.toList [item] := by
  cases item with
  | literal token =>
      have hreads := reads_spaced_of_isReadable (List.forall_mem_singleton.2 h)
      rwa [Text.spaced_singleton] at hreads
  | oneOf members =>
      obtain ⟨hne, hmembers⟩ := h
      have hwritten : ∀ token ∈ members.map (·.getD emptyMark), IsReadable token := by
        intro token htoken
        obtain ⟨member, hmember, rfl⟩ := List.mem_map.1 htoken
        cases member with
        | none => exact isReadable_emptyMark
        | some token => exact (hmembers token hmember).1
      have hinside := reads_spaced_of_isReadable hwritten
      have hclass : classMembers ((members.map (·.getD emptyMark)).map Item.literal) =
          .ok members :=
        classMembers_eq_ok_iff.2
          ⟨hne, (contributed_written fun token htoken => (hmembers token htoken).2).symm⟩
      rw [toList_render_oneOf]
      exact .oneOf (hinside.isNested.closing? .square []) hinside hclass .nil

theorem toList_renderItems (items : List Item) :
    (renderItems items).toList =
      Text.normalizeBlanks ([' '].intercalate (items.map fun item => item.render.toList)) := by
  rw [renderItems, String.toList_ofList, String.toList_intercalate, List.map_map]
  rfl

theorem reads_renderItems {items : List Item} (h : ∀ item ∈ items, item.IsRenderable) :
    Reads (renderItems items).toList items := by
  rw [toList_renderItems, reads_normalizeBlanks_iff, reads_intercalate_iff]
  · refine ⟨fun content hcontent => ?_, ?_⟩
    · obtain ⟨item, hitem, rfl⟩ := List.mem_map.1 hcontent
      exact (h item hitem).reads.isRead
    · have hitems : ∀ item ∈ items, itemsOf item.render.toList = [item] :=
        fun item hitem => (h item hitem).reads.itemsOf_eq
      rw [List.flatMap_map, List.flatMap_congr hitems, List.flatMap_singleton']
  · intro content hcontent
    obtain ⟨item, hitem, rfl⟩ := List.mem_map.1 hcontent
    exact (h item hitem).reads.openClasses?_eq 0

/-- Items are read back from their written form: classes are flattened by then, and the empty
options of a class keep their places. -/
theorem parseItems_renderItems {text : Text} {items : List Item}
    (h : parseItems text = .ok items) : parseItems (renderItems items).toList = .ok items :=
  parseItems_eq_ok_iff.2 (reads_renderItems (parseItems_eq_ok_iff.1 h).isRenderable)

/-- Nested classes, both spellings of the empty option, the same marks as literals beside the
classes, and items without a blank between them. -/
theorem parseItems_renderItems_nested :
    parseItems "_[a [∅\te] _]∅ x".toList =
        .ok [.literal "_", .oneOf [some "a", none, some "e", none], .literal "∅", .literal "x"] ∧
      renderItems [.literal "_", .oneOf [some "a", none, some "e", none], .literal "∅",
        .literal "x"] = "_ [a _ e _] ∅ x" ∧
      parseItems "_ [a _ e _] ∅ x".toList =
        .ok [.literal "_", .oneOf [some "a", none, some "e", none], .literal "∅",
          .literal "x"] := by
  have hparsed : parseItems "_[a [∅\te] _]∅ x".toList = .ok [.literal "_",
      .oneOf [some "a", none, some "e", none], .literal "∅", .literal "x"] := by cbv
  have hrendered : renderItems [.literal "_", .oneOf [some "a", none, some "e", none],
      .literal "∅", .literal "x"] = "_ [a _ e _] ∅ x" := by decide
  refine ⟨hparsed, hrendered, ?_⟩
  rw [← hrendered]
  exact parseItems_renderItems hparsed

end Diachrony.RuleText
