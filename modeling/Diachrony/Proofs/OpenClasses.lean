import Diachrony.Proofs.ContextGrammar

/-!
# Texts read piece by piece

A text that is read as items can be cut wherever no class is open and no literal goes on, and
both pieces are then read by themselves.  How many classes are open is counted along the text; a
walk from a bracket to its partner leaves the number as it was.
-/

namespace Diachrony.RuleText

/-! ## Open classes -/

/-- How many classes are open behind a text, from a number of open ones on; `none` if a class is
closed that is not open. -/
def openClasses? : Nat → Text → Option Nat
  | depth, [] => some depth
  | depth, c :: rest =>
      if c = '[' then openClasses? (depth + 1) rest
      else if c = ']' then if depth = 0 then none else openClasses? (depth - 1) rest
      else openClasses? depth rest

theorem openClasses?_append (depth : Nat) (text rest : Text) :
    openClasses? depth (text ++ rest) = (openClasses? depth text).bind (openClasses? · rest) := by
  fun_induction openClasses? depth text with
  | case1 depth => rfl
  | case2 depth text ih => rw [List.cons_append, openClasses?, if_pos rfl, ih]
  | case3 => rfl
  | case4 depth text hdepth hopen ih =>
      rw [List.cons_append, openClasses?, if_neg hopen, if_pos rfl, if_neg hdepth, ih]
  | case5 depth c text hopen hclose ih =>
      rw [List.cons_append, openClasses?, if_neg hopen, if_neg hclose, ih]

theorem openClasses?_cons_of_isPlain {c : Char} (hc : Bracket.IsPlain c) (depth : Nat)
    (rest : Text) : openClasses? depth (c :: rest) = openClasses? depth rest := by
  rw [openClasses?, if_neg, if_neg]
  · rintro rfl
    cases hc.2
  · rintro rfl
    cases hc.1

theorem openClasses?_of_forall {text : Text} (htext : ∀ c ∈ text, Bracket.IsPlain c)
    (depth : Nat) : openClasses? depth text = some depth := by
  induction text with
  | nil => rfl
  | cons c rest ih =>
      obtain ⟨hc, hrest⟩ := List.forall_mem_cons.1 htext
      rw [openClasses?_cons_of_isPlain hc, ih hrest]

theorem openClasses?_succ {depth behind : Nat} {text : Text}
    (h : openClasses? depth text = some behind) :
    openClasses? (depth + 1) text = some (behind + 1) := by
  fun_induction openClasses? depth text with
  | case1 depth =>
      cases h
      rfl
  | case2 depth text ih => rw [openClasses?, if_pos rfl, ih h]
  | case3 => cases h
  | case4 depth text hdepth hopen ih =>
      obtain ⟨below, rfl⟩ := Nat.exists_eq_succ_of_ne_zero hdepth
      rw [openClasses?, if_neg hopen, if_pos rfl, if_neg (Nat.succ_ne_zero _)]
      exact ih h
  | case5 depth c text hopen hclose ih => rw [openClasses?, if_neg hopen, if_neg hclose, ih h]

theorem openClasses?_cons_of_opened {c : Char} {kind : Bracket}
    (hc : Bracket.opened? c = some kind) (depth : Nat) (rest : Text) :
    openClasses? depth (c :: rest) = openClasses? (depth + [kind].count .square) rest := by
  rw [Bracket.eq_opener_of_opened? hc]
  cases kind with
  | square => rfl
  | round => rfl

theorem openClasses?_cons_of_closed {c : Char} {kind : Bracket}
    (hc : Bracket.closed? c = some kind) (depth : Nat) (rest : Text) :
    openClasses? (depth + [kind].count .square) (c :: rest) = openClasses? depth rest := by
  rw [Bracket.eq_closer_of_closed? hc]
  cases kind with
  | square => rfl
  | round => rfl

theorem openClasses?_bracketed {depth : Nat} {inside : Text}
    (h : openClasses? (depth + 1) inside = some (depth + 1)) (after : Text) :
    openClasses? depth ('[' :: (inside ++ ']' :: after)) = openClasses? depth after := by
  rw [openClasses?, if_pos rfl, openClasses?_append, h, Option.bind_some, openClasses?,
    if_neg (by decide), if_pos rfl, if_neg (Nat.succ_ne_zero depth), Nat.add_sub_cancel]

theorem Reads.openClasses?_eq {text : Text} {items : List Item} (h : Reads text items)
    (depth : Nat) : openClasses? depth text = some depth := by
  induction h generalizing depth with
  | nil => rfl
  | blank hc hrest ih =>
      rw [openClasses?_cons_of_isPlain (Text.isPlain_of_isBlank hc), ih]
  | literal hne hword hend hrest ih =>
      rw [openClasses?_append,
        openClasses?_of_forall fun c hc => isPlain_of_continuesLiteral (hword c hc)]
      exact ih depth
  | oneOf hclose hinside hmembers hafter ihinside ihafter =>
      rw [Text.eq_append_of_closing? hclose]
      exact (openClasses?_bracketed (ihinside _) _).trans (ihafter depth)

/-- A walk to the partner of a bracket closes the classes that were pending and those it meets. -/
theorem openClasses?_of_closingLoop {passed text inside after : Text} {pending : List Bracket}
    {kind : Bracket} (hkind : pending.getLast? = some kind)
    (h : Text.closingLoop passed pending text = some (inside, after)) :
    ∃ middle, inside = passed.reverse ++ middle ∧ ∀ depth,
      openClasses? (depth + pending.count .square) (middle ++ [kind.closer]) = some depth := by
  induction text generalizing passed pending with
  | nil => simp [Text.closingLoop] at h
  | cons c rest ih =>
      rcases Text.closingLoop_cons_eq_some h with ⟨opened, hopened, h⟩ | ⟨hplain, h⟩ |
        ⟨closed, below, hopened, hclosed, rfl, ⟨rfl, rfl, rfl⟩ | ⟨hbelow, h⟩⟩
      · have hlast : (opened :: pending).getLast? = some kind := by
          rw [List.getLast?_cons, hkind, Option.getD_some]
        obtain ⟨middle, rfl, hmiddle⟩ := ih hlast h
        refine ⟨c :: middle, by simp, fun depth => ?_⟩
        have hdepth := hmiddle depth
        rw [← List.singleton_append, List.count_append, Nat.add_comm ([opened].count _),
          ← Nat.add_assoc] at hdepth
        rw [List.cons_append, openClasses?_cons_of_opened hopened, hdepth]
      · obtain ⟨middle, rfl, hmiddle⟩ := ih hkind h
        refine ⟨c :: middle, by simp, fun depth => ?_⟩
        rw [List.cons_append, openClasses?_cons_of_isPlain hplain, hmiddle]
      · rw [List.getLast?_singleton, Option.some.injEq] at hkind
        refine ⟨[], by simp, fun depth => ?_⟩
        rw [hkind, List.nil_append, openClasses?_cons_of_closed (Bracket.closed?_closer kind)]
        rfl
      · have hlast : below.getLast? = some kind := by
          obtain ⟨next, below, rfl⟩ := List.exists_cons_of_ne_nil hbelow
          simpa using hkind
        obtain ⟨middle, rfl, hmiddle⟩ := ih hlast h
        refine ⟨c :: middle, by simp, fun depth => ?_⟩
        rw [← List.singleton_append, List.count_append, Nat.add_comm ([closed].count _),
          ← Nat.add_assoc, List.cons_append, openClasses?_cons_of_closed hclosed, hmiddle]

theorem openClasses?_of_closing?_round {rest inside after : Text}
    (h : Text.closing? .round rest = some (inside, after)) (depth : Nat) :
    openClasses? depth inside = some depth := by
  obtain ⟨middle, hinside, hmiddle⟩ := openClasses?_of_closingLoop (List.getLast?_singleton) h
  have hclosed : openClasses? depth (inside ++ [Bracket.round.closer]) = some depth := by
    rw [hinside]
    exact hmiddle depth
  rw [openClasses?_append, Option.bind_eq_some_iff] at hclosed
  obtain ⟨behind, hbehind, hlast⟩ := hclosed
  exact hbehind.trans hlast

theorem openClasses?_withoutParentheses (depth : Nat) (text : Text) :
    openClasses? depth (withoutParentheses text) = openClasses? depth text := by
  fun_induction openClasses? depth text with
  | case1 depth => rfl
  | case2 depth text ih => exact ih
  | case3 => rfl
  | case4 depth text hdepth hopen ih =>
      rw [withoutParentheses, List.map_cons, openClasses?, if_neg (by decide), if_pos (by decide),
        if_neg hdepth]
      exact ih
  | case5 depth c text hopen hclose ih =>
      have hshown : Bracket.IsPlain ' ' := ⟨rfl, rfl⟩
      rw [withoutParentheses, List.map_cons]
      split
      · rw [openClasses?_cons_of_isPlain hshown]
        exact ih
      · rw [openClasses?, if_neg hopen, if_neg hclose]
        exact ih

/-! ## Texts read piece by piece -/

theorem Reads.append {text other : Text} {items others : List Item} (h : Reads text items)
    (hother : Reads other others) (hend : ∀ c ∈ other.head?, continuesLiteral c = false) :
    Reads (text ++ other) (items ++ others) := by
  induction h with
  | nil => exact hother
  | blank hc hrest ih => exact .blank hc ih
  | literal hne hword hstop hrest ih =>
      rw [List.append_assoc]
      exact .literal hne hword (continuesLiteral_of_mem_head?_append hstop hend) ih
  | oneOf hclose hinside hmembers hafter ihinside ihafter =>
      exact .oneOf (hinside.closing?_append hclose other) hinside hmembers ihafter

/-- A text that is read as items is cut into two such texts where no class is open and no
literal goes on. -/
theorem Reads.exists_of_append {text rest : Text} {items : List Item}
    (h : Reads (text ++ rest) items) (hopen : openClasses? 0 text = some 0)
    (hend : ∀ c ∈ rest.head?, continuesLiteral c = false) :
    ∃ first others, items = first ++ others ∧ Reads text first ∧ Reads rest others := by
  generalize hwhole : text ++ rest = whole at h
  induction h generalizing text with
  | nil =>
      obtain ⟨rfl, rfl⟩ := List.append_eq_nil_iff.1 hwhole
      exact ⟨[], [], rfl, .nil, .nil⟩
  | @blank c behind items hc hrest ih =>
      cases text with
      | nil =>
          rw [List.nil_append] at hwhole
          exact ⟨[], items, rfl, .nil, hwhole ▸ .blank hc hrest⟩
      | cons d text =>
          rw [List.cons_append, List.cons.injEq] at hwhole
          obtain ⟨rfl, hwhole⟩ := hwhole
          rw [openClasses?_cons_of_isPlain (Text.isPlain_of_isBlank hc)] at hopen
          obtain ⟨first, others, rfl, hfirst, hothers⟩ := ih hopen hwhole
          exact ⟨first, others, rfl, .blank hc hfirst, hothers⟩
  | @literal word behind items hne hword hstop hrest ih =>
      rcases List.append_eq_append_iff.1 hwhole with ⟨more, rfl, rfl⟩ | ⟨later, rfl, rfl⟩
      · cases more with
        | nil =>
            rw [List.append_nil] at hne hword ⊢
            have hread : Reads (text ++ []) [.literal (String.ofList text)] :=
              .literal hne hword (by simp) .nil
            rw [List.append_nil] at hread
            exact ⟨[_], items, rfl, hread, hrest⟩
        | cons c more =>
            have hc := hword c (by simp)
            rw [hend c rfl] at hc
            cases hc
      · rw [openClasses?_append,
          openClasses?_of_forall fun c hc => isPlain_of_continuesLiteral (hword c hc)] at hopen
        obtain ⟨first, others, rfl, hfirst, hothers⟩ := ih hopen rfl
        refine ⟨_ :: first, others, rfl, .literal hne hword (fun c hc => ?_) hfirst, hothers⟩
        cases later with
        | nil => cases hc
        | cons d later => exact hstop c hc
  | @oneOf behind inside after inner items members hclose hinside hmembers hafter _ ihafter =>
      cases text with
      | nil =>
          rw [List.nil_append] at hwhole
          exact ⟨[], _, rfl, .nil, hwhole ▸ .oneOf hclose hinside hmembers hafter⟩
      | cons d text =>
          rw [List.cons_append, List.cons.injEq, Text.eq_append_of_closing? hclose] at hwhole
          obtain ⟨rfl, hwhole⟩ := hwhole
          -- The class is still open anywhere between its brackets.
          have hbehind : ∀ more, inside ≠ text ++ more := by
            rintro more rfl
            have hinsideOpen := hinside.openClasses?_eq 0
            rw [openClasses?_append, Option.bind_eq_some_iff] at hinsideOpen
            obtain ⟨depth, hdepth, -⟩ := hinsideOpen
            rw [openClasses?, if_pos rfl, openClasses?_succ hdepth] at hopen
            cases hopen
          rcases List.append_eq_append_iff.1 hwhole with ⟨more, hmore, -⟩ | ⟨later, rfl, hlater⟩
          · exact absurd hmore (hbehind more)
          · cases later with
            | nil => exact absurd (List.append_nil inside).symm (by simpa using hbehind [])
            | cons c later =>
                rw [List.cons_append, List.cons.injEq] at hlater
                obtain ⟨rfl, hlater⟩ := hlater
                have hlaterOpen := openClasses?_bracketed (hinside.openClasses?_eq 1) later
                obtain ⟨first, others, rfl, hfirst, hothers⟩ :=
                  ihafter (hlaterOpen.symm.trans hopen) hlater.symm
                exact ⟨_ :: first, others, rfl,
                  .oneOf (hinside.isNested.closing? .square later) hinside hmembers hfirst, hothers⟩

end Diachrony.RuleText
