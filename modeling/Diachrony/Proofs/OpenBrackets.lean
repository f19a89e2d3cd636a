import Diachrony.Proofs.Nesting

/-!
# Open brackets

Reading a text opens and closes brackets, and at each moment those that are open form a stack.
A text is balanced if it closes what it opens and nothing else, which is what the grammar of
well nested words says.  Every bracket on the stack has been opened at some place of the text read,
and where the stack is emptied in the end every one of them has a partner to come.
-/

namespace Diachrony

namespace Bracket

@[simp] theorem opened?_opener (kind : Bracket) : opened? kind.opener = some kind := by
  cases kind <;> rfl

theorem eq_of_opener_eq {kind other : Bracket} (h : kind.opener = other.opener) :
    kind = other := by
  have hopened := congrArg opened? h
  rwa [opened?_opener, opened?_opener, Option.some.injEq] at hopened

theorem char_cases (c : Char) :
    (∃ kind : Bracket, c = kind.opener) ∨ (∃ kind : Bracket, c = kind.closer) ∨ IsPlain c := by
  cases hopened : opened? c with
  | some kind => exact .inl ⟨kind, eq_opener_of_opened? hopened⟩
  | none =>
      cases hclosed : closed? c with
      | some kind => exact .inr (.inl ⟨kind, eq_closer_of_closed? hclosed⟩)
      | none => exact .inr (.inr ⟨hopened, hclosed⟩)

/-- The brackets open behind a character, the innermost first.  Only the innermost one can be
closed. -/
def read? (pending : List Bracket) (c : Char) : Option (List Bracket) :=
  match opened? c, closed? c with
  | some kind, _ => some (kind :: pending)
  | none, some kind => if pending.head? = some kind then some pending.tail else none
  | none, none => some pending

@[simp] theorem read?_opener (pending : List Bracket) (kind : Bracket) :
    read? pending kind.opener = some (kind :: pending) := by
  simp [read?]

theorem read?_of_isPlain {c : Char} (hc : IsPlain c) (pending : List Bracket) :
    read? pending c = some pending := by
  simp [read?, hc.1, hc.2]

theorem read?_closer_eq_some_iff {pending stack : List Bracket} {kind : Bracket} :
    read? pending kind.closer = some stack ↔ pending = kind :: stack := by
  simp only [read?, opened?_closer, closed?_closer]
  cases pending with
  | nil => simp
  | cons top below =>
      by_cases htop : top = kind
      · simp [htop]
      · simp [htop]

end Bracket

namespace Text

/-! ## The stack -/

/-- The brackets open behind a text that is read with some open before it.  There are none if
it closes another bracket than the innermost one. -/
def openBrackets? (pending : List Bracket) (text : Text) : Option (List Bracket) :=
  text.foldlM Bracket.read? pending

@[simp] theorem openBrackets?_nil (pending : List Bracket) :
    openBrackets? pending [] = some pending := rfl

theorem openBrackets?_cons (pending : List Bracket) (c : Char) (rest : Text) :
    openBrackets? pending (c :: rest) =
      (Bracket.read? pending c).bind fun stack => openBrackets? stack rest :=
  List.foldlM_cons

theorem openBrackets?_append (pending : List Bracket) (before after : Text) :
    openBrackets? pending (before ++ after) =
      (openBrackets? pending before).bind fun stack => openBrackets? stack after :=
  List.foldlM_append

theorem openBrackets?_opener (pending : List Bracket) (kind : Bracket) (rest : Text) :
    openBrackets? pending (kind.opener :: rest) = openBrackets? (kind :: pending) rest := by
  rw [openBrackets?_cons, Bracket.read?_opener, Option.bind_some]

theorem openBrackets?_closer (pending : List Bracket) (kind : Bracket) (rest : Text) :
    openBrackets? (kind :: pending) (kind.closer :: rest) = openBrackets? pending rest := by
  rw [openBrackets?_cons, Bracket.read?_closer_eq_some_iff.2 rfl, Option.bind_some]

theorem openBrackets?_of_isPlain {c : Char} (hc : Bracket.IsPlain c) (pending : List Bracket)
    (rest : Text) : openBrackets? pending (c :: rest) = openBrackets? pending rest := by
  rw [openBrackets?_cons, Bracket.read?_of_isPlain hc, Option.bind_some]

/-- What reading one character does to the brackets that are open. -/
theorem openBrackets?_cons_cases {pending stack : List Bracket} {c : Char} {rest : Text}
    (h : openBrackets? pending (c :: rest) = some stack) :
    (∃ kind : Bracket, c = kind.opener ∧ openBrackets? (kind :: pending) rest = some stack) ∨
      (∃ (kind : Bracket) (below : List Bracket), c = kind.closer ∧ pending = kind :: below ∧
        openBrackets? below rest = some stack) ∨
      Bracket.IsPlain c ∧ openBrackets? pending rest = some stack := by
  rcases Bracket.char_cases c with ⟨kind, rfl⟩ | ⟨kind, rfl⟩ | hc
  · rw [openBrackets?_opener] at h
    exact .inl ⟨kind, rfl, h⟩
  · rw [openBrackets?_cons] at h
    obtain ⟨below, hread, hrest⟩ := Option.bind_eq_some_iff.1 h
    exact .inr (.inl ⟨kind, below, rfl, Bracket.read?_closer_eq_some_iff.1 hread, hrest⟩)
  · rw [openBrackets?_of_isPlain hc] at h
    exact .inr (.inr ⟨hc, h⟩)

theorem exists_openBrackets?_of_append {pending stack : List Bracket} {before after : Text}
    (h : openBrackets? pending (before ++ after) = some stack) :
    ∃ middle, openBrackets? pending before = some middle ∧
      openBrackets? middle after = some stack := by
  rw [openBrackets?_append] at h
  exact Option.bind_eq_some_iff.1 h

/-- What is open below stays open. -/
theorem openBrackets?_append_pending {pending stack : List Bracket} {text : Text}
    (h : openBrackets? pending text = some stack) (below : List Bracket) :
    openBrackets? (pending ++ below) text = some (stack ++ below) := by
  induction text generalizing pending with
  | nil =>
      cases h
      rfl
  | cons c rest ih =>
      rcases openBrackets?_cons_cases h with
        ⟨kind, rfl, hrest⟩ | ⟨kind, pending, rfl, rfl, hrest⟩ | ⟨hc, hrest⟩
      · rw [openBrackets?_opener]
        exact ih hrest
      · rw [List.cons_append, openBrackets?_closer]
        exact ih hrest
      · rw [openBrackets?_of_isPlain hc]
        exact ih hrest

theorem closesAll_iff {pending : List Bracket} {text : Text} :
    closesAll pending text = true ↔ openBrackets? pending text = some [] := by
  induction text generalizing pending with
  | nil => simp [closesAll]
  | cons c rest ih =>
      rw [closesAll, openBrackets?_cons, Bracket.read?]
      cases Bracket.opened? c with
      | some kind => exact ih
      | none =>
          cases Bracket.closed? c with
          | none => exact ih
          | some kind =>
              cases pending with
              | nil => simp
              | cons top below =>
                  by_cases htop : top = kind
                  · simpa [htop] using ih
                  · simp [htop]

theorem isBalanced_iff {text : Text} :
    isBalanced text = true ↔ openBrackets? [] text = some [] :=
  closesAll_iff

/-! ## Partners -/

/-- Where all brackets are closed in the end, each one that is open has a closer of its kind to
come, and what stands before that closes what is open above the bracket. -/
theorem exists_closer (upper : List Bracket) {below : List Bracket} {kind : Bracket} {text : Text}
    (h : openBrackets? (upper ++ kind :: below) text = some []) :
    ∃ inside after, text = inside ++ kind.closer :: after ∧
      openBrackets? upper inside = some [] ∧ openBrackets? below after = some [] := by
  induction text generalizing upper with
  | nil => simp at h
  | cons c rest ih =>
      rcases openBrackets?_cons_cases h with
        ⟨opened, rfl, hrest⟩ | ⟨closed, stack, rfl, hstack, hrest⟩ | ⟨hc, hrest⟩
      · rw [← List.cons_append] at hrest
        obtain ⟨inside, after, rfl, hinside, hafter⟩ := ih _ hrest
        exact ⟨opened.opener :: inside, after, rfl, by rwa [openBrackets?_opener], hafter⟩
      · cases upper with
        | nil =>
            obtain ⟨rfl, rfl⟩ := List.cons.inj hstack
            exact ⟨[], rest, rfl, rfl, hrest⟩
        | cons top upper =>
            obtain ⟨rfl, rfl⟩ := List.cons.inj hstack
            obtain ⟨inside, after, rfl, hinside, hafter⟩ := ih _ hrest
            exact ⟨top.closer :: inside, after, rfl, by rwa [openBrackets?_closer], hafter⟩
      · obtain ⟨inside, after, rfl, hinside, hafter⟩ := ih _ hrest
        exact ⟨c :: inside, after, rfl, by rwa [openBrackets?_of_isPlain hc], hafter⟩

/-- Each bracket that is open has been opened, and what has been read since has opened what is
open above it. -/
theorem exists_opener (upper : List Bracket) {below : List Bracket} {kind : Bracket} {text : Text}
    (h : openBrackets? [] text = some (upper ++ kind :: below)) :
    ∃ before inside, text = before ++ kind.opener :: inside ∧
      openBrackets? [] before = some below ∧ openBrackets? [] inside = some upper := by
  induction text using List.reverseRecOn generalizing upper with
  | nil => simp at h
  | append_singleton text c ih =>
      obtain ⟨stack, htext, hlast⟩ := exists_openBrackets?_of_append h
      have hnext : ∀ {next : List Bracket}, openBrackets? next [c] = some upper →
          openBrackets? [] text = some (next ++ kind :: below) →
          ∃ before inside, text ++ [c] = before ++ kind.opener :: inside ∧
            openBrackets? [] before = some below ∧ openBrackets? [] inside = some upper := by
        intro next hc hnext
        obtain ⟨before, inside, rfl, hbefore, hinside⟩ := ih _ hnext
        refine ⟨before, inside ++ [c], by simp, hbefore, ?_⟩
        rw [openBrackets?_append, hinside, Option.bind_some, hc]
      rcases openBrackets?_cons_cases hlast with
        ⟨opened, rfl, hopened⟩ | ⟨closed, below', rfl, rfl, hclosed⟩ | ⟨hc, hplain⟩
      · rw [openBrackets?_nil, Option.some.injEq] at hopened
        cases upper with
        | nil =>
            obtain ⟨rfl, rfl⟩ := List.cons.inj hopened
            exact ⟨text, [], rfl, htext, rfl⟩
        | cons top upper =>
            obtain ⟨rfl, rfl⟩ := List.cons.inj hopened
            exact hnext (openBrackets?_opener upper opened []) htext
      · rw [openBrackets?_nil, Option.some.injEq] at hclosed
        rw [hclosed, ← List.cons_append] at htext
        exact hnext (openBrackets?_closer upper closed []) htext
      · rw [openBrackets?_nil, Option.some.injEq] at hplain
        rw [hplain] at htext
        exact hnext (openBrackets?_of_isPlain hc upper []) htext

/-! ## The grammar -/

/-- The words of nothing but brackets in which each bracket is closed by its own kind. -/
inductive WellNested : Text → Prop
  | nil : WellNested []
  | pair (kind : Bracket) {inside after : Text} (hinside : WellNested inside)
      (hafter : WellNested after) :
      WellNested (kind.opener :: (inside ++ kind.closer :: after))

def brackets (text : Text) : Text :=
  text.filter fun c => (Bracket.opened? c).isSome || (Bracket.closed? c).isSome

theorem brackets_append (before after : Text) :
    brackets (before ++ after) = brackets before ++ brackets after :=
  List.filter_append ..

theorem brackets_opener (kind : Bracket) (rest : Text) :
    brackets (kind.opener :: rest) = kind.opener :: brackets rest :=
  List.filter_cons_of_pos (by simp)

theorem brackets_closer (kind : Bracket) (rest : Text) :
    brackets (kind.closer :: rest) = kind.closer :: brackets rest :=
  List.filter_cons_of_pos (by simp [Bracket.closed?_closer])

theorem brackets_of_isPlain {c : Char} (hc : Bracket.IsPlain c) (rest : Text) :
    brackets (c :: rest) = brackets rest :=
  List.filter_cons_of_neg (by simp [hc.1, hc.2])

theorem openBrackets?_brackets (pending : List Bracket) (text : Text) :
    openBrackets? pending (brackets text) = openBrackets? pending text := by
  induction text generalizing pending with
  | nil => rfl
  | cons c rest ih =>
      rcases Bracket.char_cases c with ⟨kind, rfl⟩ | ⟨kind, rfl⟩ | hc
      · rw [brackets_opener, openBrackets?_opener, openBrackets?_opener, ih]
      · simp only [brackets_closer, openBrackets?_cons, ih]
      · rw [brackets_of_isPlain hc, openBrackets?_of_isPlain hc, ih]

theorem WellNested.openBrackets? {word : Text} (h : WellNested word) :
    Text.openBrackets? [] word = some [] := by
  induction h with
  | nil => rfl
  | @pair kind inside after _ _ ihinside ihafter =>
      have hinside : Text.openBrackets? [kind] inside = some [kind] :=
        openBrackets?_append_pending ihinside [kind]
      rw [openBrackets?_opener, openBrackets?_append, hinside, Option.bind_some,
        openBrackets?_closer, ihafter]

/-- A text is balanced exactly if its brackets form a well nested word. -/
theorem isBalanced_iff_wellNested {text : Text} :
    isBalanced text = true ↔ WellNested (brackets text) := by
  rw [isBalanced_iff]
  refine ⟨fun h => ?_, fun h => by rw [← openBrackets?_brackets, h.openBrackets?]⟩
  induction hlength : text.length using Nat.strong_induction_on generalizing text with
  | _ length ih =>
      cases text with
      | nil => exact .nil
      | cons c rest =>
          subst hlength
          rcases openBrackets?_cons_cases h with
            ⟨kind, rfl, hrest⟩ | ⟨_, _, _, hstack, _⟩ | ⟨hc, hrest⟩
          · obtain ⟨inside, after, rfl, hinside, hafter⟩ := exists_closer [] hrest
            rw [brackets_opener, brackets_append, brackets_closer]
            refine .pair kind (ih _ ?_ hinside rfl) (ih _ ?_ hafter rfl)
            all_goals
              simp only [List.length_cons, List.length_append]
              omega
          · cases hstack
          · rw [brackets_of_isPlain hc]
            exact ih _ (Nat.lt_succ_self _) hrest rfl

end Text

end Diachrony
