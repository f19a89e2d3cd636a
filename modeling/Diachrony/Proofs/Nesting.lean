import Diachrony.Proofs.Runs
import Diachrony.Text.Nesting

/-!
# Reading nested text

Where the partner of a bracket stands, and what lies outside all brackets.  An occurrence of a
character outside all brackets is counted by walking over the text with a depth; a bracketed
part has no such occurrence, and a text without brackets is cut at every occurrence.
-/

namespace Diachrony

namespace Bracket

def IsPlain (c : Char) : Prop :=
  opened? c = none ∧ closed? c = none

theorem isPlain_of_not_mem {c : Char} (h : c ∉ ['[', ']', '(', ')']) : IsPlain c := by
  simp only [List.mem_cons, List.not_mem_nil, or_false, not_or] at h
  constructor
  · unfold opened?
    split <;> simp_all
  · unfold closed?
    split <;> simp_all

def opener : Bracket → Char
  | square => '['
  | round => '('

theorem eq_opener_of_opened? {c : Char} {kind : Bracket} (h : opened? c = some kind) :
    c = kind.opener := by
  unfold opened? at h
  split at h
  · cases h
    rfl
  · cases h
    rfl
  · cases h

def closer : Bracket → Char
  | square => ']'
  | round => ')'

theorem closed?_closer (kind : Bracket) : closed? kind.closer = some kind := by
  cases kind with
  | square => rfl
  | round => rfl

theorem opened?_closer (kind : Bracket) : opened? kind.closer = none := by
  cases kind with
  | square => rfl
  | round => rfl

theorem eq_closer_of_closed? {c : Char} {kind : Bracket} (h : closed? c = some kind) :
    c = kind.closer := by
  unfold closed? at h
  split at h
  · cases h
    rfl
  · cases h
    rfl
  · cases h

end Bracket

namespace Text

theorem isPlain_of_isBlank {c : Char} (hc : isBlank c = true) : Bracket.IsPlain c := by
  refine Bracket.isPlain_of_not_mem fun hmark => ?_
  have hmarks : ∀ d ∈ ['[', ']', '(', ')'], isBlank d = false := forall_mem_of_all (by decide)
  rw [hmarks c hmark] at hc
  cases hc

/-! ## The partner of a bracket -/

/-- What reading one character does to a walk that finds the partner in the end. -/
theorem closingLoop_cons_eq_some {passed rest inside after : Text} {pending : List Bracket}
    {c : Char} (h : closingLoop passed pending (c :: rest) = some (inside, after)) :
    (∃ kind, Bracket.opened? c = some kind ∧
      closingLoop (c :: passed) (kind :: pending) rest = some (inside, after)) ∨
    (Bracket.IsPlain c ∧ closingLoop (c :: passed) pending rest = some (inside, after)) ∨
    ∃ kind below, Bracket.opened? c = none ∧ Bracket.closed? c = some kind ∧
      pending = kind :: below ∧
      (below = [] ∧ inside = passed.reverse ∧ after = rest ∨
        below ≠ [] ∧ closingLoop (c :: passed) below rest = some (inside, after)) := by
  rw [closingLoop] at h
  cases hopened : Bracket.opened? c with
  | some kind =>
      simp only [hopened] at h
      exact .inl ⟨kind, rfl, h⟩
  | none =>
      cases hclosed : Bracket.closed? c with
      | none =>
          simp only [hopened, hclosed] at h
          exact .inr (.inl ⟨⟨hopened, hclosed⟩, h⟩)
      | some kind =>
          cases pending with
          | nil => simp [hopened, hclosed] at h
          | cons top below =>
              simp only [hopened, hclosed] at h
              by_cases htop : top = kind
              · refine .inr (.inr ⟨kind, below, rfl, rfl, by rw [htop], ?_⟩)
                by_cases hbelow : below = []
                · simp only [htop, hbelow, ne_eq, not_true_eq_false, if_false, List.isEmpty_nil,
                    if_true, Option.some.injEq, Prod.mk.injEq] at h
                  exact .inl ⟨hbelow, h.1.symm, h.2.symm⟩
                · simp only [htop, hbelow, ne_eq, not_true_eq_false, if_false,
                    List.isEmpty_iff] at h
                  exact .inr ⟨hbelow, h⟩
              · simp [htop] at h

theorem closingLoop_eq_append {passed text inside after : Text} {pending : List Bracket}
    {kind : Bracket} (hkind : pending.getLast? = some kind)
    (h : closingLoop passed pending text = some (inside, after)) :
    passed.reverse ++ text = inside ++ kind.closer :: after := by
  induction text generalizing passed pending with
  | nil => simp [closingLoop] at h
  | cons c rest ih =>
      rcases closingLoop_cons_eq_some h with
        ⟨opened, -, h⟩ | ⟨-, h⟩ | ⟨closed, below, -, hclosed, rfl, ⟨rfl, rfl, rfl⟩ | ⟨hbelow, h⟩⟩
      · have hlast : (opened :: pending).getLast? = some kind := by
          rw [List.getLast?_cons, hkind, Option.getD_some]
        simpa using ih hlast h
      · simpa using ih hkind h
      · rw [List.getLast?_singleton, Option.some.injEq] at hkind
        rw [Bracket.eq_closer_of_closed? hclosed, hkind]
      · have hlast : below.getLast? = some kind := by
          obtain ⟨next, below, rfl⟩ := List.exists_cons_of_ne_nil hbelow
          simpa using hkind
        simpa using ih hlast h

theorem eq_append_of_closing? {kind : Bracket} {text inside after : Text}
    (h : closing? kind text = some (inside, after)) : text = inside ++ kind.closer :: after :=
  closingLoop_eq_append (List.getLast?_singleton) h

/-! ## Occurrences outside all brackets -/

def topLevelCount (needle : Char) : Nat → Text → Nat
  | _, [] => 0
  | depth, c :: rest =>
      match Bracket.opened? c, Bracket.closed? c with
      | some _, _ => topLevelCount needle (depth + 1) rest
      | none, some _ => topLevelCount needle (depth - 1) rest
      | none, none =>
          if c == needle && depth == 0 then topLevelCount needle depth rest + 1
          else topLevelCount needle depth rest

section TopLevel

variable {needle : Char}

theorem length_topLevelLoop (depth : Nat) (text piece : Text) (pieces : List Text) :
    (topLevelLoop needle depth text piece pieces).length =
      pieces.length + 1 + topLevelCount needle depth text := by
  induction text generalizing depth piece pieces with
  | nil => simp [topLevelLoop, topLevelCount]
  | cons c rest ih =>
      rw [topLevelLoop, topLevelCount]
      cases Bracket.opened? c with
      | some opened => exact ih ..
      | none =>
          cases Bracket.closed? c with
          | some closed => exact ih ..
          | none =>
              by_cases hc : (c == needle && depth == 0) = true
              · simp only [hc, if_true, ih, List.length_cons]
                omega
              · rw [if_neg hc, if_neg hc]
                exact ih ..

theorem topLevelCount_eq_zero {text : Text} (h : occursTopLevel needle text = false) :
    topLevelCount needle 0 text = 0 := by
  have hlength : (splitTopLevel needle text).length = 0 + 1 + topLevelCount needle 0 text :=
    length_topLevelLoop 0 text [] []
  simp only [occursTopLevel, decide_eq_false_iff_not] at h
  omega

theorem topLevelCount_le_append (depth : Nat) (text rest : Text) :
    topLevelCount needle depth text ≤ topLevelCount needle depth (text ++ rest) := by
  induction text generalizing depth with
  | nil => exact Nat.zero_le _
  | cons c text ih =>
      rw [List.cons_append, topLevelCount, topLevelCount]
      cases Bracket.opened? c with
      | some opened => exact ih ..
      | none =>
          cases Bracket.closed? c with
          | some closed => exact ih ..
          | none =>
              dsimp only
              split
              · exact Nat.succ_le_succ (ih depth)
              · exact ih depth

variable (needle) in
theorem topLevelCount_append {part : Text} (hpart : ∀ c ∈ part, Bracket.IsPlain c)
    (rest : Text) :
    topLevelCount needle 0 (part ++ rest) = part.count needle + topLevelCount needle 0 rest := by
  induction part with
  | nil => simp
  | cons c part ih =>
      obtain ⟨⟨hopened, hclosed⟩, hpart⟩ := List.forall_mem_cons.1 hpart
      rw [List.cons_append, topLevelCount, hopened, hclosed, ih hpart, List.count_cons]
      by_cases hc : c = needle
      · simp [hc]
        omega
      · simp [hc]

theorem topLevelCount_of_closingLoop {passed text inside after : Text} {pending : List Bracket}
    (hpending : pending ≠ []) (h : closingLoop passed pending text = some (inside, after)) :
    topLevelCount needle pending.length text = topLevelCount needle 0 after := by
  induction text generalizing passed pending with
  | nil => simp [closingLoop] at h
  | cons c rest ih =>
      rw [topLevelCount]
      rcases closingLoop_cons_eq_some h with ⟨opened, hopened, h⟩ | ⟨⟨hopened, hclosed⟩, h⟩ |
        ⟨closed, below, hopened, hclosed, rfl, ⟨rfl, -, rfl⟩ | ⟨hbelow, h⟩⟩
      · simp only [hopened]
        exact ih (List.cons_ne_nil opened pending) h
      · have hdepth : pending.length ≠ 0 := by simpa using hpending
        simpa [hopened, hclosed, hdepth] using ih hpending h
      · simp [hopened, hclosed]
      · simpa [hopened, hclosed] using ih hbelow h

theorem topLevelCount_of_closing? {kind : Bracket} {c : Char} {text inside after : Text}
    (hc : Bracket.opened? c = some kind) (h : closing? kind text = some (inside, after)) :
    topLevelCount needle 0 (c :: text) = topLevelCount needle 0 after := by
  have hcount : topLevelCount needle 1 text = topLevelCount needle 0 after :=
    topLevelCount_of_closingLoop (List.cons_ne_nil kind []) h
  rw [topLevelCount, hc]
  exact hcount

theorem topLevelLoop_eq_splitLoop {text : Text} (htext : ∀ c ∈ text, Bracket.IsPlain c)
    (piece : Text) (pieces : List Text) :
    topLevelLoop needle 0 text piece pieces = splitLoop (· == needle) text piece pieces := by
  induction text generalizing piece pieces with
  | nil => rfl
  | cons c rest ih =>
      obtain ⟨⟨hopened, hclosed⟩, hrest⟩ := List.forall_mem_cons.1 htext
      unfold topLevelLoop splitLoop
      simp [hopened, hclosed, ih hrest]

theorem splitTopLevel_eq_splitWhere {text : Text} (htext : ∀ c ∈ text, Bracket.IsPlain c) :
    splitTopLevel needle text = splitWhere (· == needle) text :=
  topLevelLoop_eq_splitLoop htext [] []

theorem topLevelLoop_eq (depth : Nat) (text piece : Text) (pieces : List Text) :
    topLevelLoop needle depth text piece pieces =
      pieces.reverse ++ topLevelLoop needle depth text piece [] := by
  induction text generalizing depth piece pieces with
  | nil => simp [topLevelLoop]
  | cons c rest ih =>
      rw [topLevelLoop, topLevelLoop]
      cases Bracket.opened? c with
      | some opened => exact ih ..
      | none =>
          cases Bracket.closed? c with
          | some closed => exact ih ..
          | none =>
              by_cases hc : (c == needle && depth == 0) = true
              · simp only [hc, if_true]
                rw [ih _ _ (piece.reverse :: pieces), ih _ _ [piece.reverse]]
                simp
              · rw [if_neg hc, if_neg hc]
                exact ih ..

theorem isWholePart_of_mem_topLevelLoop {belongs : Char → Bool} (hneedle : belongs needle = false)
    {depth : Nat} {text piece part : Text} (h : part ∈ topLevelLoop needle depth text piece []) :
    IsWholePart belongs part (piece.reverse ++ text) := by
  induction text generalizing depth piece with
  | nil =>
      simp only [topLevelLoop, List.reverse_singleton, List.mem_singleton] at h
      rw [h, List.append_nil]
      exact .refl _
  | cons c rest ih =>
      have hnext : ∀ {depth}, part ∈ topLevelLoop needle depth rest (c :: piece) [] →
          IsWholePart belongs part (piece.reverse ++ c :: rest) := by
        intro depth hmem
        simpa using ih hmem
      rw [topLevelLoop] at h
      cases hopened : Bracket.opened? c with
      | some opened => exact hnext (by simpa only [hopened] using h)
      | none =>
          cases hclosed : Bracket.closed? c with
          | some closed => exact hnext (by simpa only [hopened, hclosed] using h)
          | none =>
              simp only [hopened, hclosed] at h
              by_cases hc : (c == needle && depth == 0) = true
              · have hcut : c = needle := by simpa using (Bool.and_eq_true_iff.1 hc).1
                rw [if_pos hc, topLevelLoop_eq, List.reverse_singleton, List.singleton_append,
                  List.mem_cons] at h
                rw [hcut]
                rcases h with rfl | h
                · exact .left_of_cons hneedle _ rest
                · exact (ih h).trans (.right_of_cons hneedle _ rest)
              · rw [if_neg hc] at h
                exact hnext h

theorem isWholePart_of_mem_splitTopLevel {belongs : Char → Bool}
    (hneedle : belongs needle = false) {text part : Text}
    (h : part ∈ splitTopLevel needle text) : IsWholePart belongs part text :=
  isWholePart_of_mem_topLevelLoop hneedle h

/-- Whatever is read behind a piece counts as it does from the depth reached, so nothing is left
to cut in a piece that is cut off. -/
theorem topLevelCount_of_mem_topLevelLoop {depth : Nat} {text piece part : Text}
    (hpiece : ∀ behind, topLevelCount needle 0 (piece.reverse ++ behind) =
      topLevelCount needle depth behind)
    (h : part ∈ topLevelLoop needle depth text piece []) : topLevelCount needle 0 part = 0 := by
  induction text generalizing depth piece with
  | nil =>
      simp only [topLevelLoop, List.reverse_singleton, List.mem_singleton] at h
      simpa [h, topLevelCount] using hpiece []
  | cons c rest ih =>
      have hnext : ∀ {next : Nat}, (∀ behind, topLevelCount needle depth (c :: behind) =
          topLevelCount needle next behind) →
          part ∈ topLevelLoop needle next rest (c :: piece) [] →
            topLevelCount needle 0 part = 0 := by
        intro next hstep hmem
        refine ih (fun behind => ?_) hmem
        rw [List.reverse_cons, List.append_assoc, List.singleton_append, hpiece, hstep]
      rw [topLevelLoop] at h
      cases hopened : Bracket.opened? c with
      | some opened =>
          refine hnext (fun behind => ?_) (by simpa only [hopened] using h)
          rw [topLevelCount, hopened]
      | none =>
          cases hclosed : Bracket.closed? c with
          | some closed =>
              refine hnext (fun behind => ?_) (by simpa only [hopened, hclosed] using h)
              rw [topLevelCount, hopened, hclosed]
          | none =>
              simp only [hopened, hclosed] at h
              by_cases hc : (c == needle && depth == 0) = true
              · rw [if_pos hc, topLevelLoop_eq, List.reverse_singleton, List.singleton_append,
                  List.mem_cons] at h
                rcases h with rfl | h
                · simpa [topLevelCount] using hpiece []
                · have hdepth : depth = 0 := by simpa using (Bool.and_eq_true_iff.1 hc).2
                  exact ih (fun behind => by rw [hdepth]; rfl) h
              · rw [if_neg hc] at h
                refine hnext (fun behind => ?_) h
                rw [topLevelCount, hopened, hclosed]
                exact if_neg hc

theorem topLevelCount_of_mem_splitTopLevel {text part : Text}
    (h : part ∈ splitTopLevel needle text) : topLevelCount needle 0 part = 0 :=
  topLevelCount_of_mem_topLevelLoop (fun _ => rfl) h

theorem topLevelCount_trim_eq_zero {text : Text} (h : topLevelCount needle 0 text = 0) :
    topLevelCount needle 0 (trim text) = 0 := by
  have hblank : ∀ c ∈ text.takeWhile isBlank, Bracket.IsPlain c :=
    fun c hc => isPlain_of_isBlank (List.mem_takeWhile_imp hc)
  have hstart : topLevelCount needle 0 (trimStart text) = 0 := by
    have hsum := topLevelCount_append needle hblank (trimStart text)
    rw [trimStart, List.takeWhile_append_dropWhile, h] at hsum
    rw [trimStart]
    omega
  have hle : topLevelCount needle 0 (trim text) ≤ topLevelCount needle 0
      (trim text ++ ((trimStart text).reverse.takeWhile isBlank).reverse) :=
    topLevelCount_le_append 0 _ _
  rw [trim, trimEnd, ← List.reverse_append, List.takeWhile_append_dropWhile, List.reverse_reverse,
    hstart] at hle
  exact Nat.eq_zero_of_le_zero hle

end TopLevel

theorem isBalanced_of_forall {text : Text} (htext : ∀ c ∈ text, Bracket.IsPlain c) :
    isBalanced text = true := by
  suffices closesAll [] text = true from this
  induction text with
  | nil => rfl
  | cons c rest ih =>
      obtain ⟨⟨hopened, hclosed⟩, hrest⟩ := List.forall_mem_cons.1 htext
      rw [closesAll, hopened, hclosed]
      exact ih hrest

/-! ## Balanced texts -/

/-- What a text whose brackets close a stack of brackets does to a walk for the partner of one
more bracket below them: the walk goes over it, and stops at that partner. -/
theorem closingLoop_of_closesAll {pending : List Bracket} {middle : Text}
    (h : closesAll pending middle = true) (passed : Text) (kind : Bracket) (after : Text) :
    closingLoop passed (pending ++ [kind]) (middle ++ kind.closer :: after) =
      some (passed.reverse ++ middle, after) := by
  induction middle generalizing passed pending with
  | nil =>
      obtain rfl : pending = [] := by simpa [closesAll] using h
      simp [closingLoop, Bracket.opened?_closer, Bracket.closed?_closer]
  | cons c middle ih =>
      rw [closesAll] at h
      rw [List.cons_append, closingLoop]
      cases hopened : Bracket.opened? c with
      | some opened =>
          simp only [hopened] at h
          simpa using ih h (c :: passed)
      | none =>
          cases hclosed : Bracket.closed? c with
          | none =>
              simp only [hopened, hclosed] at h
              simpa using ih h (c :: passed)
          | some closed =>
              cases pending with
              | nil => simp [hopened, hclosed] at h
              | cons top below =>
                  simp only [hopened, hclosed, Bool.and_eq_true, beq_iff_eq] at h
                  obtain ⟨rfl, h⟩ := h
                  simpa using ih h (c :: passed)

theorem closesAll_of_closingLoop {pending : List Bracket} {kind : Bracket}
    {passed text inside after : Text}
    (h : closingLoop passed (pending ++ [kind]) text = some (inside, after)) :
    ∃ middle, inside = passed.reverse ++ middle ∧ closesAll pending middle = true := by
  induction text generalizing passed pending with
  | nil => simp [closingLoop] at h
  | cons c rest ih =>
      rcases closingLoop_cons_eq_some h with ⟨opened, hopened, h⟩ | ⟨⟨hopened, hclosed⟩, h⟩ |
        ⟨closed, below, hopened, hclosed, hpending, hcases⟩
      · rw [← List.cons_append] at h
        obtain ⟨middle, rfl, hmiddle⟩ := ih h
        exact ⟨c :: middle, by simp, by simpa [closesAll, hopened] using hmiddle⟩
      · obtain ⟨middle, rfl, hmiddle⟩ := ih h
        exact ⟨c :: middle, by simp, by simpa [closesAll, hopened, hclosed] using hmiddle⟩
      · cases pending with
        | nil =>
            obtain rfl : below = [] := by simpa using (List.cons.inj hpending).2.symm
            rcases hcases with ⟨-, rfl, -⟩ | ⟨hbelow, -⟩
            · exact ⟨[], by simp, rfl⟩
            · exact absurd rfl hbelow
        | cons top pending =>
            obtain ⟨rfl, rfl⟩ := List.cons.inj hpending
            rcases hcases with ⟨hbelow, -⟩ | ⟨-, h⟩
            · simp at hbelow
            · obtain ⟨middle, rfl, hmiddle⟩ := ih h
              exact ⟨c :: middle, by simp, by simpa [closesAll, hopened, hclosed] using hmiddle⟩

/-- The partner of an opening bracket is the one closer with a balanced text before it. -/
theorem closing?_eq_some_iff {kind : Bracket} {text inside after : Text} :
    closing? kind text = some (inside, after) ↔
      text = inside ++ kind.closer :: after ∧ isBalanced inside = true := by
  constructor
  · intro h
    have hloop : closingLoop [] ([] ++ [kind]) text = some (inside, after) := h
    obtain ⟨middle, rfl, hmiddle⟩ := closesAll_of_closingLoop hloop
    exact ⟨eq_append_of_closing? h, hmiddle⟩
  · rintro ⟨rfl, hinside⟩
    exact closingLoop_of_closesAll hinside [] kind after

end Text

end Diachrony
