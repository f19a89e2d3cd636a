import Diachrony.Proofs.OpenBrackets

/-!
# Pairs of brackets

Offsets in a text are counted in bytes.  A pair of brackets is one opened and closed by the same
kind with a balanced text between.  In a balanced text every opening bracket is in one pair, whose
other end is where the walk from it comes to, and a character is outside all pairs where the
depth counted without regard to kinds is zero.
-/

namespace Diachrony

namespace Text

/-! ## Byte offsets -/

theorem byteLength_append (before after : Text) :
    byteLength (before ++ after) = byteLength before + byteLength after := by
  have hfold : ∀ (text : Text) (total : Nat),
      text.foldl (fun total c => total + c.utf8Size) total = total + byteLength text := by
    intro text
    induction text with
    | nil => exact fun _ => rfl
    | cons c rest ih =>
        intro total
        rw [byteLength, List.foldl_cons, List.foldl_cons, ih, ih]
        omega
  rw [byteLength, List.foldl_append, hfold]
  rfl

theorem byteLength_cons (c : Char) (rest : Text) :
    byteLength (c :: rest) = c.utf8Size + byteLength rest := by
  have hsingle : byteLength [c] = c.utf8Size := Nat.zero_add _
  rw [← List.singleton_append, byteLength_append, hsingle]

@[simp] theorem byteLength_nil : byteLength [] = 0 := rfl

theorem byteLength_pos {text : Text} (hne : text ≠ []) : 0 < byteLength text := by
  obtain ⟨c, rest, rfl⟩ := List.exists_cons_of_ne_nil hne
  rw [byteLength_cons]
  have hsize := c.utf8Size_pos
  omega

/-- Of two prefixes of a text the one with fewer bytes is continued to the other. -/
theorem exists_append_of_byteLength_lt {before after other behind : Text}
    (htext : before ++ after = other ++ behind) (hlt : byteLength before < byteLength other) :
    ∃ middle, middle ≠ [] ∧ other = before ++ middle ∧ after = middle ++ behind := by
  rcases List.append_eq_append_iff.1 htext with ⟨middle, rfl, rfl⟩ | ⟨middle, rfl, rfl⟩
  · refine ⟨middle, ?_, rfl, rfl⟩
    rintro rfl
    simp at hlt
  · rw [byteLength_append] at hlt
    omega

/-- Where a text is cut is known from the number of bytes before the cut. -/
theorem append_inj_of_byteLength {before after other behind : Text}
    (htext : before ++ after = other ++ behind)
    (hlength : byteLength before = byteLength other) : before = other ∧ after = behind := by
  rcases List.append_eq_append_iff.1 htext with ⟨middle, rfl, rfl⟩ | ⟨middle, rfl, rfl⟩
  all_goals
    rw [byteLength_append] at hlength
    obtain rfl : middle = [] := by
      by_contra hne
      have hpos := byteLength_pos hne
      omega
    simp

theorem splitAtByte_append (before after : Text) :
    splitAtByte (byteLength before) (before ++ after) = (before, after) := by
  induction before with
  | nil => cases after <;> rfl
  | cons c before ih =>
      have hsize := c.utf8Size_pos
      rw [byteLength_cons, List.cons_append, splitAtByte, if_neg (by omega),
        Nat.add_sub_cancel_left, ih]

def StandsAt (text : Text) (c : Char) (offset : Nat) : Prop :=
  ∃ before after, text = before ++ c :: after ∧ offset = byteLength before

/-- Whether a pair of brackets of a text stands at two byte offsets: one opened and closed by
the same kind, with a balanced text between. -/
def IsPair (text : Text) (opening closing : Nat) : Prop :=
  ∃ (kind : Bracket) (before inside after : Text),
    text = before ++ kind.opener :: (inside ++ kind.closer :: after) ∧
      isBalanced inside = true ∧ opening = byteLength before ∧
      closing = byteLength (before ++ kind.opener :: inside)

/-! ## The walk to the partner -/

theorem closingLoop_eq (passed : Text) (pending : List Bracket) (text : Text) :
    closingLoop passed pending text =
      (closingLoop [] pending text).map fun (inside, after) =>
        (passed.reverse ++ inside, after) := by
  induction text generalizing passed pending with
  | nil => rfl
  | cons c rest ih =>
      have hnext : ∀ stack, closingLoop (c :: passed) stack rest =
          (closingLoop [c] stack rest).map fun (inside, after) =>
            (passed.reverse ++ inside, after) := by
        intro stack
        rw [ih (c :: passed), ih [c], Option.map_map]
        simp [Function.comp_def]
      rw [closingLoop, closingLoop]
      cases Bracket.opened? c with
      | some kind => exact hnext _
      | none =>
          cases Bracket.closed? c with
          | none => exact hnext _
          | some kind =>
              cases pending with
              | nil => rfl
              | cons top below =>
                  dsimp only
                  split
                  · rfl
                  · split
                    · simp
                    · exact hnext _

theorem matchingOffset?_opener (before : Text) (kind : Bracket) (after : Text) :
    matchingOffset? (before ++ kind.opener :: after) (byteLength before) =
      (closing? kind after).map fun (inside, _) =>
        byteLength (before ++ kind.opener :: inside) := by
  rw [matchingOffset?, splitAtByte_append, closing?]
  simp only [closingLoop, Bracket.opened?_opener]
  rw [closingLoop_eq [kind.opener], Option.map_map]
  simp [Function.comp_def, byteLength_append]

theorem matchingOffset?_eq_some_iff {text : Text} {kind : Bracket} {opening closing : Nat}
    (hopening : StandsAt text kind.opener opening) :
    matchingOffset? text opening = some closing ↔ IsPair text opening closing := by
  obtain ⟨before, after, rfl, rfl⟩ := hopening
  rw [matchingOffset?_opener]
  constructor
  · intro h
    obtain ⟨⟨inside, behind⟩, hclosing, rfl⟩ := Option.map_eq_some_iff.1 h
    obtain ⟨rfl, hinside⟩ := closing?_eq_some_iff.1 hclosing
    exact ⟨kind, before, inside, behind, rfl, hinside, rfl, rfl⟩
  · rintro ⟨other, outside, inside, behind, htext, hinside, hlength, rfl⟩
    obtain ⟨rfl, hafter⟩ := append_inj_of_byteLength htext hlength
    obtain ⟨hkind, rfl⟩ := List.cons.inj hafter
    rw [Bracket.eq_of_opener_eq hkind, closing?_eq_some_iff.2 ⟨rfl, hinside⟩]
    rfl

theorem exists_isPair {text : Text} (htext : isBalanced text = true) {kind : Bracket}
    {opening : Nat} (hopening : StandsAt text kind.opener opening) :
    ∃ closing, IsPair text opening closing := by
  obtain ⟨before, after, rfl, rfl⟩ := hopening
  obtain ⟨stack, -, hafter⟩ := exists_openBrackets?_of_append (isBalanced_iff.1 htext)
  rw [openBrackets?_opener] at hafter
  obtain ⟨inside, behind, rfl, hinside, -⟩ := exists_closer [] hafter
  exact ⟨_, kind, before, inside, behind, rfl, isBalanced_iff.2 hinside, rfl, rfl⟩

/-! ## Occurrences outside all pairs -/

/-- The depth behind a character.  Kinds are not compared, and a closer at depth zero leaves the
depth at zero. -/
def depthBehind (depth : Nat) (c : Char) : Nat :=
  match Bracket.opened? c, Bracket.closed? c with
  | some _, _ => depth + 1
  | none, some _ => depth - 1
  | none, none => depth

/-- As long as every bracket is closed by its own kind, the depth is the number of open ones. -/
theorem length_of_openBrackets? {pending stack : List Bracket} {text : Text}
    (h : openBrackets? pending text = some stack) :
    text.foldl depthBehind pending.length = stack.length := by
  induction text generalizing pending with
  | nil =>
      cases h
      rfl
  | cons c rest ih =>
      rw [List.foldl_cons, depthBehind]
      rcases openBrackets?_cons_cases h with
        ⟨kind, rfl, hrest⟩ | ⟨kind, below, rfl, rfl, hrest⟩ | ⟨hc, hrest⟩
      · rw [Bracket.opened?_opener]
        exact ih hrest
      · rw [Bracket.opened?_closer, Bracket.closed?_closer]
        exact ih hrest
      · rw [hc.1, hc.2]
        exact ih hrest

/-- The byte offsets of a character at depth zero, in a text that starts at some depth and at
some offset. -/
def offsetsFrom (needle : Char) : Nat → Nat → Text → List Nat
  | _, _, [] => []
  | depth, start, c :: rest =>
      let later := offsetsFrom needle (depthBehind depth c) (start + c.utf8Size) rest
      if c = needle ∧ depth = 0 then start :: later else later

section TopLevel

variable {needle : Char}

/-- The offsets of the cuts, if the text read since the last one is part of the first piece. -/
theorem separatorOffsets_topLevelLoop (hneedle : Bracket.IsPlain needle) (depth start : Nat)
    (text piece : Text) :
    separatorOffsets needle start (topLevelLoop needle depth text piece []) =
      offsetsFrom needle depth (start + byteLength piece.reverse) text := by
  induction text generalizing depth start piece with
  | nil => rfl
  | cons c rest ih =>
      have hpass : ∀ next, separatorOffsets needle start
          (topLevelLoop needle next rest (c :: piece) []) =
            offsetsFrom needle next (start + byteLength piece.reverse + c.utf8Size) rest := by
        intro next
        rw [ih, List.reverse_cons, byteLength_append, byteLength_cons, byteLength_nil,
          Nat.add_zero, Nat.add_assoc]
      rw [topLevelLoop, offsetsFrom, depthBehind]
      cases hopened : Bracket.opened? c with
      | some kind =>
          have hne : c ≠ needle := fun heq => by simp [heq, hneedle.1] at hopened
          simpa [hne] using hpass (depth + 1)
      | none =>
          cases hclosed : Bracket.closed? c with
          | some kind =>
              have hne : c ≠ needle := fun heq => by simp [heq, hneedle.2] at hclosed
              simpa [hne] using hpass (depth - 1)
          | none =>
              by_cases hc : c = needle ∧ depth = 0
              · obtain ⟨rfl, rfl⟩ := hc
                -- The rest has a piece, so the end of this one is a cut.
                have hpieces : topLevelLoop c 0 rest [] [] ≠ [] := by
                  rw [← List.length_pos_iff, length_topLevelLoop]
                  omega
                obtain ⟨next, pieces, hcons⟩ := List.exists_cons_of_ne_nil hpieces
                have hrest := ih 0 (start + byteLength piece.reverse + c.utf8Size) []
                rw [hcons, List.reverse_nil, byteLength_nil, Nat.add_zero] at hrest
                simp only [beq_self_eq_true, Bool.and_self, if_true, and_self]
                rw [topLevelLoop_eq, hcons, List.reverse_singleton, List.singleton_append,
                  separatorOffsets, hrest]
              · simpa [hc] using hpass depth

theorem topLevelOffsets_eq (hneedle : Bracket.IsPlain needle) (text : Text) :
    topLevelOffsets needle text = offsetsFrom needle 0 0 text :=
  separatorOffsets_topLevelLoop hneedle 0 0 text []

theorem mem_offsetsFrom_iff {depth start offset : Nat} {text : Text} :
    offset ∈ offsetsFrom needle depth start text ↔
      ∃ before after, text = before ++ needle :: after ∧ offset = start + byteLength before ∧
        before.foldl depthBehind depth = 0 := by
  induction text generalizing depth start with
  | nil => simp [offsetsFrom]
  | cons c rest ih =>
      have hcons : offset ∈ offsetsFrom needle depth start (c :: rest) ↔
          (c = needle ∧ depth = 0 ∧ offset = start) ∨
            offset ∈ offsetsFrom needle (depthBehind depth c) (start + c.utf8Size) rest := by
        rw [offsetsFrom]
        split
        · rename_i hc
          simp [hc]
        · rename_i hc
          grind
      rw [hcons, ih]
      constructor
      · rintro (⟨rfl, rfl, rfl⟩ | ⟨before, after, rfl, rfl, hdepth⟩)
        · exact ⟨[], rest, rfl, rfl, rfl⟩
        · refine ⟨c :: before, after, rfl, ?_, hdepth⟩
          rw [byteLength_cons, Nat.add_assoc]
      · rintro ⟨before, after, htext, rfl, hdepth⟩
        cases before with
        | nil =>
            obtain ⟨rfl, rfl⟩ := List.cons.inj htext
            exact .inl ⟨rfl, hdepth, rfl⟩
        | cons d before =>
            obtain ⟨rfl, rfl⟩ := List.cons.inj htext
            refine .inr ⟨before, after, rfl, ?_, hdepth⟩
            rw [byteLength_cons, Nat.add_assoc]

theorem pairwise_offsetsFrom (depth start : Nat) (text : Text) :
    (offsetsFrom needle depth start text).Pairwise (· < ·) := by
  induction text generalizing depth start with
  | nil => exact List.Pairwise.nil
  | cons c rest ih =>
      rw [offsetsFrom]
      split
      · refine List.Pairwise.cons (fun offset hoffset => ?_) (ih _ _)
        obtain ⟨before, -, -, rfl, -⟩ := mem_offsetsFrom_iff.1 hoffset
        have hsize := c.utf8Size_pos
        omega
      · exact ih _ _

/-- In a balanced text a character is at depth zero exactly if no pair stands around it. -/
theorem foldl_depthBehind_eq_zero_iff {before after : Text} (hneedle : Bracket.IsPlain needle)
    (htext : isBalanced (before ++ needle :: after) = true) :
    before.foldl depthBehind 0 = 0 ↔
      ∀ opening closing, IsPair (before ++ needle :: after) opening closing →
        ¬ (opening < byteLength before ∧ byteLength before < closing) := by
  obtain ⟨stack, hbefore, hafter⟩ := exists_openBrackets?_of_append (isBalanced_iff.1 htext)
  have hdepth : before.foldl depthBehind 0 = stack.length := length_of_openBrackets? hbefore
  rw [hdepth, List.length_eq_zero_iff]
  constructor
  · rintro rfl opening closing ⟨kind, outside, inside, behind, hpair, hinside, rfl, rfl⟩
      ⟨hopening, hclosing⟩
    -- The position is inside the pair, so its opening bracket is still open there.
    obtain ⟨middle, hne, rfl, hmiddle⟩ := exists_append_of_byteLength_lt hpair.symm hopening
    obtain ⟨c, start, rfl⟩ := List.exists_cons_of_ne_nil hne
    obtain ⟨rfl, hstart⟩ := List.cons.inj hmiddle
    rw [byteLength_append, byteLength_append, byteLength_cons, byteLength_cons] at hclosing
    obtain ⟨rest, -, rfl, -⟩ := exists_append_of_byteLength_lt hstart.symm (by omega)
    obtain ⟨above, habove, -⟩ := exists_openBrackets?_of_append (isBalanced_iff.1 hinside)
    obtain ⟨below, -, hopen⟩ := exists_openBrackets?_of_append hbefore
    rw [openBrackets?_opener] at hopen
    have hstill : openBrackets? (kind :: below) start = some (above ++ kind :: below) :=
      openBrackets?_append_pending habove (kind :: below)
    rw [hstill, Option.some.injEq] at hopen
    simp at hopen
  · intro hnone
    by_contra hne
    obtain ⟨kind, below, rfl⟩ := List.exists_cons_of_ne_nil hne
    obtain ⟨outside, start, rfl, -, hstart⟩ := exists_opener [] hbefore
    obtain ⟨rest, behind, hrest, hclosed, -⟩ := exists_closer [] hafter
    have hpos : 0 < byteLength rest := by
      refine byteLength_pos ?_
      rintro rfl
      obtain ⟨rfl, -⟩ := List.cons.inj hrest
      simpa [Bracket.closed?_closer] using hneedle.2
    have hinside : isBalanced (start ++ rest) = true := by
      rw [isBalanced_iff, openBrackets?_append, hstart, Option.bind_some, hclosed]
    refine hnone (byteLength outside) (byteLength (outside ++ kind.opener :: (start ++ rest)))
      ⟨kind, outside, start ++ rest, behind, by simp [hrest], hinside, rfl, rfl⟩ ⟨?_, ?_⟩
    · have hopener := byteLength_pos (List.cons_ne_nil kind.opener start)
      rw [byteLength_append]
      omega
    · simp only [byteLength_append, byteLength_cons]
      omega

theorem mem_topLevelOffsets_iff (hneedle : Bracket.IsPlain needle) {text : Text}
    (htext : isBalanced text = true) {offset : Nat} :
    offset ∈ topLevelOffsets needle text ↔
      StandsAt text needle offset ∧ ∀ opening closing, IsPair text opening closing →
        ¬ (opening < offset ∧ offset < closing) := by
  rw [topLevelOffsets_eq hneedle, mem_offsetsFrom_iff]
  simp only [Nat.zero_add]
  constructor
  · rintro ⟨before, after, rfl, rfl, hdepth⟩
    exact ⟨⟨before, after, rfl, rfl⟩, (foldl_depthBehind_eq_zero_iff hneedle htext).1 hdepth⟩
  · rintro ⟨⟨before, after, rfl, rfl⟩, hnone⟩
    exact ⟨before, after, rfl, rfl, (foldl_depthBehind_eq_zero_iff hneedle htext).2 hnone⟩

end TopLevel

/-- The three scanners read one nesting.  A text is balanced exactly if its brackets form a well
nested word; then the walk from an opening bracket comes to the one closer that makes a pair with
it, and the occurrences of another character found are, in order, those outside all pairs. -/
theorem scanners_agree_on_nesting (text : Text) :
    (isBalanced text = true ↔ WellNested (brackets text)) ∧
      (isBalanced text = true →
        (∀ (kind : Bracket) (opening : Nat), StandsAt text kind.opener opening →
          ∃ closing, matchingOffset? text opening = some closing ∧
            ∀ other, IsPair text opening other ↔ other = closing) ∧
        ∀ needle, Bracket.IsPlain needle →
          (topLevelOffsets needle text).Pairwise (· < ·) ∧
            ∀ offset, offset ∈ topLevelOffsets needle text ↔
              StandsAt text needle offset ∧ ∀ opening closing, IsPair text opening closing →
                ¬ (opening < offset ∧ offset < closing)) := by
  refine ⟨isBalanced_iff_wellNested, fun htext => ⟨fun kind opening hopening => ?_,
    fun needle hneedle => ⟨?_, fun offset => mem_topLevelOffsets_iff hneedle htext⟩⟩⟩
  · obtain ⟨closing, hpair⟩ := exists_isPair htext hopening
    have hmatching := (matchingOffset?_eq_some_iff hopening).2 hpair
    refine ⟨closing, hmatching, fun other => ?_⟩
    rw [← matchingOffset?_eq_some_iff hopening, hmatching, Option.some.injEq, eq_comm]
  · rw [topLevelOffsets_eq hneedle]
    exact pairwise_offsetsFrom 0 0 text

/-- A letter of two bytes before a group in a class: the class ends behind the group, and only
the underscore behind it is outside. -/
theorem scanners_agree_on_nesting_class :
    let text := "ʃ [_ (b)] _".toList
    isBalanced text = true ∧
      (matchingOffset? text 3 = some 9 ∧ ∀ other, IsPair text 3 other ↔ other = 9) ∧
      11 ∈ topLevelOffsets '_' text ∧ 4 ∉ topLevelOffsets '_' text := by
  intro text
  have htext : isBalanced text = true := by decide
  obtain ⟨-, hnesting⟩ := scanners_agree_on_nesting text
  obtain ⟨hpartner, htop⟩ := hnesting htext
  have hopening : StandsAt text Bracket.square.opener 3 :=
    ⟨"ʃ ".toList, "_ (b)] _".toList, rfl, rfl⟩
  obtain ⟨closing, hclosing, hpair⟩ := hpartner .square 3 hopening
  have hmatching : matchingOffset? text 3 = some 9 := by decide
  obtain rfl : closing = 9 := by simpa [hmatching] using hclosing.symm
  obtain ⟨-, hoffsets⟩ := htop '_' ⟨rfl, rfl⟩
  refine ⟨htext, ⟨hmatching, hpair⟩, by decide, fun h => ?_⟩
  exact ((hoffsets 4).1 h).2 3 9 ((hpair 9).2 rfl) (by decide)

end Text

end Diachrony
