import Diachrony.Proofs.Computation
import Diachrony.Proofs.OptionalGroups
import Diachrony.Proofs.Preparation
import Diachrony.Proofs.Respacing

/-!
# Respaced statements

A rule statement is cut at its marks and read token by token.  None of this depends on how many
blanks stand between two tokens, or on which ones, so respaced statements have the same rules.
-/

namespace Diachrony.RuleText

open Text (Respaced isBlank)

variable {text other : Text}

/-! ## Items -/

theorem itemLoop_append_of_blank {run : Text} (hrun : ∀ c ∈ run, isBlank c = true)
    (items : List Item) (rest : Text) : itemLoop items (run ++ rest) = itemLoop items rest := by
  induction run with
  | nil => rfl
  | cons c run ih =>
      obtain ⟨hc, hrun⟩ := List.forall_mem_cons.1 hrun
      rw [List.cons_append, itemLoop, if_pos hc, ih hrun]

theorem not_continuesLiteral_of_isBlank {c : Char} (hc : isBlank c = true) :
    continuesLiteral c = false := by
  simp [continuesLiteral, hc]

theorem itemLoop_open_of_none {rest : Text} (hclose : Text.closing? .square rest = none)
    (items : List Item) : itemLoop items ('[' :: rest) = .error .unclosedClass := by
  rw [itemLoop, if_neg (by decide), if_pos rfl]
  split
  · rfl
  · rename_i hsome
    rw [hclose] at hsome
    cases hsome

/-- A bracketed class is read as its flattened members. -/
theorem itemLoop_open_of_some {rest inside after : Text}
    (hclose : Text.closing? .square rest = some (inside, after)) (items : List Item) :
    itemLoop items ('[' :: rest) =
      flattenClass inside >>= fun members => itemLoop (.oneOf members :: items) after := by
  rw [itemLoop, if_neg (by decide), if_pos rfl]
  split
  · rename_i hnone
    rw [hclose] at hnone
    cases hnone
  · rename_i found behind hsome
    rw [hclose] at hsome
    cases hsome
    unfold flattenClass parseItems
    cases itemLoop [] inside with
    | error cause => rfl
    | ok inner =>
        rw [ok_bind]
        dsimp only
        cases classMembers inner with
        | error cause => rfl
        | ok members => rfl

theorem itemLoop_eq_of_respaced (h : Respaced text other) (items : List Item) :
    itemLoop items text = itemLoop items other := by
  induction hlength : text.length using Nat.strongRecOn generalizing text other items with
  | ind length ih =>
      subst hlength
      cases h with
      | nil => rfl
      | @char c text other h =>
          by_cases hopen : c = '['
          · subst hopen
            rcases h.closing? .square with ⟨hnone, hother⟩ |
              ⟨inside, after, otherInside, otherAfter, hsome, hother, hinside, hafter⟩
            · rw [itemLoop_open_of_none hnone, itemLoop_open_of_none hother]
            · have hlength := Text.closing?_length hsome
              have hmembers : flattenClass inside = flattenClass otherInside := by
                unfold flattenClass parseItems
                rw [ih _ (by rw [List.length_cons]; omega) hinside [] rfl]
              rw [itemLoop_open_of_some hsome, itemLoop_open_of_some hother, hmembers]
              refine congrArg (flattenClass otherInside >>= ·) (funext fun members => ?_)
              exact ih _ (by rw [List.length_cons]; omega) hafter _ rfl
          · rw [itemLoop, itemLoop, if_neg hopen, if_neg hopen]
            split
            · exact ih _ (Nat.lt_succ_self _) h items rfl
            · split
              · rfl
              · split
                · rfl
                · have hblank : ∀ d, isBlank d = true → continuesLiteral d = false :=
                    fun d => not_continuesLiteral_of_isBlank
                  rw [h.takeWhile_eq hblank]
                  refine ih _ ?_ (h.dropWhile hblank) _ rfl
                  rw [List.length_cons]
                  exact Nat.lt_succ_of_le (List.dropWhile_suffix _).length_le
      | @blanks run otherRun text other hrun hother h =>
          rw [itemLoop_append_of_blank hrun.blank, itemLoop_append_of_blank hother.blank]
          exact ih _ (hrun.length_lt text) h items rfl

theorem parseItems_eq_of_respaced (h : Respaced text other) : parseItems text = parseItems other :=
  itemLoop_eq_of_respaced h []

/-! ## Fragments -/

namespace Fragment

variable {α β : Type}

mutual

def map (f : α → β) : Fragment α → Fragment β
  | fixed content => fixed (f content)
  | group inner => group (mapAll f inner)

def mapAll (f : α → β) : List (Fragment α) → List (Fragment β)
  | [] => []
  | fragment :: rest => map f fragment :: mapAll f rest

end

theorem mapAll_eq_map (f : α → β) (fragments : List (Fragment α)) :
    mapAll f fragments = fragments.map (map f) := by
  induction fragments with
  | nil => rw [mapAll, List.map_nil]
  | cons fragment rest ih => rw [mapAll, ih, List.map_cons]

mutual

theorem groupCount_map (f : α → β) (fragment : Fragment α) :
    groupCount (map f fragment) = groupCount fragment := by
  cases fragment with
  | fixed content => rw [map, groupCount, groupCount]
  | group inner => rw [map, groupCount, groupCount, groupCounts_mapAll f inner]

theorem groupCounts_mapAll (f : α → β) (fragments : List (Fragment α)) :
    groupCounts (mapAll f fragments) = groupCounts fragments := by
  cases fragments with
  | nil => rw [mapAll, groupCounts, groupCounts]
  | cons fragment rest =>
      rw [mapAll, groupCounts, groupCounts, groupCount_map f fragment, groupCounts_mapAll f rest]

end

mutual

theorem choices_map (f : α → β) (fragment : Fragment α) :
    choices (map f fragment) = (choices fragment).map (List.map f) := by
  cases fragment with
  | fixed content =>
      rw [map, choices_fixed, choices_fixed, List.map_singleton, List.map_singleton]
  | group inner =>
      rw [map, choices_group, choices_group, enumerate_mapAll f inner, List.map_append]
      rfl

/-- Changing the content of fixed parts changes nothing but the content of the sequences. -/
theorem enumerate_mapAll (f : α → β) (fragments : List (Fragment α)) :
    enumerate (mapAll f fragments) = (enumerate fragments).map (List.map f) := by
  cases fragments with
  | nil => rw [mapAll, enumerate_nil, enumerate_nil, List.map_singleton, List.map_nil]
  | cons fragment rest =>
      rw [mapAll, enumerate_cons, enumerate_cons, choices_map f fragment, enumerate_mapAll f rest]
      simp [List.flatMap_map, List.map_flatMap, Function.comp_def]

end

end Fragment

/-- Whether two sequences of fragments have the same groups and the same words in their fixed
parts. -/
def SameWords (fragments others : List (Fragment Text)) : Prop :=
  Fragment.mapAll Text.words fragments = Fragment.mapAll Text.words others

theorem SameWords.cons {fragments others : List (Fragment Text)} (h : SameWords fragments others)
    {fragment otherFragment : Fragment Text}
    (hsame : fragment.map Text.words = otherFragment.map Text.words) :
    SameWords (fragment :: fragments) (otherFragment :: others) := by
  rw [SameWords, Fragment.mapAll, Fragment.mapAll, hsame, h]

theorem SameWords.reverse {fragments others : List (Fragment Text)}
    (h : SameWords fragments others) : SameWords fragments.reverse others.reverse := by
  rw [SameWords, Fragment.mapAll_eq_map, Fragment.mapAll_eq_map] at *
  rw [List.map_reverse, List.map_reverse, h]

theorem SameWords.pushFixed {fragments others : List (Fragment Text)}
    (h : SameWords fragments others) {piece otherPiece : Text} (hpiece : Respaced piece otherPiece) :
    SameWords (pushFixed piece fragments) (RuleText.pushFixed otherPiece others) := by
  unfold RuleText.pushFixed
  rw [hpiece.isAllBlank_eq]
  split
  · exact h
  · exact h.cons (by rw [Fragment.map, Fragment.map, hpiece.reverse.words_eq])

theorem fragmentLoop_append_of_blank {run : Text} (hrun : ∀ c ∈ run, isBlank c = true)
    (depth : Nat) (piece : Text) (fragments : List (Fragment Text)) (rest : Text) :
    fragmentLoop depth piece fragments (run ++ rest) =
      fragmentLoop depth (run.reverse ++ piece) fragments rest := by
  induction run generalizing piece with
  | nil => rfl
  | cons c run ih =>
      obtain ⟨hc, hrun⟩ := List.forall_mem_cons.1 hrun
      have hround : ∀ d, isBlank d = false → ¬(depth = 0 ∧ c = d) :=
        fun d hd hboth => Text.ne_of_isBlank hc hd hboth.2
      rw [List.cons_append, fragmentLoop, if_neg (Text.ne_of_isBlank hc (by decide)),
        if_neg (Text.ne_of_isBlank hc (by decide)), if_neg (hround _ (by decide)),
        if_neg (hround _ (by decide)), ih hrun, List.reverse_cons, List.append_assoc]
      rfl

theorem fragmentLoop_open_of_none {rest : Text} (hclose : Text.closing? .round rest = none)
    (piece : Text) (fragments : List (Fragment Text)) :
    fragmentLoop 0 piece fragments ('(' :: rest) = .error .unclosedOptionalGroup := by
  rw [fragmentLoop, if_neg (by decide), if_neg (by decide), if_pos ⟨rfl, rfl⟩]
  split
  · rfl
  · rename_i hsome
    rw [hclose] at hsome
    cases hsome

/-- A parenthesised group is read as the fragments of its inside. -/
theorem fragmentLoop_open_of_some {rest inside after : Text}
    (hclose : Text.closing? .round rest = some (inside, after)) (piece : Text)
    (fragments : List (Fragment Text)) :
    fragmentLoop 0 piece fragments ('(' :: rest) =
      parseFragments inside >>= fun inner =>
        fragmentLoop 0 [] (.group inner :: pushFixed piece fragments) after := by
  rw [fragmentLoop, if_neg (by decide), if_neg (by decide), if_pos ⟨rfl, rfl⟩]
  split
  · rename_i hnone
    rw [hclose] at hnone
    cases hnone
  · rename_i found behind hsome
    rw [hclose] at hsome
    cases hsome
    unfold parseFragments
    cases fragmentLoop 0 [] [] inside with
    | error cause => rfl
    | ok inner => rfl

theorem agree_fragmentLoop (h : Respaced text other) (depth : Nat) {piece otherPiece : Text}
    (hpiece : Respaced piece otherPiece) {fragments others : List (Fragment Text)}
    (hfragments : SameWords fragments others) :
    Agree SameWords (fragmentLoop depth piece fragments text)
      (fragmentLoop depth otherPiece others other) := by
  induction hlength : text.length using Nat.strongRecOn
    generalizing text other depth piece otherPiece fragments others with
  | ind length ih =>
      subst hlength
      cases h with
      | nil =>
          rw [fragmentLoop, fragmentLoop]
          exact .ok (hfragments.pushFixed hpiece).reverse
      | @char c text other h =>
          have hnext : ∀ depth, Agree SameWords (fragmentLoop depth (c :: piece) fragments text)
              (fragmentLoop depth (c :: otherPiece) others other) :=
            fun depth => ih _ (Nat.lt_succ_self _) h depth (hpiece.char c) hfragments rfl
          by_cases hopen : depth = 0 ∧ c = '('
          · obtain ⟨rfl, rfl⟩ := hopen
            rcases h.closing? .round with ⟨hnone, hother⟩ |
              ⟨inside, after, otherInside, otherAfter, hsome, hother, hinside, hafter⟩
            · rw [fragmentLoop_open_of_none hnone, fragmentLoop_open_of_none hother]
              exact .error _ _
            · have hlength := Text.closing?_length hsome
              rw [fragmentLoop_open_of_some hsome, fragmentLoop_open_of_some hother]
              refine (ih _ (by rw [List.length_cons]; omega) hinside 0 .nil rfl rfl).bind
                fun inner otherInner hinner => ?_
              refine ih _ (by rw [List.length_cons]; omega) hafter 0 .nil ?_ rfl
              exact (hfragments.pushFixed hpiece).cons (by rw [Fragment.map, Fragment.map, hinner])
          · rw [fragmentLoop, fragmentLoop, if_neg hopen, if_neg hopen]
            split
            · exact hnext _
            · split
              · exact hnext _
              · split
                · exact .error _ _
                · exact hnext _
      | @blanks run otherRun text other hrun hother h =>
          rw [fragmentLoop_append_of_blank hrun.blank, fragmentLoop_append_of_blank hother.blank]
          have hbefore := Text.Respaced.blanks hrun.reverse hother.reverse hpiece
          exact ih _ (hrun.length_lt text) h depth hbefore hfragments rfl

theorem words_intercalate (parts : List Text) :
    Text.words ([' '].intercalate parts) = (parts.map Text.words).flatten := by
  induction parts with
  | nil => rfl
  | cons part parts ih =>
      cases parts with
      | nil => simp
      | cons next parts =>
          have hspace : isBlank ' ' = true := by decide
          rw [List.intercalate_cons_cons, List.append_assoc, List.singleton_append,
            Text.words_append_cons hspace, ih, List.map_cons (l := next :: parts),
            List.flatten_cons]

theorem agree_expandGroups (h : Respaced text other) (limit : Nat) :
    Agree Eq (expandGroups limit text) (expandGroups limit other) := by
  have hvariants : ∀ fragments : List (Fragment Text),
      (Fragment.enumerate fragments).map
          (fun parts => Text.normalizeBlanks ([' '].intercalate parts)) =
        (Fragment.enumerate (Fragment.mapAll Text.words fragments)).map
          fun parts => [' '].intercalate parts.flatten := by
    intro fragments
    rw [Fragment.enumerate_mapAll, List.map_map]
    refine List.map_congr_left fun parts _ => ?_
    rw [Text.normalizeBlanks, words_intercalate]
    rfl
  refine (agree_fragmentLoop h 0 .nil rfl).bind fun fragments others hfragments => ?_
  have hcount : Fragment.groupCounts fragments = Fragment.groupCounts others := by
    rw [← Fragment.groupCounts_mapAll Text.words, hfragments, Fragment.groupCounts_mapAll]
  dsimp only
  rw [hcount, hvariants, hvariants, hfragments]
  exact .refl _

/-! ## Contexts -/

theorem agree_expandContext [Limits] {side otherSide : Option Text}
    (h : Option.Rel Respaced side otherSide) (which : ContextSide) :
    Agree Eq (expandContext which side) (expandContext which otherSide) := by
  cases h with
  | none => exact .ok rfl
  | @some text other h =>
      have hparentheses : Respaced (withoutParentheses text) (withoutParentheses other) := by
        refine h.map fun c hc => ?_
        split
        · decide
        · exact hc
      refine (agree_expandGroups h _).bind fun variants otherVariants hvariants => ?_
      rw [parseItems_eq_of_respaced hparentheses, hvariants]
      exact .refl _

/-! ## Shapes -/

structure Shape.Respaced (shape other : Shape) : Prop where
  source : Text.Respaced shape.source other.source
  target : Text.Respaced shape.target other.target
  left : Option.Rel Text.Respaced shape.left other.left
  right : Option.Rel Text.Respaced shape.right other.right

theorem respaced_contextSide? (h : Respaced text other) :
    Option.Rel Respaced (contextSide? text) (contextSide? other) := by
  unfold contextSide?
  dsimp only
  rw [h.trim.isEmpty_eq]
  split
  · exact .none
  · exact .some h.trim

theorem agree_splitContext (h : Respaced text other) :
    Agree (fun sides otherSides => Option.Rel Respaced sides.1 otherSides.1 ∧
      Option.Rel Respaced sides.2 otherSides.2) (splitContext text) (splitContext other) := by
  have hneedle : isBlank '_' = false := by decide
  have hpieces := h.splitTopLevel hneedle
  unfold splitContext
  generalize Text.splitTopLevel '_' text = pieces at hpieces ⊢
  generalize Text.splitTopLevel '_' other = others at hpieces ⊢
  cases hpieces with
  | nil => exact .error _ _
  | cons hleft hpieces =>
      cases hpieces with
      | nil => exact .error _ _
      | cons hright hpieces =>
          cases hpieces with
          | nil => exact .ok ⟨respaced_contextSide? hleft, respaced_contextSide? hright⟩
          | cons hnext hpieces => exact .error _ _

theorem agree_splitTarget (h : Respaced text other) :
    Agree (fun cut otherCut => Respaced cut.1 otherCut.1 ∧ Option.Rel Respaced cut.2 otherCut.2)
      (splitTarget text) (splitTarget other) := by
  have hneedle : isBlank '/' = false := by decide
  have hpieces := h.splitTopLevel hneedle
  unfold splitTarget
  generalize Text.splitTopLevel '/' text = pieces at hpieces ⊢
  generalize Text.splitTopLevel '/' other = others at hpieces ⊢
  cases hpieces with
  | nil => exact .ok ⟨h, .none⟩
  | cons htarget hpieces =>
      cases hpieces with
      | nil => exact .ok ⟨h, .none⟩
      | cons hcontext hpieces =>
          cases hpieces with
          | nil => exact .ok ⟨htarget, .some hcontext⟩
          | cons hnext hpieces => exact .error _ _

theorem checkSide_eq_of_respaced (h : Respaced text other) : checkSide text = checkSide other := by
  have hparenthesis : hasParenthesis text = hasParenthesis other := by
    refine h.any_eq fun c hc => ?_
    have hopen : c ≠ '(' := Text.ne_of_isBlank hc (by decide)
    have hclose : c ≠ ')' := Text.ne_of_isBlank hc (by decide)
    simp [hopen, hclose]
  have hoccurs : Text.occursTopLevel '_' text = Text.occursTopLevel '_' other := by
    rw [Text.occursTopLevel, Text.occursTopLevel, (h.splitTopLevel (by decide)).length_eq]
  rw [checkSide, checkSide, hparenthesis, hoccurs]

theorem agree_parseShape (h : Respaced text other) :
    Agree Shape.Respaced (parseShape text) (parseShape other) := by
  have hseparates : ∀ c, isBlank c = true → (c == '>') = false :=
    fun c hc => beq_false_of_ne (Text.ne_of_isBlank hc (by decide))
  have hpieces := h.splitWhere hseparates
  unfold parseShape
  rw [h.isBalanced_eq]
  split
  · exact .error _ _
  · generalize Text.splitWhere (· == '>') text = pieces at hpieces ⊢
    generalize Text.splitWhere (· == '>') other = others at hpieces ⊢
    cases hpieces with
    | nil => exact .error _ _
    | cons hbefore hpieces =>
        cases hpieces with
        | nil => exact .error _ _
        | cons hafter hpieces =>
            cases hpieces with
            | cons hnext hpieces => exact .error _ _
            | nil =>
                refine (agree_splitTarget hafter).bind fun cut otherCut hcut => ?_
                obtain ⟨target, context⟩ := cut
                obtain ⟨otherTarget, otherContext⟩ := otherCut
                obtain ⟨htarget, hcontext⟩ := hcut
                dsimp only at htarget hcontext ⊢
                rw [hbefore.trim.isEmpty_eq]
                split
                · exact .error _ _
                · rw [checkSide_eq_of_respaced hbefore.trim, checkSide_eq_of_respaced htarget.trim]
                  refine .bind_same _ fun _ => .bind_same _ fun _ => ?_
                  cases hcontext with
                  | none => exact .ok ⟨hbefore.trim, htarget.trim, .none, .none⟩
                  | some hcontext =>
                      exact (agree_splitContext hcontext).bind fun sides otherSides hsides =>
                        .ok ⟨hbefore.trim, htarget.trim, hsides.1, hsides.2⟩

/-- Respaced statements of one line expand to the same rules. -/
theorem agree_expand [Limits] (h : Respaced text other) (line : Nat) (source otherSource : String) :
    Agree Eq (RuleStatement.expand ⟨line, source, text⟩)
      (RuleStatement.expand ⟨line, otherSource, other⟩) := by
  refine (agree_parseShape h).bind fun shape otherShape hshape => ?_
  rw [parseItems_eq_of_respaced hshape.source, parseItems_eq_of_respaced hshape.target]
  refine .bind_same _ fun source => .bind_same _ fun target => .bind_same _ fun changes => ?_
  refine (agree_expandContext hshape.left .left).bind fun lefts _ hlefts => ?_
  refine (agree_expandContext hshape.right .right).bind fun rights _ hrights => ?_
  rw [hlefts, hrights]
  exact .refl _

/-! ## Negative sets -/

theorem literalTokens_eq_runs (text : Text) :
    literalTokens text =
      ((Text.runs (fun c => !isDelimiter c) text).map String.ofList).filter
        (!marks.contains ·) := by
  simp [literalTokens, Text.runs]

theorem literalTokens_eq_of_respaced (h : Respaced text other) :
    literalTokens text = literalTokens other := by
  rw [literalTokens_eq_runs, literalTokens_eq_runs, h.runs_eq fun c hc => by simp [isDelimiter, hc]]

theorem exists_dropWhile_of_mem {c : Char} (h : c ∈ text) :
    ∃ behind, text.dropWhile (· != c) = c :: behind := by
  cases hrest : text.dropWhile (· != c) with
  | nil => simpa using List.dropWhile_eq_nil_iff.1 hrest c h
  | cons head behind =>
      have hhead := Text.eq_false_of_mem_head?_dropWhile (c := head) (by rw [hrest]; rfl)
      exact ⟨behind, by rw [bne_eq_false_iff_eq.1 hhead]⟩

section ComplementLoop

variable {behind body : Text} {mark : Char} (hmark : text.dropWhile (· != '!') = mark :: behind)
  (known : TokenSet) (written : Text)
include hmark

theorem complementLoop_of_not_open (hopen : ∀ body, Text.trimStart behind ≠ '[' :: body) :
    complementLoop known written text = .error .malformedNegativeSet := by
  rw [complementLoop]
  split
  · rename_i hnone
    rw [hmark] at hnone
    cases hnone
  · rename_i hsome
    rw [hmark] at hsome
    cases hsome
    split
    · rename_i hbody
      exact absurd hbody (hopen _)
    · rfl

theorem complementLoop_of_unclosed (hopen : Text.trimStart behind = '[' :: body)
    (hclose : Text.closing? .square body = none) :
    complementLoop known written text = .error .unclosedClass := by
  rw [complementLoop]
  split
  · rename_i hnone
    rw [hmark] at hnone
    cases hnone
  · rename_i hsome
    rw [hmark] at hsome
    cases hsome
    split
    · rename_i hbody
      rw [hopen] at hbody
      cases hbody
      split
      · rfl
      · rename_i hcut
        rw [hclose] at hcut
        cases hcut
    · rename_i hnot
      exact absurd hopen (hnot _)

/-- A negative set is replaced by the class of what it does not list. -/
theorem complementLoop_of_closed {inside after : Text}
    (hopen : Text.trimStart behind = '[' :: body)
    (hclose : Text.closing? .square body = some (inside, after)) :
    complementLoop known written text =
      if (known.without (literalTokens inside)).isEmpty then .error .emptyNegativeSet
      else complementLoop known
        ((writtenClass (known.without (literalTokens inside)).toList).reverse ++
          ((text.takeWhile (· != '!')).reverse ++ written)) after := by
  conv_lhs => rw [complementLoop]
  split
  · rename_i hnone
    rw [hmark] at hnone
    cases hnone
  · rename_i hsome
    rw [hmark] at hsome
    cases hsome
    split
    · rename_i hbody
      rw [hopen] at hbody
      cases hbody
      split
      · rename_i hcut
        rw [hclose] at hcut
        cases hcut
      · rename_i hcut
        rw [hclose] at hcut
        cases hcut
        rfl
    · rename_i hnot
      exact absurd hopen (hnot _)

end ComplementLoop

theorem agree_complementLoop (h : Respaced text other) (known : TokenSet)
    {written otherWritten : Text} (hwritten : Respaced written otherWritten) :
    Agree Respaced (complementLoop known written text)
      (complementLoop known otherWritten other) := by
  induction hlength : text.length using Nat.strongRecOn
    generalizing text other written otherWritten with
  | ind length ih =>
      subst hlength
      by_cases hmem : '!' ∈ text
      · have hblank : ∀ c, isBlank c = true → (c != '!') = true :=
          fun c hc => bne_iff_ne.2 (Text.ne_of_isBlank hc (by decide))
        obtain ⟨hbefore, hbehind⟩ := h.takeWhile_dropWhile hblank
        obtain ⟨behind, hmark⟩ := exists_dropWhile_of_mem hmem
        have hshort := (List.dropWhile_suffix (l := text) (· != '!')).length_le
        rw [hmark] at hbehind hshort
        obtain ⟨otherBehind, hotherMark, hbehind⟩ := hbehind.exists_cons (by decide)
        have htrim := hbehind.trimStart
        by_cases hopen : ∃ body, Text.trimStart behind = '[' :: body
        · obtain ⟨body, hopen⟩ := hopen
          have hbodyShort := Text.trimStart_length_le behind
          rw [hopen] at htrim hbodyShort
          obtain ⟨otherBody, hotherOpen, hbody⟩ := htrim.exists_cons (by decide)
          rcases hbody.closing? .square with ⟨hnone, hotherNone⟩ |
            ⟨inside, after, otherInside, otherAfter, hclose, hotherClose, hinside, hafter⟩
          · rw [complementLoop_of_unclosed hmark known written hopen hnone,
              complementLoop_of_unclosed hotherMark known otherWritten hotherOpen hotherNone]
            exact .error _ _
          · rw [complementLoop_of_closed hmark known written hopen hclose,
              complementLoop_of_closed hotherMark known otherWritten hotherOpen hotherClose,
              literalTokens_eq_of_respaced hinside]
            split
            · exact .error _ _
            · have hafterShort := Text.closing?_length hclose
              simp only [List.length_cons] at hshort hbodyShort
              exact ih after.length (by omega) hafter
                ((Respaced.refl _).append (hbefore.reverse.append hwritten)) rfl
        · have hotherOpen : ∀ body, Text.trimStart otherBehind ≠ '[' :: body := by
            intro body hbody
            rw [hbody] at htrim
            obtain ⟨rest, hrest, -⟩ := htrim.symm.exists_cons (by decide)
            exact hopen ⟨rest, hrest⟩
          rw [complementLoop_of_not_open hmark known written fun body hbody => hopen ⟨body, hbody⟩,
            complementLoop_of_not_open hotherMark known otherWritten hotherOpen]
          exact .error _ _
      · have hother : '!' ∉ other := fun hin => hmem ((h.mem_iff (by decide)).2 hin)
        rw [complementLoop_of_not_mem hmem, complementLoop_of_not_mem hother]
        exact .ok (hwritten.reverse.append h)

theorem agree_expandNegativeSets (h : Respaced text other) (known : TokenSet) :
    Agree Respaced (expandNegativeSets known text) (expandNegativeSets known other) :=
  agree_complementLoop h known .nil

end Diachrony.RuleText
