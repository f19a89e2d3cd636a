import Diachrony.Proofs.ContextMeaning
import Diachrony.Proofs.Slots

/-!
# The language of a pattern line

A pattern line is cut into fixed texts and groups, the fixed texts are read as slots, and the
slots that keeping or dropping each group leaves are the patterns.  `LeavesSlots` says which these
are without a tree of groups: a text up to the first parenthesis outside classes is read by
itself, and so is what stands in the group and behind it.
-/

namespace Diachrony

open RuleText

/-- How many classes a fixed text leaves open, from a number of open ones on; `none` if a
parenthesis stands outside them.  A closer counts for nothing where no class is open. -/
def fixedDepth? : Nat → Text → Option Nat
  | depth, [] => some depth
  | depth, c :: rest =>
      if c = '[' then fixedDepth? (depth + 1) rest
      else if c = ']' then fixedDepth? (depth - 1) rest
      else if depth = 0 ∧ (c = '(' ∨ c = ')') then none
      else fixedDepth? depth rest

/-- Which sequences of slots are left of a pattern line when each group is kept or dropped. -/
inductive LeavesSlots (classes : List (String × TokenSet)) (phonemes : TokenSet) :
    Text → List TokenSet → Prop
  | fixed {text : Text} {slots : List TokenSet} (hfixed : (fixedDepth? 0 text).isSome)
      (hslots : ReadsSlots classes phonemes text slots) : LeavesSlots classes phonemes text slots
  | kept {before inside after : Text} {first inner slots : List TokenSet}
      (hfixed : fixedDepth? 0 before = some 0) (hbefore : ReadsSlots classes phonemes before first)
      (hbalanced : Text.isBalanced inside = true)
      (hinside : LeavesSlots classes phonemes inside inner)
      (hafter : LeavesSlots classes phonemes after slots) :
      LeavesSlots classes phonemes (before ++ '(' :: (inside ++ ')' :: after))
        (first ++ (inner ++ slots))
  | dropped {before inside after : Text} {first slots : List TokenSet}
      (hfixed : fixedDepth? 0 before = some 0) (hbefore : ReadsSlots classes phonemes before first)
      (hbalanced : Text.isBalanced inside = true)
      (hafter : LeavesSlots classes phonemes after slots) :
      LeavesSlots classes phonemes (before ++ '(' :: (inside ++ ')' :: after)) (first ++ slots)

/-! ## The first group of a pattern line -/

theorem fixedDepth?_append (depth : Nat) (text rest : Text) :
    fixedDepth? depth (text ++ rest) = (fixedDepth? depth text).bind (fixedDepth? · rest) := by
  fun_induction fixedDepth? depth text with
  | case1 depth => rfl
  | case2 depth text ih => rw [List.cons_append, fixedDepth?, if_pos rfl, ih]
  | case3 depth text hopen ih =>
      rw [List.cons_append, fixedDepth?, if_neg hopen, if_pos rfl, ih]
  | case4 depth c text hopen hclose hround =>
      rw [List.cons_append, fixedDepth?, if_neg hopen, if_neg hclose, if_pos hround]
      rfl
  | case5 depth c text hopen hclose hround ih =>
      rw [List.cons_append, fixedDepth?, if_neg hopen, if_neg hclose, if_neg hround, ih]

theorem fixedDepth?_append_group {before : Text} (h : fixedDepth? 0 before = some 0)
    (rest : Text) : fixedDepth? 0 (before ++ '(' :: rest) = none := by
  rw [fixedDepth?_append, h, Option.bind_some]
  rfl

theorem eq_of_append_group {before other rest behind : Text}
    (hbefore : fixedDepth? 0 before = some 0) (hother : fixedDepth? 0 other = some 0)
    (h : before ++ '(' :: rest = other ++ '(' :: behind) : before = other ∧ rest = behind := by
  have hshort : ∀ {short middle tail after : Text}, fixedDepth? 0 short = some 0 →
      fixedDepth? 0 (short ++ middle) = some 0 → '(' :: tail = middle ++ after → middle = [] := by
    intro short middle tail after hshort hlong htail
    cases middle with
    | nil => rfl
    | cons c middle =>
        cases htail
        rw [fixedDepth?_append_group hshort] at hlong
        cases hlong
  rcases List.append_eq_append_iff.1 h with ⟨middle, rfl, htail⟩ | ⟨middle, rfl, htail⟩
  · obtain rfl := hshort hbefore hother htail
    exact ⟨(List.append_nil before).symm, (List.cons.inj htail).2⟩
  · obtain rfl := hshort hother hbefore htail
    exact ⟨List.append_nil other, (List.cons.inj htail).2.symm⟩

section LeavesSlots

variable {classes : List (String × TokenSet)} {phonemes : TokenSet} {slots : List TokenSet}

theorem leavesSlots_fixed_iff {text : Text} (hfixed : (fixedDepth? 0 text).isSome) :
    LeavesSlots classes phonemes text slots ↔ ReadsSlots classes phonemes text slots := by
  refine ⟨fun h => ?_, .fixed hfixed⟩
  cases h with
  | fixed _ hslots => exact hslots
  | kept hbefore => simp [fixedDepth?_append_group hbefore] at hfixed
  | dropped hbefore => simp [fixedDepth?_append_group hbefore] at hfixed

theorem leavesSlots_group_iff {before rest inside after : Text}
    (hfixed : fixedDepth? 0 before = some 0)
    (hclose : Text.closing? .round rest = some (inside, after)) :
    LeavesSlots classes phonemes (before ++ '(' :: rest) slots ↔
      ∃ first, ReadsSlots classes phonemes before first ∧ ∃ inner tail,
        (LeavesSlots classes phonemes inside inner ∨ inner = []) ∧
        LeavesSlots classes phonemes after tail ∧ slots = first ++ (inner ++ tail) := by
  obtain ⟨hrest, hbalanced⟩ := Text.closing?_eq_some_iff.1 hclose
  have hsame : ∀ {other content behind : Text}, fixedDepth? 0 other = some 0 →
      Text.isBalanced content = true →
      before ++ '(' :: rest = other ++ '(' :: (content ++ ')' :: behind) →
        other = before ∧ content = inside ∧ behind = after := by
    intro other content behind hother hcontent h
    obtain ⟨rfl, rfl⟩ := eq_of_append_group hfixed hother h
    have hfound : Text.closing? .round (content ++ ')' :: behind) = some (content, behind) :=
      Text.closing?_eq_some_iff.2 ⟨rfl, hcontent⟩
    cases hfound.symm.trans hclose
    exact ⟨rfl, rfl, rfl⟩
  constructor
  · intro h
    generalize htext : before ++ '(' :: rest = text at h
    cases h with
    | fixed hdepth =>
        rw [← htext, fixedDepth?_append_group hfixed] at hdepth
        cases hdepth
    | kept hother hbefore hcontent hinside hafter =>
        obtain ⟨rfl, rfl, rfl⟩ := hsame hother hcontent htext
        exact ⟨_, hbefore, _, _, .inl hinside, hafter, rfl⟩
    | dropped hother hbefore hcontent hafter =>
        obtain ⟨rfl, rfl, rfl⟩ := hsame hother hcontent htext
        exact ⟨_, hbefore, [], _, .inr rfl, hafter, rfl⟩
  · rintro ⟨first, hbefore, inner, tail, hinside | rfl, hafter, rfl⟩
    · rw [hrest]
      exact .kept hfixed hbefore hbalanced hinside hafter
    · rw [hrest]
      exact .dropped hfixed hbefore hbalanced hafter

end LeavesSlots

/-! ## Sequences spliced into fragments -/

namespace RuleText.Fragment

variable {α β ε : Type}

theorem leaves_append_iff {fragments others : List (Fragment α)} {sequence : List α} :
    Leaves (fragments ++ others) sequence ↔
      ∃ first tail, Leaves fragments first ∧ Leaves others tail ∧ sequence = first ++ tail := by
  induction fragments generalizing sequence with
  | nil => simp [leaves_nil_iff]
  | cons fragment fragments ih =>
      simp only [List.cons_append, leaves_cons_iff, ih]
      constructor
      · rintro ⟨first, hfirst, -, ⟨middle, tail, hmiddle, htail, rfl⟩, rfl⟩
        exact ⟨_, tail, ⟨first, hfirst, middle, hmiddle, rfl⟩, htail,
          (List.append_assoc first middle tail).symm⟩
      · rintro ⟨-, tail, ⟨first, hfirst, middle, hmiddle, rfl⟩, htail, rfl⟩
        exact ⟨first, hfirst, _, ⟨middle, tail, hmiddle, htail, rfl⟩,
          List.append_assoc first middle tail⟩

theorem leaves_map_fixed_iff {contents sequence : List α} :
    Leaves (contents.map .fixed) sequence ↔ sequence = contents := by
  induction contents generalizing sequence with
  | nil => exact leaves_nil_iff
  | cons content contents ih => simp [leaves_fixed_cons_iff, ih]

/-- A piece is replaced by what it is read as, which is nothing for a blank one. -/
theorem exists_of_spliceAll_pushFixed {f : Text → Except ε (List β)}
    (hblank : ∀ text, Text.isAllBlank text = true → f text = .ok []) {piece : Text}
    {rest : List (Fragment Text)} {replaced : List (Fragment β)}
    (h : spliceAll f (pushFixed piece [] ++ rest) = .ok replaced) :
    ∃ contents others, f piece.reverse = .ok contents ∧ spliceAll f rest = .ok others ∧
      replaced = contents.map .fixed ++ others := by
  unfold pushFixed at h
  split at h
  · rename_i hpiece
    refine ⟨[], replaced, hblank _ ?_, h, rfl⟩
    rwa [Text.isAllBlank, List.all_reverse]
  · rw [List.singleton_append, spliceAll] at h
    obtain ⟨first, hfirst, h⟩ := bind_eq_ok.1 h
    obtain ⟨others, hothers, h⟩ := bind_eq_ok.1 h
    obtain ⟨contents, hcontents, rfl⟩ := map_eq_ok.1 hfirst
    cases h
    exact ⟨contents, others, hcontents, hothers, rfl⟩

theorem exists_of_spliceAll_group {f : α → Except ε (List β)} {inner rest : List (Fragment α)}
    {replaced : List (Fragment β)} (h : spliceAll f (.group inner :: rest) = .ok replaced) :
    ∃ kept others, spliceAll f inner = .ok kept ∧ spliceAll f rest = .ok others ∧
      replaced = .group kept :: others := by
  rw [spliceAll] at h
  obtain ⟨first, hfirst, h⟩ := bind_eq_ok.1 h
  obtain ⟨others, hothers, h⟩ := bind_eq_ok.1 h
  obtain ⟨kept, hkept, rfl⟩ := map_eq_ok.1 hfirst
  cases h
  exact ⟨kept, others, hkept, hothers, rfl⟩

end RuleText.Fragment

/-! ## Cutting a pattern line -/

section ReadPatternLine

variable {classes : List (String × TokenSet)} {phonemes : TokenSet} {line : Nat} {text : Text}

theorem readSlots_of_isAllBlank {symbols : SymbolTable} (h : Text.isAllBlank text = true) :
    readSlots line symbols text = .ok [] := by
  rw [readSlots]
  induction text with
  | nil => exact slotLoop_nil symbols []
  | cons c rest ih =>
      rw [Text.isAllBlank, List.all_cons, Bool.and_eq_true] at h
      rw [slotLoop_gap (.inl h.1), ih h.2]

theorem leaves_group_iff (hnames : "" ∉ symbolNames classes phonemes)
    {before rest inside after : Text} {first : List TokenSet}
    {kept others : List (Fragment TokenSet)} (hfixed : fixedDepth? 0 before = some 0)
    (hfirst : readSlots line (SymbolTable.of classes phonemes) before = .ok first)
    (hclose : Text.closing? .round rest = some (inside, after))
    (hkept : ∀ inner, Fragment.Leaves kept inner ↔ LeavesSlots classes phonemes inside inner)
    (hothers : ∀ tail, Fragment.Leaves others tail ↔ LeavesSlots classes phonemes after tail)
    (slots : List TokenSet) :
    Fragment.Leaves (first.map .fixed ++ .group kept :: others) slots ↔
      LeavesSlots classes phonemes (before ++ '(' :: rest) slots := by
  have hread : ∀ found, ReadsSlots classes phonemes before found ↔ found = first := by
    intro found
    rw [← readSlots_eq_ok_iff hnames, hfirst, Except.ok.injEq, eq_comm]
  rw [leavesSlots_group_iff hfixed hclose, Fragment.leaves_append_iff]
  simp only [hread, Fragment.leaves_map_fixed_iff, Fragment.leaves_group_cons_iff, hkept, hothers]
  constructor
  · rintro ⟨found, -, hfound, ⟨inner, tail, hinner, htail, rfl⟩, rfl⟩
    exact ⟨found, hfound, inner, tail, hinner, htail, rfl⟩
  · rintro ⟨found, hfound, inner, tail, hinner, htail, rfl⟩
    exact ⟨found, inner ++ tail, hfound, ⟨inner, tail, hinner, htail, rfl⟩, rfl⟩

/-- What the fragments of a text leave, once their texts are read as slots, is what the text
leaves. -/
theorem leaves_iff_of_fragmentLoop (hnames : "" ∉ symbolNames classes phonemes) {depth : Nat}
    {piece : Text} {fragments result : List (Fragment Text)}
    (hpiece : fixedDepth? 0 piece.reverse = some depth)
    (h : fragmentLoop depth piece fragments text = .ok result) :
    ∃ parts, result = fragments.reverse ++ parts ∧ ∀ slotted,
      Fragment.spliceAll (readSlots line (SymbolTable.of classes phonemes)) parts = .ok slotted →
        ∀ slots, Fragment.Leaves slotted slots ↔
          LeavesSlots classes phonemes (piece.reverse ++ text) slots := by
  -- The depth of the loop is that of the piece read so far, so no class is open before a group.
  have hnext : ∀ {c : Char} {depth : Nat} {piece : Text}, fixedDepth? 0 piece.reverse = some depth →
      fixedDepth? 0 (c :: piece).reverse = fixedDepth? depth [c] := by
    intro c depth piece hpiece
    rw [List.reverse_cons, fixedDepth?_append, hpiece, Option.bind_some]
  fun_induction fragmentLoop depth piece fragments text generalizing result with
  | case1 depth piece fragments =>
      cases h
      refine ⟨pushFixed piece [], reverse_pushFixed piece fragments, ?_⟩
      intro slotted hslotted slots
      rw [← List.append_nil (pushFixed piece [])] at hslotted
      obtain ⟨contents, others, hcontents, hothers, rfl⟩ :=
        Fragment.exists_of_spliceAll_pushFixed (fun _ => readSlots_of_isAllBlank) hslotted
      cases hothers
      rw [List.append_nil, List.append_nil, Fragment.leaves_map_fixed_iff,
        leavesSlots_fixed_iff (by simp [hpiece]), ← readSlots_eq_ok_iff hnames, hcontents]
      simp [eq_comm]
  | case2 depth piece fragments rest ih =>
      obtain ⟨parts, hresult, hparts⟩ := ih ((hnext hpiece).trans rfl) h
      exact ⟨parts, hresult, by rwa [reverse_cons_append] at hparts⟩
  | case3 depth piece fragments rest hopen ih =>
      obtain ⟨parts, hresult, hparts⟩ := ih ((hnext hpiece).trans rfl) h
      exact ⟨parts, hresult, by rwa [reverse_cons_append] at hparts⟩
  | case4 => cases h
  | case5 => cases h
  | case6 depth piece fragments c rest _ _ hround inside after hclose _ inner hinner ihinner ih =>
      obtain ⟨rfl, rfl⟩ := hround
      obtain ⟨innerParts, hinnerParts, hinside⟩ := ihinner rfl hinner
      obtain rfl : inner = innerParts := hinnerParts
      obtain ⟨parts, hresult, hafter⟩ := ih rfl h
      refine ⟨pushFixed piece [] ++ .group inner :: parts, ?_, fun slotted hslotted slots => ?_⟩
      · rw [hresult, List.reverse_cons, reverse_pushFixed]
        simp
      · obtain ⟨first, behind, hfirst, hbehind, rfl⟩ :=
          Fragment.exists_of_spliceAll_pushFixed (fun _ => readSlots_of_isAllBlank) hslotted
        obtain ⟨kept, others, hkept, hothers, rfl⟩ := Fragment.exists_of_spliceAll_group hbehind
        exact leaves_group_iff hnames hpiece hfirst hclose (hinside kept hkept)
          (hafter others hothers) slots
  | case7 => cases h
  | case8 depth piece fragments c rest hopen hclose hround hplain ih =>
      have hfixed : fixedDepth? depth [c] = some depth := by
        rw [fixedDepth?, if_neg hopen, if_neg hclose, if_neg, fixedDepth?]
        rintro ⟨hdepth, hc | hc⟩
        · exact hround ⟨hdepth, hc⟩
        · exact hplain ⟨hdepth, hc⟩
      obtain ⟨parts, hresult, hparts⟩ := ih ((hnext hpiece).trans hfixed) h
      exact ⟨parts, hresult, by rwa [reverse_cons_append] at hparts⟩

/-- The patterns read are the nonempty sequences of slots that the line leaves. -/
theorem mem_readPatternLine_iff [Limits] (hnames : "" ∉ symbolNames classes phonemes)
    {patterns : List Pattern}
    (h : readPatternLine (SymbolTable.of classes phonemes) line text = .ok patterns)
    {pattern : Pattern} :
    pattern ∈ patterns ↔
      pattern.slots ≠ [] ∧ LeavesSlots classes phonemes text pattern.slots := by
  simp only [readPatternLine, bind_eq_ok, mapError_eq_ok] at h
  obtain ⟨fragments, hfragments, slotted, hslotted, h⟩ := h
  obtain ⟨parts, hparts, hleaves⟩ := leaves_iff_of_fragmentLoop hnames rfl hfragments
  obtain rfl : fragments = parts := hparts
  split at h
  · cases h
  · cases h
    have hslots : ∀ slots, Fragment.Leaves slotted slots ↔
        LeavesSlots classes phonemes text slots := hleaves slotted hslotted
    simp only [List.mem_map, List.mem_filter, Fragment.mem_enumerate_iff, hslots,
      Bool.not_eq_true', List.isEmpty_eq_false_iff]
    constructor
    · rintro ⟨slots, ⟨hline, hne⟩, rfl⟩
      exact ⟨hne, hline⟩
    · rintro ⟨hne, hline⟩
      exact ⟨pattern.slots, ⟨hline, hne⟩, rfl⟩

end ReadPatternLine

/-! ## Words of a pattern line -/

theorem Pattern.fits_iff {pattern : Pattern} {tokens : List Token} :
    pattern.fits tokens = true ↔
      List.Forall₂ (fun token slot => token ∈ slot.toList) tokens pattern.slots := by
  rw [Pattern.fits, Pattern.size, Bool.and_eq_true, beq_iff_eq, List.all_eq_true,
    List.forall₂_iff_zip]
  simp only [TokenSet.contains_iff, Prod.forall]

/-- The patterns of a line fit the words that have a token for each slot of what the line leaves
when its groups are kept or dropped, and at least one.  An empty name would stand everywhere and
take reading no further; no inventory is read with a table that has one. -/
theorem exists_fits_iff_of_readPatternLine [Limits] {classes : List (String × TokenSet)}
    {phonemes : TokenSet} {line : Nat} {text : Text} {patterns : List Pattern}
    (hnames : "" ∉ symbolNames classes phonemes)
    (h : readPatternLine (SymbolTable.of classes phonemes) line text = .ok patterns)
    (tokens : List Token) :
    (∃ pattern ∈ patterns, pattern.fits tokens = true) ↔
      tokens ≠ [] ∧ ∃ slots, LeavesSlots classes phonemes text slots ∧
        List.Forall₂ (fun token slot => token ∈ slot.toList) tokens slots := by
  have hnonempty : ∀ {slots : List TokenSet},
      List.Forall₂ (fun token slot => token ∈ slot.toList) tokens slots →
        (slots ≠ [] ↔ tokens ≠ []) := by
    intro slots hslots
    rw [← List.length_pos_iff, ← List.length_pos_iff, hslots.length_eq]
  simp only [mem_readPatternLine_iff hnames h, Pattern.fits_iff]
  constructor
  · rintro ⟨pattern, ⟨hne, hline⟩, hfits⟩
    exact ⟨(hnonempty hfits).1 hne, pattern.slots, hline, hfits⟩
  · rintro ⟨hne, slots, hline, hfits⟩
    exact ⟨⟨slots⟩, ⟨(hnonempty hfits).2 hne, hline⟩, hfits⟩

/-- In `ts(V(t))a` the longer phoneme `ts` is read first, and `V` is read as the class, although it
is a phoneme as well.  Without the inner group alone the line stands for `tsia`, but it never
stands for `tsVa`. -/
theorem exists_fits_iff_of_readPatternLine_nested :
    let classes := [("V", TokenSet.ofList ["a", "i"])]
    let phonemes := TokenSet.ofList ["V", "a", "i", "s", "t", "ts"]
    let words := fun tokens => tokens ≠ [] ∧
      ∃ slots, LeavesSlots classes phonemes "ts(V(t))a".toList slots ∧
        List.Forall₂ (fun token slot => token ∈ slot.toList) tokens slots
    "" ∉ symbolNames classes phonemes ∧
      ∃ patterns,
        readPatternLine (SymbolTable.of classes phonemes) 1 "ts(V(t))a".toList = .ok patterns ∧
        patterns.length = 3 ∧
        ((∃ pattern ∈ patterns, pattern.fits ["ts", "i", "a"] = true) ∧ words ["ts", "i", "a"]) ∧
        ¬ (∃ pattern ∈ patterns, pattern.fits ["ts", "V", "a"] = true) ∧
          ¬ words ["ts", "V", "a"] := by
  intro classes phonemes words
  have hnames : "" ∉ symbolNames classes phonemes := by
    simp [symbolNames, classes, phonemes, TokenSet.mem_ofList]
  obtain ⟨patterns, hread, hlength, hkept, hnever⟩ : ∃ patterns,
      readPatternLine (SymbolTable.of classes phonemes) 1 "ts(V(t))a".toList = .ok patterns ∧
        patterns.length = 3 ∧ patterns.any (·.fits ["ts", "i", "a"]) = true ∧
        patterns.any (·.fits ["ts", "V", "a"]) = false :=
    ⟨[⟨[TokenSet.ofList ["ts"], TokenSet.ofList ["a", "i"], TokenSet.ofList ["t"],
          TokenSet.ofList ["a"]]⟩,
        ⟨[TokenSet.ofList ["ts"], TokenSet.ofList ["a", "i"], TokenSet.ofList ["a"]]⟩,
        ⟨[TokenSet.ofList ["ts"], TokenSet.ofList ["a"]]⟩], by cbv, by simp, by cbv, by cbv⟩
  have hfits : ∃ pattern ∈ patterns, pattern.fits ["ts", "i", "a"] = true :=
    List.any_eq_true.1 hkept
  have hmisses : ¬ ∃ pattern ∈ patterns, pattern.fits ["ts", "V", "a"] = true := fun h =>
    Bool.false_ne_true (hnever.symm.trans (List.any_eq_true.2 h))
  have hwords := exists_fits_iff_of_readPatternLine hnames hread
  exact ⟨hnames, patterns, hread, hlength, ⟨hfits, (hwords _).1 hfits⟩, hmisses,
    fun h => hmisses ((hwords _).2 h)⟩

end Diachrony
