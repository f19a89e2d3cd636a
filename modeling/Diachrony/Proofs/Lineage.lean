import Mathlib.Data.Finset.Sort
import Diachrony.Proofs.Reconstruction

/-!
# Lineages

What reversal finds, said without reversal.  A lineage gives a word one stage before every
rule, each of which could have become the next: under a rule with an output the next stage
with the input put back at spans that do not overlap, under a deletion the next stage itself
or with the input inserted at one place.  Reversal finds the source words that lineages start
from, and whether it drops dead candidates on the way makes no difference.
-/

namespace Diachrony

/-! ## Spans -/

theorem Spaced.add_le {width least first second : Nat} {places : List Nat}
    (h : Spaced width least places) (hfirst : first ∈ places) (hsecond : second ∈ places)
    (hlt : first < second) : first + width ≤ second := by
  induction places generalizing least with
  | nil => simp at hfirst
  | cons start rest ih =>
      rcases List.mem_cons.1 hfirst with rfl | hfirst'
      · rcases List.mem_cons.1 hsecond with rfl | hsecond'
        · omega
        · exact h.2.le_of_mem hsecond'
      · rcases List.mem_cons.1 hsecond with rfl | hsecond'
        · have hle := h.2.le_of_mem hfirst'
          omega
        · exact ih h.2 hfirst' hsecond'

theorem Spaced.of_pairwise {width least : Nat} {places : List Nat}
    (hleast : ∀ place ∈ places, least ≤ place)
    (hapart : places.Pairwise fun first second => first + width ≤ second) :
    Spaced width least places := by
  induction places generalizing least with
  | nil => trivial
  | cons start rest ih =>
      rw [List.pairwise_cons] at hapart
      exact ⟨hleast start List.mem_cons_self, ih hapart.1 hapart.2⟩

namespace Rule

/-- Whether some places start spans of the output, none reaching into another, that have both
contexts around them. -/
structure AreSpans (rule : Rule) (tokens : List Token) (starts : Finset Nat) : Prop where
  occurs : ∀ start ∈ starts, (tokens.drop start).take rule.output.length = rule.output
  context : ∀ start ∈ starts,
    rule.contextHolds tokens start (start + rule.output.length) = true
  apart : ∀ first ∈ starts, ∀ second ∈ starts, first < second →
    first + rule.output.length ≤ second

/-- What a position holds once the input is back at the spans that start at some places: the
input at a start, nothing inside a span, and its token elsewhere. -/
def putBackAt (rule : Rule) (starts : Finset Nat) (token : Token) (position : Nat) :
    List Token :=
  if position ∈ starts then rule.input
  else if ∃ start ∈ starts, start < position ∧ position < start + rule.output.length then []
  else [token]

def putBackFrom (rule : Rule) (starts : Finset Nat) (position : Nat) (tokens : List Token) :
    List Token :=
  (tokens.zipIdx position).flatMap fun (token, position) => rule.putBackAt starts token position

def putBack (rule : Rule) (starts : Finset Nat) (tokens : List Token) : List Token :=
  rule.putBackFrom starts 0 tokens

theorem putBackFrom_cons (rule : Rule) (starts : Finset Nat) (position : Nat) (token : Token)
    (rest : List Token) :
    rule.putBackFrom starts position (token :: rest) =
      rule.putBackAt starts token position ++ rule.putBackFrom starts (position + 1) rest := rfl

theorem putBackFrom_append (rule : Rule) (starts : Finset Nat) (position : Nat)
    (first second : List Token) :
    rule.putBackFrom starts position (first ++ second) =
      rule.putBackFrom starts position first ++
        rule.putBackFrom starts (position + first.length) second := by
  simp [putBackFrom, List.zipIdx_append]

variable {rule : Rule} {starts : Finset Nat}

theorem putBackFrom_inside {start position : Nat} {tokens : List Token} (hmem : start ∈ starts)
    (hapart : ∀ other ∈ starts, start < other → start + rule.output.length ≤ other)
    (hlt : start < position)
    (hreach : position + tokens.length ≤ start + rule.output.length) :
    rule.putBackFrom starts position tokens = [] := by
  induction tokens generalizing position with
  | nil => rfl
  | cons token rest ih =>
      rw [List.length_cons] at hreach
      have hstart : position ∉ starts := by
        intro hother
        have hle := hapart position hother hlt
        omega
      have hinside : ∃ start ∈ starts, start < position ∧
          position < start + rule.output.length := ⟨start, hmem, hlt, by omega⟩
      rw [putBackFrom_cons, ih (by omega) (by omega), List.append_nil, putBackAt,
        if_neg hstart, if_pos hinside]

theorem putBackFrom_span {start : Nat} {tokens : List Token} (hmem : start ∈ starts)
    (hapart : ∀ other ∈ starts, start < other → start + rule.output.length ≤ other)
    (hne : tokens ≠ []) (hlength : tokens.length = rule.output.length) :
    rule.putBackFrom starts start tokens = rule.input := by
  cases tokens with
  | nil => exact absurd rfl hne
  | cons token rest =>
      rw [List.length_cons] at hlength
      rw [putBackFrom_cons, putBackFrom_inside hmem hapart (by omega) (by omega),
        List.append_nil, putBackAt, if_pos hmem]

/-- Whether the places at or behind a position are those where a script that is read from there
puts in the output, and no span that starts before the position reaches over it. -/
structure AreStartsOf (rule : Rule) (starts : Finset Nat) (position : Nat) (script : Script) :
    Prop where
  mem_iff : ∀ start, start ∈ starts ∧ position ≤ start ↔ start ∈ rule.startsFrom position script
  add_le : ∀ start ∈ starts, start < position → start + rule.output.length ≤ position

namespace AreStartsOf

variable {position : Nat} {rest : Script}

theorem of_kept {token : Token} (h : rule.AreStartsOf starts position (some token :: rest)) :
    position ∉ starts ∧ rule.AreStartsOf starts (position + 1) rest := by
  have hafter : ∀ start ∈ starts, position ≤ start → position + 1 ≤ start := by
    intro start hmem hle
    have hin : start ∈ rule.startsFrom (position + 1) rest := (h.mem_iff start).1 ⟨hmem, hle⟩
    exact (rule.spaced_startsFrom (position + 1) rest).le_of_mem hin
  have hstart : position ∉ starts := by
    intro hmem
    have hle := hafter position hmem (Nat.le_refl position)
    omega
  refine ⟨hstart, fun start => ?_, fun start hmem hlt => ?_⟩
  · rw [← startsFrom, ← h.mem_iff]
    exact ⟨fun h => ⟨h.1, by omega⟩, fun h => ⟨h.1, hafter start h.1 h.2⟩⟩
  · have hle := h.add_le start hmem
    have hne : start ≠ position := fun heq => hstart (heq ▸ hmem)
    omega

theorem of_span (houtput : rule.output ≠ []) (h : rule.AreStartsOf starts position (none :: rest)) :
    position ∈ starts ∧
      (∀ start ∈ starts, position < start → position + rule.output.length ≤ start) ∧
      rule.AreStartsOf starts (position + rule.output.length) rest := by
  have hpos := List.length_pos_iff.2 houtput
  have hmem : position ∈ starts := ((h.mem_iff position).2 List.mem_cons_self).1
  have hlater : ∀ start ∈ starts, position < start →
      start ∈ rule.startsFrom (position + rule.output.length) rest := by
    intro start hstart hlt
    rcases List.mem_cons.1 ((h.mem_iff start).1 ⟨hstart, by omega⟩) with rfl | hin
    · omega
    · exact hin
  have hapart : ∀ start ∈ starts, position < start → position + rule.output.length ≤ start :=
    fun start hstart hlt => (rule.spaced_startsFrom _ rest).le_of_mem (hlater start hstart hlt)
  refine ⟨hmem, hapart, fun start => ⟨fun h => hlater start h.1 (by omega), fun hin => ?_⟩,
    fun start hstart hlt => ?_⟩
  · exact ⟨((h.mem_iff start).2 (List.mem_cons_of_mem position hin)).1,
      (rule.spaced_startsFrom _ rest).le_of_mem hin⟩
  · rcases Nat.lt_trichotomy start position with hbelow | rfl | habove
    · have hle := h.add_le start hstart hbelow
      omega
    · omega
    · have hle := hapart start hstart habove
      omega

end AreStartsOf

theorem putBackFrom_newer (houtput : rule.output ≠ []) {position : Nat} {script : Script}
    (h : rule.AreStartsOf starts position script) :
    rule.putBackFrom starts position (rule.newer script) = rule.older script := by
  induction script generalizing position with
  | nil => rfl
  | cons step rest ih =>
      cases step with
      | some token =>
          obtain ⟨hstart, hrest⟩ := h.of_kept
          have hinside : ¬ ∃ start ∈ starts, start < position ∧
              position < start + rule.output.length := by
            rintro ⟨start, hmem, hlt, hreach⟩
            have hle := h.add_le start hmem hlt
            omega
          rw [newer, putBackFrom_cons, ih hrest, putBackAt, if_neg hstart, if_neg hinside]
          rfl
      | none =>
          obtain ⟨hmem, hapart, hrest⟩ := h.of_span houtput
          rw [newer, putBackFrom_append, putBackFrom_span hmem hapart houtput rfl, ih hrest, older]

theorem putBack_newer (houtput : rule.output ≠ []) {script : Script}
    (hstarts : ∀ start, start ∈ starts ↔ start ∈ rule.startsFrom 0 script) :
    rule.putBack starts (rule.newer script) = rule.older script :=
  putBackFrom_newer houtput ⟨fun start => by simpa using hstarts start, by simp⟩

theorem exists_script_iff_exists_spans (houtput : rule.output ≠ []) {older newer : List Token} :
    (∃ script, rule.older script = older ∧ rule.newer script = newer ∧
      rule.isApparent [] script = true) ↔
      ∃ starts, rule.AreSpans newer starts ∧ older = rule.putBack starts newer := by
  constructor
  · rintro ⟨script, rfl, rfl, happarent⟩
    -- The spans are the places where the script puts in the output.
    have hoccur : ∀ start ∈ (rule.startsFrom 0 script).toFinset,
        rule.output <+: (rule.newer script).drop start ∧
          rule.contextHolds (rule.newer script) start (start + rule.output.length) = true := by
      intro start hmem
      simpa using occurs_of_mem_startsFrom happarent (List.mem_toFinset.1 hmem)
    refine ⟨(rule.startsFrom 0 script).toFinset, ⟨?_, ?_, ?_⟩, ?_⟩
    · exact fun start hmem => (List.prefix_iff_eq_take.1 (hoccur start hmem).1).symm
    · exact fun start hmem => (hoccur start hmem).2
    · intro first hfirst second hsecond hlt
      exact (rule.spaced_startsFrom 0 script).add_le (List.mem_toFinset.1 hfirst)
        (List.mem_toFinset.1 hsecond) hlt
    · exact (putBack_newer houtput fun start => List.mem_toFinset).symm
  · rintro ⟨starts, hspans, rfl⟩
    -- In order, the spans are spaced, and a script goes along them.
    have hsorted : Spaced rule.output.length 0 (starts.sort (· ≤ ·)) := by
      refine Spaced.of_pairwise (fun place _ => Nat.zero_le place) ?_
      have hstrict := (starts.pairwise_sort (· ≤ ·)).and (starts.sort_nodup (· ≤ ·))
      refine hstrict.imp_of_mem fun {first second} hfirst hsecond hlt => ?_
      rw [Finset.mem_sort] at hfirst hsecond
      exact hspans.apart first hfirst second hsecond (Nat.lt_of_le_of_ne hlt.1 hlt.2)
    have hoccur : ∀ start ∈ starts.sort (· ≤ ·), rule.output <+: newer.drop start ∧
        rule.contextHolds newer start (start + rule.output.length) = true := by
      intro start hmem
      rw [Finset.mem_sort] at hmem
      exact ⟨List.prefix_iff_eq_take.2 (hspans.occurs start hmem).symm,
        hspans.context start hmem⟩
    obtain ⟨script, hnewer, hstarts, happarent⟩ :=
      exists_script_of_spaced houtput hsorted hoccur
    rw [List.drop_zero] at hnewer
    refine ⟨script, ?_, hnewer, by simpa using happarent⟩
    rw [← hnewer]
    refine (putBack_newer houtput fun start => ?_).symm
    rw [hstarts, Finset.mem_sort]

/-! ## Lineages -/

/-- What could have become a word under a rule: under a rule with an output the word with the
input put back at spans of it, under a deletion the word itself, if the source stage has all
that is deleted, or the word with the input inserted where it has both contexts around it. -/
def CouldBecome (rule : Rule) (source : Inventory) (older newer : List Token) : Prop :=
  if rule.isDeletion then
    (older = newer ∧ ∀ token ∈ rule.input, token ∈ source.phonemes.toList) ∨
      ∃ position ≤ newer.length,
        older = newer.take position ++ rule.input ++ newer.drop position ∧
          rule.contextHolds older position (position + rule.input.length) = true
  else ∃ starts, rule.AreSpans newer starts ∧ older = rule.putBack starts newer

theorem contextHolds_append (rule : Rule) (before middle after : List Token) :
    rule.contextHolds (before ++ middle ++ after) before.length
        (before.length + middle.length) =
      (rule.leftHolds before.reverse && rule.rightHolds after) := by
  have hlength : (before ++ middle).length = before.length + middle.length := by simp
  rw [contextHolds, leftMatches, rightMatches, List.drop_left' hlength, List.append_assoc,
    List.take_left]

theorem isPreimage_iff_couldBecome {source : Inventory} {older newer : List Token}
    (hinput : ∀ token ∈ rule.input, token ≠ "") :
    rule.IsPreimage source.segmenter older newer ↔ rule.CouldBecome source older newer := by
  unfold IsPreimage CouldBecome
  split
  · refine or_congr (and_congr_right fun _ => ?_) ?_
    · refine forall₂_congr fun token hmem => ?_
      rw [Inventory.segmenter, Segmenter.contains_ofTokens, and_iff_left (hinput token hmem)]
    · constructor
      · rintro ⟨before, after, rfl, rfl, hcontext⟩
        refine ⟨before.length, by simp, by simp, ?_⟩
        rw [contextHolds_append, Bool.and_eq_true]
        exact hcontext
      · rintro ⟨position, hle, rfl, hcontext⟩
        have hlength : (newer.take position).length = position := List.length_take_of_le hle
        have hsplit := rule.contextHolds_append (newer.take position) rule.input
          (newer.drop position)
        rw [hlength, hcontext, eq_comm, Bool.and_eq_true] at hsplit
        exact ⟨_, _, (List.take_append_drop position newer).symm, rfl, hsplit⟩
  · rename_i hchange
    exact exists_script_iff_exists_spans fun houtput => hchange (isDeletion_iff.2 houtput)

end Rule

/-- Whether every stage of a word could have become the next under the rule between them. -/
def IsLineage (source : Inventory) (rules : List Rule) (stage : Nat → List Token) : Prop :=
  ∀ index (h : index < rules.length),
    rules[index].CouldBecome source (stage index) (stage (index + 1))

/-- The ancestors of a word are the first stages of its lineages. -/
theorem isAncestor_iff_exists_lineage {source : Inventory} {rules : List Rule}
    (hinput : ∀ rule ∈ rules, ∀ token ∈ rule.input, token ≠ "") {older newer : List Token} :
    IsAncestor source.segmenter rules older newer ↔
      ∃ stage, IsLineage source rules stage ∧ stage 0 = older ∧ stage rules.length = newer := by
  induction rules generalizing older with
  | nil =>
      constructor
      · rintro rfl
        exact ⟨fun _ => older, fun index h => by simp at h, rfl, rfl⟩
      · rintro ⟨stage, -, rfl, hlast⟩
        exact hlast
  | cons rule rules ih =>
      have hfirst : ∀ between, rule.IsPreimage source.segmenter older between ↔
          rule.CouldBecome source older between :=
        fun between => Rule.isPreimage_iff_couldBecome (hinput rule List.mem_cons_self)
      have hrest : ∀ between, IsAncestor source.segmenter rules between newer ↔
          ∃ stage, IsLineage source rules stage ∧ stage 0 = between ∧
            stage rules.length = newer :=
        fun between => ih fun other hother => hinput other (List.mem_cons_of_mem rule hother)
      simp only [IsAncestor, hfirst, hrest]
      constructor
      · rintro ⟨between, hbecame, stage, hlineage, rfl, hlast⟩
        -- The older word goes in front of the stages of the later rules.
        refine ⟨fun index => index.casesOn older stage, ?_, rfl, hlast⟩
        rintro (_ | index) h
        · exact hbecame
        · exact hlineage index (Nat.lt_of_succ_lt_succ h)
      · rintro ⟨stage, hlineage, rfl, hlast⟩
        refine ⟨stage 1, hlineage 0 (Nat.zero_lt_succ _), fun index => stage (index + 1), ?_, rfl,
          hlast⟩
        exact fun index h => hlineage (index + 1) (Nat.succ_lt_succ h)

/-! ## What reversal finds -/

section Exact

variable {rules : List Rule} {source target : Inventory} {settings : ReverserSettings}
  {word : String} {newer : List Token}

/-- Reversal finds the source words that lineages of the given word start from, and no others,
whether or not it drops dead candidates on the way. -/
theorem mem_reverse_iff_exists_lineage [Limits]
    (hplain : ∀ rule ∈ rules, ∀ token ∈ rule.input, PlainToken token)
    (hseparator : ∀ phoneme ∈ target.phonemes.toList, '\x1f' ∉ phoneme.toList)
    (hcheck : settings.checkTargetPhonotactics = false)
    (hword : target.segmenter.segment word = .ok newer) :
    ∃ sources, ((Reverser.of rules source target settings).reverse word).1 = .ok sources ∧
      ∀ found, found ∈ sources.toList ↔
        (∃ stage, IsLineage source rules stage ∧ stage rules.length = newer ∧
          spell (stage 0) = found) ∧
        ∃ tokens, (Segmenter.ofTokens (effectivePhonemes rules source)).segment found =
            .ok tokens ∧ satisfiesPatterns source.phonotactics tokens = true := by
  refine ⟨_, Reverser.reverse_of_segment hword, fun found => ?_⟩
  rw [Reverser.mem_sourcesOf_iff keysDistinguish_plain hplain hcheck
    (plain_of_segment hseparator hword), Reverser.isSourceWord_iff]
  refine and_congr_left fun _ => ?_
  have hinput : ∀ rule ∈ rules, ∀ token ∈ rule.input, token ≠ "" :=
    fun rule hrule token htoken => (hplain rule hrule token htoken).1
  simp only [isAncestor_iff_exists_lineage hinput]
  constructor
  · rintro ⟨older, ⟨stage, hlineage, rfl, hlast⟩, hspell⟩
    exact ⟨stage, hlineage, hlast, hspell⟩
  · rintro ⟨stage, hlineage, hlast, hspell⟩
    exact ⟨stage 0, ⟨stage, hlineage, rfl, hlast⟩, hspell⟩

/-- Reversal of `aaa` under `x > a a` and `h > ∅ / _ #`: of the spans at the first and at the
second place only one can be put back. -/
theorem mem_reverse_iff_exists_lineage_aaa :
    let rules : List Rule :=
      [⟨["x"], ["a", "a"], none, none, 1⟩, ⟨["h"], [], none, some ["#"], 2⟩]
    let source := Inventory.ofPhonemes ["a", "x"]
    let target := Inventory.ofPhonemes ["a"]
    ∃ sources,
      ((Reverser.of rules source target Settings.default.reverser).reverse "aaa").1 =
        .ok sources ∧
      ∀ found, found ∈ sources.toList ↔
        (∃ stage, IsLineage source rules stage ∧ stage rules.length = ["a", "a", "a"] ∧
          spell (stage 0) = found) ∧
        ∃ tokens, (Segmenter.ofTokens (effectivePhonemes rules source)).segment found =
            .ok tokens ∧ satisfiesPatterns source.phonotactics tokens = true := by
  intro rules source target
  have hseparator : ∀ phoneme ∈ target.phonemes.toList, '\x1f' ∉ phoneme.toList := by
    simp [target, Inventory.mem_phonemes_ofPhonemes]
  exact mem_reverse_iff_exists_lineage (by decide) hseparator rfl
    (Inventory.segment_ofPhonemes (by decide) (by simp))

/-! ## Dropping dead candidates -/

/-- Whether a reverser drops dead candidates makes no difference to its answers: what comes of
a dead candidate spells no source word. -/
theorem reverse_earlyPruning [Limits]
    (hplain : ∀ rule ∈ rules, ∀ token ∈ rule.input, PlainToken token)
    (hseparator : ∀ phoneme ∈ target.phonemes.toList, '\x1f' ∉ phoneme.toList) (word : String) :
    ((Reverser.of rules source target { settings with earlyPruning := true }).reverse word).1 =
      ((Reverser.of rules source target { settings with earlyPruning := false }).reverse
        word).1 := by
  cases hword : target.segmenter.segment word with
  | error failure =>
      rw [Reverser.reverse_of_segment_error hword, Reverser.reverse_of_segment_error hword]
  | ok newer =>
      have hnewer := plain_of_segment hseparator hword
      rw [Reverser.reverse_of_segment hword, Reverser.reverse_of_segment hword,
        Except.ok.injEq]
      refine TokenSet.eq_of_mem_iff fun found => ?_
      rw [Reverser.mem_sourcesOf_iff_of_keys keysDistinguish_plain hplain hnewer,
        Reverser.mem_sourcesOf_iff_of_keys keysDistinguish_plain hplain hnewer]
      -- Neither the refusal of a word nor the source words depend on the setting.
      exact Iff.rfl

/-- Under `a > b` the candidate `b` of the word `b` is dead, as the source stage has `a` only. -/
theorem reverse_earlyPruning_b :
    let rules : List Rule := [⟨["a"], ["b"], none, none, 1⟩]
    let source := Inventory.ofPhonemes ["a"]
    let target := Inventory.ofPhonemes ["a", "b"]
    ((Reverser.of rules source target
        { Settings.default.reverser with earlyPruning := true }).reverse "b").1 =
      ((Reverser.of rules source target
        { Settings.default.reverser with earlyPruning := false }).reverse "b").1 := by
  intro rules source target
  have hseparator : ∀ phoneme ∈ target.phonemes.toList, '\x1f' ∉ phoneme.toList := by
    simp [target, Inventory.mem_phonemes_ofPhonemes]
  exact reverse_earlyPruning (by decide) hseparator "b"

end Exact

end Diachrony
