import Diachrony.Derivation

/-!
# Scripts: a word before and after a rule

A script reads the word before a rule and the word after it together.  The pass of a rule
has exactly one script, and the script tells the two readings of a rewritten span apart: the
pass looks right on the word before the rule, reversal on the word after it.
-/

namespace Diachrony

/-- A token that stays, or `none` for a span where the input of a rule became its output. -/
abbrev Script := List (Option Token)

namespace Rule

theorem isDeletion_iff {rule : Rule} : rule.isDeletion = true ↔ rule.output = [] :=
  List.isEmpty_iff

/-! ## The two words of a script -/

def older (rule : Rule) : Script → List Token
  | [] => []
  | some token :: rest => token :: rule.older rest
  | none :: rest => rule.input ++ rule.older rest

def newer (rule : Rule) : Script → List Token
  | [] => []
  | some token :: rest => token :: rule.newer rest
  | none :: rest => rule.output ++ rule.newer rest

@[simp] theorem older_map_some (rule : Rule) (tokens : List Token) :
    rule.older (tokens.map some) = tokens := by
  induction tokens with
  | nil => rfl
  | cons token rest ih => simp [older, ih]

@[simp] theorem newer_map_some (rule : Rule) (tokens : List Token) :
    rule.newer (tokens.map some) = tokens := by
  induction tokens with
  | nil => rfl
  | cons token rest ih => simp [newer, ih]

@[simp] theorem older_append (rule : Rule) (first second : Script) :
    rule.older (first ++ second) = rule.older first ++ rule.older second := by
  induction first with
  | nil => rfl
  | cons step rest ih => cases step <;> simp [older, ih]

@[simp] theorem newer_append (rule : Rule) (first second : Script) :
    rule.newer (first ++ second) = rule.newer first ++ rule.newer second := by
  induction first with
  | nil => rfl
  | cons step rest ih => cases step <;> simp [newer, ih]

/-! ## Readings of a script

`before` are the tokens of the word after the rule that stand in front of the script, the
nearest first. -/

/-- Whether every rewritten span shows both contexts in the word after the rule. -/
def isApparent (rule : Rule) : List Token → Script → Bool
  | _, [] => true
  | before, some token :: rest => rule.isApparent (token :: before) rest
  | before, none :: rest =>
      rule.leftHolds before && rule.rightHolds (rule.newer rest) &&
        rule.isApparent (rule.output.reverse ++ before) rest

/-- Whether every rewritten span shows its right context in the word after the rule. -/
def showsRight (rule : Rule) : Script → Bool
  | [] => true
  | some _ :: rest => rule.showsRight rest
  | none :: rest => rule.rightHolds (rule.newer rest) && rule.showsRight rest

/-- Whether the spans rewritten are those a pass rewrites: each of them matches when the pass
gets there, with the right context read on the word before the rule, and nothing that stays
starts a match. -/
def isPass (rule : Rule) : List Token → Script → Bool
  | _, [] => true
  | before, some token :: rest =>
      !rule.matchesBetween before (token :: rule.older rest) &&
        rule.isPass (token :: before) rest
  | before, none :: rest =>
      rule.leftHolds before && rule.rightHolds (rule.older rest) &&
        rule.isPass (rule.output.reverse ++ before) rest

/-- Left contexts look the same to the pass and to reversal, since neither goes back. -/
theorem isApparent_of_isPass {rule : Rule} {before : List Token} {script : Script}
    (hpass : rule.isPass before script = true) (hright : rule.showsRight script = true) :
    rule.isApparent before script = true := by
  induction script generalizing before with
  | nil => rfl
  | cons step rest ih =>
      cases step with
      | some token =>
          simp only [isPass, showsRight, Bool.and_eq_true] at hpass hright
          exact ih hpass.2 hright
      | none =>
          simp only [isPass, showsRight, Bool.and_eq_true] at hpass hright
          simp only [isApparent, Bool.and_eq_true]
          exact ⟨⟨hpass.1.1, hright.1⟩, ih hpass.2 hright.2⟩

theorem isApparent_map_some (rule : Rule) (before tokens : List Token) :
    rule.isApparent before (tokens.map some) = true := by
  induction tokens generalizing before with
  | nil => rfl
  | cons token rest ih => exact ih (token :: before)

theorem isApparent_some_append (rule : Rule) (before tokens : List Token) (script : Script) :
    rule.isApparent before (tokens.map some ++ script) =
      rule.isApparent (tokens.reverse ++ before) script := by
  induction tokens generalizing before with
  | nil => rfl
  | cons token rest ih => simp [isApparent, ih]

/-! ## The script of a pass -/

theorem matchesBetween_append (rule : Rule) (before after : List Token) :
    rule.matchesBetween before (rule.input ++ after) =
      (rule.leftHolds before && rule.rightHolds after) := by
  have hoccurs : rule.input.isPrefixOf (rule.input ++ after) = true :=
    List.isPrefixOf_iff_prefix.2 (List.prefix_append _ _)
  simp [matchesBetween, hoccurs]

theorem eq_append_of_matchesBetween {rule : Rule} {before rest : List Token}
    (h : rule.matchesBetween before rest = true) :
    rule.input ++ rest.drop rule.input.length = rest := by
  simp only [matchesBetween, Bool.and_eq_true] at h
  exact List.prefix_iff_eq_append.1 (List.isPrefixOf_iff_prefix.1 h.1.1)

theorem matchesBetween_nil {rule : Rule} (hinput : rule.input ≠ []) (before : List Token) :
    rule.matchesBetween before [] = false := by
  cases h : rule.matchesBetween before [] with
  | false => rfl
  | true => exact absurd (List.append_eq_nil_iff.1 (eq_append_of_matchesBetween h)).1 hinput

/-- The script of a pass over the rest of a word; it follows `pass` step by step. -/
def scriptFrom (rule : Rule) : Nat → List Token → List Token → Script
  | 0, _, rest => rest.map some
  | fuel + 1, before, rest =>
      if rule.matchesBetween before rest then
        none :: rule.scriptFrom fuel (rule.output.reverse ++ before)
          (rest.drop rule.input.length)
      else
        match rest with
        | [] => []
        | token :: rest => some token :: rule.scriptFrom fuel (token :: before) rest

def script (rule : Rule) (tokens : List Token) : Script :=
  rule.scriptFrom (rule.passFuel tokens) [] tokens

theorem older_scriptFrom (rule : Rule) (fuel : Nat) (before rest : List Token) :
    rule.older (rule.scriptFrom fuel before rest) = rest := by
  induction fuel generalizing before rest with
  | zero => exact older_map_some rule rest
  | succ fuel ih =>
      unfold scriptFrom
      split
      · rename_i hmatch
        rw [older, ih]
        exact eq_append_of_matchesBetween hmatch
      · cases rest with
        | nil => rfl
        | cons token rest => simp [older, ih]

theorem newer_scriptFrom (rule : Rule) (fuel : Nat) (before rest : List Token) :
    before.reverse ++ rule.newer (rule.scriptFrom fuel before rest) =
      rule.pass fuel before rest := by
  induction fuel generalizing before rest with
  | zero => simp [scriptFrom, pass]
  | succ fuel ih =>
      unfold scriptFrom pass
      split
      · simp [newer, ← ih]
      · cases rest with
        | nil => simp [newer]
        | cons token rest => simp [newer, ← ih]

@[simp] theorem older_script (rule : Rule) (tokens : List Token) :
    rule.older (rule.script tokens) = tokens :=
  older_scriptFrom rule _ [] tokens

@[simp] theorem newer_script (rule : Rule) (tokens : List Token) :
    rule.newer (rule.script tokens) = rule.apply tokens :=
  newer_scriptFrom rule _ [] tokens

theorem isPass_scriptFrom {rule : Rule} (hinput : rule.input ≠ []) {fuel : Nat}
    {before rest : List Token} (hfuel : rest.length < fuel) :
    rule.isPass before (rule.scriptFrom fuel before rest) = true := by
  induction fuel generalizing before rest with
  | zero => omega
  | succ fuel ih =>
      have hpos := List.length_pos_iff.2 hinput
      unfold scriptFrom
      split
      · rename_i hmatch
        have hrest := eq_append_of_matchesBetween hmatch
        have hshort : (rest.drop rule.input.length).length < fuel := by
          have hlength := congrArg List.length hrest
          rw [List.length_append] at hlength
          omega
        rw [← hrest, matchesBetween_append] at hmatch
        rw [isPass, older_scriptFrom, hmatch, ih hshort]
        rfl
      · rename_i hmatch
        cases rest with
        | nil => rfl
        | cons token rest =>
            have hshort : rest.length < fuel := by
              rw [List.length_cons] at hfuel
              omega
            simp [isPass, older_scriptFrom, hmatch, ih hshort]

/-- A pass has no other script: where it rewrites is decided from left to right. -/
theorem scriptFrom_older {rule : Rule} (hinput : rule.input ≠ []) {fuel : Nat}
    {before : List Token} {script : Script} (hfuel : (rule.older script).length < fuel)
    (hpass : rule.isPass before script = true) :
    rule.scriptFrom fuel before (rule.older script) = script := by
  induction script generalizing fuel before with
  | nil =>
      cases fuel with
      | zero => rfl
      | succ fuel => simp [scriptFrom, older, matchesBetween_nil hinput]
  | cons step rest ih =>
      have hpos := List.length_pos_iff.2 hinput
      cases fuel with
      | zero => omega
      | succ fuel =>
          cases step with
          | some token =>
              simp only [isPass, Bool.and_eq_true, Bool.not_eq_true'] at hpass
              simp only [older, List.length_cons] at hfuel
              have hshort : (rule.older rest).length < fuel := by omega
              have hrest := ih hshort hpass.2
              simp [scriptFrom, older, hpass.1, hrest]
          | none =>
              simp only [isPass, Bool.and_eq_true] at hpass
              simp only [older, List.length_append] at hfuel
              have hmatch : rule.matchesBetween before (rule.input ++ rule.older rest) = true := by
                rw [matchesBetween_append, hpass.1.1, hpass.1.2]
                rfl
              have hshort : (rule.older rest).length < fuel := by omega
              have hrest := ih hshort hpass.2
              simp [scriptFrom, older, hmatch, hrest]

theorem length_lt_passFuel {rule : Rule} (hinput : rule.input ≠ []) (tokens : List Token) :
    tokens.length < rule.passFuel tokens := by
  simp [passFuel, hinput]

theorem isPass_script {rule : Rule} (hinput : rule.input ≠ []) (tokens : List Token) :
    rule.isPass [] (rule.script tokens) = true :=
  isPass_scriptFrom hinput (length_lt_passFuel hinput tokens)

theorem script_older {rule : Rule} (hinput : rule.input ≠ []) {script : Script}
    (hpass : rule.isPass [] script = true) : rule.script (rule.older script) = script :=
  scriptFrom_older hinput (length_lt_passFuel hinput _) hpass

/-- The script of a pass decides what the rule makes of a word. -/
theorem apply_older {rule : Rule} (hinput : rule.input ≠ []) {script : Script}
    (hpass : rule.isPass [] script = true) :
    rule.apply (rule.older script) = rule.newer script := by
  rw [← newer_script, script_older hinput hpass]

/-! ## Right contexts that a pass cannot lose -/

/-- A right context that is absent or the edge of the word survives every pass. -/
theorem showsRight_of_isPass {rule : Rule} (hinput : rule.input ≠ [])
    (hright : rule.right = none ∨ rule.right = some [wordBoundary]) {before : List Token}
    {script : Script} (hpass : rule.isPass before script = true) :
    rule.showsRight script = true := by
  have hsame : ∀ rest : Script, rule.rightHolds (rule.older rest) = true →
      rule.rightHolds (rule.newer rest) = true := by
    intro rest hrest
    rcases hright with hright | hright
    · simp [rightHolds, hright]
    · simp only [rightHolds, hright, List.getLast?_singleton, List.dropLast_singleton,
        beq_self_eq_true, if_true, beq_iff_eq] at hrest ⊢
      cases rest with
      | nil => rfl
      | cons step rest => cases step <;> simp [older, hinput] at hrest
  induction script generalizing before with
  | nil => rfl
  | cons step rest ih =>
      cases step with
      | some token =>
          simp only [isPass, Bool.and_eq_true] at hpass
          exact ih hpass.2
      | none =>
          simp only [isPass, Bool.and_eq_true] at hpass
          simp only [showsRight, Bool.and_eq_true]
          exact ⟨hsame rest hpass.1.2, ih hpass.2⟩

end Rule

end Diachrony
