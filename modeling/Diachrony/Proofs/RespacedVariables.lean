import Diachrony.Proofs.Computation
import Diachrony.Proofs.Resolution
import Diachrony.Proofs.Respacing

/-!
# Variables with respaced values

Resolution reads a value piece by piece, and only the references among the pieces decide what it
does.  Tables whose values have the same pieces up to their blanks therefore resolve alike: both
fail, or both give every name the same value up to its blanks.
-/

namespace Diachrony.RuleText

/-! ## Pieces -/

/-- Whether two readings are the same but for the blanks in their runs of blanks. -/
inductive RespacedPieces : List Piece → List Piece → Prop
  | nil : RespacedPieces [] []
  | piece (piece : Piece) {pieces others : List Piece} (h : RespacedPieces pieces others) :
      RespacedPieces (piece :: pieces) (piece :: others)
  | blanks {run otherRun : Text} {pieces others : List Piece} (hrun : Text.IsBlankRun run)
      (hother : Text.IsBlankRun otherRun) (h : RespacedPieces pieces others) :
      RespacedPieces (run.map Piece.other ++ pieces) (otherRun.map Piece.other ++ others)

theorem RespacedPieces.refl (pieces : List Piece) : RespacedPieces pieces pieces := by
  induction pieces with
  | nil => exact .nil
  | cons piece pieces ih => exact .piece piece ih

theorem RespacedPieces.append_left (before : List Piece) {pieces others : List Piece}
    (h : RespacedPieces pieces others) : RespacedPieces (before ++ pieces) (before ++ others) := by
  induction before with
  | nil => exact h
  | cons piece before ih => exact .piece piece ih

section Scan

variable {names : List Text} (hnames : ∀ name ∈ names, isVariableName name = true)
include hnames

theorem scan_append_of_blank {run : Text} (hrun : ∀ c ∈ run, Text.isBlank c = true)
    (rest : Text) : scan names (run ++ rest) = run.map Piece.other ++ scan names rest := by
  induction run with
  | nil => rfl
  | cons c run ih =>
      obtain ⟨hc, hrun⟩ := List.forall_mem_cons.1 hrun
      rw [List.cons_append, scan_cons_of_not hnames (Text.isAlphanumeric_of_isBlank hc), ih hrun]
      rfl

/-- Names have no blanks, so respaced texts are read as the same pieces up to blanks. -/
theorem respacedPieces_scan {text other : Text} (h : Text.Respaced text other) :
    RespacedPieces (scan names text) (scan names other) := by
  induction hlength : text.length using Nat.strongRecOn generalizing text other with
  | ind length ih =>
      subst hlength
      cases h with
      | nil => exact .nil
      | @char c text other h =>
          by_cases hc : Text.isAlphanumeric c = true
          · have hnot : ∀ d, Text.isBlank d = true → Text.isAlphanumeric d = false :=
              fun d => Text.isAlphanumeric_of_isBlank
            have hcut : ∀ rest : Text, (c :: rest) =
                (c :: rest).takeWhile Text.isAlphanumeric ++
                  (c :: rest).dropWhile Text.isAlphanumeric :=
              fun rest => List.takeWhile_append_dropWhile.symm
            have hscan : ∀ rest, scan names (c :: rest) =
                (if (c :: rest).takeWhile Text.isAlphanumeric ∈ names then
                    [.reference ((c :: rest).takeWhile Text.isAlphanumeric)]
                  else ((c :: rest).takeWhile Text.isAlphanumeric).map Piece.other) ++
                scan names ((c :: rest).dropWhile Text.isAlphanumeric) := by
              intro rest
              conv_lhs => rw [hcut rest]
              refine scan_append_of_run hnames (by simp [hc]) ?_ ?_
              · exact fun d hd => List.mem_takeWhile_imp hd
              · exact fun d hd => Text.eq_false_of_mem_head?_dropWhile hd
            have hshort : ((c :: text).dropWhile Text.isAlphanumeric).length <
                (c :: text).length := by
              rw [List.dropWhile_cons_of_pos hc, List.length_cons]
              exact Nat.lt_succ_of_le (List.dropWhile_suffix _).length_le
            rw [hscan text, hscan other, (h.char c).takeWhile_eq hnot]
            exact .append_left _ (ih _ hshort ((h.char c).dropWhile hnot) rfl)
          · have hother : Text.isAlphanumeric c = false := by simpa using hc
            rw [scan_cons_of_not hnames hother, scan_cons_of_not hnames hother]
            exact .piece _ (ih _ (Nat.lt_succ_self _) h rfl)
      | @blanks run otherRun text other hrun hother h =>
          rw [scan_append_of_blank hnames hrun.blank, scan_append_of_blank hnames hother.blank]
          exact .blanks hrun hother (ih _ (hrun.length_lt text) h rfl)

end Scan

theorem RespacedPieces.substitute {names : List Text} {text other : Text}
    (h : RespacedPieces (scan names text) (scan names other)) {value otherValue : Text → Text}
    (hvalue : ∀ name, Text.Respaced (value name) (otherValue name)) :
    Text.Respaced (substitute names value text) (RuleText.substitute names otherValue other) := by
  unfold RuleText.substitute
  generalize scan names text = pieces at h
  generalize scan names other = others at h
  induction h with
  | nil => exact .nil
  | piece piece h ih =>
      rw [List.flatMap_cons, List.flatMap_cons]
      cases piece with
      | reference name => exact (hvalue name).append ih
      | other c => exact .char c ih
  | blanks hrun hother h ih =>
      simp only [List.flatMap_append, List.flatMap_map, List.flatMap_singleton']
      exact .blanks hrun hother ih

/-! ## Values filled in -/

/-- Whether the same names are resolved, in the same order, to respaced values. -/
def Resolution.Respaced (known other : Resolution) : Prop :=
  List.Forall₂ (fun entry otherEntry =>
    entry.1 = otherEntry.1 ∧ Text.Respaced entry.2 otherEntry.2) known other

structure Resolved.Respaced (state other : Resolved) : Prop where
  value : Text.Respaced state.value other.value
  known : state.known.Respaced other.known

theorem Resolution.Respaced.lookup {known other : Resolution} (h : known.Respaced other)
    (name : Text) : Option.Rel Text.Respaced (known.lookup name) (other.lookup name) := by
  induction h with
  | nil => exact .none
  | @cons entry otherEntry known other hentry h ih =>
      obtain ⟨key, value⟩ := entry
      obtain ⟨otherKey, otherValue⟩ := otherEntry
      obtain ⟨rfl, hvalue⟩ := hentry
      rw [List.lookup_cons, List.lookup_cons]
      cases name == key with
      | true => exact .some hvalue
      | false => exact ih

theorem foldlM_fillStep_append {lookUp : Resolution → Text → Except Error Resolved} (run : Text)
    (pieces : List Piece) (state : Resolved) :
    (run.map Piece.other ++ pieces).foldlM (fillStep lookUp) state =
      pieces.foldlM (fillStep lookUp) ⟨run.reverse ++ state.value, state.known⟩ := by
  induction run generalizing state with
  | nil => rfl
  | cons c run ih =>
      rw [List.map_cons, List.cons_append, List.foldlM_cons]
      refine (ih ⟨c :: state.value, state.known⟩).trans ?_
      rw [List.reverse_cons, List.append_assoc]
      rfl

theorem RespacedPieces.agree_foldlM {lookUp otherLookUp : Resolution → Text → Except Error Resolved}
    (hlookUp : ∀ (known other : Resolution) (name : Text), known.Respaced other →
      Agree Resolved.Respaced (lookUp known name) (otherLookUp other name))
    {pieces others : List Piece} (h : RespacedPieces pieces others) {state other : Resolved}
    (hstate : state.Respaced other) :
    Agree Resolved.Respaced (pieces.foldlM (fillStep lookUp) state)
      (others.foldlM (fillStep otherLookUp) other) := by
  induction h generalizing state other with
  | nil => exact .ok hstate
  | piece piece h ih =>
      rw [List.foldlM_cons, List.foldlM_cons]
      cases piece with
      | other c => exact ih ⟨.char c hstate.value, hstate.known⟩
      | reference name =>
          refine Agree.bind ((hlookUp _ _ name hstate.known).bind fun result otherResult hresult =>
            .ok ?_) fun _ _ hnext => ih hnext
          exact ⟨hresult.value.reverse.append hstate.value, hresult.known⟩
  | blanks hrun hother h ih =>
      rw [foldlM_fillStep_append, foldlM_fillStep_append]
      exact ih ⟨.blanks hrun.reverse hother.reverse hstate.value, hstate.known⟩

/-! ## Tables -/

theorem forall₂_set {α β : Type} {related : α → β → Prop} {left : List α} {right : List β}
    (h : List.Forall₂ related left right) {a : α} {b : β} (hab : related a b) (place : Nat) :
    List.Forall₂ related (left.set place a) (right.set place b) := by
  induction h generalizing place with
  | nil => exact .nil
  | cons hfirst h ih =>
      cases place with
      | zero => exact .cons hab h
      | succ place => exact .cons hfirst (ih place)

/-- Whether two tables define the same names in the same order, with values that are related. -/
def VariableTable.Corresponds (related : Text → Text → Prop) (table other : VariableTable) : Prop :=
  List.Forall₂ (fun definition otherDefinition =>
    definition.name = otherDefinition.name ∧ related definition.value otherDefinition.value)
    table.definitions other.definitions

namespace VariableTable.Corresponds

variable {related : Text → Text → Prop} {table other : VariableTable}
  (h : table.Corresponds related other)
include h

theorem mono {weaker : Text → Text → Prop}
    (hweaker : ∀ value otherValue, related value otherValue → weaker value otherValue) :
    table.Corresponds weaker other :=
  List.Forall₂.imp (fun _ _ hboth => ⟨hboth.1, hweaker _ _ hboth.2⟩) h

theorem size_eq : table.size = other.size :=
  List.Forall₂.length_eq h

theorem names_eq : table.names = other.names := by
  suffices List.Forall₂ Eq table.names other.names from List.forall₂_eq_eq_eq ▸ this
  exact List.forall₂_map_left_iff.2 (List.forall₂_map_right_iff.2 (h.imp fun _ _ hboth => hboth.1))

theorem find? (name : Text) :
    Option.Rel (fun definition otherDefinition =>
        related definition.value otherDefinition.value)
      (table.find? name) (other.find? name) := by
  rw [VariableTable.find?_eq, VariableTable.find?_eq]
  unfold Corresponds at h
  generalize table.definitions = definitions at h ⊢
  generalize other.definitions = others at h ⊢
  induction h with
  | nil => exact .none
  | @cons definition otherDefinition definitions others hboth h ih =>
      rw [List.find?_cons, List.find?_cons, ← hboth.1]
      cases definition.name == name with
      | true => exact .some hboth.2
      | false => exact ih

theorem lookup_eq (name : Text) : table.index.lookup name = other.index.lookup name := by
  rw [table.index_def, other.index_def]
  exact congrArg (List.idxOf? name) h.names_eq

theorem replace {definition otherDefinition : Definition}
    (hname : definition.name = otherDefinition.name)
    (hvalue : related definition.value otherDefinition.value) {place : Nat}
    (hplace : table.index.lookup definition.name = some place)
    (hotherPlace : other.index.lookup otherDefinition.name = some place) :
    (table.replace definition hplace).Corresponds related
      (other.replace otherDefinition hotherPlace) :=
  forall₂_set h ⟨hname, hvalue⟩ place

theorem agree_define [Limits] {definition otherDefinition : Definition}
    (hname : definition.name = otherDefinition.name)
    (hvalue : related definition.value otherDefinition.value) (mayReplace : Bool) :
    Agree (VariableTable.Corresponds related) (table.define definition mayReplace)
      (other.define otherDefinition mayReplace) := by
  have hlookup := h.lookup_eq definition.name
  unfold VariableTable.define
  rcases Option.eq_none_or_eq_some (table.index.lookup definition.name) with
    hnew | ⟨place, hplace⟩
  · have hotherNew : other.index.lookup otherDefinition.name = none := by
      rw [← hname, ← hlookup, hnew]
    rw [VariableTable.enter_of_lookup_eq_none hnew,
      VariableTable.enter_of_lookup_eq_none hotherNew, ← h.size_eq]
    by_cases hfull : table.size ≥ Limits.definitions
    · rw [if_pos hfull, if_pos hfull]
      exact .error _ _
    · rw [if_neg hfull, if_neg hfull]
      exact .ok (List.rel_append h (.cons ⟨hname, hvalue⟩ .nil))
  · have hotherPlace : other.index.lookup otherDefinition.name = some place := by
      rw [← hname, ← hlookup, hplace]
    rw [VariableTable.enter_of_lookup hplace, VariableTable.enter_of_lookup hotherPlace]
    cases mayReplace with
    | true => exact .ok (h.replace hname hvalue hplace hotherPlace)
    | false => exact .error _ _

end VariableTable.Corresponds

/-! ## Resolving one name -/

/-- Whether two tables have values that are read as the same pieces up to blanks. -/
def VariableTable.Respaced (table other : VariableTable) : Prop :=
  table.Corresponds (fun value otherValue =>
    RespacedPieces (scan (sortNames table.names) value)
      (scan (sortNames table.names) otherValue)) other

section Resolve

variable {table other : VariableTable} (h : table.Respaced other)
include h

/-- Looking a name up does the same in both tables if looking up below it does. -/
theorem agree_resolve_of_below [Limits] {depth : Nat} {visiting : List Text}
    {known otherKnown : Resolution} (hknown : known.Respaced otherKnown) {name : Text}
    (hbelow : ∀ below, depth = below + 1 → ∀ known otherKnown inner,
      Resolution.Respaced known otherKnown →
      Agree Resolved.Respaced
        (resolve table (sortNames table.names) below (name :: visiting) known inner)
        (resolve other (sortNames table.names) below (name :: visiting) otherKnown inner)) :
    Agree Resolved.Respaced (resolve table (sortNames table.names) depth visiting known name)
      (resolve other (sortNames table.names) depth visiting otherKnown name) := by
  have hlookup := hknown.lookup name
  have hfind := VariableTable.Corresponds.find? h name
  unfold resolve
  generalize known.lookup name = found at hlookup ⊢
  generalize otherKnown.lookup name = otherFound at hlookup ⊢
  cases hlookup with
  | some hvalue => exact .ok ⟨hvalue, hknown⟩
  | none =>
      generalize table.find? name = entry at hfind ⊢
      generalize other.find? name = otherEntry at hfind ⊢
      cases hfind with
      | none => exact .ok ⟨.refl name, hknown⟩
      | some hpieces =>
          dsimp only
          split
          · exact .error _ _
          · cases depth with
            | zero => exact .error _ _
            | succ below =>
                refine Agree.bind (hpieces.agree_foldlM
                  (fun known otherKnown inner hknown => hbelow below rfl _ _ inner hknown)
                  ⟨.nil, hknown⟩) fun expanded otherExpanded hexpanded => .ok ?_
                exact ⟨hexpanded.value.reverse,
                  .cons ⟨rfl, hexpanded.value.reverse⟩ hexpanded.known⟩

theorem agree_resolve [Limits] (depth : Nat) (visiting : List Text) {known otherKnown : Resolution}
    (hknown : known.Respaced otherKnown) (name : Text) :
    Agree Resolved.Respaced (resolve table (sortNames table.names) depth visiting known name)
      (resolve other (sortNames table.names) depth visiting otherKnown name) := by
  induction depth generalizing visiting known otherKnown name with
  | zero => exact agree_resolve_of_below h hknown fun _ hdepth => nomatch hdepth
  | succ depth ih =>
      refine agree_resolve_of_below h hknown fun below hdepth known otherKnown inner hknown => ?_
      cases hdepth
      exact ih _ hknown inner

end Resolve

/-! ## Resolving all names -/

structure ResolvedVariables.Respaced (resolved other : ResolvedVariables) : Prop where
  names_eq : resolved.names = other.names
  values : resolved.values.Respaced other.values

theorem ResolvedVariables.Respaced.substitute {resolved other : ResolvedVariables}
    (h : resolved.Respaced other) {text otherText : Text}
    (htext : RespacedPieces (scan resolved.names text) (scan resolved.names otherText)) :
    Text.Respaced (resolved.substitute text) (other.substitute otherText) := by
  unfold ResolvedVariables.substitute
  rw [← h.names_eq]
  refine htext.substitute fun name => ?_
  have hlookup := h.values.lookup name
  unfold ResolvedVariables.find?
  generalize resolved.values.lookup name = value at hlookup ⊢
  generalize other.values.lookup name = otherValue at hlookup ⊢
  cases hlookup with
  | none => exact .refl name
  | some hvalue => exact hvalue

theorem agree_resolveAll [Limits] {table other : VariableTable} (h : table.Respaced other) :
    Agree ResolvedVariables.Respaced table.resolveAll other.resolveAll := by
  unfold VariableTable.resolveAll
  rw [← VariableTable.Corresponds.names_eq h]
  refine Agree.bind (Agree.foldlM h .nil ?_) fun values otherValues hvalues => .ok ⟨rfl, hvalues⟩
  intro definition otherDefinition hboth known otherKnown hknown
  rw [← hboth.1]
  exact (agree_resolve h _ [] hknown _).bind fun result otherResult hresult => .ok hresult.known

end Diachrony.RuleText
