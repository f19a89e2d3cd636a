import Mathlib.Data.List.SplitBy
import Diachrony.Proofs.Substitution

/-!
# Substitution part by part

A text falls into its alphanumeric runs and its other characters.  Substitution goes over these
parts in order, looks up those that are names and keeps the others.  Which names are looked up,
and in which order, does not depend on how the names are listed or on what a lookup does.
-/

namespace Diachrony

namespace Text

/-! ## Parts -/

/-- The parts of a text: the runs of characters of a kind as wholes, the others one by one. -/
def parts (belongs : Char → Bool) (text : Text) : List Text :=
  text.splitBy fun c d => belongs c && belongs d

section Parts

variable {belongs : Char → Bool}

theorem flatten_parts (text : Text) : (parts belongs text).flatten = text :=
  List.flatten_splitBy _ text

theorem parts_cons_of_not {c : Char} (hc : belongs c = false) (rest : Text) :
    parts belongs (c :: rest) = [c] :: parts belongs rest := by
  have hcut : ([c] ++ rest).splitBy (fun c d => belongs c && belongs d) =
      [c].splitBy (fun c d => belongs c && belongs d) ++ parts belongs rest :=
    List.splitBy_append (by simp [hc])
  exact hcut

theorem parts_append_of_run {run rest : Text} (hne : run ≠ [])
    (hrun : ∀ c ∈ run, belongs c = true) (hrest : ∀ c ∈ rest.head?, belongs c = false) :
    parts belongs (run ++ rest) = run :: parts belongs rest := by
  have hchain : run.IsChain fun c d => (belongs c && belongs d) = true :=
    (List.Pairwise.imp_of_mem (fun hc hd _ => by simp [hrun _ hc, hrun _ hd])
      (List.pairwise_of_forall fun _ _ => trivial)).isChain
  rw [parts, List.splitBy_append fun c _ d hd => by simp [hrest d hd],
    List.splitBy_of_isChain hne hchain]
  rfl

theorem filter_parts (text : Text) :
    (parts belongs text).filter (·.all belongs) = runs belongs text := by
  induction text using run_induction belongs with
  | nil => rfl
  | other c rest hc ih => rw [parts_cons_of_not hc, runs_cons_of_not hc]; simp [hc, ih]
  | run run rest hne hrun hrest ih =>
      rw [parts_append_of_run hne hrun hrest, runs_append_of_head hrest,
        runs_of_forall hne hrun, List.filter_cons_of_pos (by simpa using hrun), ih]
      rfl

end Parts

end Text

namespace RuleText

/-! ## Lookups with effects -/

universe u

section Monadic

variable {m : Type → Type u} [Monad m] {α : Type}

def joinM (make : α → m Text) (parts : List α) : m Text :=
  List.flatten <$> parts.mapM make

/-- What one piece contributes: a name its lookup, another character itself. -/
def Piece.fillM (lookup : Text → m Text) : Piece → m Text
  | .reference name => lookup name
  | .other c => pure [c]

/-- Substitution with a lookup that may have effects; they happen in the order of the text. -/
def substituteM (names : List Text) (lookup : Text → m Text) (text : Text) : m Text :=
  joinM (Piece.fillM lookup) (scan names text)

/-- A lookup that also notes the name in a list. -/
def logged (lookup : Text → m Text) (name : Text) : StateT (List Text) m Text := do
  modify (· ++ [name])
  lookup name

variable [LawfulMonad m]

theorem joinM_nil (make : α → m Text) : joinM make [] = pure [] := by
  simp [joinM]

theorem joinM_cons (make : α → m Text) (part : α) (parts : List α) :
    joinM make (part :: parts) =
      make part >>= fun text => (text ++ ·) <$> joinM make parts := by
  simp [joinM, List.mapM_cons]

theorem joinM_append (make : α → m Text) (before after : List α) :
    joinM make (before ++ after) =
      joinM make before >>= fun text => (text ++ ·) <$> joinM make after := by
  induction before with
  | nil => simp [joinM_nil]
  | cons part before ih => simp [joinM_cons, ih]

theorem joinM_others (lookup : Text → m Text) (run : Text) :
    joinM (Piece.fillM lookup) (run.map Piece.other) = pure run := by
  induction run with
  | nil => exact joinM_nil _
  | cons c run ih => simp [joinM_cons, Piece.fillM, ih]

theorem joinM_id (make : α → Text) (parts : List α) :
    Id.run (joinM (fun part => pure (make part)) parts) = parts.flatMap make := by
  induction parts with
  | nil => rfl
  | cons part parts ih => simp [joinM_cons, ih]

/-- Noting the names changes nothing else, and the names noted are the references. -/
theorem run_joinM_logged (lookup : Text → m Text) (pieces : List Piece) (log : List Text) :
    (joinM (Piece.fillM (logged lookup)) pieces).run log =
      (fun text => (text, log ++ pieces.filterMap fun
        | .reference name => some name
        | .other _ => none)) <$> joinM (Piece.fillM lookup) pieces := by
  induction pieces generalizing log with
  | nil => simp [joinM_nil]
  | cons piece pieces ih =>
      cases piece with
      | other c => simp [joinM_cons, Piece.fillM, ih]
      | reference name => simp [joinM_cons, Piece.fillM, logged, ih]

end Monadic

/-- Without effects it is substitution. -/
theorem substitute_eq_substituteM (names : List Text) (value : Text → Text) (text : Text) :
    substitute names value text =
      Id.run (substituteM names (fun name => pure (value name)) text) := by
  unfold substitute substituteM
  induction scan names text with
  | nil => rfl
  | cons piece pieces ih =>
      rw [List.flatMap_cons, ih, joinM_cons]
      cases piece <;> rfl

/-! ## Substitution over the parts -/

section Parts

variable {names : List Text} (hnames : ∀ name ∈ names, isVariableName name = true)
include hnames

theorem singleton_notMem_names {c : Char} (hc : Text.isAlphanumeric c = false) :
    [c] ∉ names := by
  intro hmem
  simpa [hc] using (isVariableName_iff.1 (hnames [c] hmem)).2

theorem references_eq_filter (text : Text) :
    references names text = (Text.parts Text.isAlphanumeric text).filter (· ∈ names) := by
  unfold references
  induction text using Text.run_induction Text.isAlphanumeric with
  | nil => rfl
  | other c rest hc ih =>
      rw [scan_cons_of_not hnames hc, Text.parts_cons_of_not hc,
        List.filter_cons_of_neg (by simpa using singleton_notMem_names hnames hc), ← ih]
      rfl
  | run run rest hne hrun hrest ih =>
      rw [scan_append_of_run hnames hne hrun hrest, Text.parts_append_of_run hne hrun hrest,
        List.filterMap_append, ih]
      by_cases hmem : run ∈ names
      · simp [hmem]
      · simp [hmem, List.filterMap_map]

theorem substituteM_eq_joinM {m : Type → Type u} [Monad m] [LawfulMonad m]
    (lookup : Text → m Text) (text : Text) :
    substituteM names lookup text =
      joinM (fun part => if part ∈ names then lookup part else pure part)
        (Text.parts Text.isAlphanumeric text) := by
  unfold substituteM
  induction text using Text.run_induction Text.isAlphanumeric with
  | nil => simp [scan, scanLoop, Text.parts, joinM_nil]
  | other c rest hc ih =>
      rw [scan_cons_of_not hnames hc, Text.parts_cons_of_not hc, joinM_cons, joinM_cons, ih,
        if_neg (singleton_notMem_names hnames hc)]
      rfl
  | run run rest hne hrun hrest ih =>
      rw [scan_append_of_run hnames hne hrun hrest, Text.parts_append_of_run hne hrun hrest,
        joinM_append, joinM_cons, ih]
      by_cases hmem : run ∈ names
      · simp [hmem, joinM_cons, joinM_nil, Piece.fillM]
      · simp [hmem, joinM_others]

theorem substitute_eq_flatMap (value : Text → Text) (text : Text) :
    substitute names value text =
      (Text.parts Text.isAlphanumeric text).flatMap fun part =>
        if part ∈ names then value part else part := by
  have hmake : (fun part => if part ∈ names then (pure (value part) : Id Text) else pure part) =
      fun part => pure (if part ∈ names then value part else part) := by
    funext part
    split <;> rfl
  rw [substitute_eq_substituteM, substituteM_eq_joinM hnames, hmake, joinM_id]

/-- Substitution goes over the parts of a text, which are its runs and its other characters:
those that are names are looked up, in order, and the others are kept.  The names looked up are
the references of the text, whatever a lookup does, and only which names there are counts. -/
theorem substitute_runwise {m : Type → Type u} [Monad m] [LawfulMonad m] (text : Text) :
    let parts := Text.parts Text.isAlphanumeric text
    (parts.flatten = text ∧
        parts.filter (·.all Text.isAlphanumeric) = Text.runs Text.isAlphanumeric text) ∧
      (∀ value : Text → Text, substitute names value text =
        parts.flatMap fun part => if part ∈ names then value part else part) ∧
      (∀ lookup : Text → m Text,
        substituteM names lookup text =
            joinM (fun part => if part ∈ names then lookup part else pure part) parts ∧
          (substituteM names (logged lookup) text).run [] =
            (fun filled => (filled, references names text)) <$> substituteM names lookup text) ∧
      references names text = parts.filter (· ∈ names) ∧
      ∀ other : List Text, (∀ name, name ∈ other ↔ name ∈ names) →
        references other text = references names text ∧
          (∀ value : Text → Text, substitute other value text = substitute names value text) ∧
          ∀ lookup : Text → m Text,
            substituteM other lookup text = substituteM names lookup text := by
  intro parts
  refine ⟨⟨Text.flatten_parts text, Text.filter_parts text⟩,
    fun value => substitute_eq_flatMap hnames value text,
    fun lookup => ⟨substituteM_eq_joinM hnames lookup text, run_joinM_logged lookup _ []⟩,
    references_eq_filter hnames text, fun other hsame => ?_⟩
  have hother : ∀ name ∈ other, isVariableName name = true :=
    fun name hname => hnames name ((hsame name).1 hname)
  refine ⟨?_, fun value => ?_, fun lookup => ?_⟩
  · simp only [references_eq_filter hother, references_eq_filter hnames, hsame]
  · simp only [substitute_eq_flatMap hother, substitute_eq_flatMap hnames, hsame]
  · simp only [substituteM_eq_joinM hother, substituteM_eq_joinM hnames, hsame]

end Parts

/-- A name that begins another one, beside it in a text with other letters. -/
theorem substitute_runwise_prefix :
    let names := ["C".toList, "Cv".toList]
    let text := "ʃ Cv/C_".toList
    (∀ name ∈ names, isVariableName name = true) ∧
      references names text = ["Cv".toList, "C".toList] ∧
      (∀ value : Text → Text, substitute names value text =
        ["ʃ ".toList, value "Cv".toList, "/".toList, value "C".toList, "_".toList].flatten) ∧
      ∀ value : Text → Text,
        substitute names.reverse value text = substitute names value text := by
  intro names text
  have hnames : ∀ name ∈ names, isVariableName name = true := by decide
  have hparts : Text.parts Text.isAlphanumeric text =
      ["ʃ".toList, " ".toList, "Cv".toList, "/".toList, "C".toList, "_".toList] := by decide
  obtain ⟨-, hsubstitute, -, hreferences, horder⟩ := substitute_runwise (m := Id) hnames text
  refine ⟨hnames, ?_, fun value => ?_, (horder _ fun name => List.mem_reverse).2.1⟩
  · rw [hreferences, hparts]
    decide
  · rw [hsubstitute, hparts]
    rfl

end RuleText

end Diachrony
