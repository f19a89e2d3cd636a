import Diachrony.Distinct

/-!
# Tokens and finite sets of tokens

A token is one phoneme, or a mark such as the word boundary.  A set of tokens is its
strictly ascending list, so that two sets with the same members are equal and every set has
one written order: by code point.
-/

namespace Diachrony

/-- A phoneme, or a mark that stands among phonemes. -/
abbrev Token := String

def spell (tokens : List Token) : String :=
  String.join tokens

/-- A finite set of tokens, listed in ascending order. -/
structure TokenSet where
  toList : List Token
  ascending : toList.Pairwise (· < ·)

namespace TokenSet

instance : DecidableEq TokenSet := fun s t =>
  decidable_of_iff (s.toList = t.toList) (by
    cases s; cases t; simp)

instance : Hashable TokenSet := ⟨fun s => hash s.toList⟩

instance : Repr TokenSet := ⟨fun s prec => reprPrec s.toList prec⟩

def empty : TokenSet :=
  ⟨[], List.Pairwise.nil⟩

instance : Inhabited TokenSet := ⟨empty⟩

def precedes (a b : Token) : Bool :=
  decide (a ≤ b)

/-- Sorting distinct tokens puts them in strictly ascending order. -/
theorem sorted_distinct_ascending (tokens : List Token) :
    ((distinct tokens).mergeSort precedes).Pairwise (· < ·) := by
  have hle : ((distinct tokens).mergeSort precedes).Pairwise fun a b => precedes a b = true := by
    apply List.pairwise_mergeSort
    · intro a b c hab hbc
      simp only [precedes, decide_eq_true_eq] at hab hbc ⊢
      exact String.le_trans hab hbc
    · intro a b
      simp only [precedes, Bool.or_eq_true, decide_eq_true_eq]
      exact String.le_total a b
  have hne : ((distinct tokens).mergeSort precedes).Nodup :=
    (List.mergeSort_perm _ _).nodup_iff.2 (distinct_nodup tokens)
  refine (hle.and hne).imp ?_
  intro a b hab
  have hab' : a ≤ b := by simpa [precedes] using hab.1
  exact String.not_le.1 fun hba => hab.2 (String.le_antisymm hab' hba)

def ofList (tokens : List Token) : TokenSet :=
  ⟨(distinct tokens).mergeSort precedes, sorted_distinct_ascending tokens⟩

def contains (s : TokenSet) (token : Token) : Bool :=
  s.toList.contains token

def size (s : TokenSet) : Nat :=
  s.toList.length

def isEmpty (s : TokenSet) : Bool :=
  s.toList.isEmpty

def union (s t : TokenSet) : TokenSet :=
  ofList (s.toList ++ t.toList)

def filter (keep : Token → Bool) (s : TokenSet) : TokenSet :=
  ⟨s.toList.filter keep, s.ascending.filter _⟩

def without (s : TokenSet) (tokens : List Token) : TokenSet :=
  let dropped := Std.HashSet.ofList tokens
  s.filter fun token => !dropped.contains token

theorem mem_ofList {token : Token} {tokens : List Token} :
    token ∈ (ofList tokens).toList ↔ token ∈ tokens := by
  simp [ofList, mem_distinct, List.mem_mergeSort]

/-- A set has one list: sets with the same members are equal. -/
theorem eq_of_mem_iff {s t : TokenSet} (h : ∀ token, token ∈ s.toList ↔ token ∈ t.toList) :
    s = t := by
  obtain ⟨first, hfirst⟩ := s
  obtain ⟨second, hsecond⟩ := t
  have hnodup : ∀ {tokens : List Token}, tokens.Pairwise (· < ·) → tokens.Nodup :=
    fun hlt => hlt.imp fun hab => String.ne_of_lt hab
  have hperm : first.Perm second :=
    (List.perm_ext_iff_of_nodup (hnodup hfirst) (hnodup hsecond)).2 h
  have hsame : first = second :=
    hperm.eq_of_pairwise
      (fun a b _ _ hab hba => absurd (String.lt_trans hab hba) (String.lt_irrefl a))
      hfirst hsecond
  subst hsame
  rfl

theorem mem_union {token : Token} {s t : TokenSet} :
    token ∈ (s.union t).toList ↔ token ∈ s.toList ∨ token ∈ t.toList := by
  simp [union, mem_ofList]

theorem contains_iff {token : Token} {s : TokenSet} : s.contains token = true ↔ token ∈ s.toList := by
  simp [contains]

theorem mem_filter {keep : Token → Bool} {token : Token} {s : TokenSet} :
    token ∈ (s.filter keep).toList ↔ token ∈ s.toList ∧ keep token = true :=
  List.mem_filter

theorem mem_without {token : Token} {s : TokenSet} {tokens : List Token} :
    token ∈ (s.without tokens).toList ↔ token ∈ s.toList ∧ token ∉ tokens := by
  simp [without, mem_filter]

end TokenSet

end Diachrony
