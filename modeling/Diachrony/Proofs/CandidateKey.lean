import Diachrony.Proofs.Spelling
import Diachrony.Reversal

/-!
# Candidates and their keys

Candidates are merged by their keys, so two token sequences with one key count as one.  Keys
tell sequences apart whose tokens are nonempty and free of the separator, and also sequences
of one-character tokens, even if the separator is among those.
-/

namespace Diachrony

/-! ## Keys -/

/-- A token that leaves a trace in a key and cannot be taken for the end of another. -/
def PlainToken (token : Token) : Prop :=
  token ≠ "" ∧ '\x1f' ∉ token.toList

instance (token : Token) : Decidable (PlainToken token) :=
  inferInstanceAs (Decidable (token ≠ "" ∧ '\x1f' ∉ token.toList))

/-- Whether keys tell all sequences of certain tokens apart. -/
def KeysDistinguish (admits : Token → Prop) : Prop :=
  ∀ {first second : List Token}, (∀ token ∈ first, admits token) →
    (∀ token ∈ second, admits token) → candidateKey first = candidateKey second → first = second

theorem toList_candidateKey (tokens : List Token) :
    (candidateKey tokens).toList = ['\x1f'].intercalate (tokens.map String.toList) :=
  String.toList_intercalate

theorem candidateKey_ne_empty {token : Token} (h : token ≠ "") (rest : List Token) :
    candidateKey (token :: rest) ≠ "" := by
  cases rest with
  | nil => simpa [candidateKey] using h
  | cons next rest =>
      simp only [candidateKey, String.intercalate_cons_cons]
      intro hempty
      have hlist := congrArg String.toList hempty
      simp [keySeparator] at hlist

/-- A plain sequence is its key, split at the separator. -/
theorem splitOn_candidateKey {tokens : List Token} (hplain : ∀ token ∈ tokens, PlainToken token)
    (hne : tokens ≠ []) :
    (candidateKey tokens).toList.splitOn '\x1f' = tokens.map String.toList := by
  rw [toList_candidateKey]
  refine List.splitOn_intercalate _ ?_ (by simpa using hne)
  intro text htext
  obtain ⟨token, hmem, rfl⟩ := List.mem_map.1 htext
  exact (hplain token hmem).2

theorem keysDistinguish_plain : KeysDistinguish PlainToken := by
  intro first second hfirst hsecond hkeys
  have hempty : ∀ {tokens : List Token}, (∀ token ∈ tokens, PlainToken token) →
      candidateKey tokens = candidateKey [] → tokens = [] := by
    intro tokens hplain hkey
    cases tokens with
    | nil => rfl
    | cons token rest =>
        exact absurd hkey (candidateKey_ne_empty (hplain token List.mem_cons_self).1 rest)
  by_cases hfirstEmpty : first = []
  · subst hfirstEmpty
    exact (hempty hsecond hkeys.symm).symm
  · by_cases hsecondEmpty : second = []
    · subst hsecondEmpty
      exact absurd (hempty hfirst hkeys) hfirstEmpty
    · have hsplit := splitOn_candidateKey hfirst hfirstEmpty
      rw [hkeys, splitOn_candidateKey hsecond hsecondEmpty] at hsplit
      exact (List.map_inj_right fun a b hab => String.toList_inj.1 hab).1 hsplit.symm

theorem plain_of_segment {inventory : Inventory} {word : String} {result : List Token}
    (hseparator : ∀ phoneme ∈ inventory.phonemes.toList, '\x1f' ∉ phoneme.toList)
    (h : inventory.segmenter.segment word = .ok result) :
    ∀ token ∈ result, PlainToken token := by
  intro token hmem
  obtain ⟨hphoneme, hne⟩ := (Segmenter.segment_ok h).2 token hmem
  exact ⟨hne, hseparator token hphoneme⟩

theorem candidateKey_cons_singleton (c : Char) (rest : List Token) :
    (candidateKey (String.singleton c :: rest)).toList =
      c :: if rest = [] then [] else '\x1f' :: (candidateKey rest).toList := by
  cases rest with
  | nil => simp [candidateKey]
  | cons next rest => simp [toList_candidateKey]

/-- The separators stand at every other place of a key of one-character tokens, so a token may
be the separator itself. -/
theorem keysDistinguish_length_one : KeysDistinguish fun token => token.length = 1 := by
  intro first second hfirst hsecond hkeys
  induction first generalizing second with
  | nil =>
      cases second with
      | nil => rfl
      | cons token rest =>
          have hne : token ≠ "" := by
            rintro rfl
            simpa using hsecond "" List.mem_cons_self
          exact absurd hkeys.symm (candidateKey_ne_empty hne rest)
  | cons token rest ih =>
      obtain ⟨c, rfl⟩ := exists_singleton_of_length (hfirst token List.mem_cons_self)
      cases second with
      | nil => exact absurd hkeys (candidateKey_ne_empty (by simp) rest)
      | cons other rest' =>
          obtain ⟨d, rfl⟩ := exists_singleton_of_length (hsecond other List.mem_cons_self)
          have hlists := congrArg String.toList hkeys
          rw [candidateKey_cons_singleton, candidateKey_cons_singleton, List.cons.injEq]
            at hlists
          obtain ⟨rfl, htails⟩ := hlists
          have hrest : candidateKey rest = candidateKey rest' := by
            by_cases h : rest = [] <;> by_cases h' : rest' = [] <;> simp [h, h'] at htails ⊢
            exact String.toList_inj.1 htails
          rw [ih (fun t ht => hfirst t (List.mem_cons_of_mem _ ht))
            (fun t ht => hsecond t (List.mem_cons_of_mem _ ht)) hrest]

/-! ## Merging -/

theorem mem_of_mem_keepFirst {seen : Std.HashSet String} {kept candidates : List Candidate}
    {candidate : Candidate} (h : candidate ∈ keepFirst seen kept candidates) :
    candidate ∈ kept ∨ candidate ∈ candidates := by
  induction candidates generalizing seen kept with
  | nil => exact Or.inl (List.mem_reverse.1 h)
  | cons first rest ih =>
      simp only [keepFirst] at h
      split at h
      · rcases ih h with hkept | hrest
        · exact Or.inl hkept
        · exact Or.inr (List.mem_cons_of_mem first hrest)
      · rcases ih h with hkept | hrest
        · rcases List.mem_cons.1 hkept with rfl | hkept
          · exact Or.inr List.mem_cons_self
          · exact Or.inl hkept
        · exact Or.inr (List.mem_cons_of_mem first hrest)

theorem mem_keepFirst_of_kept {seen : Std.HashSet String} {kept candidates : List Candidate}
    {candidate : Candidate} (h : candidate ∈ kept) :
    candidate ∈ keepFirst seen kept candidates := by
  induction candidates generalizing seen kept with
  | nil => exact List.mem_reverse.2 h
  | cons first rest ih =>
      simp only [keepFirst]
      split
      · exact ih h
      · exact ih (List.mem_cons_of_mem first h)

/-- Merging keeps every key, either from before or from the candidates added. -/
theorem exists_mem_keepFirst {seen : Std.HashSet String} {kept candidates : List Candidate}
    (hseen : ∀ key, seen.contains key = true → ∃ other ∈ kept, other.key = key)
    {candidate : Candidate} (h : candidate ∈ candidates) :
    ∃ other ∈ keepFirst seen kept candidates, other.key = candidate.key := by
  induction candidates generalizing seen kept with
  | nil => simp at h
  | cons first rest ih =>
      simp only [keepFirst]
      split
      · rename_i hknown
        rcases List.mem_cons.1 h with rfl | h
        · obtain ⟨other, hmem, hkey⟩ := hseen _ hknown
          exact ⟨other, mem_keepFirst_of_kept hmem, hkey⟩
        · exact ih hseen h
      · rcases List.mem_cons.1 h with rfl | h
        · exact ⟨candidate, mem_keepFirst_of_kept List.mem_cons_self, rfl⟩
        · refine ih ?_ h
          intro key hkey
          rw [Std.HashSet.contains_insert, Bool.or_eq_true, beq_iff_eq] at hkey
          rcases hkey with rfl | hkey
          · exact ⟨first, List.mem_cons_self, rfl⟩
          · obtain ⟨other, hmem, hother⟩ := hseen key hkey
            exact ⟨other, List.mem_cons_of_mem first hmem, hother⟩

theorem mem_of_mem_mergeCandidates {candidates : List Candidate} {candidate : Candidate}
    (h : candidate ∈ mergeCandidates candidates) : candidate ∈ candidates := by
  rcases mem_of_mem_keepFirst (List.mem_mergeSort.1 h) with hkept | hmem
  · simp at hkept
  · exact hmem

theorem exists_mem_mergeCandidates {candidates : List Candidate} {candidate : Candidate}
    (h : candidate ∈ candidates) :
    ∃ other ∈ mergeCandidates candidates, other.key = candidate.key := by
  have hkept : ∃ other ∈ keepFirst ∅ [] candidates, other.key = candidate.key :=
    exists_mem_keepFirst (by simp) h
  obtain ⟨other, hmem, hkey⟩ := hkept
  exact ⟨other, List.mem_mergeSort.2 hmem, hkey⟩

theorem keepFirst_of_seen {seen : Std.HashSet String} {kept candidates : List Candidate}
    (h : ∀ candidate ∈ candidates, seen.contains candidate.key = true) :
    keepFirst seen kept candidates = kept.reverse := by
  induction candidates with
  | nil => rfl
  | cons first rest ih =>
      obtain ⟨hfirst, hrest⟩ := List.forall_mem_cons.1 h
      rw [keepFirst, if_pos hfirst, ih hrest]

theorem mergeCandidates_of_key_eq {first : Candidate} {rest : List Candidate}
    (h : ∀ other ∈ rest, other.key = first.key) : mergeCandidates (first :: rest) = [first] := by
  have hkept : keepFirst ∅ [] (first :: rest) = [first] := by
    rw [keepFirst, if_neg (by simp)]
    exact keepFirst_of_seen fun other hmem => by simp [h other hmem]
  rw [mergeCandidates, hkept, List.mergeSort_singleton]

/-- Merging loses no token sequence where keys tell sequences apart. -/
theorem mem_mergeCandidates_of {admits : Token → Prop} (hkeys : KeysDistinguish admits)
    {sequences : List (List Token)}
    (hadmits : ∀ tokens ∈ sequences, ∀ token ∈ tokens, admits token) {tokens : List Token} :
    Candidate.of tokens ∈ mergeCandidates (sequences.map Candidate.of) ↔ tokens ∈ sequences := by
  constructor
  · intro h
    obtain ⟨other, hmem, hother⟩ := List.mem_map.1 (mem_of_mem_mergeCandidates h)
    have htokens : other = tokens := congrArg Candidate.tokens hother
    exact htokens ▸ hmem
  · intro h
    have hcandidate : Candidate.of tokens ∈ sequences.map Candidate.of :=
      List.mem_map_of_mem h
    obtain ⟨other, hmerged, hkey⟩ := exists_mem_mergeCandidates hcandidate
    obtain ⟨found, hmem, rfl⟩ := List.mem_map.1 (mem_of_mem_mergeCandidates hmerged)
    have hsame : found = tokens := hkeys (hadmits found hmem) (hadmits tokens h) hkey
    exact hsame ▸ hmerged

end Diachrony
