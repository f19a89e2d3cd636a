import Diachrony.Proofs.LongestMatch
import Diachrony.Proofs.Reconstruction

/-!
# What a reverser remembers

A reverser answers from memory what it has found before.  Whatever it has been asked to do, it
remembers nothing but what it would find again, so its answers are those of a reverser that
remembers nothing; and it never remembers more words than there is room for.
-/

namespace Diachrony

namespace Reverser

variable {reverser : Reverser} {word : String} {sources : TokenSet}

/-! ## Searching without memory -/

theorem undoAll_forget (reverser : Reverser) (steps : List UndoStep)
    (candidates : List Candidate) :
    reverser.forget.undoAll steps candidates = reverser.undoAll steps candidates := by
  induction steps generalizing candidates with
  | nil => rfl
  | cons step rest ih =>
      have hundo : reverser.forget.undo step candidates = reverser.undo step candidates := rfl
      rw [undoAll, undoAll, hundo, ih]

/-- What a reverser finds does not depend on what it remembers. -/
theorem reconstruct_forget (reverser : Reverser) (word : String) :
    reverser.forget.reconstruct word = reverser.reconstruct word := by
  have hsources : ∀ tokens, reverser.forget.sourcesOf tokens = reverser.sourcesOf tokens := by
    intro tokens
    simp only [sourcesOf, undoAll_forget]
    rfl
  simp only [reconstruct, hsources]
  rfl

theorem reconstruct_eq_of_forget_eq {other : Reverser} (h : reverser.forget = other.forget) :
    reverser.reconstruct word = other.reconstruct word := by
  rw [← reconstruct_forget, h, reconstruct_forget]

/-! ## What a call does -/

theorem remember_cases [Limits] (reverser : Reverser) (word : String) (sources : TokenSet) :
    reverser.remember word sources = reverser ∨
      reverser.settings.enableCache = true ∧ reverser.rememberedCount < Limits.cachedWords ∧
        reverser.remember word sources =
          { reverser with remembered := reverser.remembered.insert word sources } := by
  unfold remember
  split
  · rename_i hroom
    rw [Bool.and_eq_true, decide_eq_true_eq] at hroom
    exact Or.inr ⟨hroom.1, hroom.2, rfl⟩
  · exact Or.inl rfl

/-- A word is answered from memory, or it fails, or its answer is found and perhaps
remembered. -/
theorem reverse_cases [Limits] (reverser : Reverser) (word : String) :
    (∃ sources, reverser.remembered[word]? = some sources ∧
        reverser.reverse word = (.ok sources, reverser)) ∨
      (∃ failure, reverser.reconstruct word = .error failure ∧
        reverser.reverse word = (.error failure, reverser)) ∨
      ∃ sources, reverser.reconstruct word = .ok sources ∧
        reverser.reverse word = (.ok sources, reverser.remember word sources) := by
  unfold reverse
  cases hmemory : reverser.remembered? word with
  | some sources =>
      refine Or.inl ⟨sources, ?_, rfl⟩
      unfold remembered? at hmemory
      split at hmemory
      · exact hmemory
      · cases hmemory
  | none =>
      cases hfound : reverser.reconstruct word with
      | error failure => exact Or.inr (Or.inl ⟨failure, rfl, rfl⟩)
      | ok sources => exact Or.inr (Or.inr ⟨sources, rfl, rfl⟩)

theorem forget_remember [Limits] (reverser : Reverser) (word : String) (sources : TokenSet) :
    (reverser.remember word sources).forget = reverser.forget := by
  rcases reverser.remember_cases word sources with hsame | ⟨-, -, hinsert⟩
  · rw [hsame]
  · rw [hinsert]
    rfl

theorem forget_reverse [Limits] (reverser : Reverser) (word : String) :
    (reverser.reverse word).2.forget = reverser.forget := by
  rcases reverser.reverse_cases word with ⟨_, -, h⟩ | ⟨_, -, h⟩ | ⟨sources, -, h⟩
  · rw [h]
  · rw [h]
  · rw [h]
    exact forget_remember reverser word sources

theorem reverse_eq_of_error [Limits] {failure : SegmentationError}
    (h : (reverser.reverse word).1 = .error failure) : (reverser.reverse word).2 = reverser := by
  rcases reverser.reverse_cases word with ⟨_, -, hcase⟩ | ⟨_, -, hcase⟩ | ⟨_, -, hcase⟩
  · rw [hcase] at h
    cases h
  · rw [hcase]
  · rw [hcase] at h
    cases h

/-! ## The memory -/

/-- Whether a reverser remembers only what it would find again, no more than there is room for,
and nothing if it is not to remember. -/
structure IsFaithful [Limits] (reverser : Reverser) : Prop where
  found : ∀ {word sources}, reverser.remembered[word]? = some sources →
    reverser.reconstruct word = .ok sources
  bounded : reverser.rememberedCount ≤ Limits.cachedWords
  disabled : reverser.settings.enableCache = false → reverser.rememberedCount = 0

theorem isFaithful_forget [Limits] (reverser : Reverser) : reverser.forget.IsFaithful where
  found := by simp [forget]
  bounded := by simp [forget, rememberedCount]
  disabled := by simp [forget, rememberedCount]

theorem isFaithful_of [Limits] (rules : List Rule) (source target : Inventory)
    (settings : ReverserSettings) : (Reverser.of rules source target settings).IsFaithful :=
  isFaithful_forget (Reverser.of rules source target settings)

namespace IsFaithful

variable [Limits] (h : reverser.IsFaithful)

include h

theorem remember (hfound : reverser.reconstruct word = .ok sources) :
    (reverser.remember word sources).IsFaithful := by
  rcases reverser.remember_cases word sources with hsame | ⟨henabled, hroom, hinsert⟩
  · rwa [hsame]
  · have hforget := reverser.forget_remember word sources
    rw [hinsert] at hforget ⊢
    refine ⟨?_, ?_, ?_⟩
    · intro other answer hother
      rw [reconstruct_eq_of_forget_eq hforget]
      rw [Std.HashMap.getElem?_insert] at hother
      split at hother
      · rename_i hsame
        rw [beq_iff_eq] at hsame
        rw [← hsame, hfound, Option.some.inj hother]
      · exact h.found hother
    · have hsize : (reverser.remembered.insert word sources).size ≤
          reverser.remembered.size + 1 := Std.HashMap.size_insert_le
      have hroom : reverser.remembered.size < Limits.cachedWords := hroom
      exact Nat.le_trans hsize hroom
    · intro hdisabled
      rw [henabled] at hdisabled
      cases hdisabled

/-- A reverser answers what it would find. -/
theorem reverse_eq_reconstruct (word : String) :
    (reverser.reverse word).1 = reverser.reconstruct word := by
  rcases reverser.reverse_cases word with ⟨_, hmemory, hcase⟩ | ⟨_, hfound, hcase⟩ |
    ⟨_, hfound, hcase⟩
  · rw [hcase, h.found hmemory]
  · rw [hcase, hfound]
  · rw [hcase, hfound]

theorem reverse (word : String) : (reverser.reverse word).2.IsFaithful := by
  rcases reverser.reverse_cases word with ⟨_, -, hcase⟩ | ⟨_, -, hcase⟩ | ⟨_, hfound, hcase⟩
  · rwa [hcase]
  · rwa [hcase]
  · rw [hcase]
    exact h.remember hfound

end IsFaithful

/-! ## Runs of calls -/

inductive Call where
  | reverse (word : String)
  | forget
  deriving DecidableEq, Repr

def call [Limits] (reverser : Reverser) : Call → Reverser
  | .reverse word => (reverser.reverse word).2
  | .forget => reverser.forget

def afterCalls [Limits] (reverser : Reverser) (calls : List Call) : Reverser :=
  calls.foldl call reverser

theorem forget_call [Limits] (reverser : Reverser) (call : Call) :
    (reverser.call call).forget = reverser.forget := by
  cases call with
  | reverse word => exact forget_reverse reverser word
  | forget => rfl

theorem IsFaithful.call [Limits] (h : reverser.IsFaithful) (call : Call) :
    (reverser.call call).IsFaithful := by
  cases call with
  | reverse word => exact h.reverse word
  | forget => exact isFaithful_forget reverser

theorem forget_afterCalls [Limits] (reverser : Reverser) (calls : List Call) :
    (reverser.afterCalls calls).forget = reverser.forget := by
  induction calls generalizing reverser with
  | nil => rfl
  | cons call calls ih => exact (ih (reverser.call call)).trans (forget_call reverser call)

theorem IsFaithful.afterCalls [Limits] (h : reverser.IsFaithful) (calls : List Call) :
    (reverser.afterCalls calls).IsFaithful := by
  induction calls generalizing reverser with
  | nil => exact h
  | cons call calls ih => exact ih (h.call call)

/-- Whatever a reverser has been asked to do before, it answers like a new one, a word that
fails leaves it as it is, and its memory stays within its bounds. -/
theorem reverse_afterCalls [Limits] (rules : List Rule) (source target : Inventory)
    (settings : ReverserSettings) (calls : List Call) :
    let fresh := Reverser.of rules source target settings
    let used := fresh.afterCalls calls
    (∀ word, (used.reverse word).1 = (fresh.reverse word).1) ∧
      (∀ word failure, (used.reverse word).1 = .error failure → (used.reverse word).2 = used) ∧
      used.rememberedCount ≤ Limits.cachedWords ∧
      (settings.enableCache = false → used.rememberedCount = 0) := by
  intro fresh used
  have hfresh : fresh.IsFaithful := isFaithful_of rules source target settings
  have hused : used.IsFaithful := hfresh.afterCalls calls
  have hforget : used.forget = fresh.forget := forget_afterCalls fresh calls
  refine ⟨fun word => ?_, fun word failure => reverse_eq_of_error, hused.bounded, ?_⟩
  · rw [hused.reverse_eq_reconstruct, hfresh.reverse_eq_reconstruct,
      reconstruct_eq_of_forget_eq hforget]
  · have hsettings : used.settings = settings := congrArg Reverser.settings hforget
    intro hdisabled
    exact hused.disabled (by rw [hsettings, hdisabled])

theorem reverse_of_remembered [Limits] (h : reverser.remembered? word = some sources) :
    reverser.reverse word = (.ok sources, reverser) := by
  rw [reverse, h]

theorem remembered?_reverse [Limits] (hcache : reverser.settings.enableCache = true)
    (hroom : reverser.rememberedCount < Limits.cachedWords)
    (hfound : reverser.reconstruct word = .ok sources) (hnew : reverser.remembered? word = none) :
    (reverser.reverse word).2.remembered? word = some sources := by
  have hremember : (reverser.remember word sources).remembered? word = some sources := by
    rw [remember, if_pos (by simp [hcache, hroom]), remembered?, if_pos hcache]
    exact Std.HashMap.getElem?_insert_self
  rw [reverse, hnew, hfound]
  exact hremember

/-- Reversal under `a > b`: a word that is remembered after the others were forgotten, and one
that fails; without a memory nothing is remembered. -/
theorem reverse_afterCalls_bb :
    let prepared := Reverser.of [⟨["a"], ["b"], none, none, 1⟩]
      (Inventory.ofPhonemes ["a", "b"]) (Inventory.ofPhonemes ["b"])
    let fresh := prepared Settings.default.reverser
    let calls : List Call := [.reverse "b", .forget, .reverse "bb"]
    let used := fresh.afterCalls calls
    let silent :=
      (prepared { Settings.default.reverser with enableCache := false }).afterCalls calls
    (∃ sources, used.remembered? "bb" = some sources ∧ used.reverse "bb" = (.ok sources, used) ∧
      fresh.remembered? "bb" = none ∧ (fresh.reverse "bb").1 = .ok sources) ∧
      (∃ failure, (used.reverse "q").1 = .error failure ∧ (used.reverse "q").2 = used) ∧
      used.rememberedCount ≤ Limits.cachedWords ∧ silent.rememberedCount = 0 := by
  intro prepared fresh calls used silent
  obtain ⟨hanswers, hfails, hbounded, -⟩ := reverse_afterCalls [⟨["a"], ["b"], none, none, 1⟩]
    (Inventory.ofPhonemes ["a", "b"]) (Inventory.ofPhonemes ["b"]) Settings.default.reverser calls
  obtain ⟨-, -, -, hdisabled⟩ := reverse_afterCalls [⟨["a"], ["b"], none, none, 1⟩]
    (Inventory.ofPhonemes ["a", "b"]) (Inventory.ofPhonemes ["b"])
    { Settings.default.reverser with enableCache := false } calls
  have hbb : (fresh.reverse "bb").1 = .ok (fresh.sourcesOf ["b", "b"]) :=
    reverse_of_segment (Inventory.segment_ofPhonemes (by decide) (by simp))
  have hq : (used.reverse "q").1 = .error ⟨"q", 0, 'q'⟩ :=
    (hanswers "q").trans (reverse_of_segment_error (Inventory.segment_eq_error_of_head rfl
      (by simp [Inventory.mem_phonemes_ofPhonemes])))
  have hfresh : fresh.IsFaithful := isFaithful_of _ _ _ _
  have hnew : fresh.remembered? "bb" = none := by
    simp [remembered?, fresh, prepared, Reverser.of]
  have hremembered : used.remembered? "bb" = some (fresh.sourcesOf ["b", "b"]) := by
    have hforgotten : (fresh.reverse "b").2.forget = fresh := forget_reverse fresh "b"
    have hused : used = ((fresh.reverse "b").2.forget.reverse "bb").2 := rfl
    have hroom : fresh.rememberedCount < Limits.cachedWords := by
      simp [rememberedCount, fresh, prepared, Reverser.of, Limits.cachedWords]
    rw [hused, hforgotten]
    exact remembered?_reverse rfl hroom ((hfresh.reverse_eq_reconstruct "bb").symm.trans hbb) hnew
  exact ⟨⟨_, hremembered, reverse_of_remembered hremembered, hnew, hbb⟩,
    ⟨_, hq, hfails "q" _ hq⟩, hbounded, hdisabled rfl⟩

end Reverser

end Diachrony
