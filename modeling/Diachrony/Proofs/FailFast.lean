import Diachrony.Proofs.Batches
import Diachrony.Proofs.LongestMatch

/-!
# Batches that stop at a failure

One worker that stops at the first failure gives the outcomes of the batch that goes on, cut off
behind the first failed one: the words before it have their outcomes, and the words behind it have
none, as the flag that it sets is seen before them.
-/

namespace Diachrony

/-- Outcomes that are cut off lose what stands behind the first failure, or nothing. -/
theorem untilStop_true_cases (outcomes : List WordOutcome) :
    (∀ outcome ∈ outcomes, outcome.isSuccess = true) ∧ untilStop true outcomes = outcomes ∨
      ∃ before failed after, outcomes = before ++ failed :: after ∧
        (∀ outcome ∈ before, outcome.isSuccess = true) ∧ failed.isSuccess = false ∧
        untilStop true outcomes = before ++ [failed] := by
  induction outcomes with
  | nil => exact .inl ⟨by simp, rfl⟩
  | cons outcome outcomes ih =>
      cases hsuccess : outcome.isSuccess with
      | false =>
          refine .inr ⟨[], outcome, outcomes, rfl, by simp, hsuccess, ?_⟩
          rw [untilStop, hsuccess]
          rfl
      | true =>
          have hgoes : untilStop true (outcome :: outcomes) =
              outcome :: untilStop true outcomes := by
            rw [untilStop, hsuccess]
            rfl
          rw [hgoes]
          rcases ih with ⟨hall, hcut⟩ | ⟨before, failed, after, hsplit, hbefore, hfailed, hcut⟩
          · exact .inl ⟨List.forall_mem_cons.2 ⟨hsuccess, hall⟩, by rw [hcut]⟩
          · refine .inr ⟨outcome :: before, failed, after, ?_,
              List.forall_mem_cons.2 ⟨hsuccess, hbefore⟩, hfailed, ?_⟩
            · rw [hsplit, List.cons_append]
            · rw [hcut, List.cons_append]

theorem BatchPlan.clampWorkers_one [Limits] : clampWorkers 1 = 1 :=
  Nat.min_eq_left Limits.workers_pos

theorem workersFor_of_one [Limits] {plan : BatchPlan} (hone : plan.workers = 1)
    (words : List String) : workersFor plan words = 1 := by
  rw [workersFor, hone, BatchPlan.clampWorkers_one]
  exact Nat.min_eq_left (Nat.le_max_right words.length 1)

/-- One worker works on the words until the batch stops, and so it is counted. -/
theorem workBatch_of_one [Limits] (session : Session) (direction : Direction) {plan : BatchPlan}
    (hone : plan.workers = 1) (words : List String) :
    workBatch session plan direction words =
      (untilStop plan.failFast (session.outcomesFrom direction 0 words),
        Progress.start.recordAll plan.failFast
          (untilStop plan.failFast (session.outcomesFrom direction 0 words))) := by
  rw [workBatch, if_pos (workersFor_of_one hone words),
    (Worker.worksFor_of session direction).workAll plan.failFast rfl]
  rfl

/-- With one worker, a batch that stops at failures gives the outcomes of the batch that goes on,
cut off behind the first failure: all of them if none fails.  It has counted the outcomes that it
gives, and its flag says whether one of them failed. -/
theorem outcomes_runBatch_throughFailure [Limits] {session : Session} (hbuilt : session.IsBuilt)
    (direction : Direction) (plan : BatchPlan) {words : List String}
    (hcount : words.length ≤ Limits.wordsPerBatch) :
    ∃ fast full,
      runBatch session { plan with workers := 1, failFast := true } direction words = .ok fast ∧
      runBatch session { plan with workers := 1, failFast := false } direction words = .ok full ∧
      full.outcomes = words.mapIdx (fun index word =>
        ⟨index, word, session.resultOf direction word⟩) ∧
      (∀ word ∈ words, session.Returns direction word (session.resultOf direction word)) ∧
      fast.outcomes = untilStop true full.outcomes ∧
      (workBatch session { plan with workers := 1, failFast := true } direction words).2 =
        ⟨fast.outcomes.length, fast.outcomes.any (!·.isSuccess)⟩ ∧
      ((∀ outcome ∈ full.outcomes, outcome.isSuccess = true) ∧
          fast.outcomes = full.outcomes ∧ fast.failures = 0 ∨
        ∃ before failed after, full.outcomes = before ++ failed :: after ∧
          (∀ outcome ∈ before, outcome.isSuccess = true) ∧ failed.isSuccess = false ∧
          fast.outcomes = before ++ [failed] ∧ fast.failures = 1) := by
  refine ⟨_, _, runBatch_eq session _ direction hcount, runBatch_eq session _ direction hcount,
    ?_, fun word _ => hbuilt.isSound.returns_iff.2 rfl, ?_, ?_, ?_⟩
  · rw [workBatch_eq session direction rfl, Session.outcomesFrom, List.mapIdx_eq_zipIdx_map]
  · rw [workBatch_of_one session direction rfl, workBatch_eq session direction rfl]
  · dsimp only
    rw [workBatch_of_one session direction rfl, Progress.recordAll_eq]
    simp [Progress.start]
  · simp only [BatchResults.failures, BatchResults.processed, BatchResults.successes]
    rw [workBatch_eq session direction rfl, workBatch_of_one session direction rfl]
    rcases untilStop_true_cases (session.outcomesFrom direction 0 words) with
      ⟨hall, hcut⟩ | ⟨before, failed, after, hsplit, hbefore, hfailed, hcut⟩
    · refine .inl ⟨hall, hcut, ?_⟩
      simp only [hcut, List.filter_eq_self.2 hall, Nat.sub_self]
    · refine .inr ⟨before, failed, after, hsplit, hbefore, hfailed, hcut, ?_⟩
      simp only [hcut, List.filter_append, List.filter_eq_self.2 hbefore]
      simp [hfailed]

/-- Deriving under `a > x` and `b > x`: the second of three words has no segmentation. -/
theorem outcomes_runBatch_throughFailure_abzb :
    let session := Session.ofParts
      [⟨["a"], ["x"], none, none, 1⟩, ⟨["b"], ["x"], none, none, 2⟩]
      (Inventory.ofPhonemes ["a", "b"]) (Inventory.ofPhonemes ["x"]) Settings.default.reverser
    let plan : BatchPlan := ⟨1, true, Settings.default.batch⟩
    let words := ["ab", "z", "b"]
    let failed := WordResult.failed "E050" ("Tokenization failed: Cannot tokenize 'z': " ++
      "no phoneme matches 'z' at position 0")
    (session.IsBuilt ∧ words.length ≤ Limits.wordsPerBatch) ∧
      ∃ fast, runBatch session plan .forward words = .ok fast ∧ fast.failures = 1 ∧
        fast.outcomes = [⟨0, "ab", .derived "xx"⟩, ⟨1, "z", failed⟩] ∧
        (workBatch session plan .forward words).2 = ⟨2, true⟩ := by
  intro session plan words failed
  have hbuilt : session.IsBuilt := .ofParts (by decide) _ _ _
  have hcount : words.length ≤ Limits.wordsPerBatch := by decide
  have hab : session.resultOf .forward "ab" = .derived "xx" :=
    hbuilt.isSound.resultOf_of_segment (Inventory.segment_ofPhonemes (by decide) (by simp))
  have hz : session.resultOf .forward "z" = failed := by
    have hsegment : (Inventory.ofPhonemes ["a", "b"]).segmenter.segment "z" =
        .error ⟨"z", 0, 'z'⟩ :=
      Inventory.segment_eq_error_of_head rfl (by simp [Inventory.mem_phonemes_ofPhonemes])
    exact hbuilt.isSound.resultOf_of_segment_error hsegment
  obtain ⟨fast, full, hfast, -, hwords, -, hcut, hprogress, -⟩ :=
    outcomes_runBatch_throughFailure hbuilt .forward plan hcount
  have hfull : full.outcomes = [⟨0, "ab", .derived "xx"⟩, ⟨1, "z", failed⟩,
      ⟨2, "b", session.resultOf .forward "b"⟩] := by
    rw [← hab, ← hz]
    exact hwords
  have houtcomes : fast.outcomes = [⟨0, "ab", .derived "xx"⟩, ⟨1, "z", failed⟩] := by
    rw [hcut, hfull]
    rfl
  refine ⟨⟨hbuilt, hcount⟩, fast, hfast, ?_, houtcomes, ?_⟩
  · rw [BatchResults.failures, BatchResults.processed, BatchResults.successes, houtcomes]
    rfl
  · rw [houtcomes] at hprogress
    exact hprogress

end Diachrony
