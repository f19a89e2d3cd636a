import Mathlib.Logic.Relation
import Diachrony.Proofs.Batches
import Diachrony.Proofs.LongestMatch

/-!
# Workers side by side

The workers of a batch take turns in any order, each with its own chunk of the words and all with
one record of their progress.  As long as no failure stops the batch, what a worker has given
together with what its words come to is the same after every turn, so the outcomes at the end do
not depend on the order of the turns, nor on how many workers there are.
-/

namespace Diachrony

structure ChunkRun where
  worker : Worker
  /-- The place of the first word that is left. -/
  index : Nat
  outcomes : List WordOutcome
  words : List String

/-- What the worker of a chunk does next: it stops with the batch, or it works on one word. -/
def ChunkRun.turn? [Limits] (failFast : Bool) (progress : Progress) (run : ChunkRun) :
    Option (Progress × ChunkRun) :=
  match run.words with
  | [] => none
  | word :: rest =>
      if progress.stop then some (progress, { run with words := [] })
      else
        let (result, next) := run.worker.work word
        let outcome := ⟨run.index, word, result⟩
        some (progress.record failFast outcome,
          ⟨next, run.index + 1, run.outcomes ++ [outcome], rest⟩)

structure BatchRun where
  progress : Progress
  chunks : List ChunkRun

namespace BatchRun

def start (session : Session) (direction : Direction) (chunks : List (Nat × List String)) :
    BatchRun :=
  ⟨.start, chunks.map fun (index, words) => ⟨Worker.of session direction, index, [], words⟩⟩

/-- Whether one run of a batch leads to another by a turn of one of its workers. -/
inductive Turn [Limits] (failFast : Bool) : BatchRun → BatchRun → Prop where
  | turn {progress next : Progress} {before after : List ChunkRun} {chunk done : ChunkRun}
      (h : chunk.turn? failFast progress = some (next, done)) :
      Turn failFast ⟨progress, before ++ chunk :: after⟩ ⟨next, before ++ done :: after⟩

def outcomes (run : BatchRun) : List WordOutcome :=
  run.chunks.flatMap ChunkRun.outcomes

def IsFinished (run : BatchRun) : Prop :=
  ∀ chunk ∈ run.chunks, chunk.words = []

/-! ## One turn -/

/-- Whether a run goes on without stopping, with workers that work for a session. -/
structure GoesOn [Limits] (session : Session) (direction : Direction) (run : BatchRun) : Prop where
  stop : run.progress.stop = false
  worksFor : ∀ chunk ∈ run.chunks, Worker.WorksFor session direction chunk.worker

/-- What a run has given and what the words that are left come to. -/
def expected [Limits] (session : Session) (direction : Direction) (run : BatchRun) :
    List WordOutcome :=
  run.chunks.flatMap fun chunk =>
    chunk.outcomes ++ session.outcomesFrom direction chunk.index chunk.words

def wordsLeft (run : BatchRun) : Nat :=
  (run.chunks.map fun chunk => chunk.words.length).sum

variable {session : Session} {direction : Direction} {run next : BatchRun}

theorem goesOn_start [Limits] (session : Session) (direction : Direction)
    (chunks : List (Nat × List String)) :
    (start session direction chunks).GoesOn session direction := by
  refine ⟨rfl, fun chunk hchunk => ?_⟩
  obtain ⟨⟨index, words⟩, -, rfl⟩ := List.mem_map.1 hchunk
  exact Worker.worksFor_of session direction

theorem expected_start [Limits] (session : Session) (direction : Direction)
    (chunks : List (Nat × List String)) :
    (start session direction chunks).expected session direction =
      chunks.flatMap fun (index, words) => session.outcomesFrom direction index words := by
  rw [expected, start, List.flatMap_map]
  rfl

theorem expected_of_isFinished [Limits] (h : run.IsFinished) :
    run.expected session direction = run.outcomes := by
  refine List.flatMap_congr fun chunk hchunk => ?_
  rw [h chunk hchunk]
  exact List.append_nil _

theorem turn?_cases [Limits] {progress nextProgress : Progress} {chunk done : ChunkRun}
    (hgoes : progress.stop = false) (hworks : Worker.WorksFor session direction chunk.worker)
    (h : chunk.turn? false progress = some (nextProgress, done)) :
    nextProgress.stop = false ∧ Worker.WorksFor session direction done.worker ∧
      ∃ word, chunk.words = word :: done.words ∧ done.index = chunk.index + 1 ∧
        done.outcomes = chunk.outcomes ++
          [⟨chunk.index, word, session.resultOf direction word⟩] := by
  unfold ChunkRun.turn? at h
  split at h
  · cases h
  · rename_i word rest hwords
    obtain ⟨hresult, hnext⟩ := hworks.work word
    rw [if_neg (by simp [hgoes]), Option.some.injEq, Prod.mk.injEq] at h
    obtain ⟨rfl, rfl⟩ := h
    refine ⟨?_, hnext, word, hwords, rfl, ?_⟩
    · simp [Progress.record, hgoes]
    · dsimp only
      rw [hresult]

/-- A turn leaves what is expected as it is, and there is one word less to work on. -/
theorem Turn.spec [Limits] (h : Turn false run next) (hgoes : run.GoesOn session direction) :
    next.GoesOn session direction ∧
      next.expected session direction = run.expected session direction ∧
      next.wordsLeft < run.wordsLeft := by
  cases h with
  | @turn progress nextProgress before after chunk done hturn =>
      obtain ⟨hstop, hworks⟩ := hgoes
      obtain ⟨hnextStop, hnextWorks, word, hwords, hindex, houtcomes⟩ :=
        turn?_cases hstop (hworks chunk (by simp)) hturn
      refine ⟨⟨hnextStop, fun other hother => ?_⟩, ?_, ?_⟩
      · rcases List.mem_append.1 hother with hbefore | hafter
        · exact hworks other (List.mem_append_left _ hbefore)
        · rcases List.mem_cons.1 hafter with rfl | hafter
          · exact hnextWorks
          · exact hworks other (List.mem_append_right _ (List.mem_cons_of_mem _ hafter))
      · simp only [expected, List.flatMap_append, List.flatMap_cons, hwords, hindex, houtcomes,
          Session.outcomesFrom_cons, List.append_assoc, List.singleton_append]
      · simp only [wordsLeft, List.map_append, List.map_cons, List.sum_append, List.sum_cons,
          hwords, List.length_cons]
        omega

theorem exists_turn [Limits] (h : ¬ run.IsFinished) : ∃ next, Turn false run next := by
  obtain ⟨chunk, hchunk, hwords⟩ : ∃ chunk ∈ run.chunks, chunk.words ≠ [] := by
    simpa [IsFinished] using h
  obtain ⟨before, after, hchunks⟩ := List.append_of_mem hchunk
  obtain ⟨word, rest, hcons⟩ := List.exists_cons_of_ne_nil hwords
  obtain ⟨result, hresult⟩ : ∃ result, chunk.turn? false run.progress = some result := by
    unfold ChunkRun.turn?
    rw [hcons]
    dsimp only
    split <;> exact ⟨_, rfl⟩
  refine ⟨⟨result.1, before ++ result.2 :: after⟩, ?_⟩
  have hturn : Turn false ⟨run.progress, before ++ chunk :: after⟩ _ := .turn hresult
  rwa [← hchunks] at hturn

/-! ## All the turns -/

theorem GoesOn.of_turns [Limits] (hgoes : run.GoesOn session direction)
    (hturns : Relation.ReflTransGen (Turn false) run next) :
    next.GoesOn session direction ∧
      next.expected session direction = run.expected session direction := by
  induction hturns with
  | refl => exact ⟨hgoes, rfl⟩
  | tail _ hturn ih =>
      obtain ⟨hgoes, hsame, -⟩ := hturn.spec ih.1
      exact ⟨hgoes, hsame.trans ih.2⟩

/-- Turns come to an end, whoever takes them. -/
theorem exists_isFinished [Limits] (hgoes : run.GoesOn session direction) :
    ∃ last, Relation.ReflTransGen (Turn false) run last ∧ last.IsFinished := by
  induction hleft : run.wordsLeft using Nat.strong_induction_on generalizing run with
  | _ left ih =>
      by_cases hfinished : run.IsFinished
      · exact ⟨run, .refl, hfinished⟩
      · obtain ⟨next, hturn⟩ := exists_turn hfinished
        obtain ⟨hnext, -, hless⟩ := hturn.spec hgoes
        obtain ⟨last, hlast, hend⟩ := ih _ (hleft ▸ hless) hnext rfl
        exact ⟨last, .head hturn hlast, hend⟩

end BatchRun

/-- A batch that does not stop at failures gives one outcome for each word, in order: what the
session makes of the word on its own, which working on it comes to.  So the number of workers makes
no difference to it, nor does the order in which they take their turns. -/
theorem outcomes_runBatch [Limits] {session : Session} (hbuilt : session.IsBuilt)
    (direction : Direction) {plan : BatchPlan} (hslow : plan.failFast = false) {words : List String}
    (hcount : words.length ≤ Limits.wordsPerBatch) :
    ∃ results, runBatch session plan direction words = .ok results ∧
      results.outcomes = words.mapIdx (fun index word =>
        ⟨index, word, session.resultOf direction word⟩) ∧
      (∀ word ∈ words, session.Returns direction word (session.resultOf direction word)) ∧
      ∀ workers,
        (runBatch session { plan with workers } direction words).map BatchResults.outcomes =
            .ok results.outcomes ∧
          let start := BatchRun.start session direction (batchChunks { plan with workers } words)
          (∃ last, Relation.ReflTransGen (BatchRun.Turn false) start last ∧ last.IsFinished) ∧
            ∀ last, Relation.ReflTransGen (BatchRun.Turn false) start last → last.IsFinished →
              last.outcomes = results.outcomes := by
  refine ⟨_, runBatch_eq session plan direction hcount, ?_,
    fun word _ => hbuilt.isSound.returns_iff.2 rfl, fun workers => ⟨?_, ?_⟩⟩
  · rw [workBatch_eq session direction hslow, Session.outcomesFrom, List.mapIdx_eq_zipIdx_map]
  · have hsame : (workBatch session { plan with workers } direction words).1 =
        (workBatch session plan direction words).1 :=
      (workBatch_eq session direction (show ({ plan with workers } : BatchPlan).failFast = false
        from hslow) words).trans (workBatch_eq session direction hslow words).symm
    rw [runBatch_eq session _ direction hcount, Except.map, hsame]
  · have hgoes := BatchRun.goesOn_start session direction (batchChunks { plan with workers } words)
    refine ⟨BatchRun.exists_isFinished hgoes, fun last hlast hfinished => ?_⟩
    obtain ⟨-, hexpected⟩ := hgoes.of_turns hlast
    rw [BatchRun.expected_of_isFinished hfinished, BatchRun.expected_start,
      flatMap_batchChunks] at hexpected
    rw [hexpected, workBatch_eq session direction hslow]

/-- Three workers and one under `a > x` and `b > x`: the chunks have two words each, one word comes
twice in different chunks, and one has no segmentation. -/
theorem outcomes_runBatch_abzb :
    let session := Session.ofParts
      [⟨["a"], ["x"], none, none, 1⟩, ⟨["b"], ["x"], none, none, 2⟩]
      (Inventory.ofPhonemes ["a", "b"]) (Inventory.ofPhonemes ["x"]) Settings.default.reverser
    let plan : BatchPlan := ⟨3, false, Settings.default.batch⟩
    let words := ["ab", "z", "b", "ab"]
    let failed := WordResult.failed "E050" ("Tokenization failed: Cannot tokenize 'z': " ++
      "no phoneme matches 'z' at position 0")
    (session.IsBuilt ∧ plan.failFast = false ∧ words.length ≤ Limits.wordsPerBatch) ∧
      (∃ results, runBatch session plan .forward words = .ok results ∧
        results.outcomes = [⟨0, "ab", .derived "xx"⟩, ⟨1, "z", failed⟩, ⟨2, "b", .derived "x"⟩,
          ⟨3, "ab", .derived "xx"⟩] ∧
        (runBatch session { plan with workers := 1 } .forward words).map BatchResults.outcomes =
          .ok results.outcomes) ∧
      ∃ results, runBatch session plan .reverse ["xx", "z", "x", "xx"] = .ok results ∧
        results.outcomes = [⟨0, "xx", session.resultOf .reverse "xx"⟩, ⟨1, "z", failed⟩,
          ⟨2, "x", session.resultOf .reverse "x"⟩, ⟨3, "xx", session.resultOf .reverse "xx"⟩] := by
  intro session plan words failed
  have hbuilt : session.IsBuilt := .ofParts (by decide) _ _ _
  have hcount : words.length ≤ Limits.wordsPerBatch := by decide
  have hab : session.resultOf .forward "ab" = .derived "xx" :=
    hbuilt.isSound.resultOf_of_segment (Inventory.segment_ofPhonemes (by decide) (by simp))
  have hb : session.resultOf .forward "b" = .derived "x" :=
    hbuilt.isSound.resultOf_of_segment (Inventory.segment_ofPhonemes (by decide) (by simp))
  have hz : session.resultOf .forward "z" = failed := by
    have hsegment : (Inventory.ofPhonemes ["a", "b"]).segmenter.segment "z" =
        .error ⟨"z", 0, 'z'⟩ :=
      Inventory.segment_eq_error_of_head rfl (by simp [Inventory.mem_phonemes_ofPhonemes])
    exact hbuilt.isSound.resultOf_of_segment_error hsegment
  have hlost : session.resultOf .reverse "z" = failed := by
    have hsegment : (Inventory.ofPhonemes ["x"]).segmenter.segment "z" =
        .error ⟨"z", 0, 'z'⟩ :=
      Inventory.segment_eq_error_of_head rfl (by simp [Inventory.mem_phonemes_ofPhonemes])
    have hanswer : ((Reverser.of session.rules session.source session.target
        session.reverserSettings).reverse "z").1 = .error ⟨"z", 0, 'z'⟩ :=
      Reverser.reverse_of_segment_error hsegment
    rw [Session.resultOf, hanswer]
    rfl
  obtain ⟨results, hresults, houtcomes, -, hworkers⟩ :=
    @outcomes_runBatch _ session hbuilt .forward plan rfl words hcount
  obtain ⟨sources, hsources, hfound, -⟩ :=
    @outcomes_runBatch _ session hbuilt .reverse plan rfl ["xx", "z", "x", "xx"] (by decide)
  refine ⟨⟨hbuilt, rfl, hcount⟩, ⟨results, hresults, ?_, (hworkers 1).1⟩, sources, hsources, ?_⟩
  · rw [← hab, ← hb, ← hz]
    exact houtcomes
  · rw [← hlost]
    exact hfound

end Diachrony
