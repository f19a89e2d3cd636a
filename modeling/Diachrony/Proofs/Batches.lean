import Diachrony.Batch
import Diachrony.Proofs.CompiledRules
import Diachrony.Proofs.PassEnds
import Diachrony.Proofs.Recall

/-!
# Batches and single words

What a session makes of a word on its own is what a batch makes of it.  The chunks put together
are the words again, each with its place, however many workers share them; and what a worker
remembers from word to word makes no difference to its answers.
-/

namespace Diachrony

/-- The result for a word that has been answered; a failure is kept as its code and message. -/
def WordResult.ofAnswer {α : Type} (success : α → WordResult) : Except SessionError α → WordResult
  | .ok answer => success answer
  | .error error => .failed error.code error.message

/-! ## Sessions and single words -/

namespace Session

/-- The sessions there are: built from rules with inputs and two inventories, from texts or from
files, and perhaps used. -/
inductive IsBuilt [Limits] : Session → Prop where
  | ofParts {rules : List Rule} (hinput : ∀ rule ∈ rules, rule.input ≠ [])
      (source target : Inventory) (settings : ReverserSettings) :
      IsBuilt (ofParts rules source target settings)
  | ofTexts {compiler : CompilerSettings} {settings : ReverserSettings} {texts : SessionTexts}
      {session : Session} (h : ofTexts compiler settings texts = .ok session) : IsBuilt session
  | ofFiles {settings : Settings} {files : Files} {paths : Paths} {session : Session}
      (h : ofFiles settings files paths = .ok session) : IsBuilt session
  | reverse {session : Session} (h : IsBuilt session) (word : String) :
      IsBuilt (session.reverse word).2

/-- Whether a session derives with its own rules and inventories, and its rules have inputs. -/
structure IsSound (session : Session) : Prop where
  input_ne_nil : ∀ rule ∈ session.rules, rule.input ≠ []
  deriver_eq : session.deriver = Deriver.of session.rules session.source session.target

theorem isSound_of_ofTexts [Limits] {compiler : CompilerSettings} {settings : ReverserSettings}
    {texts : SessionTexts} {session : Session}
    (h : ofTexts compiler settings texts = .ok session) : session.IsSound := by
  obtain ⟨set, hset, h⟩ := bind_eq_ok.1 h
  obtain ⟨source, -, h⟩ := bind_eq_ok.1 h
  obtain ⟨target, -, h⟩ := bind_eq_ok.1 h
  cases h
  exact ⟨fun rule hrule => RuleText.input_ne_nil_of_compileText (mapError_eq_ok.1 hset) hrule, rfl⟩

theorem IsBuilt.isSound [Limits] {session : Session} (h : session.IsBuilt) : session.IsSound := by
  induction h with
  | ofParts hinput => exact ⟨hinput, rfl⟩
  | ofTexts h => exact isSound_of_ofTexts h
  | ofFiles h =>
      obtain ⟨texts, -, h⟩ := bind_eq_ok.1 h
      exact isSound_of_ofTexts h
  | reverse _ _ ih => exact ⟨ih.input_ne_nil, ih.deriver_eq⟩

/-- What a session makes of a word on its own; in reverse, with a reverser built for it. -/
def resultOf [Limits] (session : Session) : Direction → String → WordResult
  | .forward, word => .ofAnswer .derived (session.derive word)
  | .reverse, word =>
      let fresh :=
        Reverser.of session.rules session.source session.target session.reverserSettings
      .ofAnswer .reconstructed ((fresh.reverse word).1.mapError .segmentation)

/-- Whether working on a word on its own comes to an end, and with which result: in the forward
direction the passes of the rules have to end. -/
inductive Returns (session : Session) : Direction → String → WordResult → Prop where
  | derived {word : String} {tokens last : List Token}
      (htokens : session.source.segmenter.segment word = .ok tokens)
      (hruns : RunsThrough session.rules tokens last) :
      Returns session .forward word (.derived (spell last))
  | unsegmented {word : String} {failure : SegmentationError}
      (h : session.source.segmenter.segment word = .error failure) :
      Returns session .forward word (.ofError (.segmentation failure))
  | reversed {word : String} {answer : Except SegmentationError TokenSet}
      (h : (Reverser.of session.rules session.source session.target
        session.reverserSettings).reconstruct word = answer) :
      Returns session .reverse word (.ofAnswer .reconstructed (answer.mapError .segmentation))

namespace IsSound

variable {session : Session} (h : session.IsSound) {word : String}
include h

theorem resultOf_of_segment [Limits] {tokens : List Token}
    (htokens : session.source.segmenter.segment word = .ok tokens) :
    session.resultOf .forward word = .derived (spell (applyRules session.rules tokens)) := by
  have hsegment : session.deriver.source.segment word = .ok tokens := by rwa [h.deriver_eq]
  rw [resultOf, derive, Deriver.derive, hsegment, h.deriver_eq]
  rfl

theorem resultOf_of_segment_error [Limits] {failure : SegmentationError}
    (hfailure : session.source.segmenter.segment word = .error failure) :
    session.resultOf .forward word = .ofError (.segmentation failure) := by
  have hsegment : session.deriver.source.segment word = .error failure := by rwa [h.deriver_eq]
  rw [resultOf, derive, Deriver.derive, hsegment]
  rfl

/-- What a session makes of a word on its own is what working on the word comes to, and it comes
to an end. -/
theorem returns_iff [Limits] {direction : Direction} {result : WordResult} :
    session.Returns direction word result ↔ result = session.resultOf direction word := by
  cases direction with
  | forward =>
      constructor
      · intro hreturns
        cases hreturns with
        | derived htokens hruns => rw [h.resultOf_of_segment htokens, hruns.eq_applyRules]
        | unsegmented hfailure => rw [h.resultOf_of_segment_error hfailure]
      · rintro rfl
        cases hsegment : session.source.segmenter.segment word with
        | error failure =>
            rw [h.resultOf_of_segment_error hsegment]
            exact .unsegmented hsegment
        | ok tokens =>
            rw [h.resultOf_of_segment hsegment]
            exact .derived hsegment (runsThrough_applyRules h.input_ne_nil tokens)
  | reverse =>
      have hfresh : (Reverser.of session.rules session.source session.target
          session.reverserSettings).IsFaithful := Reverser.isFaithful_of _ _ _ _
      rw [resultOf, hfresh.reverse_eq_reconstruct]
      constructor
      · intro hreturns
        cases hreturns with
        | reversed hanswer => rw [hanswer]
      · rintro rfl
        exact .reversed rfl

end IsSound

def outcomesFrom [Limits] (session : Session) (direction : Direction) (start : Nat)
    (words : List String) : List WordOutcome :=
  (words.zipIdx start).map fun (word, index) => ⟨index, word, session.resultOf direction word⟩

theorem outcomesFrom_cons [Limits] (session : Session) (direction : Direction) (start : Nat)
    (word : String) (words : List String) :
    session.outcomesFrom direction start (word :: words) =
      ⟨start, word, session.resultOf direction word⟩ ::
        session.outcomesFrom direction (start + 1) words := by
  simp [outcomesFrom, List.zipIdx_cons]

end Session

/-! ## Progress -/

namespace Progress

def recordAll (failFast : Bool) (progress : Progress) (outcomes : List WordOutcome) : Progress :=
  outcomes.foldl (record failFast) progress

/-- The outcomes are counted, and a batch that is to stop at failures stops at one of them. -/
theorem recordAll_eq (failFast : Bool) (progress : Progress) (outcomes : List WordOutcome) :
    progress.recordAll failFast outcomes =
      ⟨progress.done + outcomes.length,
        progress.stop || failFast && outcomes.any (!·.isSuccess)⟩ := by
  induction outcomes generalizing progress with
  | nil => simp [recordAll]
  | cons outcome outcomes ih =>
      have hstep : progress.recordAll failFast (outcome :: outcomes) =
          (progress.record failFast outcome).recordAll failFast outcomes := rfl
      rw [hstep, ih, record, List.length_cons, List.any_cons, Bool.and_or_distrib_left,
        Bool.or_assoc, Nat.add_assoc, Nat.add_comm 1]

end Progress

/-- The outcomes that are given before the batch stops: with `failFast`, those up to the first
failure. -/
def untilStop (failFast : Bool) : List WordOutcome → List WordOutcome
  | [] => []
  | outcome :: outcomes =>
      outcome :: if failFast && !outcome.isSuccess then [] else untilStop failFast outcomes

theorem untilStop_false (outcomes : List WordOutcome) : untilStop false outcomes = outcomes := by
  induction outcomes with
  | nil => rfl
  | cons outcome outcomes ih => rw [untilStop, ih]; rfl

/-! ## One worker -/

namespace Worker

/-- Whether a worker works for a session: one that reverses may remember what it has found. -/
inductive WorksFor [Limits] (session : Session) : Direction → Worker → Prop where
  | forward : WorksFor session .forward (.forward session)
  | reverse {reverser : Reverser} (hsame : reverser.forget = session.newReverser)
      (hfaithful : reverser.IsFaithful) : WorksFor session .reverse (.reverse reverser)

variable {session : Session} {direction : Direction} {worker : Worker}

theorem worksFor_of [Limits] (session : Session) (direction : Direction) :
    WorksFor session direction (Worker.of session direction) := by
  cases direction with
  | forward => exact .forward
  | reverse => exact .reverse rfl (Reverser.isFaithful_of _ _ _ _)

theorem work_forward [Limits] (session : Session) (word : String) :
    (Worker.forward session).work word =
      (.ofAnswer .derived (session.derive word), .forward session) := by
  simp only [Worker.work]
  cases session.derive word with
  | error failure => rfl
  | ok output => rfl

theorem work_reverse [Limits] (reverser : Reverser) (word : String) :
    (Worker.reverse reverser).work word =
      (.ofAnswer .reconstructed ((reverser.reverse word).1.mapError .segmentation),
        .reverse (reverser.reverse word).2) := by
  simp only [Worker.work]
  rcases reverser.reverse word with ⟨failure | sources, next⟩
  · rfl
  · rfl

/-- A worker makes of a word what the session makes of it, and goes on working for it. -/
theorem WorksFor.work [Limits] (h : WorksFor session direction worker) (word : String) :
    (worker.work word).1 = session.resultOf direction word ∧
      WorksFor session direction (worker.work word).2 := by
  cases h with
  | forward =>
      rw [work_forward]
      exact ⟨rfl, .forward⟩
  | @reverse reverser hsame hfaithful =>
      have hfresh : session.newReverser.IsFaithful := hsame ▸ Reverser.isFaithful_forget reverser
      have hanswer : (session.newReverser.reverse word).1 = (reverser.reverse word).1 := by
        rw [hfresh.reverse_eq_reconstruct, ← hsame, Reverser.reconstruct_forget,
          hfaithful.reverse_eq_reconstruct]
      rw [work_reverse, ← hanswer]
      exact ⟨rfl, .reverse ((reverser.forget_reverse word).trans hsame) (hfaithful.reverse word)⟩

theorem workAll_of_stop [Limits] (failFast : Bool) {progress : Progress}
    (hstop : progress.stop = true) (start : Nat) (outcomes : List WordOutcome)
    (words : List String) :
    worker.workAll failFast progress start outcomes words = (outcomes.reverse, progress) := by
  cases words with
  | nil => rfl
  | cons word words => rw [workAll, hstop, if_pos rfl]

theorem workAll_cons [Limits] (failFast : Bool) {progress : Progress}
    (hgoes : progress.stop = false) (start : Nat) (outcomes : List WordOutcome) (word : String)
    (words : List String) :
    worker.workAll failFast progress start outcomes (word :: words) =
      (worker.work word).2.workAll failFast
        (progress.record failFast ⟨start, word, (worker.work word).1⟩) (start + 1)
        (⟨start, word, (worker.work word).1⟩ :: outcomes) words := by
  rw [workAll, hgoes]
  rfl

/-- A worker gives and records the outcomes of its words until the batch stops: the flag that one
word sets is seen before the next. -/
theorem WorksFor.workAll [Limits] (h : WorksFor session direction worker) (failFast : Bool)
    {progress : Progress} (hgoes : progress.stop = false) (start : Nat)
    (outcomes : List WordOutcome) (words : List String) :
    worker.workAll failFast progress start outcomes words =
      (outcomes.reverse ++ untilStop failFast (session.outcomesFrom direction start words),
        progress.recordAll failFast
          (untilStop failFast (session.outcomesFrom direction start words))) := by
  induction words generalizing worker progress start outcomes with
  | nil => simp [Worker.workAll, Session.outcomesFrom, untilStop, Progress.recordAll]
  | cons word words ih =>
      obtain ⟨hresult, hnext⟩ := h.work word
      rw [workAll_cons failFast hgoes, hresult, Session.outcomesFrom_cons, untilStop]
      generalize houtcome : (⟨start, word, session.resultOf direction word⟩ : WordOutcome) = outcome
      have hflag : (progress.record failFast outcome).stop = (failFast && !outcome.isSuccess) := by
        rw [Progress.record, hgoes, Bool.false_or]
      cases hstop : failFast && !outcome.isSuccess with
      | true =>
          rw [workAll_of_stop failFast (hflag.trans hstop), List.reverse_cons, if_pos rfl]
          rfl
      | false =>
          rw [ih hnext (hflag.trans hstop), List.reverse_cons, List.append_assoc, if_neg (by simp)]
          rfl

end Worker

/-! ## All the chunks -/

theorem flatMap_zipIdx_chunksFrom {α : Type} {size : Nat} (hsize : 0 < size) {fuel : Nat}
    {start : Nat} {elements : List α} (hfuel : elements.length ≤ fuel) :
    ((chunksFrom size fuel start elements).flatMap fun (first, chunk) => chunk.zipIdx first) =
      elements.zipIdx start := by
  induction fuel generalizing start elements with
  | zero =>
      rw [List.eq_nil_of_length_eq_zero (Nat.le_zero.1 hfuel)]
      rfl
  | succ fuel ih =>
      cases elements with
      | nil => rfl
      | cons element elements =>
          have hshort : ((element :: elements).drop size).length ≤ fuel := by
            rw [List.length_drop]
            omega
          have hplace : ((element :: elements).drop size).zipIdx (start + size) =
              ((element :: elements).drop size).zipIdx
                (start + ((element :: elements).take size).length) := by
            rcases Nat.le_total size (element :: elements).length with hle | hge
            · rw [List.length_take_of_le hle]
            · rw [List.drop_eq_nil_of_le hge]
              rfl
          have hcons : chunksFrom size (fuel + 1) start (element :: elements) =
              (start, (element :: elements).take size) ::
                chunksFrom size fuel (start + size) ((element :: elements).drop size) := rfl
          rw [hcons, List.flatMap_cons, ih hshort, hplace, ← List.zipIdx_append,
            List.take_append_drop]

theorem workChunks_eq [Limits] (session : Session) (direction : Direction) {progress : Progress}
    (hgoes : progress.stop = false) (chunks : List (Nat × List String)) :
    (workChunks session direction false progress chunks).1 =
      chunks.flatMap fun (start, words) => session.outcomesFrom direction start words := by
  induction chunks generalizing progress with
  | nil => rfl
  | cons chunk chunks ih =>
      obtain ⟨start, words⟩ := chunk
      have hchunk := (Worker.worksFor_of session direction).workAll false hgoes start [] words
      rw [List.reverse_nil, List.nil_append, untilStop_false] at hchunk
      have hnext : (progress.recordAll false
          (session.outcomesFrom direction start words)).stop = false := by
        rw [Progress.recordAll_eq, hgoes, Bool.false_and, Bool.or_false]
      simp only [workChunks, hchunk, ih hnext, List.flatMap_cons]

theorem flatMap_batchChunks [Limits] (session : Session) (direction : Direction) (plan : BatchPlan)
    (words : List String) :
    ((batchChunks plan words).flatMap fun (start, words) =>
      session.outcomesFrom direction start words) = session.outcomesFrom direction 0 words := by
  have hsize : 0 < max ((words.length + workersFor plan words - 1) / workersFor plan words) 1 :=
    Nat.lt_of_lt_of_le Nat.one_pos (Nat.le_max_right _ 1)
  have hchunks : ((batchChunks plan words).flatMap fun (first, chunk) => chunk.zipIdx first) =
      words.zipIdx := flatMap_zipIdx_chunksFrom hsize (Nat.le_succ words.length)
  rw [Session.outcomesFrom, ← hchunks, List.map_flatMap]
  rfl

/-- However the words are shared out, the outcomes of a batch that goes on are those of all the
words. -/
theorem workBatch_eq [Limits] (session : Session) (direction : Direction) {plan : BatchPlan}
    (hslow : plan.failFast = false) (words : List String) :
    (workBatch session plan direction words).1 = session.outcomesFrom direction 0 words := by
  rw [workBatch, hslow]
  split
  · rw [(Worker.worksFor_of session direction).workAll false rfl, untilStop_false]
    rfl
  · rw [workChunks_eq session direction rfl, flatMap_batchChunks]

theorem runBatch_eq [Limits] (session : Session) (plan : BatchPlan) (direction : Direction)
    {words : List String} (hcount : words.length ≤ Limits.wordsPerBatch) :
    runBatch session plan direction words =
      .ok ⟨direction, (workBatch session plan direction words).1, words.length,
        workersFor plan words⟩ :=
  if_neg (Nat.not_lt.2 hcount)

end Diachrony
