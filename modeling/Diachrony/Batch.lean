import Diachrony.Binary64
import Diachrony.Session

/-!
# Batches of words

A batch works on a list of words in one direction.  The words are split into contiguous
chunks, one per worker; a worker that reverses remembers its own answers only.  The outcomes
come in the order of the words.
-/

namespace Diachrony

inductive Direction where
  | forward
  | reverse
  deriving DecidableEq, Repr

namespace Direction

def name : Direction → String
  | forward => "Forward"
  | reverse => "Reverse"

def key : Direction → String
  | forward => "forward"
  | reverse => "reverse"

end Direction

structure BatchPlan where
  /-- Most workers at once. -/
  workers : Nat
  failFast : Bool
  settings : BatchSettings
  deriving DecidableEq, Repr

def BatchPlan.clampWorkers [Limits] (workers : Nat) : Nat :=
  min (max workers 1) Limits.workers

inductive WordResult where
  | derived (output : String)
  | reconstructed (sources : TokenSet)
  | failed (code : Code) (message : String)
  deriving DecidableEq, Repr

namespace WordResult

def isSuccess : WordResult → Bool
  | failed _ _ => false
  | _ => true

def ofError (error : SessionError) : WordResult :=
  failed error.code error.message

end WordResult

structure WordOutcome where
  index : Nat
  word : String
  result : WordResult
  deriving DecidableEq, Repr

def WordOutcome.isSuccess (outcome : WordOutcome) : Bool :=
  outcome.result.isSuccess

structure BatchResults where
  direction : Direction
  outcomes : List WordOutcome
  submitted : Nat
  workersUsed : Nat
  deriving DecidableEq, Repr

namespace BatchResults

def processed (results : BatchResults) : Nat :=
  results.outcomes.length

def successes (results : BatchResults) : Nat :=
  (results.outcomes.filter WordOutcome.isSuccess).length

def failures (results : BatchResults) : Nat :=
  results.processed - results.successes

/-- The share of successes in percent; zero if nothing was worked on. -/
def successPercentage (results : BatchResults) : Fraction :=
  if results.outcomes.isEmpty then ⟨0, 1⟩
  else (Fraction.toDouble ⟨results.successes, results.processed⟩).mulDouble ⟨100, 1⟩

def seconds (milliseconds : Nat) : Fraction :=
  Fraction.addDouble (Fraction.toDouble ⟨milliseconds / 1000, 1⟩)
    (Fraction.toDouble ⟨milliseconds % 1000, 1000⟩)

def summary (results : BatchResults) (milliseconds : Nat) : String :=
  let count (n : Nat) := toString n
  "Batch processing completed: " ++ count results.processed ++ " of " ++
    count results.submitted ++ " words processed, " ++ count results.successes ++
    " successful (" ++ results.successPercentage.toFixed 1 ++ "%), " ++
    count results.failures ++ " failed, " ++ (seconds milliseconds).toFixed 2 ++ "s total"

end BatchResults

inductive BatchError where
  | tooManyWords (count limit : Nat)
  deriving DecidableEq, Repr

namespace BatchError

def message : BatchError → String
  | tooManyWords count limit => s!"Too many words: {count} (max: {limit})"

def code : BatchError → Code
  | tooManyWords _ _ => Code.tooManyWords

end BatchError

/-- What the workers of a batch share: how many words they have done, and whether to stop. -/
structure Progress where
  done : Nat
  stop : Bool
  deriving DecidableEq, Repr

namespace Progress

def start : Progress :=
  ⟨0, false⟩

/-- Count an outcome; with `failFast` a failure stops the batch. -/
def record (failFast : Bool) (progress : Progress) (outcome : WordOutcome) : Progress :=
  ⟨progress.done + 1, progress.stop || failFast && !outcome.isSuccess⟩

end Progress

inductive Worker where
  | forward (session : Session)
  | reverse (reverser : Reverser)

namespace Worker

def of (session : Session) : Direction → Worker
  | .forward => forward session
  | .reverse => reverse session.newReverser

def work [Limits] : Worker → String → WordResult × Worker
  | forward session, word =>
      match session.derive word with
      | .ok output => (.derived output, forward session)
      | .error error => (.ofError error, forward session)
  | reverse reverser, word =>
      match reverser.reverse word with
      | (.ok sources, reverser) => (.reconstructed sources, reverse reverser)
      | (.error error, reverser) => (.ofError (.segmentation error), reverse reverser)

def workEvents [Limits] : Worker → String → List Event
  | forward session, word => session.deriver.deriveEvents word
  | reverse reverser, word => reverser.reverseEvents word

/-- Work on a chunk of words, the first of which stands at `index`, until the batch is to stop;
`outcomes` is reversed. -/
def workAll [Limits] (failFast : Bool) :
    Progress → Worker → Nat → List WordOutcome → List String → List WordOutcome × Progress
  | progress, _, _, outcomes, [] => (outcomes.reverse, progress)
  | progress, worker, index, outcomes, word :: rest =>
      if progress.stop then (outcomes.reverse, progress)
      else
        let (result, next) := worker.work word
        let outcome := ⟨index, word, result⟩
        workAll failFast (progress.record failFast outcome) next (index + 1)
          (outcome :: outcomes) rest

end Worker

/-- A list cut into chunks of a size, with the place of the first element of each. -/
def chunksFrom {α : Type} (size : Nat) : Nat → Nat → List α → List (Nat × List α)
  | 0, _, _ => []
  | _ + 1, _, [] => []
  | fuel + 1, start, elements =>
      (start, elements.take size) :: chunksFrom size fuel (start + size) (elements.drop size)

/-- Number of workers a batch uses: no more than it has words. -/
def workersFor [Limits] (plan : BatchPlan) (words : List String) : Nat :=
  min (BatchPlan.clampWorkers plan.workers) (max words.length 1)

/-- The chunks of a batch.  Rounding the size up can leave fewer chunks than workers. -/
def batchChunks [Limits] (plan : BatchPlan) (words : List String) : List (Nat × List String) :=
  let workers := workersFor plan words
  let size := max ((words.length + workers - 1) / workers) 1
  chunksFrom size (words.length + 1) 0 words

/-- Work on chunks one after another, each with a worker of its own. -/
def workChunks [Limits] (session : Session) (direction : Direction) (failFast : Bool) :
    Progress → List (Nat × List String) → List WordOutcome × Progress
  | progress, [] => ([], progress)
  | progress, (start, words) :: rest =>
      let (outcomes, progress) :=
        (Worker.of session direction).workAll failFast progress start [] words
      let (later, progress) := workChunks session direction failFast progress rest
      (outcomes ++ later, progress)

/-- Work on words as a batch: one worker takes all of them, several take a chunk each. -/
def workBatch [Limits] (session : Session) (plan : BatchPlan) (direction : Direction)
    (words : List String) : List WordOutcome × Progress :=
  if workersFor plan words = 1 then
    (Worker.of session direction).workAll plan.failFast .start 0 [] words
  else workChunks session direction plan.failFast .start (batchChunks plan words)

def runBatch [Limits] (session : Session) (plan : BatchPlan) (direction : Direction)
    (words : List String) : Except BatchError BatchResults :=
  if words.length > Limits.wordsPerBatch then
    .error (.tooManyWords words.length Limits.wordsPerBatch)
  else
    .ok
      { direction
        outcomes := (workBatch session plan direction words).1
        submitted := words.length
        workersUsed := workersFor plan words }

/-! ## Events -/

def progressEvents [Limits] (settings : BatchSettings) (total processed : Nat) : List Event :=
  if settings.reportProgress && processed % max settings.progressInterval 1 == 0 then
    [Event.info "Batch progress" [("processed", toString processed), ("total", toString total)]]
  else []

def chunkEvents [Limits] (plan : BatchPlan) (total : Nat) :
    Progress → Worker → List Event → List WordOutcome → List Event
  | _, _, earlier, [] => earlier
  | progress, worker, earlier, outcome :: rest =>
      let progress := progress.record plan.failFast outcome
      let reported := worker.workEvents outcome.word ++
        progressEvents plan.settings total progress.done
      chunkEvents plan total progress (worker.work outcome.word).2 (reported.reverse ++ earlier)
        rest

def batchEvents [Limits] (session : Session) (plan : BatchPlan) (direction : Direction)
    (words : List String) : List Event :=
  match runBatch session plan direction words with
  | .error error => [Event.error error.code error.message []]
  | .ok results =>
      let chunks := batchChunks plan words
      let worked := chunks.map fun (start, chunk) =>
        (start, results.outcomes.filter fun outcome =>
          start ≤ outcome.index && outcome.index < start + chunk.length)
      let work := worked.flatMap fun (start, outcomes) =>
        (chunkEvents plan words.length ⟨start, false⟩ (Worker.of session direction) []
          outcomes).reverse
      [Event.info "Starting batch processing"
        [("words", toString words.length), ("direction", direction.name),
         ("threads", toString results.workersUsed)]] ++
        work ++
        (if plan.failFast && (workBatch session plan direction words).2.stop then
          [Event.warning "Fail-fast mode enabled, stopped after first failure"
            [("processed", toString results.processed), ("submitted", toString words.length)]]
          else []) ++
        [Event.success Code.batchCompleted "Batch processing completed"
          [("processed", toString results.processed),
           ("successful", toString results.successes),
           ("failed", toString results.failures),
           ("threads_used", toString results.workersUsed)]]

end Diachrony
