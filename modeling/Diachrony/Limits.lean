/-!
# Limits of the library

Every bound that a reader, the compiler, the reverser or the batch runner enforces.  They come
from the profile that the library is built with, so what reads a bound is defined for all of them.
-/

namespace Diachrony

class Limits where
  /-- Name of the profile the bounds come from. -/
  name : String
  /-- Largest input file, in bytes. -/
  fileSize : Nat
  /-- Longest line of a rule file, in characters. -/
  lineLength : Nat
  statements : Nat
  definitions : Nat
  /-- Deepest chain of variables that refer to each other. -/
  variableDepth : Nat
  /-- Most optional groups in one context side or one pattern line. -/
  optionalGroups : Nat
  rulesPerStatement : Nat
  phonemes : Nat
  patterns : Nat
  /-- Most words a reverser remembers the answer for. -/
  cachedWords : Nat
  workers : Nat
  wordsPerBatch : Nat
  recordedEvents : Nat
  /-- Longest message of an event, in characters. -/
  messageLength : Nat
  -- The build refuses a profile without these.
  fileSize_le : fileSize ≤ 1000000000
  optionalGroups_le : optionalGroups ≤ 20
  variableDepth_pos : 0 < variableDepth
  workers_pos : 0 < workers
  rulesPerStatement_le : name = "production" → rulesPerStatement ≤ 100000
  -- Without these no rule would compile and no event be kept; both profiles have them.
  statements_pos : 0 < statements
  rulesPerStatement_pos : 0 < rulesPerStatement
  recordedEvents_pos : 0 < recordedEvents

namespace Limits

/-- The profile of a build that names none. -/
instance development : Limits where
  name := "development"
  fileSize := 10485760
  lineLength := 65536
  statements := 100000
  definitions := 10000
  variableDepth := 64
  optionalGroups := 12
  rulesPerStatement := 100000
  phonemes := 10000
  patterns := 100000
  cachedWords := 100000
  workers := 32
  wordsPerBatch := 1000000
  recordedEvents := 10000
  messageLength := 4096
  fileSize_le := by decide
  optionalGroups_le := by decide
  variableDepth_pos := by decide
  workers_pos := by decide
  rulesPerStatement_le := by decide
  statements_pos := by decide
  rulesPerStatement_pos := by decide
  recordedEvents_pos := by decide

@[reducible]
def production : Limits where
  name := "production"
  fileSize := 4194304
  lineLength := 16384
  statements := 50000
  definitions := 5000
  variableDepth := 32
  optionalGroups := 10
  rulesPerStatement := 20000
  phonemes := 5000
  patterns := 50000
  cachedWords := 50000
  workers := 16
  wordsPerBatch := 500000
  recordedEvents := 5000
  messageLength := 2048
  fileSize_le := by decide
  optionalGroups_le := by decide
  variableDepth_pos := by decide
  workers_pos := by decide
  rulesPerStatement_le := by decide
  statements_pos := by decide
  rulesPerStatement_pos := by decide
  recordedEvents_pos := by decide

def profile [Limits] : String :=
  "Generated from config/" ++ name ++ ".toml"

/-- Whether the bounds on logging make sense: room for some hundred events and not for more
than a million, and for a line of text in a message. -/
def areValid [Limits] : Bool :=
  100 ≤ recordedEvents && recordedEvents ≤ 1000000 && 80 ≤ messageLength

theorem areValid_of_profile :
    ∀ limits ∈ [development, production], @areValid limits = true := by
  decide

end Limits

end Diachrony
