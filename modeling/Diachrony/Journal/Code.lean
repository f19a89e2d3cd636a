/-!
# Codes of events

Every error and every completed activity has a short code.  The registry says of each error
code what went wrong, how bad it is, whether work can go on and what to do about it; the
first letter of any other code tells its category.
-/

namespace Diachrony

/-- The code of an event, such as `E020`. -/
abbrev Code := String

namespace Code

/-! ## Error codes -/

def internalError : Code := "ERR001"
def fileNotFound : Code := "E005"
def fileTooLarge : Code := "E007"
def invalidEncoding : Code := "E010"
def fileUnreadable : Code := "E011"
def malformedRule : Code := "E020"
def emptySource : Code := "E021"
def classTargetWithoutClassSource : Code := "E022"
def pairedClassArity : Code := "E023"
def emptyClass : Code := "E024"
def unbalancedGroup : Code := "E025"
def emptyNegativeSet : Code := "E026"
def vacuousContext : Code := "E027"
def circularReference : Code := "E028"
def malformedVariable : Code := "E029"
def missingPlaceholder : Code := "E030"
def expansionLimit : Code := "E031"
def malformedInventory : Code := "E040"
def unknownPatternSymbol : Code := "E041"
def inventoryLimit : Code := "E042"
def untokenizableWord : Code := "E050"
def tooManyWords : Code := "E060"

/-! ## Codes of completed activities -/

def journalOpened : Code := "I004"
def fileRead : Code := "I006"
def variablesResolved : Code := "I020"
def rulesCompiled : Code := "I021"
def inventoryRead : Code := "I030"
def wordDerived : Code := "I040"
def wordReversed : Code := "I050"
def sessionReady : Code := "I060"
def batchCompleted : Code := "I061"

/-! ## Codes of events without one of their own -/

def plainWarning : Code := "W000"
def plainInfo : Code := "I000"
def plainDebug : Code := "D000"

inductive Severity where
  | critical
  | high
  | medium
  | low
  deriving DecidableEq, Repr

def Severity.name : Severity → String
  | critical => "Critical"
  | high => "High"
  | medium => "Medium"
  | low => "Low"

structure Entry where
  code : Code
  category : String
  severity : Severity
  recoverable : Bool
  requiresHalt : Bool
  description : String
  action : String
  deriving Repr

def registry : List Entry := [
  ⟨"ERR001", "System", .critical, false, true,
    "Critical internal system error",
    "File a bug report with the rule text that triggered it"⟩,
  ⟨"E005", "FileProcessing", .medium, false, true,
    "File not found at specified path",
    "Check file path and ensure file exists"⟩,
  ⟨"E007", "FileProcessing", .medium, false, true,
    "File exceeds maximum size limit",
    "Split the file or raise max_file_size in the build profile"⟩,
  ⟨"E010", "FileProcessing", .medium, false, true,
    "Invalid UTF-8 encoding in file",
    "Convert file to UTF-8 encoding"⟩,
  ⟨"E011", "FileProcessing", .medium, false, true,
    "I/O error during file operation",
    "Check permissions and file system integrity"⟩,
  ⟨"E020", "Compiler", .high, false, true,
    "Rule statement is not of the form `from > to [/ left _ right]`",
    "Use exactly one `>` and at most one `/` per rule"⟩,
  ⟨"E021", "Compiler", .high, false, true,
    "Rule has nothing to rewrite",
    "Give the rule a non-empty left-hand side"⟩,
  ⟨"E022", "Compiler", .high, false, true,
    "A class on the right-hand side needs a class on the left-hand side",
    "Write the source as a class of the same length"⟩,
  ⟨"E023", "Compiler", .high, false, true,
    "Paired classes have different lengths",
    "Make both classes list the same number of members"⟩,
  ⟨"E024", "Compiler", .high, false, true,
    "Class lists no members",
    "Add at least one phoneme or `_` to the class"⟩,
  ⟨"E025", "Compiler", .high, false, true,
    "Unbalanced brackets or parentheses",
    "Close every `[` and `(` on the same statement"⟩,
  ⟨"E026", "Compiler", .high, false, true,
    "Negative set excludes every known phoneme",
    "Remove phonemes from the negated class"⟩,
  ⟨"E027", "Compiler", .high, false, true,
    "Context side can be satisfied by nothing at all",
    "Add a literal phoneme to the side or drop `_` from its classes"⟩,
  ⟨"E028", "Compiler", .high, false, true,
    "Variables reference each other in a cycle",
    "Break the cycle by inlining one of the values"⟩,
  ⟨"E029", "Compiler", .high, false, true,
    "Variable definition is malformed",
    "Use `Name = value` with an alphanumeric name"⟩,
  ⟨"E030", "Compiler", .high, false, true,
    "Context needs exactly one `_` placeholder",
    "Mark the rewritten position with a single `_`"⟩,
  ⟨"E031", "Compiler", .high, false, true,
    "Statement expands past the configured limits",
    "Split the statement or raise the compiler limits in the build profile"⟩,
  ⟨"E040", "Inventory", .high, false, true,
    "Phoneme inventory definition is malformed",
    "Check variable lines and section headers"⟩,
  ⟨"E041", "Inventory", .high, false, true,
    "Phonotactic pattern uses an unknown symbol",
    "Declare the symbol as a variable or phoneme first"⟩,
  ⟨"E042", "Inventory", .medium, false, true,
    "Inventory exceeds configured limits",
    "Reduce the inventory or raise inventory limits in the build profile"⟩,
  ⟨"E050", "Tokenization", .medium, true, false,
    "Word cannot be segmented with the given inventory",
    "Add the missing phoneme to the inventory or fix the word"⟩,
  ⟨"E060", "Batch", .medium, false, true,
    "Too many words in one batch",
    "Split the word list"⟩,
  ⟨"E061", "Batch", .high, false, true,
    "A batch worker thread failed",
    "Rerun sequentially with --threads 1 to isolate the word"⟩]

def registered? (code : Code) : Option Entry :=
  registry.find? fun entry => entry.code == code

def description (code : Code) : String :=
  (registered? code).elim "Unknown error" Entry.description

def action (code : Code) : String :=
  (registered? code).elim "No specific action available" Entry.action

/-- The part of the work the code belongs to.  A code outside the registry is classified by
its first letter. -/
def category (code : Code) : String :=
  match registered? code with
  | some entry => entry.category
  | none =>
      match code.toList.head? with
      | some 'I' => "Success"
      | some 'W' => "Warning"
      | some 'D' => "Debug"
      | _ => "Unknown"

/-- How bad it is; a code outside the registry is of low severity. -/
def severity (code : Code) : Severity :=
  (registered? code).elim .low Entry.severity

def isRecoverable (code : Code) : Bool :=
  (registered? code).elim true Entry.recoverable

def requiresHalt (code : Code) : Bool :=
  (registered? code).elim false Entry.requiresHalt

end Code

end Diachrony
