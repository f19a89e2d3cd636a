import Diachrony.Narration.Stages
import Diachrony.PhonemeRoles
import Diachrony.SourceFile

/-!
# Sessions

A session holds compiled rules and both inventories, prepared for working in either
direction.  It is built from three texts or from three files, and reports what it meets on
the way.
-/

namespace Diachrony

inductive Role where
  | source
  | target
  deriving DecidableEq, Repr

def Role.name : Role → String
  | source => "source"
  | target => "target"

inductive SessionError where
  | file (error : SourceFileError)
  | rules (error : RuleText.Error)
  | inventory (role : Role) (error : InventoryError)
  | segmentation (error : SegmentationError)
  deriving DecidableEq, Repr

namespace SessionError

def message : SessionError → String
  | file error => "File processing failed: " ++ error.message
  | rules error => "Rule compilation failed: " ++ error.message
  | inventory role error => "Invalid " ++ role.name ++ " inventory: " ++ error.message
  | segmentation error => "Tokenization failed: " ++ error.message

def code : SessionError → Code
  | file error => error.code
  | rules error => error.code
  | inventory _ error => error.code
  | segmentation error => error.code

end SessionError

structure SessionTexts where
  rules : Text
  source : Text
  target : Text

structure Session where
  rules : List Rule
  statistics : RuleText.Statistics
  source : Inventory
  target : Inventory
  deriver : Deriver
  reverser : Reverser
  /-- What every reverser of the session is set up with. -/
  reverserSettings : ReverserSettings

namespace Session

/-- A session of rules and inventories that are at hand.  Its statistics know no more than
the number of rules. -/
def ofParts (rules : List Rule) (source target : Inventory) (settings : ReverserSettings) :
    Session :=
  { rules
    statistics := ⟨0, 0, 0, rules.length, 0⟩
    source
    target
    deriver := Deriver.of rules source target
    reverser := Reverser.of rules source target settings
    reverserSettings := settings }

def readRole [Limits] (role : Role) (text : Text) : Except SessionError Inventory :=
  (readInventory text).mapError (.inventory role)

def ofTexts [Limits] (compiler : CompilerSettings) (reverser : ReverserSettings)
    (texts : SessionTexts) : Except SessionError Session := do
  let set ← (compiler.compile texts.rules).mapError .rules
  let source ← readRole .source texts.source
  let target ← readRole .target texts.target
  pure { ofParts set.rules source target reverser with statistics := set.statistics }

def roleEvents [Limits] (role : Role) (text : Text) : List Event :=
  (inventoryEvents text).map (Event.underSource (role.name ++ " inventory")) ++
    match readInventory text with
    | .error error => [Event.error error.code error.message [("role", role.name)]]
    | .ok _ => []

def readyEvent [Limits] (session : Session) : Event :=
  Event.success Code.sessionReady "Session ready"
    [("rules", toString session.rules.length),
     ("source_phonemes", toString session.source.phonemes.size),
     ("target_phonemes", toString session.target.phonemes.size)]

def textsEvents [Limits] (compiler : CompilerSettings) (reverser : ReverserSettings)
    (texts : SessionTexts) : List Event :=
  (compiler.compileEvents texts.rules).map (Event.underSource "rules") ++
    compiler.failureEvents texts.rules ++
    match compiler.compile texts.rules with
    | .error _ => []
    | .ok _ =>
        roleEvents .source texts.source ++
          match readRole .source texts.source with
          | .error _ => []
          | .ok _ =>
              roleEvents .target texts.target ++
                match ofTexts compiler reverser texts with
                | .error _ => []
                | .ok session => [session.readyEvent]

structure Paths where
  rules : String
  source : String
  target : String
  deriving DecidableEq, Repr

def readTexts [Limits] (files : Files) (paths : Paths) : Except SourceFileError SessionTexts := do
  let rules ← SourceFile.read files paths.rules
  let source ← SourceFile.read files paths.source
  let target ← SourceFile.read files paths.target
  pure ⟨rules.text, source.text, target.text⟩

def ofFiles [Limits] (settings : Settings) (files : Files) (paths : Paths) :
    Except SessionError Session := do
  let texts ← (readTexts files paths).mapError .file
  ofTexts settings.compiler settings.reverser texts

/-- What reading files reports, up to the first that cannot be read. -/
def fileEvents [Limits] (files : Files) : List String → List Event
  | [] => []
  | path :: rest =>
      SourceFile.readEvents files path ++
        match SourceFile.read files path with
        | .error _ => []
        | .ok _ => fileEvents files rest

def filesEvents [Limits] (settings : Settings) (files : Files) (paths : Paths) : List Event :=
  fileEvents files [paths.rules, paths.source, paths.target] ++
    match readTexts files paths with
    | .error _ => []
    | .ok texts =>
        (textsEvents settings.compiler settings.reverser texts).map
          (Event.underSource paths.rules)

def derive (session : Session) (word : String) : Except SessionError String :=
  (session.deriver.derive word).mapError .segmentation

def trace (session : Session) (word : String) : Except SessionError (List TraceStep) :=
  (session.deriver.trace word).mapError .segmentation

def isTargetWord (session : Session) (word : String) : Bool :=
  session.deriver.isTargetWord word

def reverse [Limits] (session : Session) (word : String) : Except SessionError TokenSet × Session :=
  let (answer, reverser) := session.reverser.reverse word
  (answer.mapError .segmentation, { session with reverser })

def newReverser (session : Session) : Reverser :=
  Reverser.of session.rules session.source session.target session.reverserSettings

def roles (session : Session) : PhonemeRoles :=
  phonemeRoles session.rules

end Session

end Diachrony
