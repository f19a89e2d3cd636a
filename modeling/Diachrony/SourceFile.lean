import Diachrony.FileTree
import Diachrony.Journal.Event
import Diachrony.Text.Basic

/-!
# Input files

An input file is a UTF-8 text of limited size.
-/

namespace Diachrony

inductive SourceFileError where
  | notFound (path : String)
  | tooLarge (path : String) (size limit : Nat)
  | invalidEncoding (path : String)
  | unreadable (path reason : String)
  deriving DecidableEq, Repr

namespace SourceFileError

def message : SourceFileError → String
  | notFound path => "File not found: " ++ path
  | tooLarge path size limit => s!"File too large: {path} is {size} bytes (max: {limit})"
  | invalidEncoding path => "Invalid UTF-8 encoding in file: " ++ path
  | unreadable path reason => s!"I/O error reading {path}: {reason}"

def code : SourceFileError → Code
  | notFound _ => Code.fileNotFound
  | tooLarge _ _ _ => Code.fileTooLarge
  | invalidEncoding _ => Code.invalidEncoding
  | unreadable _ _ => Code.fileUnreadable

end SourceFileError

structure SourceFile where
  path : String
  contents : String
  size : Nat
  deriving DecidableEq, Repr

namespace SourceFile

def text (file : SourceFile) : Text :=
  file.contents.toList

def lineCount (file : SourceFile) : Nat :=
  (Text.lines file.text).length

/-- Read an input file.  A path that leads to something other than a file leads nowhere. -/
def read [Limits] (files : Files) (path : String) : Except SourceFileError SourceFile :=
  match files path with
  | .missing | .found .directory => .error (.notFound path)
  | .failed reason => .error (.unreadable path reason)
  | .found (.file size contents) =>
      if size > Limits.fileSize then .error (.tooLarge path size Limits.fileSize)
      else
        match String.fromUTF8? (contents ()) with
        | some contents => .ok ⟨path, contents, size⟩
        | none => .error (.invalidEncoding path)

def readEvents [Limits] (files : Files) (path : String) : List Event :=
  Event.debug "Reading input file" [("file", path)] ::
    match read files path with
    | .error error => [Event.error error.code error.message [("file", path)]]
    | .ok file =>
        [Event.success Code.fileRead "Input file read"
          [("file", path), ("size_bytes", toString file.size),
           ("lines", toString file.lineCount)]]

end SourceFile

end Diachrony
