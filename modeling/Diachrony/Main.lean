import Diachrony.CommandLine.Run

/-!
# The program

The outer layer: it reads the files and variables an invocation asks for, runs it and prints
what it leaves behind.
-/

namespace Diachrony

open CommandLine

def lookUp (path : String) : IO FileLookup := do
  try
    let handle ← IO.FS.Handle.mk path .read
    let bytes ← handle.readBinToEnd
    pure (.found (.file bytes.size fun _ => bytes))
  catch error =>
    match error with
    | .noFileOrDirectory .. => pure .missing
    | .inappropriateType .. | .unsupportedOperation .. => pure (.found .directory)
    | other => pure (.failed (toString other))

def readEnvironment : IO Environment := do
  let mut environment := []
  for name in Environment.names do
    if let some value ← IO.getEnv name then environment := (name, value) :: environment
  pure environment

def readFiles (task : Task) : IO Files := do
  let mut found := []
  for path in task.paths do
    found := (path, ← lookUp path) :: found
  let entries := found
  pure fun path => (entries.find? fun entry => entry.1 == path).elim .missing Prod.snd

/-- Run the program on its arguments and print what it leaves behind. -/
def runProgram (arguments : List String) : IO UInt32 := do
  let environment ← readEnvironment
  let files ← match Invocation.ofArguments? arguments with
    | some invocation => readFiles invocation.task
    | none => pure fun _ => .missing
  let outcome := run arguments environment files
  for text in outcome.output do
    IO.println text
  for text in outcome.diagnostics do
    IO.eprintln text
  pure outcome.exit.toUInt32

end Diachrony

def main (arguments : List String) : IO UInt32 :=
  Diachrony.runProgram arguments
