import MapStyle.CommandLine.Run
import MapStyle.Scalar.Binary64

/-!
# The program

Reads the files that a command names, runs it, and reports. Failures end with status one, a bad
command line with status two.
-/

namespace MapStyle.CommandLine

/-- The contents of a file, if it can be read as text. -/
def readFile (name : String) : IO (Option String) := do
  try
    return some (← IO.FS.readFile name)
  catch _ =>
    return none

/-- The names of the files that a command reads. -/
def Command.fileNames {α : Type} : Command α → List String
  | .eval e => [e.files.property, e.files.function] ++ e.features.toList
  | .inspect files => [files.property, files.function]
  | _ => []

/-- The report of a failure, with its cause if it has one. -/
def report (f : Failure) : String :=
  "Error: " ++ f.message ++
    ((f.cause?.map fun e ↦ "\n\nCaused by:\n    " ++ e.message).getD "")

/-- Runs a command on the files it names. -/
def execute (c : Command Float) : IO UInt32 := do
  let contents ← c.fileNames.mapM fun name ↦ do
    return (name, ← readFile name)
  match run (fun name ↦ (contents.lookup name).join) c with
  | .ok output => do
    IO.print output
    return 0
  | .error failure => do
    IO.eprintln (report failure)
    return 1

end MapStyle.CommandLine

/-- The program. -/
def main (args : List String) : IO UInt32 :=
  match (MapStyle.CommandLine.command? args : Option (MapStyle.CommandLine.Command Float)) with
  | some c => MapStyle.CommandLine.execute c
  | none => do
    IO.eprint MapStyle.CommandLine.helpText
    return 2
