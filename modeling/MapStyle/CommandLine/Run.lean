import MapStyle.CommandLine.Arguments
import MapStyle.Json.Reader
import MapStyle.StyleFunction.Compilation

/-!
# Running commands

A command turns the files it names into output, or into a failure. Files are given by a function
from names to contents, so nothing here reads them itself; a file that cannot be read has no
contents.

The property is loaded before the function, and both before the features, so with several faults the
first of these in order is the one reported.
-/

namespace MapStyle.CommandLine

/-- **Why a command failed.** -/
inductive Failure where
  /-- A count of workers of zero. -/
  | noThreads
  /-- A file that cannot be read. -/
  | unreadable (file : String)
  /-- A file that is not JSON. -/
  | notJson (file : String)
  /-- A file that defines no property. -/
  | notAProperty (file : String) (cause : DefinitionError)
  /-- A function whose fields have the wrong form. -/
  | notAFunction
  /-- A function that does not compile. -/
  | notCompiled (file : String) (cause : DefinitionError)
  /-- A file that is not a list of features. -/
  | notFeatures (file : String)
  deriving DecidableEq, Repr

namespace Failure

/-- Text in single quotes. -/
def inQuotes (s : String) : String := "'" ++ s ++ "'"

/-- What is said first of a failure. -/
def message : Failure → String
  | noThreads => "--threads must be >= 1 when set"
  | unreadable file => "read " ++ inQuotes file
  | notJson file => "parse json " ++ inQuotes file
  | notAProperty file _ => "property descriptor " ++ inQuotes file
  | notAFunction => ErrorKind.serialization.label
  | notCompiled file _ => "compile " ++ inQuotes file
  | notFeatures file => "features " ++ inQuotes file

/-- The error behind a failure. -/
def cause? : Failure → Option DefinitionError
  | notAProperty _ cause => some cause
  | notCompiled _ cause => some cause
  | _ => none

end Failure

/-- The contents of files by name. -/
abbrev FileReader := String → Option String

/-! ### File names -/

/-- The last component of a path; none if the path ends in the directory above. -/
def lastComponent? (path : String) : Option (List Char) :=
  match ((Text.splitOn '/' path.toList).filter fun c ↦ c ≠ [] ∧ c ≠ ['.']).getLast? with
  | some ['.', '.'] => none
  | component => component

/-- **The stem of a file name**: its last component without what follows the last point, unless that
point comes first. -/
def stem (path : String) : String :=
  let name := (lastComponent? path).getD []
  let beforePoint := ((name.reverse.dropWhile fun c ↦ c ≠ '.').drop 1).reverse
  String.ofList (if beforePoint.isEmpty then name else beforePoint)

/-! ### Loading -/

variable {α : Type} [Scalar α]

/-- The JSON value in a file. -/
def readJson (read : FileReader) (file : String) : Except Failure (Json α) :=
  match read file with
  | none => .error (.unreadable file)
  | some text =>
    match Json.read? text with
    | none => .error (.notJson file)
    | some j => .ok j

/-- The property in a file. -/
def loadProperty (read : FileReader) (file : String) : Except Failure (Property α) := do
  (Property.ofJson (← readJson read file)).mapError (.notAProperty file)

/-- **The function in a file**, checked under the stem of the file's name. -/
def loadFunction (read : FileReader) (files : Files) : Except Failure (StyleFunction α) := do
  let property ← loadProperty read files.property
  let j ← readJson read files.function
  if j.isObject then
    match FunctionDefinition.ofJson? j with
    | none => .error .notAFunction
    | some d =>
      (FunctionDefinition.compileChecked FunctionDefinition.structuralCheck d property
        (stem files.function)).mapError (.notCompiled files.function)
  else (property.compile j).mapError (.notCompiled files.function)

/-- The features in a file. -/
def loadFeatures (read : FileReader) (file : String) : Except Failure (List (Feature α)) := do
  let j ← readJson read file
  match j.items?.bind fun items ↦ items.mapM Feature.ofJson? with
  | none => .error (.notFeatures file)
  | some features => .ok features

/-! ### Output -/

/-- A result on a line of its own. -/
def line (v : Option (Value α)) : String := (v.map Value.text).getD "none" ++ "\n"

/-- The output of `eval`: a line for every feature, or a single one if no features are given. -/
def runEvaluation (read : FileReader) (e : Evaluation α) : Except Failure String := do
  if e.threads = some 0 then .error .noThreads
  else
    let f ← loadFunction read e.files
    match e.features with
    | none => return line (f.evaluate e.zoom none)
    | some file =>
      let features ← loadFeatures read file
      return String.join (features.map fun g ↦ line (f.evaluate e.zoom (some g)))

/-- The name and version of the program. -/
def versionText : String := "style-fn 0.1.0\n"

/-- An explanation of the commands. -/
def helpText : String :=
  "Usage: style-fn eval --function <FILE> --property <FILE> --zoom <ZOOM> [--features <FILE>]\n" ++
    "       style-fn inspect --function <FILE> --property <FILE>\n"

/-- **The output of a command.** -/
def run (read : FileReader) : Command α → Except Failure String
  | .eval e => runEvaluation read e
  | .inspect files => do
    let f : StyleFunction α ← loadFunction read files
    return f.toJson.indented ++ "\n"
  | .version => .ok versionText
  | .help => .ok helpText

end MapStyle.CommandLine
