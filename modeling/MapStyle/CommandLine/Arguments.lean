import MapStyle.Text.Blank
import MapStyle.Text.Numeral

/-!
# Command lines

What the arguments of the program ask for. Two commands work on files: `eval` gives the values of a
function at one zoom level, `inspect` describes it. Options are long, each at most once, with their
value after `=` or as the next argument.

A next argument that starts with a hyphen is not taken for a value, unless it is the hyphen alone or
the option takes negative numbers and it looks like one.

Help and version are asked for by an option of their own, long or short. Short options may be
written together after one hyphen, and since either of these two is answered as soon as it is read,
only the first letter counts.
-/

namespace MapStyle.CommandLine

/-! ### Options -/

/-- An option of a command. -/
structure OptionForm where
  /-- The name after the two hyphens. -/
  name : String
  /-- Whether the option has a value. -/
  hasValue : Bool
  /-- Whether its value may be a negative number as an argument of its own. -/
  takesNegative : Bool

/-- Whether a text is made of digits, with at most one point and then at most one exponent mark, the
mark not at its end and neither at its start. The flags say whether this is the start, and whether a
point and a mark may still come. -/
def looksNumeric : Bool → Bool → Bool → List Char → Bool
  | _, _, _, [] => true
  | first, point, mark, c :: cs =>
    if c.isDigit then looksNumeric false point mark cs
    else if c = '.' ∧ point ∧ ¬first then looksNumeric false false mark cs
    else if (c = 'e' ∨ c = 'E') ∧ mark ∧ ¬first then
      !cs.isEmpty && looksNumeric false false false cs
    else false

/-- Whether an argument looks like a negative number. -/
def looksNegative (arg : List Char) : Bool :=
  match arg with
  | '-' :: cs => looksNumeric true true true cs
  | _ => false

/-- Whether the argument after an option is its value. -/
def OptionForm.takes (o : OptionForm) (arg : List Char) : Bool :=
  arg.head? != some '-' || arg == ['-'] || (o.takesNegative && looksNegative arg)

/-- The name of a long option and the value after `=`, if there is one. -/
def splitLong (cs : List Char) : String × Option String :=
  let name := String.ofList (cs.takeWhile fun c ↦ c ≠ '=')
  match cs.dropWhile fun c ↦ c ≠ '=' with
  | [] => (name, none)
  | _ :: value => (name, some (String.ofList value))

/-- **The options given by a list of arguments**, as names with their values. Anything else among
the arguments is refused; only a final `--` is allowed. -/
def readOptions? (forms : List OptionForm) : List String → Option (List (String × String))
  | [] => some []
  | arg :: args =>
    match arg.toList with
    | '-' :: '-' :: [] => if args.isEmpty then some [] else none
    | '-' :: '-' :: cs => do
      let (name, value) := splitLong cs
      let form ← forms.find? fun o ↦ o.name = name
      match form.hasValue, value, args with
      | false, none, args => return (name, "") :: (← readOptions? forms args)
      | true, some value, args => return (name, value) :: (← readOptions? forms args)
      | true, none, value :: args =>
        if form.takes value.toList then return (name, value) :: (← readOptions? forms args)
        else none
      | _, _, _ => none
    | _ => none

/-- Whether no name is given twice. -/
def distinctNames : List (String × String) → Bool
  | [] => true
  | (name, _) :: options => (options.lookup name).isNone && distinctNames options

/-! ### Commands -/

/-- The files that define a function and its property. -/
structure Files where
  /-- The file with the function or constant. -/
  function : String
  /-- The file with the definition of the property. -/
  property : String

/-- What `eval` is asked for. -/
structure Evaluation (α : Type) where
  /-- The files to load. -/
  files : Files
  /-- The zoom level. -/
  zoom : α
  /-- The file with a list of features, if there are any. -/
  features : Option String
  /-- Whether features may be evaluated side by side, which no output shows. -/
  parallel : Bool
  /-- The number of workers to do it with. -/
  threads : Option Nat

/-- **What a command line asks for.** -/
inductive Command (α : Type) where
  /-- The values of a function. -/
  | eval (request : Evaluation α)
  /-- A description of a function. -/
  | inspect (files : Files)
  /-- The version of the program. -/
  | version
  /-- An explanation of the commands. -/
  | help

/-- A file name, which may not be empty. -/
def fileName? (s : String) : Option String := if s.isEmpty then none else some s

/-- The value of a count of workers: digits, perhaps after a plus sign, that fit 64 bits. -/
def count? (s : String) : Option Nat :=
  let digits := match s.toList with
    | '+' :: cs => cs
    | cs => cs
  if digits.isEmpty || !digits.all Char.isDigit then none
  else
    let n := Numeral.digitsFrom 0 digits
    if n < Nat.pow 2 64 then some n else none

/-- The value of an option that may be left out. -/
def optional? {β : Type} (options : List (String × String)) (name : String)
    (read : String → Option β) : Option (Option β) :=
  match options.lookup name with
  | none => some none
  | some value => (read value).map some

/-- The files that the options name. -/
def files? (options : List (String × String)) : Option Files := do
  return ⟨← fileName? (← options.lookup "function"), ← fileName? (← options.lookup "property")⟩

/-- The options that name files. -/
def fileForms : List OptionForm := [⟨"function", true, false⟩, ⟨"property", true, false⟩]

/-- The options of `eval`. -/
def evalForms : List OptionForm :=
  fileForms ++ [⟨"zoom", true, true⟩, ⟨"features", true, false⟩, ⟨"parallel", false, false⟩,
    ⟨"threads", true, false⟩]

/-- The options of a command, none of them twice. -/
def options? (forms : List OptionForm) (args : List String) : Option (List (String × String)) :=
  (readOptions? forms args).filter distinctNames

variable {α : Type} [Scalar α]

/-- What the arguments after `eval` ask for. -/
def evaluation? (args : List String) : Option (Evaluation α) := do
  let options ← options? evalForms args
  let files ← files? options
  let zoom ← Scalar.ofText? (← options.lookup "zoom").toList
  let features ← optional? options "features" fileName?
  let threads ← optional? options "threads" count?
  return ⟨files, zoom, features, (options.lookup "parallel").isSome, threads⟩

/-- Whether an argument is the long option of a name, or short options of which the first is the
letter. -/
def asksFor (name : String) (letter : Char) (arg : String) : Bool :=
  arg == "--" ++ name || ['-', letter].isPrefixOf arg.toList

/-- Whether an argument asks for help. -/
def asksForHelp : String → Bool := asksFor "help" 'h'

/-- Whether an argument asks for the version. -/
def asksForVersion : String → Bool := asksFor "version" 'V'

/-- **The command of a list of arguments**, or nothing if they are no command line of the
program. -/
def command? : List String → Option (Command α)
  | "eval" :: args =>
    if args.head?.any asksForHelp then some .help else (evaluation? args).map .eval
  | "inspect" :: args =>
    if args.head?.any asksForHelp then some .help
    else ((options? fileForms args).bind files?).map .inspect
  | "help" :: [] => some .help
  | "help" :: topic :: [] => if topic ∈ ["eval", "inspect", "help"] then some .help else none
  | arg :: _ =>
    if asksForVersion arg then some .version
    else if asksForHelp arg then some .help
    else none
  | [] => none

end MapStyle.CommandLine
