import MapStyle.Value.Kind

/-!
# Category tables

A table for exact matches. Its keys are strings, truth values and numbers. Numbers are the same by
numeric equality, so what differs from itself is no key. The kind of the first stop's key is the
kind of the table: inputs of another kind never match.
-/

namespace MapStyle

/-- A value that can be a key of a category table. -/
inductive Category (α : Type) where
  /-- A string. -/
  | string (s : String)
  /-- A number. -/
  | number (x : α)
  /-- A truth value. -/
  | bool (b : Bool)

namespace Category

variable {α : Type} [Scalar α]

/-- Whether two keys are the same. -/
def same : Category α → Category α → Bool
  | string s, string t => s == t
  | number x, number y => x == y
  | bool a, bool b => a == b
  | _, _ => false

/-- The key that a value is, if it can be one. -/
def ofValue? : Value α → Option (Category α)
  | .string s => some (string s)
  | .number x => if Scalar.isNaN x then none else some (number x)
  | .bool b => some (bool b)
  | _ => none

end Category

/-- **A table of categories**: each key once, with its output. -/
structure Categories (α : Type) where
  /-- The kind of the first stop's key. -/
  kind : Kind
  /-- The keys and their outputs. -/
  entries : List (Category α × Value α)

namespace Categories

variable {α : Type} [Scalar α]

/-- Sets the output of a key, overwriting what it had. -/
def insert (key : Category α) (output : Value α) :
    List (Category α × Value α) → List (Category α × Value α)
  | [] => [(key, output)]
  | (k, v) :: es => if k.same key then (k, output) :: es else (k, v) :: insert key output es

/-- The entries after one more stop. A stop whose key can be no category is skipped. -/
def addStop (entries : List (Category α × Value α)) (stop : Value α × Value α) :
    List (Category α × Value α) :=
  match Category.ofValue? stop.1 with
  | some key => insert key stop.2 entries
  | none => entries

/-- **The table of a list of stops.** Later stops overwrite earlier ones with the same key. -/
def ofStops (stops : List (Value α × Value α)) : Categories α :=
  ⟨(stops.head?.map fun stop ↦ stop.1.kind).getD .null, stops.foldl addStop []⟩

/-- **The output of an input** that is of the kind of the table and equal to one of its keys. -/
def lookup? (t : Categories α) (input : Value α) : Option (Value α) :=
  if input.kind = t.kind then do
    let key ← Category.ofValue? input
    (t.entries.find? fun e ↦ e.1.same key).map Prod.snd
  else none

end Categories

end MapStyle
