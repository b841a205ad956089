import MapStyle.Json.Basic

/-!
# Function definitions

A style function as it is written in a document, before any of its names is resolved. Its stops are
pairs of a key and an output. A key is plain, or made of a zoom level and a value; an object with a
number under `zoom` and anything under `value` is of the second form, all other data is plain.
-/

namespace MapStyle

/-- **The key of a stop.** -/
inductive Stop.Key (α : Type) [Scalar α] where
  /-- A zoom level or a property value. -/
  | plain (key : Json α)
  /-- A zoom level together with a property value. -/
  | zoomed (zoom : α) (value : Json α)

/-- A stop of a function definition. -/
structure Stop (α : Type) [Scalar α] where
  /-- What it stands at. -/
  key : Stop.Key α
  /-- What it gives. -/
  output : Json α

/-- **A style function as written.** -/
structure FunctionDefinition (α : Type) [Scalar α] where
  /-- The name of the strategy. -/
  strategyName : Option String
  /-- The feature property that the function reads. -/
  property : Option String
  /-- The base of exponential interpolation. -/
  base : Option α
  /-- What the function gives where it has no answer. -/
  default : Option (Json α)
  /-- The name of the color space. -/
  colorSpaceName : Option String
  /-- The stops; a definition without stops differs from one with an empty list only as text. -/
  stops : Option (List (Stop α))

variable {α : Type} [Scalar α]

namespace Stop.Key

/-- Whether the key has a zoom level. -/
def isZoomed : Stop.Key α → Bool
  | plain _ => false
  | zoomed _ _ => true

/-- Whether two keys are the same. -/
def beq : Stop.Key α → Stop.Key α → Bool
  | plain a, plain b => a == b
  | zoomed x a, zoomed y b => x == y && a == b
  | _, _ => false

instance : BEq (Stop.Key α) := ⟨beq⟩

/-- The key that JSON data stands for. -/
def ofJson (j : Json α) : Stop.Key α :=
  match j with
  | .obj entries =>
    match (Entries.get? entries "zoom").bind Json.number?, Entries.get? entries "value" with
    | some zoom, some value => zoomed zoom value
    | _, _ => plain j
  | _ => plain j

/-- A key as JSON data. -/
def toJson : Stop.Key α → Json α
  | plain key => key
  | zoomed zoom value => .obj [("zoom", Json.ofScalar zoom), ("value", value)]

end Stop.Key

namespace Stop

instance : BEq (Stop α) where
  beq s t := s.key == t.key && s.output == t.output

/-- The stop written as a list of a key and an output. -/
def ofJson? : Json α → Option (Stop α)
  | .arr [key, output] => some ⟨Stop.Key.ofJson key, output⟩
  | _ => none

/-- A stop as JSON data. -/
def toJson (s : Stop α) : Json α := .arr [s.key.toJson, s.output]

end Stop

namespace FunctionDefinition

/-- The definition that says nothing. -/
def empty : FunctionDefinition α := ⟨none, none, none, none, none, none⟩

/-- The stops, none if there is no list of them. -/
def stopList (d : FunctionDefinition α) : List (Stop α) := d.stops.getD []

/-- Whether the function reads zoom and property both, which its first stop decides. -/
def isComposite (d : FunctionDefinition α) : Bool :=
  d.stopList.head?.any fun s ↦ s.key.isZoomed

instance : BEq (FunctionDefinition α) where
  beq d e := d.strategyName == e.strategyName && d.property == e.property && d.base == e.base &&
    d.default == e.default && d.colorSpaceName == e.colorSpaceName && d.stops == e.stops

/-! ### JSON -/

/-- The fields of a definition, in the order a list gives them. -/
def fieldNames : List String := ["type", "property", "base", "default", "colorSpace", "stops"]

/-- **The definition written as JSON**, or nothing if a field has the wrong form. -/
def ofJson? (j : Json α) : Option (FunctionDefinition α) := do
  let fields ← j.record? fieldNames
  let strategyName ← Json.optional? fields "type" Json.string?
  let property ← Json.optional? fields "property" Json.string?
  let base ← Json.optional? fields "base" Json.number?
  let default ← Json.optional? fields "default" some
  let colorSpaceName ← Json.optional? fields "colorSpace" Json.string?
  let stops ← Json.optional? fields "stops" fun s ↦ s.items?.bind fun items ↦
    items.mapM Stop.ofJson?
  return ⟨strategyName, property, base, default, colorSpaceName, stops⟩

/-- **A definition as JSON data.** Absent fields are left out. -/
def toJson (d : FunctionDefinition α) : Json α :=
  .obj ((d.strategyName.map fun s ↦ ("type", Json.str s)).toList ++
    (d.property.map fun s ↦ ("property", Json.str s)).toList ++
    (d.base.map fun x ↦ ("base", Json.ofScalar x)).toList ++
    (d.default.map fun j ↦ ("default", j)).toList ++
    (d.colorSpaceName.map fun s ↦ ("colorSpace", Json.str s)).toList ++
    (d.stops.map fun stops ↦ ("stops", Json.arr (stops.map Stop.toJson))).toList)

end FunctionDefinition

end MapStyle
