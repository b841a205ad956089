import MapStyle.Error
import MapStyle.Value.Basic

/-!
# Properties

A style property: the type of its values, its default, the strings it allows if it is an
enumeration, and whether functions over it blend by default.
-/

namespace MapStyle

/-- **The type of a property's values.** -/
inductive PropertyType where
  /-- Numbers. -/
  | number
  /-- Strings. -/
  | string
  /-- Truth values. -/
  | boolean
  /-- Colors. -/
  | color
  /-- Strings out of a fixed set. -/
  | enumeration
  /-- Rich text. -/
  | formatted
  /-- References to images. -/
  | resolvedImage
  /-- Lists of one element type, of a fixed length if one is given. -/
  | array (element : PropertyType) (length : Option Nat)
  deriving DecidableEq, Repr

namespace PropertyType

/-- The type without elements that has a name. -/
def simple? : String → Option PropertyType
  | "number" => some number
  | "string" => some string
  | "boolean" => some boolean
  | "color" => some color
  | "enum" => some enumeration
  | "formatted" => some formatted
  | "resolvedImage" => some resolvedImage
  | _ => none

/-- **The type of a property definition**: its name, and for `array` the name of the element type
and the declared length. Elements are never lists themselves. -/
def ofNames (name : String) (element : Option String) (length : Option Nat) :
    Except DefinitionError PropertyType :=
  if name = "array" then
    match element with
    | none => .error .missingElementType
    | some e =>
      match simple? e with
      | some t => .ok (array t length)
      | none => .error (.unknownElementType e)
  else
    match simple? name with
    | some t => .ok t
    | none => .error (.unknownPropertyType name)

end PropertyType

/-- **A style property**, as far as functions over it need to know. -/
structure Property (α : Type) where
  /-- The type of its values. -/
  type : PropertyType
  /-- The value used where a function has none. -/
  default : Option (Value α)
  /-- The strings that an enumeration allows, without repeats. -/
  values : List String
  /-- Whether functions over it blend between stops unless they say otherwise. -/
  interpolated : Bool

namespace Property

variable {α : Type}

/-- A property of a type, with nothing else. -/
def ofType (type : PropertyType) : Property α := ⟨type, none, [], false⟩

/-- The strings of a list in order of first appearance. -/
def distinct (names : List String) : List String :=
  names.foldl (fun seen s ↦ if s ∈ seen then seen else seen ++ [s]) []

/-- The enumeration of some strings. -/
def ofValues (values : List String) : Property α :=
  ⟨.enumeration, none, distinct values, false⟩

/-- **Whether a value suits the property**, without coercion. The elements of a list are
not looked at. -/
def suits (p : Property α) (v : Value α) : Bool :=
  match p.type, v with
  | .number, .number _ => true
  | .string, .string _ => true
  | .boolean, .bool _ => true
  | .color, .color _ => true
  | .formatted, .formatted _ => true
  | .resolvedImage, .image _ => true
  | .array _ _, .array _ => true
  | .enumeration, .string s => decide (s ∈ p.values)
  | _, _ => false

/-! ### Definitions in JSON -/

variable [Scalar α]

/-- The strings of an enumeration: a list of them, or the keys of an object. -/
def valuesOfJson? : Json α → Option (List String)
  | .arr items => items.mapM Json.string?
  | .obj entries => some (Entries.keys entries)
  | _ => none

/-- Whether an expression definition says that the property is interpolated. -/
def interpolatedOfJson? (j : Json α) : Option Bool := do
  let fields ← j.record? ["interpolated"]
  match Entries.get? fields "interpolated" with
  | none => some false
  | some b => b.bool?

/-- The parts of a property definition before its type is resolved. -/
structure Definition (α : Type) where
  /-- The name of the type. -/
  typeName : String
  /-- The name of the element type. -/
  elementName : Option String
  /-- The declared length. -/
  length : Option Nat
  /-- The default. -/
  default : Option (Value α)
  /-- The strings of an enumeration. -/
  values : List String
  /-- Whether the property is interpolated. -/
  interpolated : Bool

/-- The fields of a property definition, in the order a list gives them. -/
def fieldNames : List String := ["type", "value", "length", "default", "values", "expression"]

/-- The parts of a property definition written as JSON. -/
def definition? (j : Json α) : Option (Definition α) := do
  let fields ← j.record? fieldNames
  let typeName ← (← Entries.get? fields "type").string?
  let elementName ← Json.optional? fields "value" Json.string?
  let length ← Json.optional? fields "length" Json.nat?
  let default ← Json.optional? fields "default" fun d ↦ some (Value.ofJson d)
  let values ← Json.optional? fields "values" valuesOfJson?
  let interpolated ← Json.optional? fields "expression" interpolatedOfJson?
  return ⟨typeName, elementName, length, default, values.getD [], interpolated.getD false⟩

/-- **The property of a definition written as JSON.** -/
def ofJson (j : Json α) : Except DefinitionError (Property α) :=
  match definition? j with
  | none => .error .malformed
  | some d => do
    let type ← PropertyType.ofNames d.typeName d.elementName d.length
    return ⟨type, d.default, distinct d.values, d.interpolated⟩

end Property

end MapStyle
