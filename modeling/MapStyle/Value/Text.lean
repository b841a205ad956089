import MapStyle.Json.Printer
import MapStyle.Value.Basic

/-!
# Values as JSON and as text

Every value can be written as JSON data: colors and images by their text or parts, deferred values
as `null`. Integral numbers below `2 ^ 53` become integers, numbers that JSON text cannot write
become `null`.

The display text of a value is plain for primitives, colors, rich text and images, and JSON text for
the rest.
-/

namespace MapStyle

variable {α : Type} [Scalar α]

/-- An image reference as JSON data. -/
def Image.toJson (i : Image) : Json α :=
  .obj [("name", .str i.name), ("available", .bool i.available)]

/-- A text section as JSON data; what is absent is left out. -/
def TextSection.toJson (s : TextSection α) : Json α :=
  .obj ([("text", .str s.text)] ++
    (s.image.map fun i ↦ ("image", i.toJson)).toList ++
    (s.scale.map fun x ↦ ("scale", Json.ofScalar x)).toList ++
    (s.fontStack.map fun f ↦ ("fontStack", Json.str f)).toList ++
    (s.textColor.map fun c ↦ ("textColor", Json.str c.text)).toList)

/-- Rich text as JSON data. -/
def Formatted.toJson (f : Formatted α) : Json α :=
  .obj [("sections", .arr (f.sections.map TextSection.toJson))]

/-- Collator options as JSON data; an absent locale is left out. -/
def Collator.toJson (c : Collator) : Json α :=
  .obj ([("caseSensitive", .bool c.caseSensitive),
      ("diacriticSensitive", .bool c.diacriticSensitive)] ++
    (c.locale.map fun l ↦ ("locale", Json.str l)).toList)

/-- **A number as JSON data**: an integer where its value is one and small enough to be exact. -/
def Json.ofNumber (x : α) : Json α :=
  match Scalar.toSafeInt? x with
  | some n => ofInt n
  | none => ofScalar x

namespace Value

mutual

/-- **A value as JSON data.** -/
def toJson : Value α → Json α
  | null => .null
  | bool b => .bool b
  | number x => Json.ofNumber x
  | string s => .str s
  | color c => .str c.text
  | collator c => c.toJson
  | formatted f => f.toJson
  | image i => i.toJson
  | array items => .arr (itemsToJson items)
  | object entries => .obj (entriesToJson entries)
  | deferred _ _ => .null

/-- The elements of a list as JSON data. -/
def itemsToJson : List (Value α) → List (Json α)
  | [] => []
  | v :: vs => toJson v :: itemsToJson vs

/-- The entries of an object as JSON data. -/
def entriesToJson : List (String × Value α) → List (String × Json α)
  | [] => []
  | (k, v) :: es => (k, toJson v) :: entriesToJson es

end

/-- **The display text of a value.** The absent value shows nothing. -/
def text : Value α → String
  | null => ""
  | bool b => Json.boolText b
  | number x => Scalar.text x
  | string s => s
  | color c => c.text
  | formatted f => f.text
  | image i => i.name
  | v => v.toJson.text

/-- What stands for a deferred value where it has to be shown. -/
def deferredText : String := "Evaluable(..)"

end Value

end MapStyle
