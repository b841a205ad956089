import MapStyle.Value.Basic

/-!
# Kinds of values

Every value has a kind, and lists have the kind of their elements: the one they share, or `value`,
the kind of mixed lists, as soon as two elements disagree.
-/

namespace MapStyle

/-- **The kind of a value.** -/
inductive Kind where
  /-- The absent value. -/
  | null
  /-- Numbers. -/
  | number
  /-- Strings. -/
  | string
  /-- Truth values. -/
  | boolean
  /-- Colors. -/
  | color
  /-- Objects. -/
  | object
  /-- Any value. -/
  | value
  /-- Options of a text comparison. -/
  | collator
  /-- Rich text. -/
  | formatted
  /-- References to images. -/
  | resolvedImage
  /-- Deferred values. -/
  | evaluable
  /-- Lists with elements of a kind, and their length if it is known. -/
  | array (item : Kind) (length : Option Nat)
  deriving DecidableEq, Repr

namespace Kind

/-- **The text of a kind**: `array<number, 2>` for a list of two numbers, `array` for one of which
nothing is known. -/
def text : Kind → String
  | null => "null"
  | number => "number"
  | string => "string"
  | boolean => "boolean"
  | color => "color"
  | object => "object"
  | value => "value"
  | collator => "collator"
  | formatted => "formatted"
  | resolvedImage => "resolvedImage"
  | evaluable => "evaluable"
  | array value none => "array"
  | array item none => "array<" ++ item.text ++ ">"
  | array item (some n) => "array<" ++ item.text ++ ", " ++ toString n ++ ">"

end Kind

namespace Value

variable {α : Type}

mutual

/-- **The kind of a value.** -/
def kind : Value α → Kind
  | null => .null
  | bool _ => .boolean
  | number _ => .number
  | string _ => .string
  | color _ => .color
  | collator _ => .collator
  | formatted _ => .formatted
  | image _ => .resolvedImage
  | deferred _ _ => .evaluable
  | object _ => .object
  | array items => .array ((sharedKind none items).getD .value) items.length

/-- The kind shared by the elements of a list and those `seen` before them, going from left to right
and stopping at the first disagreement. -/
def sharedKind (seen : Option Kind) : List (Value α) → Option Kind
  | [] => seen
  | v :: vs =>
    match seen with
    | none => sharedKind (some v.kind) vs
    | some k => if k = v.kind then sharedKind seen vs else some .value

end

end Value

end MapStyle
