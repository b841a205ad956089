import MapStyle.Scalar

/-!
# Color components as written

The numbers between the parentheses of `rgba(…)` and `hsla(…)`, the ranges they must lie in, and
what is said of those that do not.
-/

namespace MapStyle

/-- **Three components and an optional alpha**, in the units they are written in. -/
structure Components (α : Type) where
  /-- Red, or hue. -/
  first : α
  /-- Green, or saturation. -/
  second : α
  /-- Blue, or lightness. -/
  third : α
  /-- Alpha, if one is given. -/
  alpha : Option α

namespace Components

/-- What can be out of range. -/
inductive Fault where
  /-- One of the channels red, green and blue. -/
  | channel
  /-- The hue. -/
  | hue
  /-- Saturation or lightness. -/
  | percentage
  /-- The alpha of an rgb color. -/
  | rgbAlpha
  /-- The alpha of an hsl color. -/
  | hslAlpha
  deriving DecidableEq, Repr

variable {α : Type} [Scalar α] (c : Components α)

/-- Whether alpha is absent or in the unit interval. -/
def alphaOk : Bool := c.alpha.all (Scalar.within 0.0 1.0)

/-- The first fault of rgb components: channels run to `255`, alpha to one. -/
def rgbFault? : Option Fault :=
  let ok := Scalar.within (0.0 : α) 255.0
  if !(ok c.first && ok c.second && ok c.third) then some .channel
  else if !c.alphaOk then some .rgbAlpha
  else none

/-- The first fault of hsl components: hue runs to `360`, saturation and lightness to `100`, alpha
to one. -/
def hslFault? : Option Fault :=
  let ok := Scalar.within (0.0 : α) 100.0
  if !Scalar.within 0.0 360.0 c.first then some .hue
  else if !(ok c.second && ok c.third) then some .percentage
  else if !c.alphaOk then some .hslAlpha
  else none

/-- The components as they are quoted in a message. -/
def text : String :=
  ", ".intercalate (([c.first, c.second, c.third] ++ c.alpha.toList).map Scalar.text)

/-- What is said of a fault. -/
def message : Fault → String
  | .channel =>
    "Invalid rgba value [" ++ c.text ++ "]: 'r', 'g', and 'b' must be between 0 and 255."
  | .hue => "Invalid hsla value [" ++ c.text ++ "]: 'h' must be between 0 and 360."
  | .percentage =>
    "Invalid hsla value [" ++ c.text ++ "]: 's', and 'l' must be between 0 and 100."
  | .rgbAlpha => "Invalid rgba value [" ++ c.text ++ "]: 'a' must be between 0 and 1."
  | .hslAlpha => "Invalid hsla value [" ++ c.text ++ "]: 'a' must be between 0 and 1."

end Components

end MapStyle
