import MapStyle.Color.Basic

/-!
# Lightness and two opponent axes

Colors in the space CIE L*a*b* under the reference white D65. A straight color is made linear
(`Lab.linear`), taken to tristimulus values, and each of those through `Lab.compress`; the way back
runs through the inverses `Lab.expand` and `Lab.companded`.

Both transfer functions have a straight part near zero and a curved part beyond it, and each chooses
by its own threshold.
-/

namespace MapStyle

/-- **A color by lightness and two opponent axes**, with straight alpha. -/
structure Lab (α : Type) where
  /-- Lightness, `0` to `100`. -/
  lightness : α
  /-- The axis from green to red. -/
  a : α
  /-- The axis from blue to yellow. -/
  b : α
  /-- The alpha channel. -/
  alpha : α

namespace Lab

variable {α : Type} [Scalar α]

/-! ### Constants -/

/-- The first tristimulus value of white. -/
def whiteX : α := 0.950470

/-- The second tristimulus value of white. -/
def whiteY : α := 1.0

/-- The third tristimulus value of white. -/
def whiteZ : α := 1.088830

/-- The compressed value of zero. -/
def offset : α := 4.0 / 29.0

/-- The compressed value where the curved part starts. -/
def knee : α := 6.0 / 29.0

/-- The slope of the straight part of `expand`. -/
def slope : α := 3.0 * knee * knee

/-- The tristimulus value where the curved part starts. -/
def kneeCube : α := knee * knee * knee

/-! ### Transfer functions -/

/-- A tristimulus value relative to white, compressed to perceived lightness. -/
def compress (t : α) : α := if kneeCube < t then Scalar.cbrt t else t / slope + offset

/-- The tristimulus value of a compressed one. -/
def expand (t : α) : α := if knee < t then t * t * t else slope * (t - offset)

/-- A straight channel made linear in light. -/
def linear (x : α) : α :=
  if x ≤ 0.04045 then x / 12.92 else Scalar.pow ((x + 0.055) / 1.055) 2.4

/-- The straight channel of a linear one. -/
def companded (x : α) : α :=
  if x ≤ 0.0031308 then 12.92 * x else 1.055 * Scalar.pow x (1.0 / 2.4) - 0.055

/-! ### Conversions -/

/-- The color in this space. -/
def ofColor (c : Color α) : Lab α :=
  let s := c.unpremultiply
  let r := linear s.red
  let g := linear s.green
  let b := linear s.blue
  let x := compress ((0.4124564 * r + 0.3575761 * g + 0.1804375 * b) / whiteX)
  let y := compress ((0.2126729 * r + 0.7151522 * g + 0.0721750 * b) / whiteY)
  let z := compress ((0.0193339 * r + 0.1191920 * g + 0.9503041 * b) / whiteZ)
  ⟨116.0 * y - 16.0, 500.0 * (x - y), 200.0 * (y - z), s.alpha⟩

/-- The premultiplied color, channels beyond the unit interval cut off. -/
def toColor (c : Lab α) : Color α :=
  let y := (c.lightness + 16.0) / 116.0
  let x := y + c.a / 500.0
  let z := y - c.b / 200.0
  let y := whiteY * expand y
  let x := whiteX * expand x
  let z := whiteZ * expand z
  Straight.premultiply
    ⟨companded (3.2404542 * x - 1.5371385 * y - 0.4985314 * z),
      companded (-0.9692660 * x + 1.8760108 * y + 0.0415560 * z),
      companded (0.0556434 * x - 0.2040259 * y + 1.0572252 * z), c.alpha⟩

/-- Blends two colors of this space along every axis. -/
def blend (c d : Lab α) (t : α) : Lab α :=
  ⟨Scalar.lerp c.lightness d.lightness t, Scalar.lerp c.a d.a t, Scalar.lerp c.b d.b t,
    Scalar.lerp c.alpha d.alpha t⟩

end Lab

end MapStyle
