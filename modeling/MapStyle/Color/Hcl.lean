import MapStyle.Color.Lab

/-!
# Hue, chroma and lightness

The polar form of `Lab`: the two opponent axes become an angle and a radius. Blending takes the hue
the short way around the circle.
-/

namespace MapStyle

/-- **A color by hue, chroma and lightness**, with straight alpha. -/
structure Hcl (α : Type) where
  /-- Hue in degrees. -/
  hue : α
  /-- Chroma. -/
  chroma : α
  /-- Lightness, `0` to `100`. -/
  lightness : α
  /-- The alpha channel. -/
  alpha : α

namespace Hcl

variable {α : Type} [Scalar α]

/-- The color in this space, with a hue from `0` to `360`. -/
def ofColor (c : Color α) : Hcl α :=
  let lab := Lab.ofColor c
  let h := Scalar.degrees (Scalar.atan2 lab.b lab.a)
  ⟨if h < 0.0 then h + 360.0 else h, Scalar.sqrt (lab.a * lab.a + lab.b * lab.b),
    lab.lightness, lab.alpha⟩

/-- The premultiplied color. -/
def toColor (c : Hcl α) : Color α :=
  let h := Scalar.radians c.hue
  Lab.toColor ⟨c.lightness, Scalar.cos h * c.chroma, Scalar.sin h * c.chroma, c.alpha⟩

/-- **The hue `t` of the way from `a` to `b` along the shorter arc.** A difference of more than half
a turn is reduced by the nearest number of whole turns. -/
def blendHue (a b t : α) : α :=
  let d := b - a
  let d := if Scalar.within (-180.0) 180.0 d then d else d - 360.0 * Scalar.round (d / 360.0)
  a + t * d

/-- Blends two colors of this space along every axis, the hue along the shorter arc. -/
def blend (c d : Hcl α) (t : α) : Hcl α :=
  ⟨blendHue c.hue d.hue t, Scalar.lerp c.chroma d.chroma t,
    Scalar.lerp c.lightness d.lightness t, Scalar.lerp c.alpha d.alpha t⟩

end Hcl

end MapStyle
