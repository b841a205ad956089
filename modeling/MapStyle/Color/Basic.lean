import MapStyle.Scalar

/-!
# Colors

A color is held with its channels multiplied by alpha, which is the form that renderers consume
and that plain blending works in. `Straight` is the other form, with channels independent of alpha.
-/

namespace MapStyle

/-- **A color with premultiplied channels**, each between zero and alpha for a valid color. -/
structure Color (α : Type) where
  /-- The red channel times alpha. -/
  red : α
  /-- The green channel times alpha. -/
  green : α
  /-- The blue channel times alpha. -/
  blue : α
  /-- The alpha channel. -/
  alpha : α

/-- A color with straight channels: alpha says how much of the color shows. -/
structure Straight (α : Type) where
  /-- The red channel. -/
  red : α
  /-- The green channel. -/
  green : α
  /-- The blue channel. -/
  blue : α
  /-- The alpha channel. -/
  alpha : α

variable {α : Type} [Scalar α]

/-- **The color of straight channels**, all of which are first brought into the unit interval. -/
def Straight.premultiply (s : Straight α) : Color α :=
  let a := Scalar.clamp 0.0 1.0 s.alpha
  ⟨Scalar.clamp 0.0 1.0 s.red * a, Scalar.clamp 0.0 1.0 s.green * a,
    Scalar.clamp 0.0 1.0 s.blue * a, a⟩

namespace Color

instance : BEq (Color α) where
  beq c d := c.red == d.red && c.green == d.green && c.blue == d.blue && c.alpha == d.alpha

/-- Divides the channels by alpha. A fully transparent color has no channels left and comes back as
zeros. -/
def unpremultiply (c : Color α) : Straight α :=
  if c.alpha == 0.0 then ⟨0.0, 0.0, 0.0, 0.0⟩
  else ⟨c.red / c.alpha, c.green / c.alpha, c.blue / c.alpha, c.alpha⟩

/-- A premultiplied channel as text, from `0` to `255`. -/
def channelText (x : α) : String :=
  Scalar.text (Scalar.round (Scalar.clamp 0.0 1.0 x * 255.0))

/-- **The text of a color**: premultiplied channels from `0` to `255`, and alpha. -/
def text (c : Color α) : String :=
  "rgba(" ++ ",".intercalate
    [channelText c.red, channelText c.green, channelText c.blue, Scalar.text c.alpha] ++ ")"

/-- Blends premultiplied channels one by one. -/
def blend (c d : Color α) (t : α) : Color α :=
  ⟨Scalar.lerp c.red d.red t, Scalar.lerp c.green d.green t, Scalar.lerp c.blue d.blue t,
    Scalar.lerp c.alpha d.alpha t⟩

end Color

end MapStyle
