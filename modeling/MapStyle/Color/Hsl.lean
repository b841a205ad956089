import MapStyle.Color.Basic

/-!
# Hue, saturation and lightness

The conversion from hue in degrees, saturation and lightness to straight channels. Each channel
reads the same piecewise linear profile at its own offset of the hue: up over a sixth of a turn,
level to the half, down to two thirds, level at the bottom for the rest.
-/

namespace MapStyle

namespace Hsl

variable {α : Type} [Scalar α]

/-- A hue between `0` and `360` degrees as a fraction of a turn, a full turn being none. The whole
turn is added before it is taken off again, which decides how hues near zero are rounded. -/
def turn (hue : α) : α :=
  let h := (if hue < 360.0 then hue else hue - 360.0) + 360.0
  (if h < 720.0 then h - 360.0 else h - 720.0) / 360.0

/-- The profile between the low value `p` and the high value `q` at `t` turns, for `t` at most one
turn outside the unit interval. -/
def profile (p q t : α) : α :=
  let t := if t < 0.0 then t + 1.0 else t
  let t := if 1.0 < t then t - 1.0 else t
  if t < 1.0 / 6.0 then p + (q - p) * 6.0 * t
  else if t < 1.0 / 2.0 then q
  else if t < 2.0 / 3.0 then p + (q - p) * (2.0 / 3.0 - t) * 6.0
  else p

/-- **The straight color of a hue between `0` and `360` degrees**, with saturation, lightness and
alpha in the unit interval. -/
def toStraight (hue saturation lightness alpha : α) : Straight α :=
  if saturation == 0.0 then ⟨lightness, lightness, lightness, alpha⟩
  else
    let h := turn hue
    let q :=
      if lightness < 0.5 then lightness * (1.0 + saturation)
      else lightness + saturation - lightness * saturation
    let p := 2.0 * lightness - q
    ⟨profile p q (h + 1.0 / 3.0), profile p q h, profile p q (h - 1.0 / 3.0), alpha⟩

end Hsl

end MapStyle
