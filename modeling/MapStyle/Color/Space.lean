import MapStyle.Color.Hcl

/-!
# Color spaces

The spaces a color-valued function can blend in, by name.
-/

namespace MapStyle

/-- A space to blend colors in. -/
inductive ColorSpace where
  /-- Premultiplied channels, blended directly. -/
  | rgb
  /-- Lightness and two opponent axes. -/
  | lab
  /-- Hue, chroma and lightness. -/
  | hcl
  deriving DecidableEq, Repr

namespace ColorSpace

/-- The name of a space in style documents. -/
def name : ColorSpace → String
  | rgb => "rgb"
  | lab => "lab"
  | hcl => "hcl"

/-- The space of a name. -/
def ofName? : String → Option ColorSpace
  | "rgb" => some rgb
  | "lab" => some lab
  | "hcl" => some hcl
  | _ => none

@[simp] theorem ofName?_name (s : ColorSpace) : ofName? s.name = some s := by cases s <;> rfl

/-- **Blends two premultiplied colors in a space**: both are converted into it, blended there, and
the result is converted back. -/
def blend {α : Type} [Scalar α] : ColorSpace → Color α → Color α → α → Color α
  | rgb, c, d, t => c.blend d t
  | lab, c, d, t => ((Lab.ofColor c).blend (Lab.ofColor d) t).toColor
  | hcl, c, d, t => ((Hcl.ofColor c).blend (Hcl.ofColor d) t).toColor

end ColorSpace

end MapStyle
