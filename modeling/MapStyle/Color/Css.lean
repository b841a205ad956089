import MapStyle.Color.Components
import MapStyle.Color.Hsl
import MapStyle.Color.Named
import MapStyle.Text.Blank
import MapStyle.Text.Hex
import MapStyle.Text.Numeral

/-!
# CSS colors

The texts that name a color: hexadecimal digits after `#`, the functional forms `rgb`, `rgba`, `hsl`
and `hsla`, and the names of `Color.named`. Case does not matter, nor do blanks around the text,
around an argument, before an opening parenthesis or before a percent sign.

A text belongs to the first form whose frame it has: once it starts with `#`, or is a functional
form with its parentheses, what stands inside decides, and no later form is tried.
-/

namespace MapStyle

namespace Color

variable {α : Type} [Scalar α]

/-! ### Hexadecimal digits -/

/-- The channels of three, four, six or eight digits. A single digit stands for itself twice. -/
def hexBytes? : List Nat → Option Bytes
  | [r, g, b] => some ⟨r * 17, g * 17, b * 17, 255⟩
  | [r, g, b, a] => some ⟨r * 17, g * 17, b * 17, a * 17⟩
  | [r, r', g, g', b, b'] => some ⟨r * 16 + r', g * 16 + g', b * 16 + b', 255⟩
  | [r, r', g, g', b, b', a, a'] =>
    some ⟨r * 16 + r', g * 16 + g', b * 16 + b', a * 16 + a'⟩
  | _ => none

/-- The color of the text after `#`. -/
def ofHex? (cs : List Char) : Option (Color α) := do
  let digits ← cs.mapM Text.hexDigit?
  return ofBytes (← hexBytes? digits)

/-! ### Functional forms -/

/-- The arguments of a functional form with the given name: the trimmed texts between its commas. -/
def arguments? (name : String) (cs : List Char) : Option (List (List Char)) := do
  let rest ← Text.after? name.toList cs
  let inner ← Text.after? ['('] (Text.trimStart rest)
  let inner ← Text.before? [')'] inner
  return (Text.splitOn ',' inner).map Text.trim

/-- A number, or a percentage of `whole`. -/
def share? (whole : α) (cs : List Char) : Option α :=
  match Text.before? ['%'] cs with
  | some percent => (Scalar.ofText? (Text.trim percent)).map fun x ↦ x / 100.0 * whole
  | none => Scalar.ofText? cs

/-- A number with or without a percent sign. -/
def percentage? (cs : List Char) : Option α :=
  Scalar.ofText? (Text.trim ((Text.before? ['%'] cs).getD cs))

/-- A hue: a number, with the unit `deg` right after it or without unit. -/
def hue? (cs : List Char) : Option α :=
  Scalar.ofText? ((Text.before? "deg".toList cs).getD cs)

/-- An optional fourth argument, which must be an alpha value if it is there. -/
def lastAlpha? : List (List Char) → Option (Option α)
  | [] => some none
  | [cs] => (share? 1.0 cs).map some
  | _ => none

/-- The components of three or four arguments of an rgb form. -/
def rgbComponents? : List (List Char) → Option (Components α)
  | r :: g :: b :: rest => do
    let a ← lastAlpha? rest
    return ⟨← share? 255.0 r, ← share? 255.0 g, ← share? 255.0 b, a⟩
  | _ => none

/-- The components of three or four arguments of an hsl form. -/
def hslComponents? : List (List Char) → Option (Components α)
  | h :: s :: l :: rest => do
    let a ← lastAlpha? rest
    return ⟨← hue? h, ← percentage? s, ← percentage? l, a⟩
  | _ => none

/-- The color of the arguments of an rgb form. -/
def ofRgb? (args : List (List Char)) : Option (Color α) := do
  let c ← rgbComponents? args
  if c.rgbFault?.isSome then none
  else
    let s : Straight α :=
      ⟨c.first / 255.0, c.second / 255.0, c.third / 255.0, c.alpha.getD 1.0⟩
    some s.premultiply

/-- The color of the arguments of an hsl form. -/
def ofHsl? (args : List (List Char)) : Option (Color α) := do
  let c ← hslComponents? args
  if c.hslFault?.isSome then none
  else
    some (Hsl.toStraight c.first (c.second / 100.0) (c.third / 100.0)
      (c.alpha.getD 1.0)).premultiply

/-! ### All forms -/

/-- The color of a text without outer blanks and upper-case letters. -/
def ofLower? (cs : List Char) : Option (Color α) :=
  match Text.after? ['#'] cs with
  | some digits => ofHex? digits
  | none =>
    match arguments? "rgba" cs <|> arguments? "rgb" cs with
    | some args => ofRgb? args
    | none =>
      match arguments? "hsla" cs <|> arguments? "hsl" cs with
      | some args => ofHsl? args
      | none => (bytesOfName? (String.ofList cs)).map ofBytes

/-- **The color that a text names**, or nothing if it names none. -/
def ofText? (s : String) : Option (Color α) :=
  ofLower? ((Text.trim s.toList).map Char.toLower)

end Color

end MapStyle
