import MapStyle.Decimal.Shortest

/-!
# Decimal layouts

How a decimal is set in characters. `positional` never uses an exponent; a `Layout` says between
which places of the point positional notation is used, and with which marks otherwise.
-/

namespace MapStyle

namespace Decimal

/-- The digit characters of a number. -/
def chars (n : Nat) : List Char := Nat.toDigits 10 n

/-- **Positional notation** without exponent: `0.1`, `3`, `12.5`. A value without fractional digits
is followed by `whole`. -/
def positional (whole : String) (d : Decimal) : String :=
  let cs := chars d.digits
  if 0 ≤ d.exponent then
    String.ofList (cs ++ List.replicate d.exponent.toNat '0') ++ whole
  else if 0 < d.point then
    String.ofList (cs.take d.point.toNat) ++ "." ++ String.ofList (cs.drop d.point.toNat)
  else
    "0." ++ String.ofList (List.replicate (-d.point).toNat '0' ++ cs)

/-- **Exponent notation** with one digit before the point: `1e-6`, `1.5e+300`. -/
def scientific (d : Decimal) : String :=
  let e := d.point - 1
  let mantissa := match chars d.digits with
    | [] => ""
    | c :: [] => String.ofList [c]
    | c :: cs => String.ofList (c :: '.' :: cs)
  mantissa ++ "e" ++ (if e < 0 then "-" else "+") ++ toString e.natAbs

end Decimal

/-- **A number layout**: which places of the decimal point are written positionally, and what
follows a value without fractional digits. -/
structure Layout where
  /-- Positional notation is used for points above this place. -/
  above : Int
  /-- Positional notation is used for points up to this place. -/
  upTo : Int
  /-- What follows the digits of a value without fractional digits. -/
  whole : String

/-- The text of a decimal in a layout. -/
def Layout.render (l : Layout) (d : Decimal) : String :=
  if l.above < d.point ∧ d.point ≤ l.upTo then d.positional l.whole else d.scientific

/-- Numbers in JSON text are positional from `0.00001` up to sixteen digits before the point, and
keep a fractional digit so that they stay apart from integers. -/
def Layout.json : Layout := ⟨-5, 16, ".0"⟩

end MapStyle
