import MapStyle.Decimal.Layout
import MapStyle.Scalar

/-!
# Binary64 scalars

The carrier the program runs on. Arithmetic is the processor's; the passage to digits is decided
here from the bits of a value, in exact natural-number arithmetic.

A finite value is `± significand · 2 ^ exponent`, read off its bits by `Binary64.significand` and
`Binary64.exponent`. Its text is the shortest decimal that rounds back to it. Plain text prefers
the upper of two equally near decimals, JSON text the even one.
-/

namespace MapStyle

namespace Binary64

/-- The eleven exponent bits. -/
def exponentBits (x : Float) : Nat := x.toBits.toNat / Nat.pow 2 52 % Nat.pow 2 11

/-- The fifty-two fraction bits. -/
def fractionBits (x : Float) : Nat := x.toBits.toNat % Nat.pow 2 52

/-- Whether the sign bit is set. -/
def isNegative (x : Float) : Bool := decide (Nat.pow 2 63 ≤ x.toBits.toNat)

/-- The integral significand of a finite value. -/
def significand (x : Float) : Nat :=
  if exponentBits x = 0 then fractionBits x else fractionBits x + Nat.pow 2 52

/-- The power of two the significand of a finite value is multiplied by. -/
def exponent (x : Float) : Int := (max (exponentBits x) 1 : Nat) - 1075

/-- The magnitude of a finite value. The gap below it is narrow when it is a power of two above the
smallest normal value. -/
def magnitude (x : Float) : BinaryValue :=
  ⟨significand x, exponent x, fractionBits x = 0 ∧ 1 < exponentBits x⟩

/-- The integer equal to a finite value, if there is one. -/
def toInt? (x : Float) : Option Int :=
  let scaled := significand x * Nat.pow 2 (exponent x).toNat
  let unit := Nat.pow 2 (-exponent x).toNat
  if scaled % unit = 0 then
    some (if isNegative x then -(scaled / unit : Nat) else (scaled / unit : Nat))
  else none

/-- The integer equal to a value of magnitude below `2 ^ 53`, all of which are exact. -/
def toSafeInt? (x : Float) : Option Int :=
  if x.isFinite then (toInt? x).filter fun n ↦ n.natAbs < Nat.pow 2 53 else none

/-- The text of a finite value, its magnitude set by `render`. -/
def textOf (tieUp : Bool) (zero : String) (render : Decimal → String) (x : Float) : String :=
  let digits :=
    if significand x = 0 then zero else render ((magnitude x).shortest tieUp)
  if isNegative x then "-" ++ digits else digits

/-- The value nearest to `digits · 10 ^ exponent`. Exponents beyond the range of the format are
answered without computing the power. -/
def ofDecimal (digits : Nat) (exponent : Int) : Float :=
  let point := Decimal.width digits + exponent
  if digits = 0 then 0.0
  else if 400 < point then 1.0 / 0.0
  else if point < -400 then 0.0
  else Float.ofScientific digits (decide (exponent < 0)) exponent.natAbs

end Binary64

instance : Scalar Float where
  decidableLE := Float.decLe
  decidableLT := Float.decLt
  pow := Float.pow
  sqrt := Float.sqrt
  cbrt := Float.cbrt
  sin := Float.sin
  cos := Float.cos
  atan2 := Float.atan2
  round := Float.round
  isFinite := Float.isFinite
  ofInt := Float.ofInt
  ofDecimal := Binary64.ofDecimal
  toSafeInt? := Binary64.toSafeInt?
  positional := Binary64.textOf true "0" (Decimal.positional "")
  jsonDigits := Binary64.textOf false "0.0" Layout.json.render

end MapStyle
