/-!
# Scalars

The numbers a map style computes with. Zoom levels, stop keys, color channels and numeric
property values are all scalars, and every rule of the library that touches one is stated over
an arbitrary carrier `α` with `[Scalar α]`. The program runs at binary64 (`Scalar.Binary64`); the
same definitions can be read at an ordered field, where interpolation and color arithmetic are
exact.

## What is supplied and what is derived

The class supplies arithmetic, the two orders, the transcendental functions that color spaces
need, and the passage between scalars, integers and decimal text. Everything else is derived here
from those: `isNaN` is inequality with itself, `clamp` and `lerp` are their textbook formulas, and
`text` names the values that have no digits.

Constants are written in scientific form (`255.0`), which is the only literal form a scalar has.
-/

namespace MapStyle

/-- **A carrier of numbers.** Comparison is decidable and `==` is numeric equality, which need not
be reflexive: a value that differs from itself is *not a number* (`Scalar.isNaN`). -/
class Scalar (α : Type) where
  /-- Addition. -/
  [add : Add α]
  /-- Subtraction. -/
  [sub : Sub α]
  /-- Multiplication. -/
  [mul : Mul α]
  /-- Division. -/
  [div : Div α]
  /-- Change of sign. -/
  [neg : Neg α]
  /-- The weak order. -/
  [le : LE α]
  /-- The strict order. -/
  [lt : LT α]
  /-- Numeric equality. -/
  [beq : BEq α]
  /-- Constants in scientific form. -/
  [scientific : OfScientific α]
  /-- `≤` is decidable. -/
  decidableLE (x y : α) : Decidable (x ≤ y)
  /-- `<` is decidable. -/
  decidableLT (x y : α) : Decidable (x < y)
  /-- The first argument raised to the second. -/
  pow : α → α → α
  /-- Square root. -/
  sqrt : α → α
  /-- Cube root. -/
  cbrt : α → α
  /-- Sine of an angle in radians. -/
  sin : α → α
  /-- Cosine of an angle in radians. -/
  cos : α → α
  /-- The angle, in radians, of the point with the second argument as abscissa and the first as
  ordinate. -/
  atan2 : α → α → α
  /-- The nearest integral value, halves away from zero. -/
  round : α → α
  /-- Whether the value is an ordinary number: neither infinite nor not a number. -/
  isFinite : α → Bool
  /-- The scalar nearest to an integer. -/
  ofInt : Int → α
  /-- The scalar nearest to `digits · 10 ^ exponent`. -/
  ofDecimal (digits : Nat) (exponent : Int) : α
  /-- The integer equal to a value, for integral values of magnitude below `2 ^ 53`. -/
  toSafeInt? : α → Option Int
  /-- The shortest digits of a finite value, in positional notation. -/
  positional : α → String
  /-- The digits of a finite value as JSON text writes a number that is not kept as an integer. -/
  jsonDigits : α → String

namespace Scalar

variable {α : Type} [Scalar α]

/-! ### Operations

A carrier brings its own operations; these instances only find them where nothing else is known
about it, which is why they yield to any other. -/

instance (priority := low) toAdd : Add α := add

instance (priority := low) toSub : Sub α := sub

instance (priority := low) toMul : Mul α := mul

instance (priority := low) toDiv : Div α := div

instance (priority := low) toNeg : Neg α := neg

instance (priority := low) toLE : LE α := le

instance (priority := low) toLT : LT α := lt

instance (priority := low) toBEq : BEq α := beq

instance (priority := low) toOfScientific : OfScientific α := scientific

instance (priority := low) toDecidableLE (x y : α) : Decidable (x ≤ y) := decidableLE x y

instance (priority := low) toDecidableLT (x y : α) : Decidable (x < y) := decidableLT x y

/-! ### Derived tests and values -/

/-- A value is not a number exactly when it differs from itself. -/
def isNaN (x : α) : Bool := !(x == x)

/-- The value above every number. -/
def infinity : α := 1.0 / 0.0

/-- The value that is not a number. -/
def nan : α := 0.0 / 0.0

/-- Whether `x` lies in the closed interval from `lo` to `hi`; false of a value that is not a
number. -/
def within (lo hi x : α) : Bool := decide (lo ≤ x) && decide (x ≤ hi)

/-- The point of the closed interval from `lo` to `hi` nearest to `x`. A value that is not a number
is left as it is. -/
def clamp (lo hi x : α) : α :=
  if x < lo then lo else if hi < x then hi else x

/-- **Linear interpolation**: the point `t` of the way from `a` to `b`. -/
def lerp (a b t : α) : α := a + (b - a) * t

/-- The ratio of a circle's circumference to its diameter, to sixteen digits. -/
def pi : α := 3.141592653589793

/-- An angle in radians, expressed in degrees. -/
def degrees (x : α) : α := x * (180.0 / pi)

/-- An angle in degrees, expressed in radians. -/
def radians (x : α) : α := x * (pi / 180.0)

/-! ### Text -/

/-- The text of a value with `infinite` standing for the value above every number: digits for a
finite value, `NaN` for one that is not a number. -/
def textWith (infinite : String) (x : α) : String :=
  if isNaN x then "NaN"
  else if isFinite x then positional x
  else if 0.0 < x then infinite
  else "-" ++ infinite

/-- **Plain number text**, the form style documents are written in: `3`, `0.5`, `-Infinity`. Both
zeros read `0`. -/
def text (x : α) : String := if x == 0.0 then "0" else textWith "Infinity" x

end Scalar

end MapStyle
