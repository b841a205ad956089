/-!
# Shortest decimals

A binary value `m · 2 ^ q` stands for every real number that rounds to it. This module picks the
decimal that is written for it: the one with the fewest significant digits inside that interval,
and among those the nearest to the value itself.

## The search

The interval runs from halfway to the value below to halfway to the value above, its ends included
exactly when `m` is even, as rounding to even prescribes. On the grid of decimals with `n`
significant digits only the two neighbours of the value have to be tried: if any grid point lies in
the interval, so does one of those two. The first `n` with a hit wins.

All arithmetic is on natural numbers: the value, its interval and the grid are compared after
clearing denominators.
-/

namespace MapStyle

/-- A decimal `digits · 10 ^ exponent`. -/
structure Decimal where
  /-- The significant digits, read as one number. -/
  digits : Nat
  /-- The power of ten they are multiplied by. -/
  exponent : Int
  deriving DecidableEq, Repr

namespace Decimal

/-- The number of decimal digits of `n`; zero has one. -/
def width (n : Nat) : Nat := (Nat.toDigits 10 n).length

/-- Divides trailing zeros out of a number of at most `fuel` digits, counting them. -/
def stripZeros : Nat → Nat → Nat × Nat
  | 0, n => (n, 0)
  | fuel + 1, n =>
    if n ≠ 0 ∧ n % 10 = 0 then
      let (d, k) := stripZeros fuel (n / 10)
      (d, k + 1)
    else (n, 0)

/-- The same decimal without trailing zeros among its digits. -/
def normalize (d : Decimal) : Decimal :=
  let (n, k) := stripZeros (width d.digits) d.digits
  ⟨n, d.exponent + k⟩

/-- The place of the decimal point relative to the first digit: `0.1` has `0`, `12.5` has `2`. -/
def point (d : Decimal) : Int := width d.digits + d.exponent

end Decimal

/-- **A positive binary value** `significand · 2 ^ exponent`. Below a power of two the next smaller
value of the format can be half as far away as the next larger one; `narrow` records that. -/
structure BinaryValue where
  /-- The integral significand. -/
  significand : Nat
  /-- The power of two it is multiplied by. -/
  exponent : Int
  /-- Whether the gap below the value is half the gap above it. -/
  narrow : Bool

namespace BinaryValue

variable (v : BinaryValue)

/-! ### The value over a common denominator

In quarters of the last place the value is `4 · significand`, the halfway points are two above and
two (or one, if narrow) below. `scale / unit` is that quarter. -/

/-- The numerator of a quarter of the last place. -/
def scale : Nat := Nat.pow 2 (v.exponent - 2).toNat

/-- The denominator of a quarter of the last place. -/
def unit : Nat := Nat.pow 2 (2 - v.exponent).toNat

/-- The numerator of the value over `unit`. -/
def middle : Nat := 4 * v.significand * v.scale

/-- The numerator of the lower halfway point over `unit`. -/
def lower : Nat := (4 * v.significand - if v.narrow then 1 else 2) * v.scale

/-- The numerator of the upper halfway point over `unit`. -/
def upper : Nat := (4 * v.significand + 2) * v.scale

/-- The number of digits before the decimal point; for a value below one, minus the number of zeros
that follow it. -/
def magnitude : Int :=
  if v.unit ≤ v.middle then Decimal.width (v.middle / v.unit)
  else 1 - Decimal.width ((v.unit + v.middle - 1) / v.middle - 1)

/-- Whether `c · 10 ^ e` rounds to the value. -/
def roundsTo (c : Nat) (e : Int) : Bool :=
  let p := Nat.pow 10 (-e).toNat
  let x := c * v.unit * Nat.pow 10 e.toNat
  if v.significand % 2 = 0 then decide (v.lower * p ≤ x ∧ x ≤ v.upper * p)
  else decide (v.lower * p < x ∧ x < v.upper * p)

/-- Of the two neighbours of the value among the multiples of `10 ^ e`, the one that rounds to it;
if both do, the nearer, and at equal distance the upper one if `tieUp`, else the even one. -/
def neighbor? (tieUp : Bool) (e : Int) : Option Nat :=
  let n := v.middle * Nat.pow 10 (-e).toNat
  let d := v.unit * Nat.pow 10 e.toNat
  let below := n / d
  let above := below + 1
  match v.roundsTo below e, v.roundsTo above e with
  | false, false => none
  | true, false => some below
  | false, true => some above
  | true, true =>
    let twice := 2 * n
    let half := (2 * below + 1) * d
    if twice < half then some below
    else if half < twice then some above
    else if tieUp || below % 2 = 1 then some above
    else some below

/-- **The shortest decimal** that rounds to the value, trying one digit, two, and so on to
seventeen, which always suffice. -/
def shortest (tieUp : Bool) : Decimal :=
  let k := v.magnitude
  let hit := (List.range 17).findSome? fun i ↦
    let e := k - (i + 1 : Nat)
    (v.neighbor? tieUp e).map fun c ↦ (⟨c, e⟩ : Decimal)
  (hit.getD ⟨v.significand, v.exponent⟩).normalize

end BinaryValue

end MapStyle
