import MapStyle.Json.Basic

/-!
# Numbers in JSON text

A JSON number is read in two ways. Without point and exponent it is an integer, if it fits 64 bits.
Every other number becomes a scalar: its digits are gathered into a significand of 64 bits, digits
beyond those count only for the position of the point, and the significand is multiplied or divided
by a power of ten. A number too large for a finite scalar has no value.
-/

namespace MapStyle

/-- **A number as it stands in JSON text.** -/
structure NumberText where
  /-- Whether a minus sign comes first. -/
  negative : Bool
  /-- The digits before the point. -/
  whole : List Nat
  /-- The digits after the point; absent without a point. -/
  fraction : Option (List Nat)
  /-- The sign and the digits of the exponent; absent without one. -/
  exponent : Option (Bool × List Nat)

/-- A significand of at most 64 bits with its power of ten. -/
structure Significand where
  /-- The digits gathered so far. -/
  digits : Nat
  /-- The power of ten they are multiplied by. -/
  exponent : Int

namespace Significand

/-- Gathers digits before the point after those of `n`. From the first digit that does not fit, each
one raises the power of ten. -/
def ofWhole (n : Nat) : List Nat → Significand
  | [] => ⟨n, 0⟩
  | d :: ds =>
    if n * 10 + d < Nat.pow 2 64 then ofWhole (n * 10 + d) ds
    else ⟨n, (d :: ds).length⟩

/-- Gathers digits after the point. From the first digit that does not fit, all are dropped. -/
def withFraction (s : Significand) : List Nat → Significand
  | [] => s
  | d :: ds =>
    if s.digits * 10 + d < Nat.pow 2 64 then
      withFraction ⟨s.digits * 10 + d, s.exponent - 1⟩ ds
    else s

end Significand

namespace NumberText

/-- The number that a list of digits writes. -/
def value (digits : List Nat) : Nat := digits.foldl (fun n d ↦ n * 10 + d) 0

/-- The significand of a number, before its exponent is applied. -/
def significand (t : NumberText) : Significand :=
  (Significand.ofWhole 0 t.whole).withFraction (t.fraction.getD [])

variable {α : Type} [Scalar α]

/-- The power of ten `10 ^ n` as a scalar. -/
def powerOfTen (n : Nat) : α := OfScientific.ofScientific 1 false n

/-- **Scales a magnitude by a power of ten**, in steps of at most `10 ^ 308`. Scaling up beyond the
finite scalars has no answer; scaling down ends at zero. -/
def scale? (x : α) (e : Int) : Option α :=
  if e.natAbs ≤ 308 then
    if 0 ≤ e then
      let y := x * powerOfTen e.natAbs
      if Scalar.isFinite y then some y else none
    else some (x / powerOfTen e.natAbs)
  else if x == 0.0 then some x
  else if 0 ≤ e then none
  else scale? (x / powerOfTen 308) (e + 308)
termination_by e.natAbs
decreasing_by omega

/-- The magnitude of a number. An exponent that needs more than 31 bits is infinitely large. -/
def magnitude? (t : NumberText) : Option α :=
  let s := t.significand
  match t.exponent with
  | none => scale? (Scalar.ofInt s.digits) s.exponent
  | some (down, digits) =>
    let e := value digits
    if e < Nat.pow 2 31 then
      scale? (Scalar.ofInt s.digits) (if down then s.exponent - e else s.exponent + e)
    else if s.digits = 0 ∨ down then some 0.0
    else none

/-- The integer of a number without point and exponent, if 64 bits hold it. A negative zero is no
integer. -/
def int? (t : NumberText) : Option WordInt :=
  if t.fraction.isSome || t.exponent.isSome then none
  else
    let n := value t.whole
    if t.negative then
      if n = 0 then none else WordInt.ofInt? (-n)
    else WordInt.ofInt? n

/-- **The JSON value of a number**: an integer, or a finite scalar with the sign of the text. -/
def toJson? (t : NumberText) : Option (Json α) :=
  match t.int? with
  | some n => some (.int n)
  | none => (magnitude? t).map fun x ↦ Json.ofScalar (if t.negative then -x else x)

end NumberText

end MapStyle
