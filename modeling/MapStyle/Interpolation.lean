import MapStyle.Json.Basic

/-!
# Interpolation

How far an input has come from one stop to the next. Two stops and a base define a curve
`a * base ^ x + c` through both; the factor is the share of the way along it, so that linear
interpolation by the factor lands on the curve. Base one is the straight line.
-/

namespace MapStyle

variable {α : Type} [Scalar α]

/-- **The share of the way from `lower` to `upper` at which `input` stands** on the exponential
curve of the given base. -/
def exponentialFactor (input base lower upper : α) : α :=
  let difference := upper - lower
  let progress := input - lower
  if difference == 0.0 then 0.0
  else if base == 1.0 then progress / difference
  else (Scalar.pow base progress - 1.0) / (Scalar.pow base difference - 1.0)

/-- Linear interpolation of two lists of numbers, place by place; the longer one is cut off. -/
def lerpAll (xs ys : List α) (t : α) : List α :=
  List.zipWith (fun x y ↦ Scalar.lerp x y t) xs ys

/-- **How a function moves between zoom stops**, as it is reported to a renderer. -/
inductive Interpolation (α : Type) where
  /-- Along a straight line. -/
  | linear
  /-- Along the exponential curve of a base. -/
  | exponential (base : α)

namespace Interpolation

/-- The factor between two stops. -/
def factor (input lower upper : α) : Interpolation α → α
  | linear => exponentialFactor input 1.0 lower upper
  | exponential base => exponentialFactor input base lower upper

/-- The description of an interpolation as JSON data. -/
def toJson : Interpolation α → Json α
  | linear => .obj [("name", .str "linear")]
  | exponential base => .obj [("name", .str "exponential"), ("base", Json.ofScalar base)]

end Interpolation

end MapStyle
