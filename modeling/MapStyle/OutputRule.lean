import MapStyle.Color.Space
import MapStyle.Interpolation
import MapStyle.Property

/-!
# Blending outputs

What may be handed out for a property, and how two outputs are blended. Both follow from the type of
the property: numbers, colors and lists of numbers have a blend of their own, everything else holds
the lower output.

An output of the wrong shape is neither admitted nor blended, which makes it a miss.
-/

namespace MapStyle

/-- **The output rule of a property.** -/
inductive OutputRule where
  /-- Numbers are interpolated. -/
  | number
  /-- Colors are blended in a space. -/
  | color (space : ColorSpace)
  /-- Lists of numbers of one length are interpolated place by place. -/
  | numbers
  /-- The lower output holds until the next stop. -/
  | hold
  deriving DecidableEq, Repr

namespace OutputRule

/-- The rule for a type of property, with the color space that colors blend in. -/
def ofType (space : ColorSpace) : PropertyType → OutputRule
  | .number => number
  | .color => color space
  | .array .number _ => numbers
  | _ => hold

variable {α : Type}

/-- **Whether an output may be handed out.** Deferred outputs always may. -/
def allows (rule : OutputRule) (v : Value α) : Bool :=
  match rule, v with
  | _, .deferred _ _ => true
  | number, .number _ => true
  | color _, .color _ => true
  | numbers, .array items => items.all fun item ↦ item.number?.isSome
  | hold, _ => true
  | _, _ => false

/-- The output itself, if it may be handed out. -/
def keep? (rule : OutputRule) (v : Value α) : Option (Value α) :=
  if rule.allows v then some v else none

/-- **The blend of two outputs** at a factor, or nothing if one of them has the wrong shape. -/
def blend? [Scalar α] (rule : OutputRule) (lower upper : Value α) (t : α) : Option (Value α) :=
  match rule with
  | hold => some lower
  | number => do
    return .number (Scalar.lerp (← lower.number?) (← upper.number?) t)
  | color space => do
    return .color (space.blend (← lower.color?) (← upper.color?) t)
  | numbers => do
    let xs ← lower.numbers?
    let ys ← upper.numbers?
    if xs.length = ys.length then some (.array ((lerpAll xs ys t).map .number)) else none

end OutputRule

end MapStyle
