import MapStyle.Proofs.Output.Shape
import MapStyle.Proofs.Ramp.Placement
import MapStyle.StyleFunction.Lookup

/-!
# Answers by place

Blending and stepping both place their input on a ramp and then look at what stands there. So what
they answer is known once the place is. At an end of the ramp, or beyond it, both hand out the
output there; between two stops one of them blends and the other stays below.

Where the lower output holds until the next stop there is nothing to blend, and **the two are one
rule** (`exponential?_hold`), on any ramp and for any input.
-/

namespace MapStyle

variable {α : Type} [Scalar α]

namespace Lookup

variable {ramp : Ramp α (Value α)} {base x lo hi : α} {rule : OutputRule} {i : Nat}
  {v lower upper : Value α}

theorem exponential?_of_at (hplace : ramp.place? x = some (.at i)) (hv : ramp.output? i = some v) :
    exponential? ramp base rule (.number x) = rule.keep? v := by
  simp only [exponential?, Value.number?, Option.bind_eq_bind, Option.bind_some, hplace, hv]

theorem exponential?_of_between (hplace : ramp.place? x = some (.between i))
    (hlo : ramp.key? i = some lo) (hhi : ramp.key? (i + 1) = some hi)
    (hlower : ramp.output? i = some lower) (hupper : ramp.output? (i + 1) = some upper) :
    exponential? ramp base rule (.number x) =
      rule.blend? lower upper (exponentialFactor x base lo hi) := by
  simp only [exponential?, Value.number?, Option.bind_eq_bind, Option.bind_some, hplace, hlo, hhi,
    hlower, hupper]

theorem interval?_of_place? {place : Ramp.Place} (hplace : ramp.place? x = some place)
    (hv : ramp.output? place.floor = some v) : interval? ramp rule (.number x) = rule.keep? v := by
  simp only [interval?, Value.number?, Option.bind_eq_bind, Option.bind_some, hplace, hv]

/-- **What is not blended is stepped.** Neither the order of the keys nor the base matters. -/
theorem exponential?_hold (ramp : Ramp α (Value α)) (base : α) (input : Value α) :
    exponential? ramp base .hold input = interval? ramp .hold input := by
  rcases hinput : input.number? with - | x
  · simp [exponential?, interval?, hinput]
  · obtain rfl := Value.number?_eq_some_iff.1 hinput
    rcases hplace : ramp.place? x with - | i | i
    · simp [exponential?, interval?, Value.number?, hplace]
    · obtain ⟨v, hv⟩ := Ramp.exists_output_of_at hplace
      rw [exponential?_of_at hplace hv, interval?_of_place? hplace hv]
    · -- Both stops are there, so the blend is of two outputs, and it is the lower one.
      obtain ⟨lo, hi, lower, upper, hlo, hhi, hlower, hupper⟩ := Ramp.exists_stops_of_between hplace
      rw [exponential?_of_between hplace hlo hhi hlower hupper, interval?_of_place? hplace hlower,
        OutputRule.keep?_hold]
      rfl

end Lookup

end MapStyle
