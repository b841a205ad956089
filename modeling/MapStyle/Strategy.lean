/-!
# Strategies

The four ways a style function finds its answer for an input, by the names they have in style
documents.
-/

namespace MapStyle

/-- How a function finds its answer for an input. -/
inductive Strategy where
  /-- Blend between the stops on either side. -/
  | exponential
  /-- Take the stop at or below. -/
  | interval
  /-- Take the stop whose key is equal. -/
  | categorical
  /-- Take the input itself, coerced to the type of the property. -/
  | identity
  deriving DecidableEq, Repr

namespace Strategy

/-- The name of a strategy. -/
def name : Strategy → String
  | exponential => "exponential"
  | interval => "interval"
  | categorical => "categorical"
  | identity => "identity"

/-- The strategy of a name. -/
def ofName? : String → Option Strategy
  | "exponential" => some exponential
  | "interval" => some interval
  | "categorical" => some categorical
  | "identity" => some identity
  | _ => none

@[simp] theorem ofName?_name (s : Strategy) : ofName? s.name = some s := by cases s <;> rfl

end Strategy

end MapStyle
