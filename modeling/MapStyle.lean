import MapStyle.Main
import MapStyle.Proofs.Compilation.ZoomLevels
import MapStyle.Proofs.Compilation.Points
import MapStyle.Proofs.Ramp.Placement
import MapStyle.Proofs.Scalar.Binary64
import MapStyle.Proofs.Scalar.Real
import MapStyle.Proofs.Composite.TwoAxis
import MapStyle.Proofs.Check.Stops
import MapStyle.Proofs.Check.Compilation
import MapStyle.Proofs.Output.Evaluation
import MapStyle.Proofs.Output.Default
import MapStyle.Proofs.Output.Dependence
import MapStyle.Proofs.Output.Concrete
import MapStyle.Proofs.Interpolation.Curve
import MapStyle.Proofs.Interpolation.Breakpoints
import MapStyle.Proofs.Compilation.Input
import MapStyle.Proofs.Output.Reads
import MapStyle.Proofs.FunctionDefinition.RoundTrip
import MapStyle.Proofs.Output.ColorValidity
import MapStyle.Proofs.Lookup.Places
import MapStyle.Proofs.Compilation.Agreement
import MapStyle.Proofs.Ramp.Floor
import MapStyle.Proofs.Ramp.FloorIndex
import MapStyle.Proofs.Lookup.AtStop
import MapStyle.Proofs.Lookup.Stepping
import MapStyle.Proofs.Check.WellFormed
import MapStyle.Proofs.Compilation.Failure
import MapStyle.Proofs.Lookup.Categorical
import MapStyle.Proofs.Compilation.KeyedLevels
import MapStyle.Proofs.Composite.Deferred
import MapStyle.Proofs.Compilation.Outputs
import MapStyle.Proofs.Compilation.HiddenDefault
import MapStyle.Proofs.Output.Containment
import MapStyle.Proofs.Color.Hsl
import MapStyle.Proofs.Color.Css
import MapStyle.Proofs.Color.Hue
import MapStyle.Proofs.Color.Transfer
import MapStyle.Proofs.Scalar.Canonical
import MapStyle.Proofs.Value.Kind
import MapStyle.Proofs.Scalar.Difference
import MapStyle.Proofs.Ramp.Bracket
import MapStyle.Proofs.Scalar.SafeInteger
import MapStyle.Proofs.Value.RoundTrip
