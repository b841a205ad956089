import MapStyle.Feature
import MapStyle.StyleFunction.Lookup

/-!
# Style functions

A style function ready for evaluation is a constant, or depends on the zoom level (*camera*), on a
feature property (*source*), or on both (*composite*). A composite function has a source function at
each of its zoom levels and blends their answers along zoom.

What a function depends on is its constructor, so it can be asked for without evaluating anything.
-/

namespace MapStyle

/-- **What the value of a function depends on.** -/
inductive Dependence where
  /-- Nothing. -/
  | constant
  /-- A feature property. -/
  | source
  /-- The zoom level. -/
  | camera
  /-- The zoom level and a feature property. -/
  | composite
  deriving DecidableEq, Repr

namespace Dependence

/-- The name of a dependence. -/
def name : Dependence → String
  | constant => "constant"
  | source => "source"
  | camera => "camera"
  | composite => "composite"

/-- Whether the zoom level matters. -/
def onZoom : Dependence → Bool
  | camera => true
  | composite => true
  | _ => false

/-- Whether the feature matters. -/
def onFeature : Dependence → Bool
  | source => true
  | composite => true
  | _ => false

end Dependence

variable {α : Type} [Scalar α]

/-- A function of one feature property. -/
structure SourceFunction (α : Type) where
  /-- The name of the property it reads. -/
  property : String
  /-- What it makes of the property's value. -/
  ofValue : InputFunction α

/-- **The value of a source function for an optional feature.** Without a feature, without the
property, or with a value that is not concrete data, it is the fallback. -/
def SourceFunction.evaluate (f : SourceFunction α) (feature : Option (Feature α)) :
    Option (Value α) :=
  match feature.bind fun g ↦ g.get? f.property with
  | some v => if v.isConcrete then f.ofValue.evaluate v else f.ofValue.fallback
  | none => f.ofValue.fallback

/-- **A style function.** -/
inductive StyleFunction (α : Type) where
  /-- Always the same value. -/
  | constant (v : Value α)
  /-- A function of the zoom level, with its zoom breakpoints. -/
  | camera (f : InputFunction α) (zooms : List α)
  /-- A function of a feature property. -/
  | source (f : SourceFunction α)
  /-- A source function at each zoom level, blended along zoom on a curve of the given base. -/
  | composite (levels : Ramp α (SourceFunction α)) (base : α) (rule : OutputRule)

namespace StyleFunction

/-- What a function depends on. -/
def dependence : StyleFunction α → Dependence
  | constant _ => .constant
  | camera _ _ => .camera
  | source _ => .source
  | composite _ _ _ => .composite

/-- **How a function moves between its zoom breakpoints**, if it blends along zoom at all. -/
def interpolation : StyleFunction α → Option (Interpolation α)
  | camera f _ =>
    match f.lookup with
    | .exponential _ base _ => some (.exponential base)
    | _ => none
  | composite _ base _ => some (if base == 1.0 then .linear else .exponential base)
  | _ => none

/-- The zoom breakpoints in the order of the stops. -/
def breakpoints : StyleFunction α → List α
  | camera _ zooms => zooms
  | composite levels _ _ => levels.keys.toList
  | _ => []

/-- The factor between two zoom breakpoints; zero for a function that does not blend along zoom. -/
def zoomFactor (f : StyleFunction α) (input lower upper : α) : α :=
  match f.interpolation with
  | some i => i.factor input lower upper
  | none => 0.0

/-! ### Evaluation -/

/-- **The value of the levels of a composite function.** At or beyond either end it is the value of
the first or last level; from one level up to the next both must have a value, and the two are
blended.

The levels are asked on the way. Stored as deferred outputs, found by an exponential lookup that has
no fallback, and asked at last, they have the same value (`evaluateDeferred_eq`). -/
def evaluateLevels (levels : Ramp α (SourceFunction α)) (base : α) (rule : OutputRule) (zoom : α)
    (feature : Option (Feature α)) : Option (Value α) := do
  match ← levels.place? zoom with
  | .at i => (← levels.output? i).evaluate feature
  | .between i =>
    let t := exponentialFactor zoom base (← levels.key? i) (← levels.key? (i + 1))
    let lower ← (← levels.output? i).evaluate feature
    let upper ← (← levels.output? (i + 1)).evaluate feature
    rule.blend? lower upper t

/-- **The value of a function at a zoom level for an optional feature.** -/
def evaluate (zoom : α) (feature : Option (Feature α)) : StyleFunction α → Option (Value α)
  | constant v => some v
  | camera f _ => f.evaluate (.number zoom)
  | source f => f.evaluate feature
  | composite levels base rule => evaluateLevels levels base rule zoom feature

/-- A description of a function as JSON data: what it depends on, how it moves along zoom, and its
zoom breakpoints. -/
def toJson (f : StyleFunction α) : Json α :=
  .obj [("kind", .str f.dependence.name),
    ("interpolation", (f.interpolation.map Interpolation.toJson).getD .null),
    ("zoomStops", .arr (f.breakpoints.map Json.ofScalar))]

end StyleFunction

end MapStyle
