import MapStyle.FunctionDefinition.Check
import MapStyle.StyleFunction.Basic

/-!
# Compiling definitions

From a function definition and the property it is for to a style function. All names are resolved,
outputs and defaults of color properties are read as colors, and the stops are arranged for lookup.

An output that names no color is kept as it is and becomes a miss when an evaluation reaches it; a
default that names no color is an error. The default of the property is not looked at when the
function has one of its own.

## Zoom-and-property functions

The stops are grouped by zoom level, in order of first appearance. The stops of a level, without
their zoom, define a source function, which has the strategy and the default of the whole. The base
belongs to the zoom axis alone: the levels are linear.
-/

namespace MapStyle

variable {α : Type} [Scalar α]

/-! ### Names and defaults -/

/-- The strategy of a definition: the one it names, or the one that suits the property. -/
def FunctionDefinition.strategyFor (d : FunctionDefinition α) (property : Property α) :
    Except DefinitionError Strategy :=
  match d.strategyName with
  | none => .ok (if property.interpolated then .exponential else .interval)
  | some name =>
    match Strategy.ofName? name with
    | some s => .ok s
    | none => .error (.unknownStrategy name)

/-- The color space of a definition, plain channels unless it names one. -/
def FunctionDefinition.colorSpace (d : FunctionDefinition α) :
    Except DefinitionError ColorSpace :=
  match d.colorSpaceName with
  | none => .ok .rgb
  | some name =>
    match ColorSpace.ofName? name with
    | some s => .ok s
    | none => .error (.unknownColorSpace name)

/-- A value read as a color. -/
def Value.asColor (role : ColorRole) : Value α → Except DefinitionError (Value α)
  | color c => .ok (color c)
  | string s =>
    match Color.ofText? s with
    | some c => .ok (color c)
    | none => .error (.unreadableColor role s)
  | v => .error (.notAColor role v.text)

/-- A value as the property needs it: a color for color properties, itself for all others. -/
def Property.coerce (property : Property α) (role : ColorRole) (v : Value α) :
    Except DefinitionError (Value α) :=
  if property.type = .color then v.asColor role else .ok v

/-- **What a function gives where it has no answer**: its own default, or else the default of the
property. -/
def FunctionDefinition.fallback (d : FunctionDefinition α) (property : Property α) :
    Except DefinitionError (Option (Value α)) :=
  match d.default, property.default with
  | some j, _ => (property.coerce .functionDefault (Value.ofJson j)).map some
  | none, some v => (property.coerce .propertyDefault v).map some
  | none, none => .ok none

/-- A stop's output. Strings that name a color become one in color properties. -/
def Property.output (property : Property α) (j : Json α) : Value α :=
  match property.type, Value.ofJson j with
  | .color, .string s =>
    match Color.ofText? s with
    | some c => .color c
    | none => .string s
  | _, v => v

/-! ### Lookup rules -/

/-- The value of the plain key of stop `i`. -/
def Stop.singleKey (i : Nat) (s : Stop α) : Except DefinitionError (Value α) :=
  match s.key with
  | .plain key => .ok (Value.ofJson key)
  | .zoomed _ _ => .error (.zoomKeyInSingleInput i)

/-- The stops from index `i` on, with numeric keys. -/
def scalarStops (property : Property α) (strategy : Strategy) (i : Nat) :
    List (Stop α) → Except DefinitionError (List (α × Value α))
  | [] => .ok []
  | s :: stops => do
    match (← s.singleKey i).number? with
    | none => .error (.nonNumericKey i strategy)
    | some x =>
      let rest ← scalarStops property strategy (i + 1) stops
      return (x, property.output s.output) :: rest

/-- The stops from index `i` on, with keys of any kind. -/
def categoryStops (property : Property α) (i : Nat) :
    List (Stop α) → Except DefinitionError (List (Value α × Value α))
  | [] => .ok []
  | s :: stops => do
    let key ← s.singleKey i
    let rest ← categoryStops property (i + 1) stops
    return (key, property.output s.output) :: rest

/-- **The lookup rule of a strategy** for stops with plain keys. -/
def Lookup.ofStops (property : Property α) (strategy : Strategy) (base : α) (rule : OutputRule)
    (stops : List (Stop α)) : Except DefinitionError (Lookup α) :=
  match strategy with
  | .exponential => do
    let stops ← scalarStops property strategy 0 stops
    return .exponential (.ofList stops) base rule
  | .interval => do
    let stops ← scalarStops property strategy 0 stops
    return .interval (.ofList stops) rule
  | .categorical => do
    let stops ← categoryStops property 0 stops
    return .categorical (.ofStops stops) rule
  | .identity => .ok (.identity property)

/-! ### Zoom levels -/

/-- Adds a stop to its zoom level, which is found by numeric equality; a new level comes last. In
binary64 the level can be found by the bits of the zoom as well (`groupByZoom_eq_groupByBits`). -/
def addToLevel {β : Type} (zoom : α) (stop : β) : List (α × List β) → List (α × List β)
  | [] => [(zoom, [stop])]
  | (z, stops) :: levels =>
    if z == zoom then (z, stops ++ [stop]) :: levels
    else (z, stops) :: addToLevel zoom stop levels

/-- **Groups stops by zoom level**, from index `i` on. The stops of a level keep their order and
lose their zoom. -/
def groupByZoom (i : Nat) (levels : List (α × List (Stop α))) :
    List (Stop α) → Except DefinitionError (List (α × List (Stop α)))
  | [] => .ok levels
  | s :: stops =>
    match s.key with
    | .plain _ => .error (.zoomKeyExpected i)
    | .zoomed zoom value =>
      if Scalar.isNaN zoom then .error (.zoomNotANumber i)
      else groupByZoom (i + 1) (addToLevel zoom ⟨.plain value, s.output⟩ levels) stops

/-! ### Compilation -/

namespace FunctionDefinition

/-- The zoom breakpoints of a function of one input: its plain numeric keys. -/
def plainNumbers (d : FunctionDefinition α) : List α :=
  d.stopList.filterMap fun s ↦
    match s.key with
    | .plain key => key.number?
    | .zoomed _ _ => none

/-- Compiles a zoom-and-property function. -/
def compileLevels (d : FunctionDefinition α) (property : Property α) (strategy : Strategy)
    (rule : OutputRule) (fallback : Option (Value α)) :
    Except DefinitionError (StyleFunction α) := do
  match d.property with
  | none => .error .missingProperty
  | some name =>
    let groups ← groupByZoom 0 [] d.stopList
    let levels ← groups.mapM fun (zoom, stops) ↦ do
      let lookup ← Lookup.ofStops property strategy 1.0 rule stops
      return (zoom, (⟨name, ⟨lookup, fallback⟩⟩ : SourceFunction α))
    return .composite (.ofList levels) (d.base.getD 1.0) rule

/-- Compiles a function of one input: of a property if it names one, of the zoom level if not. -/
def compileSingle (d : FunctionDefinition α) (property : Property α) (strategy : Strategy)
    (rule : OutputRule) (fallback : Option (Value α)) :
    Except DefinitionError (StyleFunction α) := do
  let lookup ← Lookup.ofStops property strategy (d.base.getD 1.0) rule d.stopList
  match d.property with
  | some name => return .source ⟨name, ⟨lookup, fallback⟩⟩
  | none => return .camera ⟨lookup, fallback⟩ d.plainNumbers

/-- **Compiles a definition for a property.** A function without stops is its default, unless it is
the identity. -/
def compile (d : FunctionDefinition α) (property : Property α) :
    Except DefinitionError (StyleFunction α) := do
  let strategy ← d.strategyFor property
  let space ← d.colorSpace
  let rule := OutputRule.ofType space property.type
  let fallback ← d.fallback property
  if d.stopList.isEmpty && strategy != .identity then
    match fallback with
    | none => .error (.noStops strategy)
    | some v => return .constant v
  else if d.isComposite then d.compileLevels property strategy rule fallback
  else d.compileSingle property strategy rule fallback

/-- **Checks a definition, then compiles it.** The first error of the check is the error. -/
def compileChecked (check : Checker α) (d : FunctionDefinition α) (property : Property α)
    (name : String) : Except DefinitionError (StyleFunction α) :=
  match check d name with
  | e :: _ => .error e
  | [] => d.compile property

end FunctionDefinition

/-- **Compiles a property value**, which is a function definition if it is an object and a constant
otherwise. -/
def Property.compile (property : Property α) (j : Json α) :
    Except DefinitionError (StyleFunction α) :=
  if j.isObject then
    match FunctionDefinition.ofJson? j with
    | none => .error .malformed
    | some d => d.compile property
  else (property.coerce .constantValue (Value.ofJson j)).map .constant

end MapStyle
