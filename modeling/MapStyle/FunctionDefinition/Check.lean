import MapStyle.Color.Space
import MapStyle.Error
import MapStyle.FunctionDefinition.Basic

/-!
# Checking definitions

The structural check of a function definition: its names are known, its base makes sense, its stops
have keys of one form and of the sort its strategy needs, in ascending order. Every problem is
reported, the ones about the whole function first and then those about single stops in order.

A definition without strategy is checked as a numeric one. Keys of zoom-and-property stops are
compared only within one zoom level.
-/

namespace MapStyle

namespace FunctionDefinition

variable {α : Type} [Scalar α]

/-! ### The function as a whole -/

/-- The strategy that a definition names, if it names a known one. -/
def namedStrategy? (d : FunctionDefinition α) : Option Strategy :=
  d.strategyName.bind Strategy.ofName?

/-- The problem of a name that nothing has. -/
def nameProblems {β : Type} (resolve : String → Option β) (problem : String → Problem) :
    Option String → List Problem
  | none => []
  | some name => if (resolve name).isSome then [] else [problem name]

/-- The problem of a base that is negative or not finite. -/
def baseProblems : Option α → List Problem
  | none => []
  | some base =>
    if Scalar.isFinite base && decide (0.0 ≤ base) then []
    else [.invalidBase (Scalar.textWith "inf" base)]

/-! ### Single stops -/

/-- What the stops before the present one leave behind. -/
structure Trail (α : Type) where
  /-- The zoom level of the stop before. -/
  zoom : Option α
  /-- The last numeric key of the present zoom level. -/
  key : Option α
  /-- The sort of the first categorical key. -/
  sort : Option KeySort

/-- The sort of a categorical key. -/
def keySort? : Json α → Option KeySort
  | .str _ => some .string
  | .int _ => some .number
  | .num _ => some .number
  | .bool _ => some .boolean
  | _ => none

/-- Checks a categorical key against the first one. -/
def checkCategory (i : Nat) (trail : Trail α) (key : Json α) : List Problem × Trail α :=
  match keySort? key, trail.sort with
  | none, _ => ([.unsuitableKey i], trail)
  | some found, none => ([], { trail with sort := some found })
  | some found, some first =>
    if found = first then ([], trail) else ([.mixedKeys i found first], trail)

/-- Checks a numeric key against the one before it. -/
def checkNumber (i : Nat) (trail : Trail α) (key : Json α) : List Problem × Trail α :=
  match key.number? with
  | none => ([.nonNumericKey i], trail)
  | some x =>
    (if trail.key.any (fun p ↦ decide (x < p)) then [.keyDescends i] else [],
      { trail with key := some x })

/-- Checks the part of a key that the strategy looks at. -/
def checkKey (strategy : Option Strategy) (i : Nat) (trail : Trail α) (key : Json α) :
    List Problem × Trail α :=
  match strategy with
  | some .categorical => checkCategory i trail key
  | some .identity => ([], trail)
  | _ => checkNumber i trail key

/-- Checks a zoom level against the one before it. A new level starts its keys afresh. -/
def checkZoom (i : Nat) (trail : Trail α) (zoom : α) : List Problem × Trail α :=
  (if trail.zoom.any (fun p ↦ decide (zoom < p)) then [.zoomDescends i] else [],
    { trail with
      zoom := some zoom
      key := if trail.zoom == some zoom then trail.key else none })

/-- **Checks one stop**, which must have a key of the form that the first stop has. -/
def checkStop (strategy : Option Strategy) (zoomed : Bool) (i : Nat) (trail : Trail α) :
    Stop.Key α → List Problem × Trail α
  | .plain key =>
    if zoomed then ([.zoomKeyExpected i], trail) else checkKey strategy i trail key
  | .zoomed zoom value =>
    if zoomed then
      let (ofZoom, trail) := checkZoom i trail zoom
      let (ofKey, trail) := checkKey strategy i trail value
      (ofZoom ++ ofKey, trail)
    else ([.zoomKeyUnexpected i], trail)

/-- The problems of the stops from index `i` on. -/
def stopProblems (strategy : Option Strategy) (zoomed : Bool) (i : Nat) (trail : Trail α) :
    List (Stop α) → List Problem
  | [] => []
  | stop :: stops =>
    let (found, trail) := checkStop strategy zoomed i trail stop.key
    found ++ stopProblems strategy zoomed (i + 1) trail stops

/-! ### The check -/

/-- The problem of a definition without stops, which needs another way to answer. -/
def emptyProblems (d : FunctionDefinition α) : List Problem :=
  if d.namedStrategy? = some .identity ∨ d.default.isSome then [] else [.nothingGiven]

/-- The problem of zoom-and-property stops without a property. -/
def propertyProblems (d : FunctionDefinition α) : List Problem :=
  if d.isComposite ∧ d.property.isNone then [.missingProperty] else []

/-- **Every problem of a definition.** -/
def problems (d : FunctionDefinition α) : List Problem :=
  nameProblems Strategy.ofName? .unknownStrategy d.strategyName ++
    nameProblems ColorSpace.ofName? .unknownColorSpace d.colorSpaceName ++
    baseProblems d.base ++
    if d.stopList.isEmpty then d.emptyProblems
    else d.propertyProblems ++
      stopProblems d.namedStrategy? d.isComposite 0 ⟨none, none, none⟩ d.stopList

/-- **A check of a definition** for the property of a given name, before it is compiled. -/
abbrev Checker (α : Type) [Scalar α] := FunctionDefinition α → String → List DefinitionError

/-- The structural check. -/
def structuralCheck : Checker α := fun d property ↦ d.problems.map (.invalid property)

end FunctionDefinition

end MapStyle
