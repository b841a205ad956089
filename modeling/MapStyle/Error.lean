import MapStyle.Strategy

/-!
# Errors

What can be wrong with a function, a property or their text, as causes. The wording of each cause
is in one place: `Problem.message` for what a check of the stops finds, `DefinitionError.detail` for
the rest, and `DefinitionError.message` for the whole.

Evaluation never fails: where it finds no answer, there is none.
-/

namespace MapStyle

/-- The three sorts of errors. -/
inductive ErrorKind where
  /-- A function or property that makes no sense. -/
  | configuration
  /-- A problem reported by a check before compilation. -/
  | validation
  /-- Data that does not have the expected form. -/
  | serialization
  deriving DecidableEq, Repr

/-- What the message of an error starts with. -/
def ErrorKind.label : ErrorKind → String
  | configuration => "configuration error"
  | validation => "validation error"
  | serialization => "serialization error"

/-- The message of an error with the given detail. -/
def ErrorKind.message (kind : ErrorKind) (detail : String) : String := kind.label ++ ": " ++ detail

/-- The place of a value that has to be a color. -/
inductive ColorRole where
  /-- The default of a function. -/
  | functionDefault
  /-- The default of a property. -/
  | propertyDefault
  /-- A value given instead of a function. -/
  | constantValue
  deriving DecidableEq, Repr

/-- The name of the place. -/
def ColorRole.text : ColorRole → String
  | functionDefault => "function default"
  | propertyDefault => "property default"
  | constantValue => "constant value"

/-- The sorts of keys that categorical functions are keyed by. -/
inductive KeySort where
  /-- Strings. -/
  | string
  /-- Numbers. -/
  | number
  /-- Truth values. -/
  | boolean
  deriving DecidableEq, Repr

/-- The name of a sort of keys. -/
def KeySort.text : KeySort → String
  | string => "string"
  | number => "number"
  | boolean => "boolean"

/-- Text in double quotes. -/
def quote (s : String) : String := "\"" ++ s ++ "\""

/-- The form of a key made of a zoom level and a value. -/
def zoomKeyText : String := "\x7bzoom, value\x7d"

/-- Where a stop stands, for messages about it. -/
def stopText (index : Nat) : String := "stop " ++ toString index ++ ": "

/-- **A problem found by checking the stops of a function.** -/
inductive Problem where
  /-- No strategy has the given name. -/
  | unknownStrategy (name : String)
  /-- No color space has the given name. -/
  | unknownColorSpace (name : String)
  /-- The base, whose text is given, is negative or not finite. -/
  | invalidBase (text : String)
  /-- There is nothing to answer with. -/
  | nothingGiven
  /-- Zoom-and-property stops without a property. -/
  | missingProperty
  /-- A zoom level below the one before it. -/
  | zoomDescends (index : Nat)
  /-- A plain key among zoom-and-property keys. -/
  | zoomKeyExpected (index : Nat)
  /-- A zoom-and-property key among plain keys. -/
  | zoomKeyUnexpected (index : Nat)
  /-- A categorical key of no suitable sort. -/
  | unsuitableKey (index : Nat)
  /-- A categorical key of another sort than the first one. -/
  | mixedKeys (index : Nat) (found first : KeySort)
  /-- A key that has to be a number and is not. -/
  | nonNumericKey (index : Nat)
  /-- A key below the one before it. -/
  | keyDescends (index : Nat)
  deriving DecidableEq, Repr

/-- The wording of a problem. -/
def Problem.message : Problem → String
  | unknownStrategy name => "unknown function type " ++ quote name
  | unknownColorSpace name => "unknown color space " ++ quote name
  | invalidBase text => "base must be a non-negative number, found " ++ text
  | nothingGiven => "function needs stops or a default"
  | missingProperty => zoomKeyText ++ " stops need a " ++ quote "property"
  | zoomDescends i => stopText i ++ "zoom levels must be in ascending order"
  | zoomKeyExpected i => stopText i ++ "expected a " ++ zoomKeyText ++ " key"
  | zoomKeyUnexpected i => stopText i ++ "unexpected " ++ zoomKeyText ++ " key"
  | unsuitableKey i => stopText i ++ "categorical keys must be strings, numbers or booleans"
  | mixedKeys i found first =>
    stopText i ++ found.text ++ " key in a function keyed by " ++ first.text
  | nonNumericKey i => stopText i ++ "key must be a number"
  | keyDescends i => stopText i ++ "keys must be in ascending order"

/-- The stop a problem is about, if it is about a single one. -/
def Problem.stop? : Problem → Option Nat
  | zoomDescends i => some i
  | zoomKeyExpected i => some i
  | zoomKeyUnexpected i => some i
  | unsuitableKey i => some i
  | mixedKeys i _ _ => some i
  | nonNumericKey i => some i
  | keyDescends i => some i
  | _ => none

/-- **An error, by its cause.** -/
inductive DefinitionError where
  /-- No strategy has the given name. -/
  | unknownStrategy (name : String)
  /-- No color space has the given name. -/
  | unknownColorSpace (name : String)
  /-- A string that names no color, where a color is needed. -/
  | unreadableColor (role : ColorRole) (text : String)
  /-- A value, whose text is given, that is neither a color nor a string. -/
  | notAColor (role : ColorRole) (text : String)
  /-- A function that needs stops has none, and there is no default. -/
  | noStops (strategy : Strategy)
  /-- A zoom-and-property key in a function of one input. -/
  | zoomKeyInSingleInput (index : Nat)
  /-- A key that is no number, where the strategy needs one. -/
  | nonNumericKey (index : Nat) (strategy : Strategy)
  /-- A zoom-and-property function without property. -/
  | missingProperty
  /-- A plain key in a zoom-and-property function. -/
  | zoomKeyExpected (index : Nat)
  /-- A zoom level that is not a number. -/
  | zoomNotANumber (index : Nat)
  /-- No property type has the given name. -/
  | unknownPropertyType (name : String)
  /-- No element type has the given name. -/
  | unknownElementType (name : String)
  /-- A list property that does not say what its elements are. -/
  | missingElementType
  /-- A problem with the function of the named property. -/
  | invalid (property : String) (problem : Problem)
  /-- Data without the expected form. -/
  | malformed
  /-- An error worded by the caller. -/
  | reported (kind : ErrorKind) (detail : String)
  deriving DecidableEq, Repr

namespace DefinitionError

/-- The sort of an error. -/
def kind : DefinitionError → ErrorKind
  | invalid _ _ => .validation
  | malformed => .serialization
  | reported kind _ => kind
  | _ => .configuration

/-- The wording of a cause. -/
def detail : DefinitionError → String
  | unknownStrategy name => "unknown function type " ++ quote name
  | unknownColorSpace name => "unknown color space " ++ quote name
  | unreadableColor role text => role.text ++ " " ++ quote text ++ " is not a color"
  | notAColor role text => role.text ++ " " ++ text ++ " is not a color"
  | noStops strategy => strategy.name ++ " function has no stops and no default"
  | zoomKeyInSingleInput i => stopText i ++ zoomKeyText ++ " key in a single-input function"
  | nonNumericKey i strategy =>
    stopText i ++ strategy.name ++ " functions need numeric stop keys"
  | missingProperty => "zoom-and-property function needs a " ++ quote "property"
  | zoomKeyExpected i => stopText i ++ "expected a " ++ zoomKeyText ++ " key"
  | zoomNotANumber i => stopText i ++ "zoom is not a number"
  | unknownPropertyType name => "unknown property type " ++ quote name
  | unknownElementType name => "unknown array element type " ++ quote name
  | missingElementType =>
    "array property must declare its element " ++ quote "value" ++ " type"
  | invalid property problem => property ++ ": " ++ problem.message
  | malformed => "unexpected form"
  | reported _ detail => detail

/-- **The message of an error**: its sort and its wording. -/
def message (e : DefinitionError) : String := e.kind.message e.detail

end DefinitionError

end MapStyle
