import MapStyle.Categories
import MapStyle.Color.Css
import MapStyle.OutputRule
import MapStyle.Ramp.Basic
import MapStyle.Value.Text

/-!
# Functions of one input

A lookup rule answers an input or misses it; an input function is a lookup rule with a fallback for
every miss. The four rules are those of `Strategy`, with everything resolved that a definition only
names.

Misses are many (an input of the wrong kind, a value that is not a number, no matching category, an
output of the wrong shape, two outputs that do not blend) and all of them lead to the same fallback.
-/

namespace MapStyle

variable {α : Type} [Scalar α]

/-- **A lookup rule.** -/
inductive Lookup (α : Type) where
  /-- Blend between the stops on either side, along a curve of the given base. -/
  | exponential (ramp : Ramp α (Value α)) (base : α) (rule : OutputRule)
  /-- Take the stop at or below. -/
  | interval (ramp : Ramp α (Value α)) (rule : OutputRule)
  /-- Take the stop with an equal key. -/
  | categorical (categories : Categories α) (rule : OutputRule)
  /-- Take the input, coerced to the type of the property. -/
  | identity (property : Property α)

namespace Lookup

/-- The answer along a curve: the first or last output at or beyond the ends of the ramp, and
within it the blend of the outputs on either side.

Deferred outputs would not be blended but deferred again. There is no case for that here, since the
outputs of functions of one input are **never deferred**: compilation reads them from data
(`FunctionDefinition.Compiles.isConcrete_outputs`). A lookup for outputs of both sorts is
`Output.exponential`. -/
def exponential? (ramp : Ramp α (Value α)) (base : α) (rule : OutputRule) (input : Value α) :
    Option (Value α) := do
  let x ← input.number?
  match ← ramp.place? x with
  | .at i => rule.keep? (← ramp.output? i)
  | .between i =>
    let t := exponentialFactor x base (← ramp.key? i) (← ramp.key? (i + 1))
    rule.blend? (← ramp.output? i) (← ramp.output? (i + 1)) t

/-- The output of the stop at or below the input, or of the first stop below all. -/
def interval? (ramp : Ramp α (Value α)) (rule : OutputRule) (input : Value α) :
    Option (Value α) := do
  let x ← input.number?
  rule.keep? (← ramp.output? (← ramp.place? x).floor)

/-- The output of the stop whose key the input is. -/
def categorical? (categories : Categories α) (rule : OutputRule) (input : Value α) :
    Option (Value α) := do
  rule.keep? (← categories.lookup? input)

/-- **The input coerced to the type of a property.** Strings become the colors they name, anything
becomes rich text or, unless its text is empty, an image reference by its text; other types take
only what suits them. -/
def identity? (property : Property α) (input : Value α) : Option (Value α) :=
  match property.type, input with
  | .color, .color c => some (.color c)
  | .color, .string s => (Color.ofText? s).map .color
  | .color, _ => none
  | .formatted, .formatted f => some (.formatted f)
  | .formatted, v => some (.formatted (Formatted.ofString v.text))
  | .resolvedImage, .image i => some (.image i)
  | .resolvedImage, v => (Image.ofName? v.text).map .image
  | _, v => if property.suits v then some v else none

/-- **The answer of a lookup rule**, or nothing for a miss. -/
def answer? : Lookup α → Value α → Option (Value α)
  | exponential ramp base rule, input => exponential? ramp base rule input
  | interval ramp rule, input => interval? ramp rule input
  | categorical categories rule, input => categorical? categories rule input
  | identity property, input => identity? property input

end Lookup

/-- **A function of one input**: a lookup rule and what to give for a miss. -/
structure InputFunction (α : Type) where
  /-- How inputs are answered. -/
  lookup : Lookup α
  /-- What is given where there is no answer. -/
  fallback : Option (Value α)

namespace InputFunction

/-- The value for an input. -/
def evaluate (f : InputFunction α) (input : Value α) : Option (Value α) :=
  (f.lookup.answer? input).or f.fallback

end InputFunction

end MapStyle
