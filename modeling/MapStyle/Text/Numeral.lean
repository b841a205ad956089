import MapStyle.Scalar

/-!
# Numerals

The number texts that colors and the command line accept: an optional sign, then digits with an
optional point among or around them and an optional exponent, or one of the words `inf`, `infinity`
and `nan` in any case. At least one digit must stand beside the point, and one in the exponent.
-/

namespace MapStyle

/-- What a number text says, before it is read as a scalar. -/
inductive Numeral where
  /-- The decimal `digits · 10 ^ exponent`. -/
  | decimal (digits : Nat) (exponent : Int)
  /-- The word for the value above every number. -/
  | infinite
  /-- The word for the value that is not a number. -/
  | nan
  deriving DecidableEq, Repr

namespace Numeral

/-- The number a list of digit characters writes, continuing from `n`. -/
def digitsFrom (n : Nat) (cs : List Char) : Nat :=
  cs.foldl (fun n c ↦ 10 * n + (c.toNat - '0'.toNat)) n

/-- A sign and the text that follows it; no sign is positive. -/
def sign (cs : List Char) : Bool × List Char :=
  match cs with
  | '-' :: cs => (true, cs)
  | '+' :: cs => (false, cs)
  | cs => (false, cs)

/-- An optional exponent that takes up the whole text. -/
def exponent? (cs : List Char) : Option Int :=
  match cs with
  | [] => some 0
  | c :: cs =>
    if c = 'e' ∨ c = 'E' then
      let (negative, digits) := sign cs
      if digits.isEmpty || !digits.all Char.isDigit then none
      else
        let e : Int := digitsFrom 0 digits
        some (if negative then -e else e)
    else none

/-- The fraction digits after a point, and the text that follows them; none without a point. -/
def fraction (cs : List Char) : List Char × List Char :=
  match cs with
  | '.' :: cs => (cs.takeWhile Char.isDigit, cs.dropWhile Char.isDigit)
  | cs => ([], cs)

/-- An unsigned numeral in decimal digits. -/
def decimal? (cs : List Char) : Option Numeral :=
  let whole := cs.takeWhile Char.isDigit
  let (digits, rest) := fraction (cs.dropWhile Char.isDigit)
  if whole.isEmpty && digits.isEmpty then none
  else (exponent? rest).map fun e ↦
    .decimal (digitsFrom (digitsFrom 0 whole) digits) (e - digits.length)

/-- An unsigned numeral: a word in any case, or decimal digits. -/
def unsigned? (cs : List Char) : Option Numeral :=
  match String.ofList (cs.map Char.toLower) with
  | "inf" => some .infinite
  | "infinity" => some .infinite
  | "nan" => some .nan
  | _ => decimal? cs

variable {α : Type} [Scalar α]

/-- The scalar a numeral stands for. -/
def toScalar : Numeral → α
  | decimal digits exponent => Scalar.ofDecimal digits exponent
  | infinite => Scalar.infinity
  | nan => Scalar.nan

end Numeral

/-- **The scalar written by a number text**, or nothing if the text is no number. -/
def Scalar.ofText? {α : Type} [Scalar α] (cs : List Char) : Option α :=
  let (negative, cs) := Numeral.sign cs
  (Numeral.unsigned? cs).map fun n ↦ if negative then -n.toScalar else n.toScalar

end MapStyle
