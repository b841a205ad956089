import MapStyle.Json.Number
import MapStyle.Text.Hex

/-!
# JSON tokens

Text is cut into tokens before values are built: punctuation marks and scalar values. Each token
takes up at least one character, so cutting ends. Two scalar values may touch here; no grammar of
values puts one directly after another, so nothing is accepted that should not be.

A string token refuses control characters, unknown escapes and escapes that name half a surrogate
pair.
-/

namespace MapStyle

namespace Json

variable {α : Type} [Scalar α]

/-- A token of JSON text. -/
inductive Token (α : Type) [Scalar α] where
  /-- The mark that opens a list. -/
  | openList
  /-- The mark that closes a list. -/
  | closeList
  /-- The mark that opens an object. -/
  | openObject
  /-- The mark that closes an object. -/
  | closeObject
  /-- The mark between a key and its value. -/
  | colon
  /-- The mark between two entries or elements. -/
  | comma
  /-- A string, its escapes resolved. -/
  | text (s : String)
  /-- A number or a word. -/
  | plain (v : Json α)

/-! ### Strings -/

/-- The value of four hexadecimal digits. -/
def hexUnit? (a b c d : Char) : Option Nat := do
  let a ← Text.hexDigit? a
  let b ← Text.hexDigit? b
  let c ← Text.hexDigit? c
  let d ← Text.hexDigit? d
  return ((a * 16 + b) * 16 + c) * 16 + d

/-- The character that a one-letter escape stands for. -/
def shortEscape? : Char → Option Char
  | '"' => some '"'
  | '\\' => some '\\'
  | '/' => some '/'
  | 'b' => some '\x08'
  | 'f' => some '\x0c'
  | 'n' => some '\n'
  | 'r' => some '\r'
  | 't' => some '\t'
  | _ => none

/-- The character that the two halves of a surrogate pair stand for. -/
def surrogatePair? (high low : Nat) : Option Char :=
  if 0xd800 ≤ high ∧ high < 0xdc00 ∧ 0xdc00 ≤ low ∧ low < 0xe000 then
    some (Char.ofNat (0x10000 + (high - 0xd800) * 0x400 + (low - 0xdc00)))
  else none

/-- Whether a code unit is half of a surrogate pair. -/
def isSurrogate (u : Nat) : Bool := 0xd800 ≤ u && u < 0xe000

/-- The characters of a string up to its closing quote, and the text after that quote. -/
def stringBody? : List Char → Option (List Char × List Char)
  | [] => none
  | '"' :: cs => some ([], cs)
  | '\\' :: 'u' :: a :: b :: c :: d :: cs => do
    let u ← hexUnit? a b c d
    if isSurrogate u then
      match cs with
      | '\\' :: 'u' :: a :: b :: c :: d :: cs =>
        let pair ← surrogatePair? u (← hexUnit? a b c d)
        let (body, rest) ← stringBody? cs
        return (pair :: body, rest)
      | _ => none
    else
      let (body, rest) ← stringBody? cs
      return (Char.ofNat u :: body, rest)
  | '\\' :: c :: cs => do
    let e ← shortEscape? c
    let (body, rest) ← stringBody? cs
    return (e :: body, rest)
  | c :: cs =>
    if c.toNat < 0x20 ∨ c = '\\' then none
    else do
      let (body, rest) ← stringBody? cs
      return (c :: body, rest)

/-! ### Numbers -/

/-- The digits a text starts with, and what follows them. -/
def digits (cs : List Char) : List Nat × List Char :=
  ((cs.takeWhile Char.isDigit).map fun c ↦ c.toNat - '0'.toNat, cs.dropWhile Char.isDigit)

/-- A point with its digits, if the text starts with one. A point without digits is refused. -/
def fraction? (cs : List Char) : Option (Option (List Nat) × List Char) :=
  match cs with
  | '.' :: cs =>
    let (ds, rest) := digits cs
    if ds.isEmpty then none else some (some ds, rest)
  | cs => some (none, cs)

/-- The sign of an exponent, and what follows it. -/
def exponentSign (cs : List Char) : Bool × List Char :=
  match cs with
  | '-' :: cs => (true, cs)
  | '+' :: cs => (false, cs)
  | cs => (false, cs)

/-- An exponent, if the text starts with one. An exponent without digits is refused. -/
def exponent? (cs : List Char) : Option (Option (Bool × List Nat) × List Char) :=
  match cs with
  | [] => some (none, [])
  | c :: cs =>
    if c = 'e' ∨ c = 'E' then
      let (down, cs) := exponentSign cs
      let (ds, rest) := digits cs
      if ds.isEmpty then none else some (some (down, ds), rest)
    else some (none, c :: cs)

/-- An unsigned number. No digit may follow a leading zero. -/
def unsigned? (negative : Bool) (cs : List Char) : Option (NumberText × List Char) := do
  let (whole, cs) := digits cs
  if whole.isEmpty || (whole.head? == some 0 && 1 < whole.length) then none
  else
    let (fraction, cs) ← fraction? cs
    let (exponent, cs) ← exponent? cs
    return (⟨negative, whole, fraction, exponent⟩, cs)

/-! ### Tokens -/

/-- The words that stand for values. -/
def words : List (List Char × Json α) :=
  [("true".toList, bool true), ("false".toList, bool false), ("null".toList, null)]

/-- The token a word starts, and the text after it. -/
def word? (cs : List Char) : Option (Json α × List Char) :=
  words.findSome? fun (w, v) ↦ (w.isPrefixOf? cs).map fun rest ↦ (v, rest)

/-- The first token of a text that does not start with a blank, and the text after it. -/
def nextToken? (c : Char) (cs : List Char) : Option (Token α × List Char) :=
  match c with
  | '[' => some (.openList, cs)
  | ']' => some (.closeList, cs)
  | '{' => some (.openObject, cs)
  | '}' => some (.closeObject, cs)
  | ':' => some (.colon, cs)
  | ',' => some (.comma, cs)
  | '"' => (stringBody? cs).map fun (s, rest) ↦ (.text (String.ofList s), rest)
  | '-' => do
    let (t, rest) ← unsigned? true cs
    return (.plain (← t.toJson?), rest)
  | c =>
    if c.isDigit then do
      let (t, rest) ← unsigned? false (c :: cs)
      return (.plain (← t.toJson?), rest)
    else (word? (c :: cs)).map fun (v, rest) ↦ (.plain v, rest)

/-- Whether a character may stand between tokens. -/
def isSpace (c : Char) : Bool := c = ' ' || c = '\t' || c = '\n' || c = '\r'

/-- Cuts a text into at most `fuel` tokens and spaces. -/
def tokensWithin? : Nat → List Char → Option (List (Token α))
  | _, [] => some []
  | 0, _ => none
  | fuel + 1, c :: cs =>
    if isSpace c then tokensWithin? fuel cs
    else do
      let (t, rest) ← nextToken? c cs
      return t :: (← tokensWithin? fuel rest)

/-- **The tokens of a text.** Every token takes up a character, so its length is fuel enough. -/
def tokens? (cs : List Char) : Option (List (Token α)) := tokensWithin? cs.length cs

end Json

end MapStyle
