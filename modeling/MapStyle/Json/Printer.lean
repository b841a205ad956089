import MapStyle.Json.Basic

/-!
# Writing JSON text

Two forms of the same value: compact, without spaces, and indented, with one entry or element on a
line. Quotes, backslashes and control characters are escaped in strings, and nothing else.
-/

namespace MapStyle

namespace Json

variable {α : Type} [Scalar α]

/-! ### Leaves -/

/-- A lower-case hexadecimal digit. -/
def hexChar (n : Nat) : Char := Nat.digitChar n

/-- The characters that a character of a string is written as. -/
def escape (c : Char) : List Char :=
  if c = '"' then ['\\', '"']
  else if c = '\\' then ['\\', '\\']
  else if c = '\x08' then ['\\', 'b']
  else if c = '\x0c' then ['\\', 'f']
  else if c = '\n' then ['\\', 'n']
  else if c = '\r' then ['\\', 'r']
  else if c = '\t' then ['\\', 't']
  else if c.toNat < 0x20 then
    ['\\', 'u', '0', '0', hexChar (c.toNat / 16), hexChar (c.toNat % 16)]
  else [c]

/-- A string in quotes. -/
def quoted (s : String) : String :=
  "\"" ++ String.ofList (s.toList.flatMap escape) ++ "\""

/-- The text of a truth value. -/
def boolText (b : Bool) : String := if b then "true" else "false"

/-- The text of an integer. -/
def intText (n : Int) : String :=
  if n < 0 then "-" ++ String.ofList (Nat.toDigits 10 n.natAbs)
  else String.ofList (Nat.toDigits 10 n.natAbs)

/-! ### The compact form -/

mutual

/-- **The compact text of a value.** -/
def text : Json α → String
  | null => "null"
  | bool b => boolText b
  | int n => intText n.val
  | num x => Scalar.jsonDigits x.val
  | str s => quoted s
  | arr items => "[" ++ ",".intercalate (itemTexts items) ++ "]"
  | obj entries => "\x7b" ++ ",".intercalate (entryTexts entries) ++ "\x7d"

/-- The texts of the elements of a list. -/
def itemTexts : List (Json α) → List String
  | [] => []
  | v :: vs => text v :: itemTexts vs

/-- The texts of the entries of an object. -/
def entryTexts : List (String × Json α) → List String
  | [] => []
  | (k, v) :: es => (quoted k ++ ":" ++ text v) :: entryTexts es

end

/-! ### The indented form -/

/-- The start of a line inside `depth` containers. -/
def newline (depth : Nat) : String := "\n" ++ String.ofList (List.replicate (2 * depth) ' ')

/-- Parts on lines of their own between two marks; an empty container stays on one line. -/
def block (left right : String) (depth : Nat) (parts : List String) : String :=
  if parts.isEmpty then left ++ right
  else
    left ++ newline (depth + 1) ++ ("," ++ newline (depth + 1)).intercalate parts ++
      newline depth ++ right

mutual

/-- The indented text of a value inside `depth` containers. -/
def indentedAt (depth : Nat) : Json α → String
  | arr items => block "[" "]" depth (itemBlocks (depth + 1) items)
  | obj entries => block "\x7b" "\x7d" depth (entryBlocks (depth + 1) entries)
  | null => text (null : Json α)
  | bool b => text (bool b : Json α)
  | int n => text (int n : Json α)
  | num x => text (num x)
  | str s => text (str s : Json α)

/-- The indented texts of the elements of a list. -/
def itemBlocks (depth : Nat) : List (Json α) → List String
  | [] => []
  | v :: vs => indentedAt depth v :: itemBlocks depth vs

/-- The indented texts of the entries of an object. -/
def entryBlocks (depth : Nat) : List (String × Json α) → List String
  | [] => []
  | (k, v) :: es => (quoted k ++ ": " ++ indentedAt depth v) :: entryBlocks depth es

end

/-- **The indented text of a value**, two spaces to a level. -/
def indented (v : Json α) : String := indentedAt 0 v

end Json

end MapStyle
