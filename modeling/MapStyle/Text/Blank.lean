/-!
# Blanks, trimming and splitting

Text is scanned as a list of characters. A *blank* is a character with the Unicode property
`White_Space`, which is wider than the blanks of ASCII.
-/

namespace MapStyle.Text

/-- The ranges of code points with the property `White_Space`, ends included. -/
def blankRanges : List (Nat × Nat) :=
  [(0x09, 0x0d), (0x20, 0x20), (0x85, 0x85), (0xa0, 0xa0), (0x1680, 0x1680), (0x2000, 0x200a),
    (0x2028, 0x2029), (0x202f, 0x202f), (0x205f, 0x205f), (0x3000, 0x3000)]

/-- Whether a character has the property `White_Space`. -/
def isBlank (c : Char) : Bool :=
  blankRanges.any fun (lo, hi) ↦ lo ≤ c.toNat && c.toNat ≤ hi

/-- The text without the blanks it starts with. -/
def trimStart (cs : List Char) : List Char := cs.dropWhile isBlank

/-- The text without the blanks it ends with. -/
def trimEnd (cs : List Char) : List Char := (cs.reverse.dropWhile isBlank).reverse

/-- The text without the blanks at either end. -/
def trim (cs : List Char) : List Char := trimEnd (trimStart cs)

/-- The pieces of a text between the occurrences of a separator; one more than there are
separators. -/
def splitOn (separator : Char) : List Char → List (List Char)
  | [] => [[]]
  | c :: cs =>
    if c = separator then [] :: splitOn separator cs
    else match splitOn separator cs with
      | [] => [[c]]
      | piece :: pieces => (c :: piece) :: pieces

theorem length_splitOn (separator : Char) (cs : List Char) :
    (splitOn separator cs).length = cs.count separator + 1 := by
  induction cs with
  | nil => rfl
  | cons c cs ih =>
    by_cases h : c = separator
    · simp [splitOn, h, ih]
    · rw [splitOn, if_neg h, List.count_cons_of_ne h]
      split <;> simp_all

/-- The text before a closing suffix, if it ends with it. -/
def before? (ending cs : List Char) : Option (List Char) := ending.isSuffixOf? cs

/-- The text after an opening prefix, if it starts with it. -/
def after? (opening cs : List Char) : Option (List Char) := opening.isPrefixOf? cs

end MapStyle.Text
