import MapStyle.Entries
import MapStyle.Json.Basic
import MapStyle.Value.RichText

/-!
# Values

The values that style functions return and are keyed on. All of them are concrete data but one:
a *deferred* value still depends on the zoom level and the feature it is asked for. Deferred values
never count as data (`Value.isConcrete`).

Equality is numeric on scalars, ignores the order of object entries, and tells deferred values apart
by their identity alone.
-/

namespace MapStyle

/-- How a deferred value is found once zoom level and feature are known. -/
inductive DeferredRule (V : Type) where
  /-- The property of the feature with this name. -/
  | property (name : String)
  /-- The zoom level. -/
  | zoom
  /-- The same answer, or the same lack of one, always. -/
  | fixed (answer : Option V)

/-- **A value of a style.** -/
inductive Value (α : Type) where
  /-- The absent value. -/
  | null
  /-- A truth value. -/
  | bool (b : Bool)
  /-- A number. -/
  | number (x : α)
  /-- A string. -/
  | string (s : String)
  /-- A color. -/
  | color (c : Color α)
  /-- Options of a text comparison. -/
  | collator (c : Collator)
  /-- Rich text. -/
  | formatted (f : Formatted α)
  /-- A reference to an image. -/
  | image (i : Image)
  /-- A list. -/
  | array (items : List (Value α))
  /-- An object, its entries in order of insertion. -/
  | object (entries : List (String × Value α))
  /-- A value that depends on zoom level and feature. Copies share their identity. -/
  | deferred (identity : Nat) (rule : DeferredRule (Value α))

namespace Value

variable {α : Type}

instance : Inhabited (Value α) := ⟨null⟩

/-! ### Reading parts off a value -/

/-- The number, if the value is one. -/
def number? : Value α → Option α
  | number x => some x
  | _ => none

/-- The string, if the value is one. -/
def string? : Value α → Option String
  | string s => some s
  | _ => none

/-- The color, if the value is one. -/
def color? : Value α → Option (Color α)
  | color c => some c
  | _ => none

/-- The numbers of a list of numbers. -/
def numbers? : Value α → Option (List α)
  | array items => items.mapM number?
  | _ => none

/-! ### Concrete values -/

mutual

/-- **Whether a value is data**: no deferred value stands anywhere in it. -/
def isConcrete : Value α → Bool
  | array items => allConcrete items
  | object entries => allEntriesConcrete entries
  | deferred _ _ => false
  | _ => true

/-- Whether every element of a list is data. -/
def allConcrete : List (Value α) → Bool
  | [] => true
  | v :: vs => isConcrete v && allConcrete vs

/-- Whether the value of every entry is data. -/
def allEntriesConcrete : List (String × Value α) → Bool
  | [] => true
  | (_, v) :: es => isConcrete v && allEntriesConcrete es

end

/-! ### Equality -/

variable [Scalar α]

mutual

/-- Whether two values are equal. -/
def beq : Value α → Value α → Bool
  | null, null => true
  | bool a, bool b => a == b
  | number x, number y => x == y
  | string s, string t => s == t
  | color c, color d => c == d
  | collator c, collator d => c == d
  | formatted f, formatted g => f == g
  | image i, image j => i == j
  | array xs, array ys => beqItems xs ys
  | object xs, object ys => xs.length == ys.length && beqEntries xs ys
  | deferred i _, deferred j _ => i == j
  | _, _ => false

/-- Whether two lists are equal element by element. -/
def beqItems : List (Value α) → List (Value α) → Bool
  | [], [] => true
  | x :: xs, y :: ys => beq x y && beqItems xs ys
  | _, _ => false

/-- Whether every entry of the first list has an equal entry in the second one. -/
def beqEntries : List (String × Value α) → List (String × Value α) → Bool
  | [], _ => true
  | (k, x) :: xs, ys =>
    (match Entries.get? ys k with
      | some y => beq x y
      | none => false) && beqEntries xs ys

end

instance : BEq (Value α) := ⟨beq⟩

/-! ### Values written as JSON -/

mutual

/-- **The value that JSON data stands for.** -/
def ofJson : Json α → Value α
  | .null => null
  | .bool b => bool b
  | .int n => number (Scalar.ofInt n.val)
  | .num x => number x.val
  | .str s => string s
  | .arr items => array (ofItems items)
  | .obj entries => object (ofEntries entries)

/-- The values of the elements of a JSON list. -/
def ofItems : List (Json α) → List (Value α)
  | [] => []
  | j :: js => ofJson j :: ofItems js

/-- The values of the entries of a JSON object. -/
def ofEntries : List (String × Json α) → List (String × Value α)
  | [] => []
  | (k, j) :: es => (k, ofJson j) :: ofEntries es

end

mutual

/-- **JSON data holds nothing deferred.** -/
theorem isConcrete_ofJson : (j : Json α) → (ofJson j).isConcrete = true
  | .null => rfl
  | .bool _ => rfl
  | .int _ => rfl
  | .num _ => rfl
  | .str _ => rfl
  | .arr items => allConcrete_ofItems items
  | .obj entries => allEntriesConcrete_ofEntries entries

theorem allConcrete_ofItems : (js : List (Json α)) → allConcrete (ofItems js) = true
  | [] => rfl
  | j :: js => by simp [ofItems, allConcrete, isConcrete_ofJson j, allConcrete_ofItems js]

theorem allEntriesConcrete_ofEntries :
    (es : List (String × Json α)) → allEntriesConcrete (ofEntries es) = true
  | [] => rfl
  | (_, j) :: es => by
    simp [ofEntries, allEntriesConcrete, isConcrete_ofJson j, allEntriesConcrete_ofEntries es]

end

end Value

end MapStyle
