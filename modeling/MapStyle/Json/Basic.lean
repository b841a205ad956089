import MapStyle.Entries
import MapStyle.Scalar

/-!
# JSON values

The data that style documents are written in. Integers and other numbers are kept apart, as their
texts are. An integer fits 64 bits and any other number is finite, both by their types, since
reading produces nothing else. Objects keep the order of their entries.

Equality is that of data: an integer never equals a fractional number, and objects are compared
entry by entry whatever their order.
-/

namespace MapStyle

/-- **An integer of 64 bits**, with or without sign. -/
structure WordInt where
  /-- The integer. -/
  val : Int
  /-- It is not below the least integer with sign. -/
  le_val : -Int.pow 2 63 ≤ val
  /-- It is below the bound of the integers without sign. -/
  val_lt : val < Int.pow 2 64
  deriving DecidableEq, Repr

/-- The integer, if 64 bits hold it. -/
def WordInt.ofInt? (n : Int) : Option WordInt :=
  if h : -Int.pow 2 63 ≤ n ∧ n < Int.pow 2 64 then some ⟨n, h.1, h.2⟩ else none

@[simp] theorem WordInt.ofInt?_val (n : WordInt) : WordInt.ofInt? n.val = some n :=
  dif_pos ⟨n.le_val, n.val_lt⟩

/-- A JSON value whose fractional numbers are scalars. -/
inductive Json (α : Type) [Scalar α] where
  /-- The value `null`. -/
  | null
  /-- A truth value. -/
  | bool (b : Bool)
  /-- A number written without point or exponent. -/
  | int (n : WordInt)
  /-- Any other number. -/
  | num (x : { x : α // Scalar.isFinite x = true })
  /-- A string. -/
  | str (s : String)
  /-- A list. -/
  | arr (items : List (Json α))
  /-- An object. -/
  | obj (entries : List (String × Json α))

namespace Json

variable {α : Type} [Scalar α]

instance : Inhabited (Json α) := ⟨null⟩

/-! ### Reading parts off a value -/

/-- **The JSON number for a scalar**: `null` stands for one that JSON text cannot write. -/
def ofScalar (x : α) : Json α :=
  if h : Scalar.isFinite x = true then num ⟨x, h⟩ else null

/-- The JSON number for an integer: a scalar stands for one that 64 bits do not hold. -/
def ofInt (n : Int) : Json α :=
  match WordInt.ofInt? n with
  | some n => int n
  | none => ofScalar (Scalar.ofInt n)

/-- The scalar of either kind of number. -/
def number? : Json α → Option α
  | int n => some (Scalar.ofInt n.val)
  | num x => some x.val
  | _ => none

/-- The text of a string. -/
def string? : Json α → Option String
  | str s => some s
  | _ => none

/-- The truth value of a boolean. -/
def bool? : Json α → Option Bool
  | bool b => some b
  | _ => none

/-- The value of a non-negative integer. -/
def nat? : Json α → Option Nat
  | int n => n.val.toNat?
  | _ => none

/-- The elements of a list. -/
def items? : Json α → Option (List (Json α))
  | arr items => some items
  | _ => none

/-- Whether a value is an object. -/
def isObject : Json α → Bool
  | obj _ => true
  | _ => false

/-- **A record with the given fields.** An object is read by name, whatever else it holds; a list
of no more values than there are fields is read by position. -/
def record? (fields : List String) : Json α → Option (Entries (Json α))
  | obj entries => some entries
  | arr items => if items.length ≤ fields.length then some (fields.zip items) else none
  | _ => none

/-- An optional field of a record: nothing if it is absent or `null`, and a failure if it is there
and `decode` refuses it. -/
def optional? {β : Type} (fields : Entries (Json α)) (name : String)
    (decode : Json α → Option β) : Option (Option β) :=
  match Entries.get? fields name with
  | none => some none
  | some null => some none
  | some j => (decode j).map some

/-! ### Equality -/

mutual

/-- Whether two values are the same data. -/
def beq : Json α → Json α → Bool
  | null, null => true
  | bool a, bool b => a == b
  | int m, int n => m == n
  | num x, num y => x.val == y.val
  | str s, str t => s == t
  | arr xs, arr ys => beqItems xs ys
  | obj xs, obj ys => xs.length == ys.length && beqEntries xs ys
  | _, _ => false

/-- Whether two lists hold the same data in the same places. -/
def beqItems : List (Json α) → List (Json α) → Bool
  | [], [] => true
  | x :: xs, y :: ys => beq x y && beqItems xs ys
  | _, _ => false

/-- Whether every entry of the first object is in the second one. -/
def beqEntries : Entries (Json α) → Entries (Json α) → Bool
  | [], _ => true
  | (k, x) :: xs, ys =>
    (match Entries.get? ys k with
      | some y => beq x y
      | none => false) && beqEntries xs ys

end

instance : BEq (Json α) := ⟨beq⟩

end Json

end MapStyle
