import MapStyle.Proofs.Scalar.SafeInteger
import MapStyle.Value.Text

/-!
# Reading back plain data

Plain data is what JSON has a form for: nothing, truth values, numbers, strings, and lists and
objects of these (`Value.Plain`). Three things happen to it on the way to JSON data and back, all of
them to numbers. JSON text cannot write an infinite value or one that is not a number, so `null`
stands for it. An integral number below `2 ^ 53` is written as an integer, and that loses the sign
of zero. `Value.normalized` does this and nothing else, so **plain data is read back as it was, but
for these numbers** (`Value.ofJson_toJson_of_plain`).
-/

namespace MapStyle

open Binary64 (value)

/-- A safe integer is written as an integer. -/
theorem Json.ofNumber_of_toSafeInt? {x : Float} {n : ℤ} (h : Scalar.toSafeInt? x = some n) :
    ∃ w : WordInt, ofNumber x = int w ∧ w.val = n := by
  obtain ⟨-, -, hsafe⟩ := Binary64.toSafeInt?_eq_some_iff.1 h
  have hword : -Int.pow 2 63 ≤ n ∧ n < Int.pow 2 64 := by
    show -2 ^ 63 ≤ n ∧ n < 2 ^ 64
    omega
  refine ⟨⟨n, hword.1, hword.2⟩, ?_, rfl⟩
  rw [ofNumber, h]
  show ofInt n = _
  rw [ofInt, WordInt.ofInt?, dif_pos hword]

namespace Value

/-- **Plain data.** -/
inductive Plain {α : Type} : Value α → Prop
  /-- The absent value. -/
  | null : Plain null
  /-- A truth value. -/
  | bool (b : Bool) : Plain (bool b)
  /-- A number, finite or not. -/
  | number (x : α) : Plain (number x)
  /-- A string. -/
  | string (s : String) : Plain (string s)
  /-- A list of plain data. -/
  | array {items : List (Value α)} (h : ∀ v ∈ items, Plain v) : Plain (array items)
  /-- An object whose values are plain data. -/
  | object {entries : List (String × Value α)} (h : ∀ e ∈ entries, Plain e.2) :
    Plain (object entries)

mutual

/-- **The numbers of a value as JSON can write them.** -/
def normalized : Value Float → Value Float
  | number x => if x.isFinite then number (if x = -0.0 then 0.0 else x) else null
  | array items => array (normalizedItems items)
  | object entries => object (normalizedEntries entries)
  | v => v

/-- The elements of a list, each with its numbers as JSON can write them. -/
def normalizedItems : List (Value Float) → List (Value Float)
  | [] => []
  | v :: vs => normalized v :: normalizedItems vs

/-- The entries of an object, each with its numbers as JSON can write them. -/
def normalizedEntries : List (String × Value Float) → List (String × Value Float)
  | [] => []
  | (k, v) :: es => (k, normalized v) :: normalizedEntries es

end

/-! ### Element by element -/

theorem normalizedItems_eq_map (items : List (Value Float)) :
    normalizedItems items = items.map normalized := by
  induction items with
  | nil => rfl
  | cons v vs ih => rw [normalizedItems, ih, List.map_cons]

theorem normalizedEntries_eq_map (entries : List (String × Value Float)) :
    normalizedEntries entries = entries.map fun e ↦ (e.1, e.2.normalized) := by
  induction entries with
  | nil => rfl
  | cons e es ih => rw [normalizedEntries, ih, List.map_cons]

section

variable {α : Type} [Scalar α]

theorem ofItems_itemsToJson (items : List (Value α)) :
    ofItems (itemsToJson items) = items.map fun v ↦ ofJson v.toJson := by
  induction items with
  | nil => rfl
  | cons v vs ih => rw [itemsToJson, ofItems, ih, List.map_cons]

theorem ofEntries_entriesToJson (entries : List (String × Value α)) :
    ofEntries (entriesToJson entries) = entries.map fun e ↦ (e.1, ofJson e.2.toJson) := by
  induction entries with
  | nil => rfl
  | cons e es ih => rw [entriesToJson, ofEntries, ih, List.map_cons]

end

/-! ### Numbers -/

/-- **A number is read back**, with the sign of zero lost, and `null` for one that JSON cannot
write. -/
theorem ofJson_ofNumber (x : Float) : ofJson (Json.ofNumber x) = (number x).normalized := by
  rw [normalized]
  rcases h : Scalar.toSafeInt? x with - | n
  · rw [Json.ofNumber, h]
    show ofJson (Json.ofScalar x) = _
    -- the negative zero is a safe integer, so it does not get here
    have hzero : x ≠ -0.0 := by
      rintro rfl
      have hsafe := Binary64.toSafeInt?_of_eq_zero (x := -0.0) (.inr rfl)
      exact absurd (h.symm.trans hsafe) (by simp)
    rw [if_neg hzero, Json.ofScalar]
    split
    · rename_i hfinite
      exact (if_pos hfinite).symm
    · rename_i hfinite
      exact (if_neg hfinite).symm
  · obtain ⟨w, hw, rfl⟩ := Json.ofNumber_of_toSafeInt? h
    rw [hw, if_pos (Binary64.toSafeInt?_eq_some_iff.1 h).1, ← Binary64.ofInt_of_toSafeInt? h]
    rfl

/-! ### Main statement -/

/-- **Plain data is read back from the JSON data it is written as**, in the same order, with `null`
for the numbers that JSON cannot write and without the sign of zero. Integral numbers below `2 ^ 53`
are written as the integers that they are. -/
theorem ofJson_toJson_of_plain :
    (∀ v : Value Float, v.Plain → ofJson v.toJson = v.normalized) ∧
      ∀ (x : Float) (n : ℤ), x.isFinite = true → value x = n → n.natAbs < 2 ^ 53 →
        ∃ w : WordInt, (number x).toJson = .int w ∧ w.val = n := by
  constructor
  · intro v h
    induction h with
    | null => rfl
    | bool b => rfl
    | number x => exact ofJson_ofNumber x
    | string s => rfl
    | array _ ih =>
      rw [toJson, ofJson, normalized, ofItems_itemsToJson, normalizedItems_eq_map,
        List.map_congr_left ih]
    | object _ ih =>
      rw [toJson, ofJson, normalized, ofEntries_entriesToJson, normalizedEntries_eq_map,
        List.map_congr_left fun e he ↦ by rw [ih e he]]
  · intro x n hfinite hvalue hsafe
    exact Json.ofNumber_of_toSafeInt? (Binary64.toSafeInt?_eq_some_iff.2 ⟨hfinite, hvalue, hsafe⟩)

/-- An object with numbers of every kind, one of them in a list inside a list. -/
theorem ofJson_toJson_of_plain_nested :
    let v : Value Float := object [("b", array [number (-0.0), array [number (0.0 / 0.0)]]),
      ("a", number (-3.0)), ("c", number 0.5), ("d", number (1.0 / 0.0))]
    v.Plain ∧
      ofJson v.toJson = object [("b", array [number 0.0, array [null]]), ("a", number (-3.0)),
        ("c", number 0.5), ("d", null)] ∧
      value (-3.0) = (-3 : ℤ) ∧ ∃ w : WordInt, (number (-3.0 : Float)).toJson = .int w ∧
        w.val = -3 := by
  intro v
  have hplain : v.Plain := by
    refine .object (List.forall_mem_cons.2 ⟨.array ?_, ?_⟩)
    · simp [Plain.number, Plain.array]
    · simp [Plain.number]
  have hvalue : value (-3.0) = (-3 : ℤ) := (Binary64.toSafeInt?_eq_some_iff.1 (by decide)).2.1
  refine ⟨hplain, (ofJson_toJson_of_plain.1 v hplain).trans rfl, hvalue, ?_⟩
  exact ofJson_toJson_of_plain.2 (-3.0) (-3) rfl hvalue (by decide)

end Value

end MapStyle
