import MapStyle.Proofs.Lookup.LastMatch

/-!
# Category tables by hashed keys

Numeric equality is no equality of the data, so a table with number keys cannot simply be hashed by
them. In binary64 it can be hashed by **bit patterns, once the two zeros are folded** and what is no
number is left out: two floats are numerically equal exactly if they have one such pattern
(`Binary64.beq_iff_keyBits?`). Outside the zeros there is only one float of each rank.

`HashedCategories` is a category table made that way. It answers every input as `Categories` does
(`HashedCategories.lookup?_ofStops`), since both answer with the last match.
-/

namespace MapStyle

namespace Binary64

open Float.Model Float.Model.UnpackedFloat

/-! ### Bit patterns -/

/-- **The bits that a float is keyed by**: both zeros have those of one, and what is no number has
none. -/
def keyBits? (x : Float) : Option UInt64 :=
  if Scalar.isNaN x then none else if x == 0.0 then some (0.0 : Float).toBits else some x.toBits

/-- Floats that are numerically equal and no zeros have the same bits. -/
theorem toBits_eq_of_beq {x y : Float} (h : (x == y) = true) (hx : (x == 0.0) = false) :
    x.toBits = y.toBits := by
  obtain ⟨p, hpx, hpy⟩ := beq_iff_place?.1 h
  have hzero : p ≠ toLex (0, toLex (0, 0)) := by
    intro hp
    rw [beq_iff_place?.2 ⟨p, hpx, hp ▸ place?_zero⟩] at hx
    exact Bool.false_ne_true hx.symm
  refine congrArg Float.toBits (eq_of_unpack_eq (rank?_inj (hpx.trans hpy.symm) ?_ ?_))
  · exact fun hnone ↦ absurd (hnone.symm.trans hpx) (by simp)
  · exact fun h ↦ hzero (Option.some.inj (hpx.symm.trans h))

/-- **Floats are numerically equal exactly if they are keyed by the same bits.** -/
theorem beq_iff_keyBits? {x y : Float} :
    (x == y) = true ↔ ∃ bits, keyBits? x = some bits ∧ keyBits? y = some bits := by
  constructor
  · intro h
    obtain ⟨hxy, hyx⟩ := (Scalar.beq_iff x y).1 h
    rw [keyBits?, keyBits?, Scalar.isNaN_of_le_left hxy, Scalar.isNaN_of_le_left hyx,
      if_neg Bool.false_ne_true, if_neg Bool.false_ne_true, ← Scalar.beq_congr_left h]
    -- Equal numbers have the same bits unless they are zeros, which are keyed by those of one zero.
    rcases hx : x == 0.0 with - | -
    · exact ⟨x.toBits, rfl, by rw [if_neg Bool.false_ne_true, toBits_eq_of_beq h hx]⟩
    · exact ⟨_, rfl, rfl⟩
  · rintro ⟨bits, hx, hy⟩
    rw [keyBits?, Option.ite_none_left_eq_some, Bool.not_eq_true] at hx hy
    obtain ⟨hxnum, hx⟩ := hx
    obtain ⟨hynum, hy⟩ := hy
    split at hx
    · rename_i hxzero
      split at hy
      · rename_i hyzero
        exact Scalar.beq_trans hxzero (Scalar.beq_symm hyzero)
      · rename_i hyzero
        rw [← Float.toBits_inj.1 (Option.some.inj (hx.trans hy.symm))] at hyzero
        exact absurd (by decide) hyzero
    · rename_i hxzero
      split at hy
      · rw [← Float.toBits_inj.1 (Option.some.inj (hy.trans hx.symm))] at hxzero
        exact absurd (by decide) hxzero
      · obtain rfl := Float.toBits_inj.1 (Option.some.inj (hx.trans hy.symm))
        exact Scalar.isNaN_eq_false_iff.1 hxnum

end Binary64

/-! ### Hashed keys -/

/-- A key that can be hashed: a string, a bit pattern or a truth value. -/
inductive HashKey where
  /-- A string. -/
  | string (s : String)
  /-- The bits that a number is keyed by. -/
  | number (bits : UInt64)
  /-- A truth value. -/
  | bool (b : Bool)
  deriving DecidableEq, Hashable

/-- The key that a value is, if it can be one. -/
def HashKey.ofValue? : Value Float → Option HashKey
  | .string s => some (string s)
  | .number x => (Binary64.keyBits? x).map number
  | .bool b => some (bool b)
  | _ => none

namespace HashKey

variable {v : Value Float}

theorem ofValue?_eq_string_iff {s : String} : ofValue? v = some (string s) ↔ v = .string s := by
  cases v <;> simp [ofValue?]

theorem ofValue?_eq_number_iff {bits : UInt64} :
    ofValue? v = some (number bits) ↔
      ∃ x, v = .number x ∧ Binary64.keyBits? x = some bits := by
  cases v <;> simp [ofValue?]

theorem ofValue?_eq_bool_iff {b : Bool} : ofValue? v = some (bool b) ↔ v = .bool b := by
  cases v <;> simp [ofValue?]

/-- The values that can be hashed are those that can be categories. -/
theorem ofValue?_eq_none_iff : ofValue? v = none ↔ Category.ofValue? v = none := by
  cases v <;> simp [ofValue?, Category.ofValue?, Binary64.keyBits?]
  split <;> simp

end HashKey

/-- **Values are the same category exactly if they have the same hashed key.** -/
theorem sameCategory_iff_hashKey {key input : Value Float} :
    SameCategory key input ↔
      ∃ k, HashKey.ofValue? key = some k ∧ HashKey.ofValue? input = some k := by
  constructor
  · intro h
    cases h with
    | string s => exact ⟨_, rfl, rfl⟩
    | bool b => exact ⟨_, rfl, rfl⟩
    | number h =>
      obtain ⟨bits, hx, hy⟩ := Binary64.beq_iff_keyBits?.1 h
      exact ⟨.number bits, HashKey.ofValue?_eq_number_iff.2 ⟨_, rfl, hx⟩,
        HashKey.ofValue?_eq_number_iff.2 ⟨_, rfl, hy⟩⟩
  · intro h
    obtain ⟨k, hkey, hinput⟩ := h
    cases k with
    | string s =>
      rw [HashKey.ofValue?_eq_string_iff.1 hkey, HashKey.ofValue?_eq_string_iff.1 hinput]
      exact .string s
    | number bits =>
      obtain ⟨x, rfl, hx⟩ := HashKey.ofValue?_eq_number_iff.1 hkey
      obtain ⟨y, rfl, hy⟩ := HashKey.ofValue?_eq_number_iff.1 hinput
      exact .number (Binary64.beq_iff_keyBits?.2 ⟨bits, hx, hy⟩)
    | bool b =>
      rw [HashKey.ofValue?_eq_bool_iff.1 hkey, HashKey.ofValue?_eq_bool_iff.1 hinput]
      exact .bool b

/-! ### Hashed tables -/

/-- **A category table hashed by its keys.** -/
structure HashedCategories where
  /-- The kind of the first stop's key. -/
  kind : Kind
  /-- The outputs of the keys. -/
  outputs : Std.HashMap HashKey (Value Float)

namespace HashedCategories

/-- The outputs after one more stop. A stop whose key cannot be hashed is skipped. -/
def addStop (outputs : Std.HashMap HashKey (Value Float)) (stop : Value Float × Value Float) :
    Std.HashMap HashKey (Value Float) :=
  match HashKey.ofValue? stop.1 with
  | some key => outputs.insert key stop.2
  | none => outputs

/-- **The hashed table of a list of stops.** -/
def ofStops (stops : List (Value Float × Value Float)) : HashedCategories :=
  ⟨(stops.head?.map fun stop ↦ stop.1.kind).getD .null, stops.foldl addStop ∅⟩

/-- The output of an input that is of the kind of the table and has one of its keys. -/
def lookup? (t : HashedCategories) (input : Value Float) : Option (Value Float) :=
  if input.kind = t.kind then (HashKey.ofValue? input).bind fun key ↦ t.outputs[key]? else none

variable {stops : List (Value Float × Value Float)} {input : Value Float}

/-- **One more stop changes the output of its key alone.** -/
theorem getElem?_addStop (outputs : Std.HashMap HashKey (Value Float))
    (stop : Value Float × Value Float) (k : HashKey) :
    (addStop outputs stop)[k]? =
      if HashKey.ofValue? stop.1 = some k then some stop.2 else outputs[k]? := by
  rw [addStop]
  rcases HashKey.ofValue? stop.1 with - | key
  · simp
  · simp [Std.HashMap.getElem?_insert]

/-- **All stops**: a key has the output of the last one that has it, or else what it had. -/
theorem getElem?_foldl (stops : List (Value Float × Value Float))
    (outputs : Std.HashMap HashKey (Value Float)) (k : HashKey) :
    (stops.foldl addStop outputs)[k]? =
      ((stops.reverse.find? fun stop ↦ HashKey.ofValue? stop.1 = some k).map Prod.snd).or
        outputs[k]? := by
  induction stops generalizing outputs with
  | nil => rfl
  | cons stop stops ih =>
    rw [List.foldl_cons, ih, getElem?_addStop, List.reverse_cons, List.find?_append,
      List.find?_singleton, Option.map_or, Option.or_assoc]
    simp only [decide_eq_true_eq]
    split <;> rfl

/-- **A hashed table answers as the table of the same stops does.** -/
theorem lookup?_ofStops (stops : List (Value Float × Value Float)) (input : Value Float) :
    (ofStops stops).lookup? input = (Categories.ofStops stops).lookup? input := by
  rw [lookup?, Categories.lookup?]
  refine if_congr Iff.rfl ?_ rfl
  rcases hk : HashKey.ofValue? input with - | k
  · rw [HashKey.ofValue?_eq_none_iff.1 hk]
    rfl
  · rcases hkey : Category.ofValue? input with - | key
    · rw [HashKey.ofValue?_eq_none_iff.2 hkey] at hk
      exact absurd hk (by simp)
    · show (stops.foldl addStop ∅)[k]? = Categories.outputOf? (Categories.ofStops stops).entries key
      have hsame : (fun stop : Value Float × Value Float ↦
          decide (HashKey.ofValue? stop.1 = some k)) = Categories.Matches key := by
        refine funext fun stop ↦ Bool.eq_iff_iff.2 ?_
        rw [decide_eq_true_iff, Categories.matches_iff hkey, sameCategory_iff_hashKey, hk]
        simp
      rw [getElem?_foldl, Categories.outputOf?_entries_ofStops, hsame, Std.HashMap.getElem?_empty,
        Option.or_none]

end HashedCategories

end MapStyle
