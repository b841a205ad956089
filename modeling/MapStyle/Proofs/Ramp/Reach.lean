import MapStyle.Proofs.Ramp.Floor

/-!
# How far a stop reaches

An input looks at the stops of its place (`Place.Uses`): at an end of the ramp that is one stop,
between two neighbours it is both. Seen from a stop, the inputs that look at it begin at the key
before it and end below the key after it (`InReach`), on both sides without a bound where there is
no such key.

On two or more keys in strict order **no other input looks at the stop**
(`inReach_of_uses`), so that what stands there has no say in anything outside its reach.
-/

namespace MapStyle.Ramp

open Scalar

/-- **The stops that an input of a place looks at.** -/
inductive Place.Uses : Place → Nat → Prop where
  /-- The end of the ramp. -/
  | at (i : Nat) : Uses (.at i) i
  /-- The lower neighbour. -/
  | lower (i : Nat) : Uses (.between i) i
  /-- The upper neighbour. -/
  | upper (i : Nat) : Uses (.between i) (i + 1)

/-- Where outputs are not blended only one stop is looked at, and it is one of the place. -/
theorem Place.uses_floor (place : Place) : place.Uses place.floor := by
  cases place with
  | «at» i => exact .at i
  | between i => exact .lower i

variable {α : Type} [Scalar α]

/-- **An input is in the reach of stop `j`**: it is not below the key before it, and it is below the
key after it. -/
structure InReach (keys : List α) (j : Nat) (x : α) : Prop where
  /-- The key before is not above the input. -/
  before : ∀ i lo, i + 1 = j → keys[i]? = some lo → lo ≤ x
  /-- The key after is above the input. -/
  after : ∀ hi, keys[j + 1]? = some hi → x < hi

variable [Lawful α] {β : Type} {stops : List (α × β)} {keys : List α} {x lo hi : α} {i j : Nat}

/-- What is below a key is below every later one. -/
theorem lt_of_lt_key (hkeys : keys.Pairwise (· < ·)) (hij : i ≤ j) (hlo : keys[i]? = some lo)
    (hhi : keys[j]? = some hi) (hx : x < lo) : x < hi := by
  rcases Nat.eq_or_lt_of_le hij with rfl | hlt
  · exact Option.some.inj (hlo.symm.trans hhi) ▸ hx
  · have hkey : lo < hi := rel_of_pairwise hkeys hlt hlo hhi
    exact (lt_iff x hi).2 ⟨le_trans (Scalar.le_of_lt hx) (Scalar.le_of_lt hkey), fun hle ↦
      not_le_of_lt hx (le_trans (Scalar.le_of_lt hkey) hle)⟩

/-- What is not below a key is not below any earlier one. -/
theorem le_of_key_le (hkeys : keys.Pairwise (· < ·)) (hij : i ≤ j) (hlo : keys[i]? = some lo)
    (hhi : keys[j]? = some hi) (hx : hi ≤ x) : lo ≤ x := by
  rcases Nat.eq_or_lt_of_le hij with rfl | hlt
  · exact Option.some.inj (hlo.symm.trans hhi) ▸ hx
  · exact le_trans (Scalar.le_of_lt (rel_of_pairwise hkeys hlt hlo hhi)) hx

/-- What is not above the first of several keys is in the reach of the first stop. -/
theorem inReach_zero (hkeys : keys.Pairwise (· < ·)) (hlo : keys[0]? = some lo) (hx : x ≤ lo) :
    InReach keys 0 x := by
  refine ⟨fun i _ hi ↦ absurd hi (Nat.succ_ne_zero i), fun hi hhi ↦ ?_⟩
  have hlt : lo < hi := rel_of_pairwise hkeys Nat.one_pos hlo hhi
  exact (lt_iff x hi).2 ⟨le_trans hx (Scalar.le_of_lt hlt), fun hle ↦
    not_le_of_lt hlt (le_trans hle hx)⟩

/-- What is not below the last key is in the reach of the last stop. -/
theorem inReach_last (hkeys : keys.Pairwise (· < ·)) (hlast : j + 1 = keys.length)
    (hhi : keys[j]? = some hi) (hx : hi ≤ x) : InReach keys j x := by
  refine ⟨fun i lo hij hlo ↦ le_of_key_le hkeys (by omega) hlo hhi hx, fun next hnext ↦ ?_⟩
  rw [hlast, List.getElem?_eq_none (Nat.le_refl _)] at hnext
  exact absurd hnext (by simp)

/-- What is enclosed by two neighbours is in the reach of both. -/
theorem inReach_of_between (hkeys : keys.Pairwise (· < ·)) (hlo : keys[i]? = some lo)
    (hhi : keys[i + 1]? = some hi) (hle : lo ≤ x) (hlt : x < hi) :
    InReach keys i x ∧ InReach keys (i + 1) x := by
  refine ⟨⟨fun k first hk hfirst ↦ ?_, fun next hnext ↦ ?_⟩,
    ⟨fun k first hk hfirst ↦ ?_, fun next hnext ↦ ?_⟩⟩
  · exact le_of_key_le hkeys (by omega) hfirst hlo hle
  · exact lt_of_lt_key hkeys (Nat.le_refl _) hhi hnext hlt
  · exact le_of_key_le hkeys (by omega) hfirst hlo hle
  · exact lt_of_lt_key hkeys (Nat.le_succ _) hhi hnext hlt

/-- **Only the inputs in its reach look at a stop**, where several keys are in strict order. -/
theorem inReach_of_uses (hstrict : (stops.map Prod.fst).Pairwise (· < ·)) (hlen : 2 ≤ stops.length)
    {place : Place} (hplace : (ofList stops).place? x = some place) (huses : place.Uses j) :
    InReach (stops.map Prod.fst) j x := by
  have hlength : (stops.map Prod.fst).length = stops.length := List.length_map _
  have hx := isNaN_eq_false_of_place? hplace (by rw [size_ofList]; omega)
  have asc := Ascending.of_strict hstrict (by omega)
  have hpos : 0 < (stops.map Prod.fst).length := by omega
  have hend : stops.length - 1 < (stops.map Prod.fst).length := by omega
  have hfirst := List.getElem?_eq_getElem hpos
  have hlast := List.getElem?_eq_getElem hend
  -- the place of the input is known once it is compared with both ends
  by_cases hle : x ≤ (stops.map Prod.fst)[0]
  · rw [place?_of_le_head (List.head?_eq_getElem?.trans hfirst) hle, Option.some.injEq] at hplace
    subst hplace
    obtain ⟨_⟩ := huses
    exact inReach_zero hstrict hfirst hle
  · have hbelow : ∀ first, (stops.map Prod.fst).head? = some first → ¬x ≤ first := by
      intro first h
      rw [List.head?_eq_getElem?, hfirst, Option.some.injEq] at h
      rwa [← h]
    by_cases hge : (stops.map Prod.fst)[stops.length - 1] ≤ x
    · rw [place?_of_getLast_le (by rw [List.getLast?_eq_getElem?, hlength, hlast]) hge hbelow,
        Option.some.injEq] at hplace
      subst hplace
      obtain ⟨_⟩ := huses
      exact inReach_last hstrict (by omega) hlast hge
    · obtain ⟨i, hi⟩ := exists_encloses hx asc.isNaN_eq_false (by simpa using hpos)
        (by simpa using hle) (by simpa using hge)
      rw [place?_of_encloses asc hi hbelow, Option.some.injEq] at hplace
      subst hplace
      obtain ⟨lo, hi, hlo, hhi, hle, hlt⟩ := hi
      rw [List.getElem?_toArray] at hlo hhi
      obtain ⟨hlower, hupper⟩ := inReach_of_between hstrict hlo hhi hle hlt
      cases huses with
      | lower => exact hlower
      | upper => exact hupper

end MapStyle.Ramp
