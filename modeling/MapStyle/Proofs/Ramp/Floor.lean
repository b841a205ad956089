import MapStyle.Proofs.Ramp.Placement

/-!
# The stop of an input

Which stop an input belongs to, where outputs are not blended. On ascending keys, which may repeat,
two answers are possible for it: the floor index, which is that of the **last** key not above the
input (`Ascending.isFloor_floorIndex`), and the stop of its place. They are the same above the first
key (`Ascending.floor_placeAmong`). An input that is not above it is placed at the **first** stop,
however often the first key repeats (`placeAmong_of_le_first`).

Where no key repeats, the inputs between two stops start **at** the lower key, unless it is the
first one (`place?_eq_between_iff`). So an input that equals a key has the stop of that key for its
place at either end, and the pair of that stop and the next one anywhere else (`place?_key`).
-/

namespace MapStyle.Ramp

open Scalar

variable {α : Type} [Scalar α] {keys : Array α} {x : α}

/-! ### The last key not above an input -/

/-- Among the first keys, of which the first is not above the input, some key is the last such. -/
theorem exists_isFloor_below (h : 0 < keys.size) (hx : keys[0] ≤ x) (n : Nat)
    (hn : n < keys.size) : ∃ (i : Nat) (hi : i < keys.size), i ≤ n ∧ keys[i] ≤ x ∧
      ∀ j (hj : j < keys.size), i < j → j ≤ n → ¬keys[j] ≤ x := by
  induction n with
  | zero => exact ⟨0, h, Nat.le_refl 0, hx, fun j _ hj hj0 ↦ absurd hj (by omega)⟩
  | succ n ih =>
    by_cases hnext : keys[n + 1] ≤ x
    · exact ⟨n + 1, hn, Nat.le_refl _, hnext, fun j _ hj hjn ↦ absurd hj (by omega)⟩
    · obtain ⟨i, hi, hin, hle, habove⟩ := ih (by omega)
      refine ⟨i, hi, by omega, hle, fun j hj hij hjn ↦ ?_⟩
      rcases Nat.eq_or_lt_of_le hjn with rfl | hlt
      · exact hnext
      · exact habove j hj hij (by omega)

/-- Where the first key is not above the input some key is the last such, in order or not. -/
theorem exists_isFloor (h : 0 < keys.size) (hx : keys[0] ≤ x) : ∃ i, IsFloor keys x i := by
  obtain ⟨i, hi, -, hle, habove⟩ := exists_isFloor_below h hx (keys.size - 1) (by omega)
  exact ⟨i, hi, hle, fun j hj hij ↦ habove j hj hij (by omega)⟩

variable [Lawful α]

/-- **On ascending keys the floor index is that of the last key not above the input**, if there is
such a key. -/
theorem Ascending.isFloor_floorIndex (asc : Ascending keys) (h : 0 < keys.size)
    (hx : keys[0] ≤ x) : IsFloor keys x (FloorSearch.floorIndex keys x) := by
  obtain ⟨i, hi⟩ := exists_isFloor h hx
  rwa [asc.floorIndex_eq_of_isFloor hi]

/-- Below all keys the floor index is zero. -/
theorem Ascending.floorIndex_eq_zero (asc : Ascending keys) (h : 0 < keys.size)
    (hx : ¬keys[0] ≤ x) : FloorSearch.floorIndex keys x = 0 := by
  refine FloorSearch.floorIndex_of_satisfies (n := 0) (Nat.zero_le _) fun j ↦ ?_
  rcases Nat.lt_or_ge j keys.size with hj | hj
  · rw [FloorSearch.satisfies_eq hj, decide_eq_decide]
    exact iff_of_false (fun hjx ↦ hx (le_trans (asc.le (Nat.zero_le j) h hj) hjx)) (by omega)
  · rw [FloorSearch.satisfies_eq_false hj]
    rfl

/-! ### The stop of a place -/

/-- **Above the first key the stop of a place is the floor.** The ends are tried before the search,
and at the last key there is nothing beyond it for the search to find. -/
theorem Ascending.floor_placeAmong (asc : Ascending keys) (h : 0 < keys.size)
    (hfirst : keys[0] < x) : (placeAmong keys x).floor = FloorSearch.floorIndex keys x := by
  have hfloor := asc.isFloor_floorIndex h (le_of_lt hfirst)
  rw [placeAmong_eq h]
  split
  · rename_i hlone
    have hsize : keys.size = 1 := hlone.resolve_right (not_le_of_lt hfirst)
    have hlt := hfloor.lt_size
    show 0 = _
    omega
  · split
    · rename_i hlast
      by_contra hne
      have hlt := hfloor.lt_size
      exact hfloor.not_le (keys.size - 1) (by omega) (by
        rw [Place.floor] at hne
        omega) hlast
    · split <;> rfl

/-! ### The place of a key -/

/-- Keys in strict order ascend, but for a lone one that is no number. -/
theorem Ascending.of_strict {keys : List α} (h : keys.Pairwise (· < ·)) (hlen : keys.length ≠ 1) :
    Ascending keys.toArray := by
  refine ⟨fun k hk ↦ ?_, h.imp Scalar.le_of_lt⟩
  obtain ⟨i, hi, rfl⟩ := List.mem_iff_getElem.1 (List.mem_toArray.1 hk)
  -- another key is there to compare it with
  rcases Nat.eq_zero_or_pos i with rfl | hpos
  · have hnext : keys[0] < keys[1] := List.pairwise_iff_getElem.1 h 0 1 hi (by omega) Nat.one_pos
    exact isNaN_of_le_left (le_of_lt hnext)
  · have hfirst : keys[0] < keys[i] := List.pairwise_iff_getElem.1 h 0 i (by omega) hi hpos
    exact isNaN_of_le_right (le_of_lt hfirst)

section Strict

variable {β : Type} {stops : List (α × β)} (hstrict : (stops.map Prod.fst).Pairwise (· < ·))
include hstrict

/-- Keys in strict order ascend wherever there is a pair of them. -/
theorem ascending_of_succ_lt {i : Nat} (hi : i + 1 < stops.length) :
    Ascending (stops.map Prod.fst).toArray :=
  .of_strict hstrict (by
    rw [List.length_map]
    omega)

omit [Lawful α] in
/-- A key after the first one is above it. -/
theorem head_lt_of_pos {i : Nat} {first k : α} (hfirst : (stops.map Prod.fst).head? = some first)
    (hpos : 0 < i) (hk : (stops.map Prod.fst)[i]? = some k) : first < k := by
  rw [List.head?_eq_getElem?] at hfirst
  exact rel_of_pairwise hstrict hpos hfirst hk

/-- An input between two stops is enclosed by their keys and is not the first key. -/
theorem exists_keys_of_between {i : Nat} (hplace : (ofList stops).place? x = some (.between i)) :
    ∃ lo hi, (stops.map Prod.fst)[i]? = some lo ∧ (stops.map Prod.fst)[i + 1]? = some hi ∧
      lo ≤ x ∧ x < hi ∧ (i = 0 → lo < x) := by
  have hsize : i + 1 < (ofList stops).size := succ_lt_size_of_place? hplace
  have hx := isNaN_eq_false_of_place? hplace (by omega)
  obtain ⟨hpos, hamong⟩ := placeAmong_of_place? hplace
  rw [← size_keys, keys_ofList] at hpos
  rw [keys_ofList] at hamong
  obtain ⟨lo, hi, hlo, hhi, hle, hlt⟩ :=
    (ascending_of_succ_lt hstrict hsize).encloses_of_placeAmong hpos hx hamong
  rw [List.getElem?_toArray] at hlo hhi
  refine ⟨lo, hi, hlo, hhi, hle, hlt, fun hzero ↦ lt_of_not_le hx (isNaN_of_le_left hle) ?_⟩
  intro hfirst
  rw [hzero, ← List.head?_eq_getElem?] at hlo
  rw [place?_of_le_head hlo hfirst] at hplace
  exact absurd hplace (by simp)

/-- **The inputs between two stops** are those from the lower key on and below the upper one, but
for the first key itself. -/
theorem place?_eq_between_iff {i : Nat} :
    (ofList stops).place? x = some (.between i) ↔
      ∃ lo hi, (stops.map Prod.fst)[i]? = some lo ∧ (stops.map Prod.fst)[i + 1]? = some hi ∧
        lo ≤ x ∧ x < hi ∧ (i = 0 → lo < x) := by
  refine ⟨exists_keys_of_between hstrict, ?_⟩
  rintro ⟨lo, hi, hlo, hhi, hle, hlt, hzero⟩
  have hsize := (List.getElem?_eq_some_iff.1 hhi).1
  rw [List.length_map] at hsize
  refine place?_of_encloses (ascending_of_succ_lt hstrict hsize) ⟨lo, hi, ?_, ?_, hle, hlt⟩ ?_
  · rwa [List.getElem?_toArray]
  · rwa [List.getElem?_toArray]
  · intro first hfirst hx
    rcases Nat.eq_zero_or_pos i with rfl | hpos
    · rw [List.head?_eq_getElem?] at hfirst
      obtain rfl : first = lo := Option.some.inj (hfirst.symm.trans hlo)
      exact not_le_of_lt (hzero rfl) hx
    · exact not_le_of_lt (head_lt_of_pos hstrict hfirst hpos hlo) (le_trans hle hx)

/-- **The place of a key that does not repeat**: its own stop at either end, and between its stop
and the next one anywhere else. -/
theorem place?_key {i : Nat} {k : α} (hk : (ofList stops).key? i = some k) :
    (ofList stops).place? k =
      some (if i = 0 ∨ i + 1 = stops.length then .at i else .between i) := by
  rw [key?_ofList] at hk
  have hi := (List.getElem?_eq_some_iff.1 hk).1
  rw [List.length_map] at hi
  by_cases hlone : stops.length = 1
  · obtain rfl : i = 0 := by omega
    rw [if_pos (.inl rfl), place?_of_length_eq_one hlone]
  · have asc := Ascending.of_strict hstrict (by rwa [List.length_map])
    have hself : k ≤ k :=
      le_refl (asc.isNaN_eq_false k (List.mem_toArray.2 (List.mem_of_getElem? hk)))
    rcases Nat.eq_zero_or_pos i with rfl | hpos
    · rw [if_pos (.inl rfl)]
      exact place?_of_le_head (List.head?_eq_getElem?.trans hk) hself
    · by_cases hlast : i + 1 = stops.length
      · have hend : (stops.map Prod.fst).getLast? = some k := by
          rw [List.getLast?_eq_getElem?, List.length_map, ← hlast]
          exact hk
        have hbelow : ∀ first, (stops.map Prod.fst).head? = some first → ¬k ≤ first :=
          fun first hfirst ↦ not_le_of_lt (head_lt_of_pos hstrict hfirst hpos hk)
        rw [if_pos (.inr hlast), place?_of_getLast_le hend hself hbelow, ← hlast]
        rfl
      · have hnext : i + 1 < (stops.map Prod.fst).length := by
          rw [List.length_map]
          omega
        have hhi := List.getElem?_eq_getElem hnext
        rw [if_neg (by omega), place?_eq_between_iff hstrict]
        exact ⟨k, _, hk, hhi, hself, rel_of_pairwise hstrict (Nat.lt_succ_self i) hk hhi,
          fun hzero ↦ absurd hzero (by omega)⟩

end Strict

end MapStyle.Ramp
