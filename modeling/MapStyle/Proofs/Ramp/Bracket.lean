import MapStyle.Proofs.Ramp.FloorIndex
import MapStyle.Proofs.Scalar.Difference

/-!
# Brackets

Placing an input tries the ends of a ramp first and searches only then. On ascending keys, which may
repeat, **the place is the one that the order of the keys gives it** (`Bracket`): the first stop for
a lone key and for an input that is not above the first key, the last stop for one that is not below
the last key, and between these the only pair of neighbours that encloses it. The index that is
searched for is never that of the last key then, so nothing is left for the search to guard against.

Neighbours that enclose an input are in strict order, however often either of them repeats. So the
span between them is not zero, which subtraction does not hide (`Scalar.Separated`). And an input
that grows never falls back to an earlier stop: at the first key the run of equal keys is left for
its last one, and the floor index takes over from there.
-/

namespace MapStyle.Ramp

open Scalar FloorSearch

variable {α : Type} [Scalar α] {keys : Array α} {x y : α} {place : Place}

/-- **The place that belongs to an input.** -/
inductive Bracket (keys : Array α) (x : α) : Place → Prop where
  /-- There is one key, or the input is not above the first. -/
  | first (h : 0 < keys.size) (hx : keys.size = 1 ∨ x ≤ keys[0]) : Bracket keys x (.at 0)
  /-- There are more, and the input is above the first key and not below the last. -/
  | last (h : 0 < keys.size) (hfirst : ¬(keys.size = 1 ∨ x ≤ keys[0])) (hx : keys.back h ≤ x) :
    Bracket keys x (.at (keys.size - 1))
  /-- The input is away from both ends and enclosed by two neighbours. -/
  | between (h : 0 < keys.size) (hfirst : ¬(keys.size = 1 ∨ x ≤ keys[0]))
    (hlast : ¬keys.back h ≤ x) {i : Nat} (hi : Encloses keys x i) : Bracket keys x (.between i)

variable [Lawful α]

/-! ### The place of an input -/

/-- A number has a place among keys, in order or not. -/
theorem exists_bracket (hnum : ∀ k ∈ keys, isNaN k = false) (h : 0 < keys.size)
    (hx : isNaN x = false) : ∃ place, Bracket keys x place := by
  by_cases hfirst : keys.size = 1 ∨ x ≤ keys[0]
  · exact ⟨_, .first h hfirst⟩
  · by_cases hlast : keys.back h ≤ x
    · exact ⟨_, .last h hfirst hlast⟩
    · obtain ⟨i, hi⟩ := exists_encloses hx hnum h (not_or.1 hfirst).2 hlast
      exact ⟨_, .between h hfirst hlast hi⟩

/-- **The ends and the search give an input the place that belongs to it.** -/
theorem Ascending.placeAmong_of_bracket (asc : Ascending keys) (h : Bracket keys x place) :
    placeAmong keys x = place := by
  cases h with
  | first h hx =>
    cases hx with
    | inl hsize => exact placeAmong_of_size_eq_one hsize x
    | inr hle => exact placeAmong_of_le_first h hle
  | last h hfirst hx =>
    obtain ⟨hsize, hfirst⟩ := not_or.1 hfirst
    exact placeAmong_of_last_le (by omega) hfirst hx
  | between h hfirst hlast hi =>
    refine asc.placeAmong_eq_between hi fun k hk ↦ ?_
    rw [Array.getElem?_eq_getElem h, Option.some.injEq] at hk
    exact hk ▸ (not_or.1 hfirst).2

/-- **A place is given to an input exactly if it belongs to it.** -/
theorem Ascending.placeAmong_eq_iff (asc : Ascending keys) (h : 0 < keys.size)
    (hx : isNaN x = false) : placeAmong keys x = place ↔ Bracket keys x place := by
  refine ⟨?_, asc.placeAmong_of_bracket⟩
  rintro rfl
  obtain ⟨place, hplace⟩ := exists_bracket asc.isNaN_eq_false h hx
  rwa [asc.placeAmong_of_bracket hplace]

/-! ### What follows for the place -/

/-- **Neighbours that enclose an input are in strict order.** -/
theorem Encloses.lt {i : Nat} {lo hi : α} (h : Encloses keys x i)
    (hlo : keys[i]? = some lo) (hhi : keys[i + 1]? = some hi) : lo < hi := by
  obtain ⟨lo', hi', hlo', hhi', hle, hlt⟩ := h
  obtain rfl := Option.some.inj (hlo'.symm.trans hlo)
  obtain rfl := Option.some.inj (hhi'.symm.trans hhi)
  exact (lt_iff lo' hi').2 ⟨le_trans hle (Scalar.le_of_lt hlt),
    fun hge ↦ not_le_of_lt hlt (le_trans hge hle)⟩

/-- **The stop of a place grows with the input.** -/
theorem Ascending.floor_placeAmong_mono (asc : Ascending keys) (h : 0 < keys.size)
    (hxy : x ≤ y) : (placeAmong keys x).floor ≤ (placeAmong keys y).floor := by
  have hfirst : isNaN keys[0] = false := asc.isNaN_eq_false _ (Array.getElem_mem h)
  by_cases hx : x ≤ keys[0]
  · rw [placeAmong_of_le_first h hx]
    exact Nat.zero_le _
  · have habove : ∀ {z : α}, x ≤ z → keys[0] < z := fun hz ↦
      lt_of_not_le (isNaN_of_le_right hz) hfirst fun hle ↦ hx (le_trans hz hle)
    rw [asc.floor_placeAmong h (habove (le_refl (isNaN_of_le_left hxy))),
      asc.floor_placeAmong h (habove hxy)]
    exact asc.floorIndex_mono hxy

/-- **Placing is exact on ascending keys**, repeated ones included. A number is given the place that
belongs to it and no other: the first stop if it has but one key or is not above the first of them,
the last stop if it is not below the last, and else between the two neighbours that enclose it, of
which there is one pair. The span between these is not zero, and the stop of the place grows with
the input. -/
theorem Ascending.placeAmong_exact [Separated α] (asc : Ascending keys) (h : 0 < keys.size)
    (hx : isNaN x = false) :
    (∀ place, placeAmong keys x = place ↔ Bracket keys x place) ∧
      (∀ i lo hi, placeAmong keys x = .between i → keys[i]? = some lo → keys[i + 1]? = some hi →
        lo < hi ∧ (hi - lo == 0.0) = false) ∧
      ∀ y, x ≤ y → (placeAmong keys x).floor ≤ (placeAmong keys y).floor := by
  refine ⟨fun place ↦ asc.placeAmong_eq_iff h hx, ?_, fun y hxy ↦ asc.floor_placeAmong_mono h hxy⟩
  intro i lo hi hplace hlo hhi
  have hlt := (asc.encloses_of_placeAmong h hx hplace).lt hlo hhi
  exact ⟨hlt, Separated.sub_beq_zero hlt⟩

omit [Lawful α] [Scalar α] in
/-- Away from the ends a run of equal keys is left behind: what equals its keys is between the last
of them and the key after it. At the start and at the end of the keys it is the outermost stop. -/
theorem Ascending.placeAmong_exact_crowded :
    Ascending crowdedZooms ∧ 0 < crowdedZooms.size ∧ isNaN (7.0 : Float) = false ∧
      placeAmong crowdedZooms 7.0 = .between 5 ∧ ((9.0 - 7.0 : Float) == 0.0) = false ∧
      placeAmong crowdedZooms 0.0 = .at 0 ∧ placeAmong crowdedZooms 20.0 = .at 10 := by
  have asc : Ascending crowdedZooms := ⟨by decide, by decide⟩
  have hstart : (0.0 : Float) ≤ crowdedZooms[0] := by decide
  have h : 0 < crowdedZooms.size := by decide
  have hseven : placeAmong crowdedZooms 7.0 = .between 5 :=
    ((asc.placeAmong_exact h (by decide)).1 _).2
      (.between (by decide) (by decide) (by decide) ((encloses_iff (by decide)).2 (by decide)))
  refine ⟨asc, h, by decide, hseven, ?_, ?_, ?_⟩
  · exact ((asc.placeAmong_exact h (by decide)).2.1 5 7.0 9.0 hseven (by decide) (by decide)).2
  · exact ((asc.placeAmong_exact h (by decide)).1 _).2 (.first h (.inr hstart))
  · exact ((asc.placeAmong_exact h (by decide)).1 _).2 (.last (by decide) (by decide) (by decide))

end MapStyle.Ramp
