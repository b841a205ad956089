import MapStyle.Proofs.Lookup.Places
import MapStyle.Proofs.Ramp.Floor
import MapStyle.Proofs.Scalar.Binary64
import MapStyle.StyleFunction.Compilation

/-!
# The stop that a stepping rule takes

A lookup rule that steps hands out one output unchanged, the one at the stop of its input. On
ascending keys, which may repeat, `StopOf` says which stop that is:

* above the first key the last stop whose key is not above the input, so that **a run of equal keys
  resolves to its last stop**;
* at or below the first key the first stop. There a run resolves to its *first* stop, since the ends
  are tried before the floor is searched for (`compile_roadClasses_at_start`).

So the floor index is the stop of every input but one that equals the first key.
-/

namespace MapStyle

open Scalar (Lawful isNaN)

variable {α : Type} [Scalar α]

/-! ### The stop of an input -/

/-- **The stop of an input** among some keys in weak order. -/
structure StopOf (keys : Array α) (x : α) (i : Nat) : Prop where
  /-- Up to the first key it is the first stop, however often that key repeats. -/
  first : ∀ lo, keys[0]? = some lo → x ≤ lo → i = 0
  /-- Above the first key it is the last one whose key is not above the input. -/
  floor : ∀ lo, keys[0]? = some lo → lo < x → Ramp.IsFloor keys x i
  /-- It is the floor index, unless the input equals the first key. -/
  floorIndex_eq : (∀ lo, keys[0]? = some lo → (x == lo) = false) →
    i = FloorSearch.floorIndex keys x
  /-- Of the keys that equal the input it is the last, unless the first key is one of them. -/
  run : (∀ lo, keys[0]? = some lo → (x == lo) = false) → ∀ j key, keys[j]? = some key →
    (x == key) = true → j ≤ i ∧ ∃ own, keys[i]? = some own ∧ (x == own) = true

variable [Lawful α] {keys : Array α} {x : α}

/-- The last key that is not above an input equals it if any key does. -/
theorem Ramp.IsFloor.run (asc : Ramp.Ascending keys) {i : Nat} (h : Ramp.IsFloor keys x i) {j : Nat}
    {key : α} (hkey : keys[j]? = some key) (hx : (x == key) = true) :
    j ≤ i ∧ ∃ own, keys[i]? = some own ∧ (x == own) = true := by
  obtain ⟨hj, rfl⟩ := Array.getElem?_eq_some_iff.1 hkey
  obtain ⟨hle, hge⟩ := (Scalar.beq_iff _ _).1 hx
  have hi := h.lt_size
  have hji : j ≤ i := by
    by_contra hij
    exact h.not_le j hj (by omega) hge
  have hown : x ≤ keys[i] := Scalar.le_trans hle (asc.le hji hj hi)
  exact ⟨hji, keys[i], Array.getElem?_eq_getElem hi, (Scalar.beq_iff _ _).2 ⟨hown, h.le⟩⟩

/-- Up to the first key the first stop is the stop of an input. -/
theorem stopOf_zero (asc : Ramp.Ascending keys) (h : 0 < keys.size) (hfirst : x ≤ keys[0]) :
    StopOf keys x 0 := by
  have hhead := Array.getElem?_eq_getElem h
  have hbelow : (∀ lo, keys[0]? = some lo → (x == lo) = false) → ¬keys[0] ≤ x := fun hne ↦
    Scalar.not_le_of_lt (Scalar.lt_of_le_of_beq_false hfirst (hne _ hhead))
  refine ⟨fun _ _ _ ↦ rfl, ?_, ?_, ?_⟩
  · intro lo hlo hlt
    rw [hhead, Option.some.injEq] at hlo
    rw [← hlo] at hlt
    exact absurd hfirst (Scalar.not_le_of_lt hlt)
  · intro hne
    exact (asc.floorIndex_eq_zero h (hbelow hne)).symm
  · -- a key that equals the input is not below the first one, so neither is the input
    intro hne j key hkey hx
    obtain ⟨hj, rfl⟩ := Array.getElem?_eq_some_iff.1 hkey
    have hge := ((Scalar.beq_iff _ _).1 hx).2
    exact absurd (Scalar.le_trans (asc.le (Nat.zero_le j) h hj) hge) (hbelow hne)

/-- Above the first key the floor index is the stop of an input. -/
theorem stopOf_floorIndex (asc : Ramp.Ascending keys) (h : 0 < keys.size) (habove : keys[0] < x) :
    StopOf keys x (FloorSearch.floorIndex keys x) := by
  have hfloor := asc.isFloor_floorIndex h (Scalar.le_of_lt habove)
  refine ⟨?_, fun _ _ _ ↦ hfloor, fun _ ↦ rfl, ?_⟩
  · intro lo hlo hle
    rw [Array.getElem?_eq_getElem h, Option.some.injEq] at hlo
    rw [← hlo] at hle
    exact absurd hle (Scalar.not_le_of_lt habove)
  · intro _ j key hkey hx
    exact hfloor.run asc hkey hx

/-- **The place of a number belongs to its stop.** -/
theorem stopOf_placeAmong (asc : Ramp.Ascending keys) (h : 0 < keys.size)
    (hx : isNaN x = false) : StopOf keys x (Ramp.placeAmong keys x).floor := by
  by_cases hfirst : x ≤ keys[0]
  · rw [Ramp.placeAmong_of_le_first h hfirst]
    exact stopOf_zero asc h hfirst
  · have hnum := asc.isNaN_eq_false _ (Array.getElem_mem h)
    have habove : keys[0] < x := Scalar.lt_of_not_le hx hnum hfirst
    rw [asc.floor_placeAmong h habove]
    exact stopOf_floorIndex asc h habove

namespace InputFunction

variable {stops : List (α × Value α)} {rule : OutputRule} {fallback : Option (Value α)}

/-- **Stepping hands out the output at the stop of its input**, or the fallback if that output is
malformed. -/
theorem evaluate_interval_stopOf (asc : Ramp.Ascending (stops.map Prod.fst).toArray)
    (hne : stops ≠ []) (hx : isNaN x = false) :
    ∃ i key output, stops[i]? = some (key, output) ∧ StopOf (stops.map Prod.fst).toArray x i ∧
      evaluate ⟨.interval (.ofList stops) rule, fallback⟩ (.number x) =
        (rule.keep? output).or fallback := by
  have hplace := Ramp.place?_ofList (x := x) hne fun hnan ↦
    absurd (hx.symm.trans hnan) Bool.false_ne_true
  have hi : (Ramp.placeAmong (stops.map Prod.fst).toArray x).floor < stops.length :=
    Ramp.floor_lt_size hplace
  have hsize : 0 < (stops.map Prod.fst).toArray.size := by
    rw [List.size_toArray, List.length_map]
    omega
  have hstop := List.getElem?_eq_getElem hi
  refine ⟨_, _, _, hstop, stopOf_placeAmong asc hsize hx, ?_⟩
  rw [evaluate, Lookup.answer?,
    Lookup.interval?_of_place? hplace (Ramp.output?_of_stop hstop)]

end InputFunction

/-! ### Keys that repeat -/

/-- Classes of roads by zoom level. Two of the levels come twice. -/
def roadClasses : List (Float × Value Float) :=
  [(0.0, .string "none"), (0.0, .string "motorway"), (10.0, .string "trunk"),
    (10.0, .string "primary"), (20.0, .string "street")]

theorem ascending_roadClasses : Ramp.Ascending (roadClasses.map Prod.fst).toArray :=
  ⟨by decide, by decide⟩

/-- The second run resolves to its last stop, and so does what follows it; the first run resolves to
its first stop, and so does what comes before. -/
theorem InputFunction.evaluate_interval_stopOf_roadClasses :
    Ramp.Ascending (roadClasses.map Prod.fst).toArray ∧ roadClasses ≠ [] ∧
      (∀ x ∈ [(10.0 : Float), 15.0], isNaN x = false ∧
        evaluate ⟨.interval (.ofList roadClasses) .hold, none⟩ (.number x) =
          some (.string "primary")) ∧
      ∀ x ∈ [(-5.0 : Float), 0.0], isNaN x = false ∧
        evaluate ⟨.interval (.ofList roadClasses) .hold, none⟩ (.number x) =
          some (.string "none") := by
  have hne : roadClasses ≠ [] := List.cons_ne_nil _ _
  have hprimary : ∀ x : Float, isNaN x = false → (x == 0.0) = false →
      FloorSearch.floorIndex (roadClasses.map Prod.fst).toArray x = 3 →
      evaluate ⟨.interval (.ofList roadClasses) .hold, none⟩ (.number x) =
        some (.string "primary") := by
    intro x hx hfirst hfloor
    obtain ⟨i, key, output, hstop, hi, hvalue⟩ :=
      @evaluate_interval_stopOf Float _ _ x roadClasses .hold none ascending_roadClasses hne hx
    obtain rfl : i = 3 := by
      rw [hi.floorIndex_eq, hfloor]
      intro lo hlo
      cases hlo
      exact hfirst
    cases hstop
    exact hvalue
  have hnone : ∀ x : Float, isNaN x = false → x ≤ 0.0 →
      evaluate ⟨.interval (.ofList roadClasses) .hold, none⟩ (.number x) =
        some (.string "none") := by
    intro x hx hfirst
    obtain ⟨i, key, output, hstop, hi, hvalue⟩ :=
      @evaluate_interval_stopOf Float _ _ x roadClasses .hold none ascending_roadClasses hne hx
    obtain rfl : i = 0 := hi.first 0.0 rfl hfirst
    cases hstop
    exact hvalue
  refine ⟨ascending_roadClasses, hne, fun x hx ↦ ?_, fun x hx ↦ ?_⟩
  · rcases List.mem_pair.1 hx with rfl | rfl
    · exact ⟨by decide, hprimary _ (by decide) (by decide) (by decide)⟩
    · exact ⟨by decide, hprimary _ (by decide) (by decide) (by decide)⟩
  · rcases List.mem_pair.1 hx with rfl | rfl
    · exact ⟨by decide, hnone _ (by decide) (by decide)⟩
    · exact ⟨by decide, hnone _ (by decide) (by decide)⟩

namespace FunctionDefinition

/-- The definition of these classes. -/
def roadClassesByZoom : FunctionDefinition Float where
  strategyName := some "interval"
  property := none
  base := none
  default := none
  colorSpaceName := none
  stops := some [⟨.plain (.ofInt 0), .str "none"⟩, ⟨.plain (.ofInt 0), .str "motorway"⟩,
    ⟨.plain (.ofInt 10), .str "trunk"⟩, ⟨.plain (.ofInt 10), .str "primary"⟩,
    ⟨.plain (.ofInt 20), .str "street"⟩]

/-- **At the start a run resolves to its first stop**, although the floor index is that of the
second. -/
theorem compile_roadClasses_at_start :
    ∃ f : InputFunction Float, f = ⟨.interval (.ofList roadClasses) .hold, none⟩ ∧
      roadClassesByZoom.compile (.ofType .string) =
        .ok (.camera f [0.0, 0.0, 10.0, 10.0, 20.0]) ∧
      Ramp.Ascending (roadClasses.map Prod.fst).toArray ∧
      f.evaluate (.number 0.0) = some (.string "none") ∧
      FloorSearch.floorIndex (roadClasses.map Prod.fst).toArray 0.0 = 1 ∧
      roadClasses[1]? = some (0.0, .string "motorway") ∧
      (OutputRule.hold.keep? (.string "motorway")).or f.fallback = some (.string "motorway") := by
  refine ⟨_, rfl, rfl, ascending_roadClasses, ?_, by decide, rfl, rfl⟩
  have hplace : (Ramp.ofList roadClasses).place? 0.0 = some (.at 0) :=
    Ramp.place?_of_le_head rfl (by decide)
  show (Lookup.interval? (.ofList roadClasses) .hold (.number 0.0)).or none = _
  rw [Lookup.interval?_of_place? hplace (Ramp.output?_of_stop rfl)]
  rfl

end FunctionDefinition

end MapStyle
