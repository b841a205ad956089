import MapStyle.Color.Hcl
import MapStyle.Proofs.Scalar.Real

/-!
# The shorter arc

Blending in `Hcl` moves the hue along an arc from one end to the other. Hues are points of a circle,
so there is an arc for every whole number of turns that is added to their difference, and the one
taken is `Hcl.arc`. It is fixed by the two ends alone; the factor only says how far along it a point
is (`blendHue_eq`).

**No arc to the same end is shorter** (`abs_arc_le`). All of them differ by whole turns, so it is
enough that this one is half a turn at most, which is what rounding to the nearest number of turns
gives. Ties are where two arcs of half a turn are left, and the rounding decides between them.
Nothing is asked of the ends: they may be negative and any number of turns apart.
-/

namespace MapStyle.Hcl

open Set

/-- **The arc that a blend goes along**, in degrees: the difference of the hues if that is at most
half a turn, and else the difference less the nearest number of whole turns. -/
def arc {α : Type} [Scalar α] (a b : α) : α :=
  let d := b - a
  if Scalar.within (-180.0) 180.0 d then d else d - 360.0 * Scalar.round (d / 360.0)

/-- A blend goes along the arc in proportion to the factor. -/
theorem blendHue_eq {α : Type} [Scalar α] (a b t : α) : blendHue a b t = a + t * arc a b := rfl

variable [RealFunctions]

/-! ### Rounding -/

/-- Rounding halves away from zero is rounding them up on one side of zero, mirrored on the
other. -/
theorem round_real (x : ℝ) :
    Scalar.round x = if 0 ≤ x then (round x : ℝ) else -(round (-x) : ℝ) := by
  show (if 0 ≤ x then (⌊x + 1 / 2⌋ : ℝ) else ⌈x - 1 / 2⌉) = _
  have hmirror : -(round (-x)) = ⌈x - 1 / 2⌉ := by
    rw [round_eq, ← Int.ceil_neg]
    congr 1
    ring
  rw [round_eq, ← hmirror]
  push_cast
  rfl

/-- A rounded value is an integer, half a unit away at most. -/
theorem exists_round_eq (x : ℝ) : ∃ n : ℤ, Scalar.round x = n ∧ |x - n| ≤ 1 / 2 := by
  rw [round_real]
  split_ifs
  · exact ⟨round x, rfl, abs_sub_round x⟩
  · refine ⟨-round (-x), by push_cast; rfl, ?_⟩
    have hmirror : x - ((-round (-x) : ℤ) : ℝ) = -(-x - round (-x)) := by
      push_cast
      ring
    rw [hmirror, abs_neg]
    exact abs_sub_round (-x)

/-! ### The arc -/

variable (a b : ℝ)

theorem arc_real : arc a b =
    if |b - a| ≤ 180 then b - a else b - a - 360 * Scalar.round ((b - a) / 360) := by
  have hwithin : Scalar.within (-180.0) 180.0 (b - a) = true ↔ |b - a| ≤ 180 := by
    rw [Scalar.within_iff, abs_le]
    norm_num
  have hturn : (360.0 : ℝ) = 360 := by norm_num
  simp only [arc, hwithin, hturn]

/-- **The arc leads to the other end**, whole turns aside. -/
theorem exists_arc_eq : ∃ turns : ℤ, arc a b = b - a + 360 * turns := by
  rw [arc_real]
  split_ifs
  · exact ⟨0, by simp⟩
  · obtain ⟨n, hn, -⟩ := exists_round_eq ((b - a) / 360)
    refine ⟨-n, ?_⟩
    rw [hn]
    push_cast
    ring

/-- **The arc is half a turn at most.** -/
theorem abs_arc_le_half_turn : |arc a b| ≤ 180 := by
  rw [arc_real]
  split_ifs with hshort
  · exact hshort
  · obtain ⟨n, hn, hnear⟩ := exists_round_eq ((b - a) / 360)
    have hscale : b - a - 360 * n = 360 * ((b - a) / 360 - n) := by ring
    rw [hn, hscale, abs_mul, abs_of_pos (by norm_num)]
    linarith

omit [RealFunctions] in
/-- Whole turns make nothing shorter that is half a turn at most. -/
theorem abs_le_abs_add_turns {d : ℝ} (hd : |d| ≤ 180) (turns : ℤ) : |d| ≤ |d + 360 * turns| := by
  rcases eq_or_ne turns 0 with rfl | hne
  · simp
  · have hone : (1 : ℝ) ≤ |(turns : ℝ)| := by exact_mod_cast Int.one_le_abs hne
    have hturns : |360 * (turns : ℝ)| = 360 * |(turns : ℝ)| := by
      rw [abs_mul, abs_of_pos (by norm_num)]
    -- A turn is twice as long as `d` or longer, and what remains of it is at least as long as `d`.
    have htriangle : |360 * (turns : ℝ)| ≤ |d + 360 * turns| + |d| := by
      have hsub := abs_sub (d + 360 * (turns : ℝ)) d
      rwa [add_sub_cancel_left] at hsub
    linarith

/-- **No arc to the same end is shorter.** -/
theorem abs_arc_le (turns : ℤ) : |arc a b| ≤ |b - a + 360 * turns| := by
  obtain ⟨n, hn⟩ := exists_arc_eq a b
  have harc : b - a + 360 * (turns : ℝ) = arc a b + 360 * ((turns - n : ℤ) : ℝ) := by
    rw [hn]
    push_cast
    ring
  rw [harc]
  exact abs_le_abs_add_turns (abs_arc_le_half_turn a b) _

/-! ### The path -/

/-- **Hues are blended along the shortest arc**, whatever hues they are. A blend goes in proportion
to the factor along an arc that does not depend on it, ends at the other hue but for whole turns,
and is at most half a turn long and no longer than any other arc that ends there. So it starts at
the one hue and ends at the other, and no point of it is more than half a turn from either end. -/
theorem blendHue_shortest :
    ∃ d : ℝ, (∃ turns : ℤ, d = b - a + 360 * turns) ∧ |d| ≤ 180 ∧
      (∀ turns : ℤ, |d| ≤ |b - a + 360 * turns|) ∧
      (∀ t, blendHue a b t = a + t * d) ∧
      blendHue a b 0 = a ∧ (∃ turns : ℤ, blendHue a b 1 = b + 360 * turns) ∧
      ∀ t ∈ Icc (0 : ℝ) 1, |blendHue a b t - a| ≤ 180 ∧
        |blendHue a b t - blendHue a b 1| ≤ 180 := by
  have hhalf := abs_arc_le_half_turn a b
  obtain ⟨turns, hturns⟩ := exists_arc_eq a b
  refine ⟨arc a b, ⟨turns, hturns⟩, hhalf, abs_arc_le a b, blendHue_eq a b, ?_, ⟨turns, ?_⟩, ?_⟩
  · rw [blendHue_eq]
    ring
  · rw [blendHue_eq, hturns]
    ring
  · intro t ht
    have hshare : ∀ s ∈ Icc (0 : ℝ) 1, |s * arc a b| ≤ 180 := fun s hs ↦ by
      rw [abs_mul, abs_of_nonneg hs.1]
      exact (mul_le_of_le_one_left (abs_nonneg _) hs.2).trans hhalf
    constructor
    · rw [blendHue_eq, add_sub_cancel_left]
      exact hshare t ht
    · have hrest : blendHue a b t - blendHue a b 1 = -((1 - t) * arc a b) := by
        rw [blendHue_eq, blendHue_eq]
        ring
      rw [hrest, abs_neg]
      exact hshare (1 - t) ⟨by linarith [ht.2], by linarith [ht.1]⟩

omit [RealFunctions] in
/-- Two hues three turns and ten degrees apart, one of them negative: a blend goes the ten
degrees. -/
theorem blendHue_shortest_many_turns :
    letI := RealFunctions.standard
    (1 / 2 : ℝ) ∈ Icc 0 1 ∧ blendHue (-350) 740 (1 / 2 : ℝ) = -345 ∧
      |blendHue (-350) 740 (1 / 2 : ℝ) - blendHue (-350) 740 1| ≤ 180 := by
  let := RealFunctions.standard
  have ht : (1 / 2 : ℝ) ∈ Icc 0 1 := by constructor <;> norm_num
  obtain ⟨d, ⟨turns, hd⟩, -, hleast, hpath, -, -, hnear⟩ := blendHue_shortest (-350) 740
  refine ⟨ht, ?_, (hnear _ ht).2⟩
  have hshort : |d| ≤ 10 := (hleast (-3)).trans (by norm_num)
  obtain ⟨hlo, hhi⟩ := abs_le.1 hshort
  have hturns : turns = -3 := by
    have hlo' : (-4 : ℝ) < turns := by linarith
    have hhi' : (turns : ℝ) < -2 := by linarith
    have hlo'' : -4 < turns := by exact_mod_cast hlo'
    have hhi'' : turns < -2 := by exact_mod_cast hhi'
    omega
  rw [hpath, hd, hturns]
  norm_num

end MapStyle.Hcl
