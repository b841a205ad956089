import MapStyle.Interpolation
import MapStyle.Proofs.Scalar.Real

/-!
# The interpolation factor over the reals

The factor at which an input stands between two keys is a quotient of two differences of powers. For
bases above one both are positive and for bases below one both are negative. `advance` turns the
sign of the latter around, so that for every base that is not negative the factor is a quotient of
two values of **one increasing function** that is zero at zero (`exponentialFactor_eq_advance`).
From that come its bounds and its monotonicity, with no further regard to the base.

Where the base is positive the factor is also the share by which the *shape* of the base, a straight
line or a power, has grown (`exponentialFactor_mul_line`, `exponentialFactor_mul_power`). So a blend
by the factor stays on the stretched shape through both of its ends (`followsShape_of_share`).
-/

namespace MapStyle

open Set

/-! ### Shapes -/

/-- **The stretched shape that goes through two points**: one multiple of the shape and one constant
put it there. -/
def Through (shape : ℝ → ℝ) (a b stretch : ℝ × ℝ) : Prop :=
  stretch.1 * shape a.1 + stretch.2 = a.2 ∧ stretch.1 * shape b.1 + stretch.2 = b.2

/-- **A curve follows a shape** from one point to another: exactly one stretched shape goes through
both points, and the curve lies on it in between. -/
def FollowsShape (shape curve : ℝ → ℝ) (a b : ℝ × ℝ) : Prop :=
  (∃! stretch, Through shape a b stretch) ∧
    ∀ stretch, Through shape a b stretch → ∀ x ∈ Icc a.1 b.1,
      curve x = stretch.1 * shape x + stretch.2

/-- Two different heights of a shape leave one way to stretch it through two points. -/
theorem existsUnique_through {shape : ℝ → ℝ} {a b : ℝ × ℝ} (h : shape a.1 ≠ shape b.1) :
    ∃! stretch, Through shape a b stretch := by
  have hrise : shape b.1 - shape a.1 ≠ 0 := sub_ne_zero.2 h.symm
  have hslope : (b.2 - a.2) / (shape b.1 - shape a.1) * (shape b.1 - shape a.1) = b.2 - a.2 :=
    div_mul_cancel₀ _ hrise
  refine ⟨((b.2 - a.2) / (shape b.1 - shape a.1),
    a.2 - (b.2 - a.2) / (shape b.1 - shape a.1) * shape a.1), ⟨?_, ?_⟩, ?_⟩
  · exact add_sub_cancel _ _
  · linear_combination hslope
  · rintro ⟨m, c⟩ ⟨hlower, hupper⟩
    have hm : m = (b.2 - a.2) / (shape b.1 - shape a.1) := by
      rw [eq_div_iff hrise]
      linear_combination hupper - hlower
    rw [Prod.mk.injEq, ← hm]
    exact ⟨rfl, eq_sub_of_add_eq' hlower⟩

/-- **Blending by the share of a shape follows the shape.** -/
theorem followsShape_of_share {shape curve share : ℝ → ℝ} {a b : ℝ × ℝ}
    (h : shape a.1 ≠ shape b.1)
    (hshare : ∀ x, share x * (shape b.1 - shape a.1) = shape x - shape a.1)
    (hcurve : ∀ x ∈ Icc a.1 b.1, curve x = a.2 + (b.2 - a.2) * share x) :
    FollowsShape shape curve a b := by
  refine ⟨existsUnique_through h, fun stretch hthrough x hx ↦ ?_⟩
  obtain ⟨hlower, hupper⟩ := hthrough
  rw [hcurve x hx]
  linear_combination (share x - 1) * hlower - share x * hupper + stretch.1 * hshare x

/-! ### One increasing function -/

/-- **How far a base has come** after a distance, from nothing at all. -/
noncomputable def advance (base distance : ℝ) : ℝ :=
  if base = 1 then distance
  else if 1 < base then base ^ distance - 1
  else 1 - base ^ distance

theorem monotoneOn_advance {base : ℝ} (hbase : 0 ≤ base) : MonotoneOn (advance base) (Ici 0) := by
  intro s hs t _ hst
  rw [advance, advance]
  split_ifs with hone habove
  · exact hst
  · have hpow : base ^ s ≤ base ^ t := Real.rpow_le_rpow_of_exponent_le habove.le hst
    exact sub_le_sub_right hpow 1
  · have hpow : base ^ t ≤ base ^ s :=
      Real.rpow_le_rpow_of_exponent_ge' hbase (not_lt.1 habove) hs hst
    exact sub_le_sub_left hpow 1

theorem advance_pos {base distance : ℝ} (hbase : 0 ≤ base) (h : 0 < distance) :
    0 < advance base distance := by
  rw [advance]
  split_ifs with hone habove
  · exact h
  · exact sub_pos.2 (Real.one_lt_rpow habove h)
  · have hbelow : base < 1 := lt_of_le_of_ne (not_lt.1 habove) hone
    exact sub_pos.2 (Real.rpow_lt_one hbase hbelow h)

/-! ### The factor -/

variable [RealFunctions] {x base lo hi : ℝ}

theorem exponentialFactor_real (x base lo hi : ℝ) :
    exponentialFactor x base lo hi =
      if hi = lo then 0
      else if base = 1 then (x - lo) / (hi - lo)
      else (Scalar.pow base (x - lo) - 1) / (Scalar.pow base (hi - lo) - 1) := by
  show (if (hi - lo == (0.0 : ℝ)) = true then (0.0 : ℝ)
    else if (base == (1.0 : ℝ)) = true then (x - lo) / (hi - lo)
    else (Scalar.pow base (x - lo) - (1.0 : ℝ)) / (Scalar.pow base (hi - lo) - (1.0 : ℝ))) = _
  have hzero : (0.0 : ℝ) = 0 := by norm_num
  have hone : (1.0 : ℝ) = 1 := by norm_num
  simp only [Scalar.beq_real_iff, hzero, hone, sub_eq_zero]

/-- **At the lower key nothing is gone yet**, whatever the base and the power. -/
@[simp] theorem exponentialFactor_lower (base lo hi : ℝ) : exponentialFactor lo base lo hi = 0 := by
  have hpow : Scalar.pow base (0 : ℝ) = 1 := RealFunctions.pow_zero base
  rw [exponentialFactor_real, sub_self, hpow, sub_self, zero_div, zero_div, ite_self, ite_self]

/-- A straight line grows by the share that is the factor for base one. -/
theorem exponentialFactor_mul_line (h : lo < hi) (x : ℝ) :
    exponentialFactor x 1 lo hi * (hi - lo) = x - lo := by
  rw [exponentialFactor_real, if_neg h.ne', if_pos rfl]
  exact div_mul_cancel₀ _ (sub_pos.2 h).ne'

variable [RealPower]

/-- **The factor is the share of the advance**, for every base that is not negative. -/
theorem exponentialFactor_eq_advance (hbase : 0 ≤ base) (h : lo < hi) :
    exponentialFactor x base lo hi = advance base (x - lo) / advance base (hi - lo) := by
  rw [exponentialFactor_real, if_neg h.ne', advance, advance]
  split_ifs with hone habove
  · rfl
  · rw [RealPower.pow_eq hbase, RealPower.pow_eq hbase]
  · rw [RealPower.pow_eq hbase, RealPower.pow_eq hbase, ← neg_div_neg_eq, neg_sub, neg_sub]

/-- The factor never divides by zero between two keys in order. -/
theorem divisors_ne_zero (hbase : 0 ≤ base) (h : lo < hi) :
    hi - lo ≠ 0 ∧ (base ≠ 1 → Scalar.pow base (hi - lo) - 1 ≠ 0) := by
  have hspan : 0 < hi - lo := sub_pos.2 h
  refine ⟨hspan.ne', fun hone ↦ ?_⟩
  have hadvance := advance_pos hbase hspan
  rw [advance, if_neg hone] at hadvance
  rw [RealPower.pow_eq hbase]
  split_ifs at hadvance with habove
  · exact hadvance.ne'
  · exact (sub_neg.2 (sub_pos.1 hadvance)).ne

theorem exponentialFactor_upper (hbase : 0 ≤ base) (h : lo < hi) :
    exponentialFactor hi base lo hi = 1 := by
  rw [exponentialFactor_eq_advance hbase h]
  exact div_self (advance_pos hbase (sub_pos.2 h)).ne'

/-- **The factor grows with the input.** -/
theorem monotoneOn_exponentialFactor (hbase : 0 ≤ base) (h : lo < hi) :
    MonotoneOn (fun x ↦ exponentialFactor x base lo hi) (Ici lo) := by
  intro x hx y hy hxy
  show exponentialFactor x base lo hi ≤ exponentialFactor y base lo hi
  rw [exponentialFactor_eq_advance hbase h, exponentialFactor_eq_advance hbase h]
  have hx0 : x - lo ∈ Ici 0 := mem_Ici.2 (sub_nonneg.2 hx)
  have hy0 : y - lo ∈ Ici 0 := mem_Ici.2 (sub_nonneg.2 hy)
  have hadvance : advance base (x - lo) ≤ advance base (y - lo) :=
    monotoneOn_advance hbase hx0 hy0 (sub_le_sub_right hxy lo)
  exact div_le_div_of_nonneg_right hadvance (advance_pos hbase (sub_pos.2 h)).le

/-- **Between two keys the factor is a share.** -/
theorem exponentialFactor_mem_Icc (hbase : 0 ≤ base) (h : lo < hi) (hx : x ∈ Icc lo hi) :
    exponentialFactor x base lo hi ∈ Icc 0 1 := by
  have hmono := monotoneOn_exponentialFactor hbase h
  constructor
  · rw [← exponentialFactor_lower base lo hi]
    exact hmono self_mem_Ici hx.1 hx.1
  · rw [← exponentialFactor_upper hbase h]
    exact hmono hx.1 h.le hx.2

/-- The powers of a base grow by the share that is its factor. -/
theorem exponentialFactor_mul_power (hbase : 0 < base) (hone : base ≠ 1) (h : lo < hi) (x : ℝ) :
    exponentialFactor x base lo hi * (base ^ hi - base ^ lo) = base ^ x - base ^ lo := by
  have hdivisor := (divisors_ne_zero hbase.le h).2 hone
  have hgrowth : ∀ y, base ^ y - base ^ lo = base ^ lo * (base ^ (y - lo) - 1) := by
    intro y
    rw [Real.rpow_sub hbase, mul_sub, mul_one,
      mul_div_cancel₀ _ (Real.rpow_pos_of_pos hbase lo).ne']
  rw [RealPower.pow_eq hbase.le] at hdivisor
  rw [exponentialFactor_real, if_neg h.ne', if_neg hone, RealPower.pow_eq hbase.le,
    RealPower.pow_eq hbase.le, hgrowth, hgrowth, mul_left_comm, div_mul_cancel₀ _ hdivisor]

end MapStyle
