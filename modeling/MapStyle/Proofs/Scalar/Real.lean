import Mathlib
import MapStyle.Proofs.Scalar.Lawful

/-!
# Real scalars

Read at the real numbers, the definitions of the library mean what their formulas say: sums,
quotients and comparisons are exact, there is no value that is not a number, and the two zeros are
one. What is proved of them here is proved of the rules of map styles, and says nothing about
rounding.

The functions that a carrier has besides arithmetic are not determined by it, and few statements
need to know them. They are collected in `RealFunctions` and stay arbitrary, but for the one law
that interpolation rests on: the zeroth power is one, also that of zero. Statements about curves
need the real power, which is what `RealPower` says, and statements about lightness the real cube
root (`RealCubeRoot`).
-/

namespace MapStyle

/-- **The functions of a real carrier** that exact arithmetic leaves open. -/
class RealFunctions where
  /-- The first argument raised to the second. -/
  pow : ℝ → ℝ → ℝ
  /-- The zeroth power of everything is one. -/
  pow_zero (base : ℝ) : pow base 0 = 1
  /-- Cube root. -/
  cbrt : ℝ → ℝ
  /-- Sine. -/
  sin : ℝ → ℝ
  /-- Cosine. -/
  cos : ℝ → ℝ
  /-- The angle of a point, ordinate first. -/
  atan2 : ℝ → ℝ → ℝ
  /-- The digits of a number as plain text writes it. -/
  positional : ℝ → String
  /-- The digits of a number as JSON text writes it. -/
  jsonDigits : ℝ → String

/-- **The mathematical functions**, with texts that say nothing. -/
@[reducible] noncomputable def RealFunctions.standard : RealFunctions where
  pow := fun x y ↦ x ^ y
  pow_zero := Real.rpow_zero
  cbrt := fun x ↦ if 0 ≤ x then x ^ (1 / 3 : ℝ) else -(-x) ^ (1 / 3 : ℝ)
  sin := Real.sin
  cos := Real.cos
  atan2 := fun y x ↦ Complex.arg ⟨x, y⟩
  positional := fun _ ↦ ""
  jsonDigits := fun _ ↦ ""

section

variable [RealFunctions]

/-- **Exact real arithmetic.** Every real is finite, and halves are rounded away from zero. -/
noncomputable instance : Scalar ℝ where
  decidableLE := Real.decidableLE
  decidableLT := Real.decidableLT
  pow := RealFunctions.pow
  sqrt := Real.sqrt
  cbrt := RealFunctions.cbrt
  sin := RealFunctions.sin
  cos := RealFunctions.cos
  atan2 := RealFunctions.atan2
  round := fun x ↦ if 0 ≤ x then ⌊x + 1 / 2⌋ else ⌈x - 1 / 2⌉
  isFinite := fun _ ↦ true
  ofInt := fun n ↦ n
  ofDecimal := fun digits exponent ↦ digits * 10 ^ exponent
  toSafeInt? := fun x ↦ if (⌊x⌋ : ℝ) = x ∧ ⌊x⌋.natAbs < 2 ^ 53 then some ⌊x⌋ else none
  positional := RealFunctions.positional
  jsonDigits := RealFunctions.jsonDigits

/-- **The power is the real power** of every base that is not negative. -/
class RealPower : Prop where
  /-- Powers of such a base are real powers. -/
  pow_eq {base : ℝ} (h : 0 ≤ base) (x : ℝ) : Scalar.pow base x = base ^ x

/-- **The cube root is the real one**, also of negative numbers: its cube is what it was taken
of. -/
class RealCubeRoot : Prop where
  /-- Cubing undoes the root. -/
  cbrt_pow_three (x : ℝ) : Scalar.cbrt x ^ 3 = x

namespace Scalar

/-! ### Comparison -/

omit [RealFunctions] in
theorem beq_real_iff {x y : ℝ} : (x == y) = true ↔ x = y := beq_iff_eq

@[simp] theorem isNaN_real (x : ℝ) : isNaN x = false := by
  rw [isNaN_eq_false_iff]
  exact beq_real_iff.2 rfl

instance : Lawful ℝ where
  beq_iff _ _ := beq_real_iff.trans le_antisymm_iff
  lt_iff _ _ := lt_iff_le_not_ge
  le_trans hxy hyz := hxy.trans hyz
  le_or_ge _ _ := le_total _ _
  isNaN_of_le_left _ := isNaN_real _
  isNaN_of_le_right _ := isNaN_real _
  isNaN_of_isFinite _ := isNaN_real _
  isNaN_ofInt _ := isNaN_real _

/-! ### Interpolation -/

theorem lerp_real (a b t : ℝ) : lerp a b t = a + (b - a) * t := rfl

/-! ### Cubes and their roots -/

omit [RealFunctions] in
theorem cube_lt_cube_iff {x y : ℝ} : x * x * x < y * y * y ↔ x < y := by
  rw [← pow_three', ← pow_three']
  exact (Odd.strictMono_pow (by decide)).lt_iff_lt

variable [RealCubeRoot]

@[simp] theorem cube_cbrt (x : ℝ) : cbrt x * cbrt x * cbrt x = x := by
  rw [← pow_three', RealCubeRoot.cbrt_pow_three]

@[simp] theorem cbrt_cube (x : ℝ) : cbrt (x * x * x) = x := by
  have hcube : cbrt (x * x * x) ^ 3 = x ^ 3 := by
    rw [RealCubeRoot.cbrt_pow_three, pow_three']
  exact (Odd.strictMono_pow (by decide)).injective hcube

theorem lt_cbrt_iff {x y : ℝ} : x < cbrt y ↔ x * x * x < y := by
  rw [← cube_lt_cube_iff, cube_cbrt]

end Scalar

end

instance RealPower.standard : @RealPower RealFunctions.standard :=
  @RealPower.mk RealFunctions.standard fun _ _ ↦ rfl

instance RealCubeRoot.standard : @RealCubeRoot RealFunctions.standard := by
  have hroot : ∀ {y : ℝ}, 0 ≤ y → (y ^ (1 / 3 : ℝ)) ^ 3 = y := fun hy ↦ by
    rw [one_div]
    exact_mod_cast Real.rpow_inv_natCast_pow hy (by decide : 3 ≠ 0)
  refine @RealCubeRoot.mk RealFunctions.standard fun x ↦ ?_
  show (if 0 ≤ x then x ^ (1 / 3 : ℝ) else -(-x) ^ (1 / 3 : ℝ)) ^ 3 = x
  split_ifs with hx
  · exact hroot hx
  · rw [Odd.neg_pow (by decide), hroot (neg_nonneg.2 (not_le.1 hx).le), neg_neg]

end MapStyle
