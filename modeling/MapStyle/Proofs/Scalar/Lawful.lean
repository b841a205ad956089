import MapStyle.Scalar

/-!
# Lawful comparison

`Scalar` supplies comparisons without laws. Everything that is proved of stops, levels and ramps
rests on the few laws collected here, which say that comparison is a **total preorder of the
numbers**, numeric equality its symmetric part, and that nothing else can be compared.

Two values may be numerically equal and still differ, as the two zeros do, so `≤` is not
antisymmetric and no law turns `==` into an equation.

Arithmetic does not appear: the laws hold of rounded and of exact arithmetic alike.
-/

namespace MapStyle.Scalar

/-- **Lawful comparison.** The numbers, which are the values that are not `isNaN`, are totally
preordered; finite values and integers are numbers. -/
class Lawful (α : Type) [Scalar α] : Prop where
  /-- Numeric equality is the symmetric part of the order. -/
  beq_iff (x y : α) : (x == y) = true ↔ x ≤ y ∧ y ≤ x
  /-- The strict order is the asymmetric part of the order. -/
  lt_iff (x y : α) : x < y ↔ x ≤ y ∧ ¬y ≤ x
  /-- The order is transitive. -/
  le_trans {x y z : α} : x ≤ y → y ≤ z → x ≤ z
  /-- Numbers are comparable. -/
  le_or_ge {x y : α} : isNaN x = false → isNaN y = false → x ≤ y ∨ y ≤ x
  /-- What is below something is a number. -/
  isNaN_of_le_left {x y : α} : x ≤ y → isNaN x = false
  /-- What is above something is a number. -/
  isNaN_of_le_right {x y : α} : x ≤ y → isNaN y = false
  /-- Finite values are numbers. -/
  isNaN_of_isFinite {x : α} : isFinite x = true → isNaN x = false
  /-- Integers are numbers. -/
  isNaN_ofInt (n : Int) : isNaN (ofInt n : α) = false

export Lawful (beq_iff lt_iff le_trans le_or_ge isNaN_of_le_left isNaN_of_le_right
  isNaN_of_isFinite isNaN_ofInt)

variable {α : Type} [Scalar α]

theorem isNaN_eq_false_iff {x : α} : isNaN x = false ↔ (x == x) = true := by
  rw [isNaN, Bool.not_eq_false']

theorem within_iff {lo hi x : α} : within lo hi x = true ↔ lo ≤ x ∧ x ≤ hi := by
  rw [within, Bool.and_eq_true, decide_eq_true_iff, decide_eq_true_iff]

variable [Lawful α] {x y z : α}

/-! ### The order -/

theorem le_refl (hx : isNaN x = false) : x ≤ x :=
  ((beq_iff x x).1 (isNaN_eq_false_iff.1 hx)).1

theorem le_of_lt (h : x < y) : x ≤ y := ((lt_iff x y).1 h).1

theorem not_le_of_lt (h : x < y) : ¬y ≤ x := ((lt_iff x y).1 h).2

/-- Of two numbers, what is not at most the other is above it. -/
theorem lt_of_not_le (hx : isNaN x = false) (hy : isNaN y = false) (h : ¬x ≤ y) : y < x :=
  (lt_iff y x).2 ⟨(le_or_ge hx hy).resolve_left h, h⟩

theorem le_of_not_lt (hx : isNaN x = false) (hy : isNaN y = false) (h : ¬x < y) : y ≤ x := by
  by_cases hle : y ≤ x
  · exact hle
  · exact absurd (lt_of_not_le hy hx hle) h

/-- Only numbers are comparable, so a value that is none is at most nothing. -/
theorem not_le_of_isNaN_left (hx : isNaN x = true) : ¬x ≤ y := fun h ↦ by
  rw [isNaN_of_le_left h] at hx
  exact Bool.false_ne_true hx

theorem not_le_of_isNaN_right (hy : isNaN y = true) : ¬x ≤ y := fun h ↦ by
  rw [isNaN_of_le_right h] at hy
  exact Bool.false_ne_true hy

/-! ### Numeric equality -/

theorem beq_symm (h : (x == y) = true) : (y == x) = true :=
  (beq_iff y x).2 ((beq_iff x y).1 h).symm

theorem beq_trans (hxy : (x == y) = true) (hyz : (y == z) = true) : (x == z) = true := by
  obtain ⟨h₁, h₂⟩ := (beq_iff x y).1 hxy
  obtain ⟨h₃, h₄⟩ := (beq_iff y z).1 hyz
  exact (beq_iff x z).2 ⟨le_trans h₁ h₃, le_trans h₄ h₂⟩

theorem beq_comm (x y : α) : (x == y) = (y == x) :=
  Bool.eq_iff_iff.2 ⟨beq_symm, beq_symm⟩

/-- Numerically equal values are equal to the same values. -/
theorem beq_congr_left (h : (x == y) = true) (z : α) : (x == z) = (y == z) :=
  Bool.eq_iff_iff.2 ⟨beq_trans (beq_symm h), beq_trans h⟩

/-- Numbers in weak order that are not numerically equal are in strict order. -/
theorem lt_of_le_of_beq_false (hle : x ≤ y) (hne : (x == y) = false) : x < y :=
  (lt_iff x y).2 ⟨hle, fun h ↦ by simp [(beq_iff x y).2 ⟨hle, h⟩] at hne⟩

end MapStyle.Scalar
