import Mathlib
import MapStyle.Proofs.Scalar.Canonical

/-!
# Differences

Subtraction is rounded, and still tells numbers apart: **the difference of two numbers in strict
order is not zero** (`Scalar.Separated`). Over the reals that is so because subtraction is exact. In
binary64 it rests on the least exponent, which is that of the smallest difference there can be as
well. Two finite values are multiples of the power of two with the smaller of their exponents, and
so is their difference. If it has more than 53 bits, rounding drops the low ones of them and keeps
the first, and else it drops none.

What is followed through the steps is `Nonzero`. It asks for less than a canonical pair, since only
the bounds of a pair decide whether packing turns it into zero.
-/

namespace MapStyle

/-- **Numbers that differ are told apart by subtraction.** -/
class Scalar.Separated (α : Type) [Scalar α] : Prop where
  /-- The difference of numbers in strict order is not zero. -/
  sub_beq_zero {x y : α} : x < y → (y - x == 0.0) = false

namespace Binary64

open Float.Model Float.Model.UnpackedFloat

/-! ### Values other than zero -/

/-- **A value that is not packed as zero.** A finite one has at most 53 bits and no exponent below
the least one. -/
def Nonzero : UnpackedFloat → Prop
  | .zero _ => False
  | .finite _ m e _ => m < 2 ^ 53 ∧ -1074 ≤ e
  | _ => True

theorem unpack_packedInfinity (s : Sign) :
    unpack .binary64 (packedInfinity .binary64 s) = .infinity s := by
  cases s <;> rfl

/-- **Packing leaves it nonzero.** -/
theorem Nonzero.unpack_pack {a : UnpackedFloat} (h : Nonzero a) (s : Sign) :
    unpack .binary64 (pack .binary64 a) ≠ .zero s := by
  rcases a with s' | _ | s' | ⟨s', m, e, hm⟩
  · rw [UnpackedFloat.pack, unpack_packedInfinity]
    exact UnpackedFloat.noConfusion
  · rw [UnpackedFloat.pack, unpack_packedNaN]
    exact UnpackedFloat.noConfusion
  · exact h.elim
  · obtain ⟨hlt, hle⟩ := h
    rw [UnpackedFloat.pack]
    dsimp only
    rw [biasedExponent_eq]
    split
    · rw [unpack_packedInfinity]
      exact UnpackedFloat.noConfusion
    · rename_i hfits
      have hfits' : ¬2 ^ 11 ≤ (e + 1075).toNat + 1 := hfits
      split
      · rw [unpack_packComponents_full s' (by omega) (by omega)]
        exact UnpackedFloat.noConfusion
      · rename_i hlog
        have hlog' : m.log2 < 52 := by
          have hlog'' : m.log2 + 1 ≠ 53 := hlog
          have hbits := (Nat.log2_lt hm.ne').2 hlt
          omega
        have hnat : (BitVec.ofNat 52 m).toNat = m := by
          rw [BitVec.toNat_ofNat, Nat.mod_eq_of_lt ((Nat.log2_lt hm.ne').1 hlog')]
        rw [unpack_packComponents_least s' (hnat.symm ▸ hm)]
        exact UnpackedFloat.noConfusion

/-! ### Rounding -/

theorem mantissa_shiftRight (em : ExtendedMantissa) (n : ℕ) :
    (em >>> n).mantissa = em.mantissa / 2 ^ n := by
  show (n.repeat ExtendedMantissa.shiftRightOne em).mantissa = _
  induction n with
  | zero => rw [pow_zero, Nat.div_one]; rfl
  | succ n ih =>
    rw [Nat.repeat, ExtendedMantissa.shiftRightOne, pow_succ, ← Nat.div_div_eq_div_mul, ih]

theorem le_roundedMantissa (em : ExtendedMantissa) : em.mantissa ≤ em.roundedMantissa := by
  rcases em with ⟨m, _ | _, _ | _⟩
  · exact le_refl m
  · exact le_refl m
  · exact Nat.le_add_right m (m % 2)
  · exact Nat.le_succ m

/-- **Shifting to the target exponent keeps the first bit**, and no more than 53. -/
theorem shiftToTargetExponent_bounds {m : ℕ} {e : ℤ} (hm : 0 < m) (he : -1074 ≤ e) :
    0 < (shiftToTargetExponent .binary64 m e .exact).1.mantissa ∧
      (shiftToTargetExponent .binary64 m e .exact).1.mantissa < 2 ^ 53 ∧
      -1074 ≤ (shiftToTargetExponent .binary64 m e .exact).2 := by
  have hdropped : (Format.binary64.targetExponent (totalExponent m e) - e).toNat = m.log2 - 52 := by
    rw [targetExponent_eq]
    omega
  have hmantissa : (shiftToTargetExponent .binary64 m e .exact).1.mantissa =
      m / 2 ^ (m.log2 - 52) := by
    rw [← hdropped]
    exact mantissa_shiftRight _ _
  refine ⟨?_, ?_, ?_⟩
  · rw [hmantissa]
    refine Nat.div_pos ?_ (by positivity)
    exact (Nat.pow_le_pow_right (by decide) (Nat.sub_le _ _)).trans (Nat.log2_self_le hm.ne')
  · rw [hmantissa, Nat.div_lt_iff_lt_mul (by positivity), ← pow_add]
    exact Nat.lt_log2_self.trans_le (Nat.pow_le_pow_right (by decide) (by omega))
  · show -1074 ≤ e + ((Format.binary64.targetExponent (totalExponent m e) - e).toNat : ℤ)
    omega

/-- **Rounding leaves it nonzero**: what is rounded up is larger still. -/
theorem roundWithAccuracy_nonzero {m : ℕ} {e : ℤ} (hm : 0 < m) (he : -1074 ≤ e) (s : Sign) :
    Nonzero (roundWithAccuracy .binary64 s m e .exact) := by
  obtain ⟨hpos, -, hle⟩ := shiftToTargetExponent_bounds hm he
  have hrounded := hpos.trans_le (le_roundedMantissa _)
  obtain ⟨hpos', hlt', hle'⟩ := shiftToTargetExponent_bounds hrounded hle
  rw [roundWithAccuracy_of_shifts rfl rfl hpos' s]
  exact ⟨hlt', hle'⟩

theorem round_nonzero {m : ℕ} {e : ℤ} (hm : 0 < m) (he : -1074 ≤ e) (s : Sign) :
    Nonzero (UnpackedFloat.round .binary64 s m e) := by
  have hshift : 0 < m <<< (e - Format.binary64.targetExponent (totalExponent m e)).toNat := by
    rw [Nat.shiftLeft_eq]
    positivity
  rw [UnpackedFloat.round]
  refine roundWithAccuracy_nonzero hshift ?_ s
  show -1074 ≤ e - ((e - Format.binary64.targetExponent (totalExponent m e)).toNat : ℤ)
  rw [targetExponent_eq]
  omega

theorem normalize_nonzero {m e : ℤ} (hm : m ≠ 0) (he : -1074 ≤ e) (s : Sign) :
    Nonzero (UnpackedFloat.normalize .binary64 m e s) := by
  rw [UnpackedFloat.normalize]
  split
  · rename_i hlt
    exact round_nonzero (by rw [compare_lt_iff_lt] at hlt; omega) he _
  · rename_i heq
    exact absurd (compare_eq_iff_eq.1 heq) hm
  · rename_i hgt
    exact round_nonzero (by rw [compare_gt_iff_gt] at hgt; omega) he _

/-! ### Subtraction -/

/-- A mantissa that is shifted up to a smaller exponent. -/
theorem value_shiftLeft {m : ℕ} {e f : ℤ} (hle : f ≤ e) :
    ((m <<< (e - f).toNat : ℕ) : ℚ) * 2 ^ f = m * 2 ^ e := by
  have hexp : e = f + ((e - f).toNat : ℤ) := by omega
  conv_rhs => rw [hexp, zpow_add₀ two_ne_zero, zpow_natCast]
  rw [Nat.shiftLeft_eq]
  push_cast
  ring

/-- Signed mantissas that are equal have one sign and are equal without it. -/
theorem apply_inj {s t : Sign} {m n : ℕ} (hm : 0 < m) (hn : 0 < n) (h : s.apply m = t.apply n) :
    s = t ∧ m = n := by
  rcases s with - | - <;> rcases t with - | - <;> simp only [Sign.apply] at h
  · exact ⟨rfl, by omega⟩
  · omega
  · omega
  · exact ⟨rfl, by omega⟩

/-- **Canonical pairs that differ have a difference that is not zero.** -/
theorem sub_finite_nonzero {s t : Sign} {m n : ℕ} {e f : ℤ} (hm : Canonical m e)
    (hn : Canonical n f)
    (hne : UnpackedFloat.finite s m e hm.pos ≠ .finite t n f hn.pos) :
    Nonzero (UnpackedFloat.sub .binary64 (.finite s m e hm.pos) (.finite t n f hn.pos)) := by
  have hle := hm.le_exponent
  have hle' := hn.le_exponent
  have hshift : ∀ {n : ℕ}, 0 < n → ∀ k, 0 < n <<< k := fun hn k ↦ by
    rw [Nat.shiftLeft_eq]
    positivity
  refine normalize_nonzero (fun hzero ↦ hne ?_) (le_min hle hle') _
  -- At the smaller of the two exponents a difference of zero makes the mantissas equal.
  obtain ⟨rfl, hmantissa⟩ := apply_inj (hshift hm.pos _) (hshift hn.pos _) (sub_eq_zero.1 hzero)
  have hvalue := value_shiftLeft (m := m) (min_le_left e f)
  rw [hmantissa, value_shiftLeft (min_le_right e f)] at hvalue
  obtain ⟨rfl, rfl⟩ := hm.unique hn hvalue
  rfl

/-- **The difference of numbers of different rank is not zero**, infinite ones included. -/
theorem sub_nonzero {a b : UnpackedFloat}
    (ha : ∀ {s m e hm}, a = .finite s m e hm → Canonical m e)
    (hb : ∀ {s m e hm}, b = .finite s m e hm → Canonical m e) (hanum : a ≠ .notANumber)
    (hbnum : b ≠ .notANumber) (hrank : rank? a ≠ rank? b) :
    Nonzero (UnpackedFloat.sub .binary64 a b) := by
  cases a with
  | notANumber => exact absurd rfl hanum
  | infinity s =>
    cases b with
    | notANumber => exact absurd rfl hbnum
    | infinity t =>
      show Nonzero (if s == -t then _ else _)
      split <;> trivial
    | zero t => trivial
    | finite t n f hn => trivial
  | zero s =>
    cases b with
    | notANumber => exact absurd rfl hbnum
    | infinity t => trivial
    | zero t => exact absurd rfl hrank
    | finite t n f hn => exact ⟨(hb rfl).lt, (hb rfl).le_exponent⟩
  | finite s m e hm =>
    cases b with
    | notANumber => exact absurd rfl hbnum
    | infinity t => trivial
    | zero t => exact ⟨(ha rfl).lt, (ha rfl).le_exponent⟩
    | finite t n f hn => exact sub_finite_nonzero (ha rfl) (hb rfl) fun heq ↦ hrank (by rw [heq])

/-- A float that equals zero is a zero. -/
theorem exists_unpack_eq_zero {x : Float} (h : (x == 0.0) = true) :
    ∃ s, x.toModel.unpack = .zero s := by
  obtain ⟨p, hp, hzero⟩ := beq_iff_place?.1 h
  obtain rfl := Option.some.inj (hzero.symm.trans place?_zero)
  rw [place?] at hp
  rcases hunpack : x.toModel.unpack with (_ | _) | _ | s | ⟨_ | _, m, e, hm⟩ <;>
    simp_all [rank?]

instance : Scalar.Separated Float where
  sub_beq_zero {x y} h := by
    obtain ⟨p, q, hp, hq, hlt⟩ := lt_iff_place?.1 h
    have hnonzero := sub_nonzero (a := y.toModel.unpack) (b := x.toModel.unpack)
      (fun hunpack ↦ (canonical_of_unpack hunpack).1)
      (fun hunpack ↦ (canonical_of_unpack hunpack).1)
      (exists_rank?_iff.1 ⟨q, hq⟩) (exists_rank?_iff.1 ⟨p, hp⟩) fun hrank ↦ by
        rw [place?] at hp hq
        rw [hp, hq] at hrank
        exact hlt.ne' (Option.some.inj hrank)
    rw [Bool.eq_false_iff]
    intro hzero
    obtain ⟨s, hs⟩ := exists_unpack_eq_zero hzero
    exact hnonzero.unpack_pack s hs

end Binary64

instance [RealFunctions] : Scalar.Separated ℝ where
  sub_beq_zero h := by
    rw [Bool.eq_false_iff]
    intro hzero
    have hsub := Scalar.beq_real_iff.1 hzero
    norm_num at hsub
    linarith

end MapStyle
