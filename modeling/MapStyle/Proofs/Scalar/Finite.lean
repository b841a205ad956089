import Mathlib
import MapStyle.Json.Basic
import MapStyle.Proofs.Scalar.Binary64
import MapStyle.Proofs.Scalar.Real

/-!
# Finite integers

A document holds integers of 64 bits, and each of them is read as a finite scalar. Over the reals
there is nothing to show. In binary64 an integer is far below the largest value, but it is converted
in steps that round: as a machine word and then multiplied by one, or, beyond 53 bits, from its
digits.

What is followed through the steps is a bound on the exponent (`ExponentLE`). It need not be sharp.
Rounding shifts a mantissa by no more bits than it has, so an exponent grows by the number of bits
each time (`roundWithAccuracy_exponentLE`), and **packing keeps every exponent up to 971**
(`unpack_pack_exponentLE`); integers stay below half of that.
-/

namespace MapStyle

/-- **Finite integers**: the integers that a document can hold are finite scalars. -/
class Scalar.FiniteIntegers (α : Type) [Scalar α] : Prop where
  /-- An integer of 64 bits is finite. -/
  isFinite_ofInt (n : WordInt) : isFinite (ofInt n.val : α) = true

namespace Binary64

open Float.Model Float.Model.UnpackedFloat

/-! ### Exponents -/

/-- **A finite value with an exponent of at most `b`**; zero has none. -/
def ExponentLE (b : ℤ) : UnpackedFloat → Prop
  | .notANumber => False
  | .infinity _ => False
  | .zero _ => True
  | .finite _ _ e _ => e ≤ b

theorem ExponentLE.isFinite {b : ℤ} {a : UnpackedFloat} (h : ExponentLE b a) :
    UnpackedFloat.isFinite a = true := by
  rcases a with s | _ | s | ⟨s, m, e, hm⟩
  · exact h.elim
  · exact h.elim
  · rfl
  · rfl

theorem ExponentLE.mono {b c : ℤ} {a : UnpackedFloat} (h : ExponentLE b a) (hbc : b ≤ c) :
    ExponentLE c a := by
  rcases a with s | _ | s | ⟨s, m, e, hm⟩
  · exact h
  · exact h
  · exact h
  · exact le_trans h hbc

theorem ExponentLE.neg {b : ℤ} {a : UnpackedFloat} (h : ExponentLE b a) :
    ExponentLE b (UnpackedFloat.neg a) := by
  rcases a with s | _ | s | ⟨s, m, e, hm⟩ <;> exact h

/-! ### Rounding -/

theorem log2_le_of_le {m k : ℕ} (h : m ≤ 2 ^ k) : m.log2 ≤ k := by
  rcases Nat.eq_zero_or_pos m with rfl | hpos
  · exact Nat.zero_le k
  · have hlt : m < 2 ^ (k + 1) := lt_of_le_of_lt h (Nat.pow_lt_pow_right (by decide) (by omega))
    exact Nat.le_of_lt_succ ((Nat.log2_lt (Nat.pos_iff_ne_zero.1 hpos)).2 hlt)

theorem mantissa_shiftRight_le (em : ExtendedMantissa) (n : ℕ) :
    (em >>> n).mantissa ≤ em.mantissa := by
  show (n.repeat ExtendedMantissa.shiftRightOne em).mantissa ≤ em.mantissa
  induction n with
  | zero => exact le_refl _
  | succ n ih => exact le_trans (Nat.div_le_self _ 2) ih

theorem roundedMantissa_le (em : ExtendedMantissa) : em.roundedMantissa ≤ em.mantissa + 1 := by
  rcases em with ⟨m, _ | _, _ | _⟩
  · exact Nat.le_succ m
  · exact Nat.le_succ m
  · show m + m % 2 ≤ m + 1
    omega
  · exact le_refl _

theorem targetExponent_eq (m : ℕ) (e : ℤ) :
    Format.binary64.targetExponent (totalExponent m e) = max (m.log2 + e - 52) (-1074) := by
  show max ((m.log2 : ℤ) + 1 + e - 53) (3 - 2 ^ 10 - 53) = _
  omega

/-- Shifting a mantissa of at most `k` bits to its target raises the exponent by `k` at most, or to
the least exponent. -/
theorem shiftToTargetExponent_snd_le {m k : ℕ} (hm : m ≤ 2 ^ k) (e : ℤ) :
    (shiftToTargetExponent .binary64 m e .exact).2 ≤ max (e + k) (-1074) := by
  have hlog := log2_le_of_le hm
  have htarget : Format.binary64.targetExponent (totalExponent m e) ≤ max (e + k) (-1074) := by
    rw [targetExponent_eq]
    omega
  show e + ((Format.binary64.targetExponent (totalExponent m e) - e).toNat : ℤ) ≤ _
  omega

theorem shiftToTargetExponent_mantissa_le (m : ℕ) (e : ℤ) :
    (shiftToTargetExponent .binary64 m e .exact).1.mantissa ≤ m :=
  mantissa_shiftRight_le (.ofMantissaAndAccuracy m .exact) _

/-- **Rounding keeps exponents small**: it shifts twice, each time by no more bits than there
are. -/
theorem roundWithAccuracy_exponentLE {m k : ℕ} (hm : m < 2 ^ k) (s : Sign) (e : ℤ) :
    ExponentLE (max (e + k) (-1074) + k) (roundWithAccuracy .binary64 s m e .exact) := by
  have hfirst := shiftToTargetExponent_snd_le (le_of_lt hm) e
  have hrounded : (shiftToTargetExponent .binary64 m e .exact).1.roundedMantissa ≤ 2 ^ k := by
    have hround := roundedMantissa_le (shiftToTargetExponent .binary64 m e .exact).1
    have hshift := shiftToTargetExponent_mantissa_le m e
    omega
  -- Rounding up may have carried into one more bit, so the mantissa is shifted once more.
  have hsecond :=
    shiftToTargetExponent_snd_le hrounded (shiftToTargetExponent .binary64 m e .exact).2
  unfold roundWithAccuracy
  dsimp only
  split
  · trivial
  · show _ ≤ _
    omega

/-- An integer is shifted up to the precision of the format before it is rounded. -/
theorem round_exponentLE {m k : ℕ} (hm : m < 2 ^ k) (s : Sign) :
    ExponentLE (2 * (k + 53)) (UnpackedFloat.round .binary64 s m 0) := by
  have htarget : -53 ≤ Format.binary64.targetExponent (totalExponent m 0) := by
    rw [targetExponent_eq]
    omega
  rw [UnpackedFloat.round]
  generalize Format.binary64.targetExponent (totalExponent m 0) = target at htarget
  have hshift : m <<< (0 - target).toNat < 2 ^ (k + 53) := by
    rw [Nat.shiftLeft_eq, Nat.pow_add]
    refine Nat.mul_lt_mul_of_lt_of_le hm ?_ (by positivity)
    exact Nat.pow_le_pow_right (by decide) (by omega)
  refine (roundWithAccuracy_exponentLE hshift s (0 - ((0 - target).toNat : ℤ))).mono ?_
  push_cast
  omega

/-! ### Packing -/

/-- The exponent bits of a finite value bound its exponent. -/
theorem unpack_packComponents_exponentLE {b : ℤ} (hb : -1074 ≤ b) (s : Sign) {n : ℕ}
    (hn : n < 2047) (hexp : (n : ℤ) - 1075 ≤ b) (mantissa : BitVec 52) :
    ExponentLE b (unpack .binary64 (packComponents .binary64 s (BitVec.ofNat 11 n) mantissa)) := by
  have hnat : (BitVec.ofNat 11 n).toNat = n := by
    rw [BitVec.toNat_ofNat]
    omega
  rw [UnpackedFloat.unpack]
  simp only [unpackExponent_packComponents, unpackMantissa_packComponents]
  split
  · rename_i hones
    have hones' := congrArg BitVec.toNat hones
    rw [hnat] at hones'
    exact absurd hones' (by show n ≠ 2047; omega)
  · split
    · rename_i hzero
      have hzero' := congrArg BitVec.toNat hzero
      rw [hnat] at hzero'
      obtain rfl : n = 0 := hzero'
      split
      · trivial
      · show (0 : ℤ) - (1023 + 52) + 1 ≤ b
        omega
    · show ((BitVec.ofNat 11 n).toNat : ℤ) - (1023 + 52) ≤ b
      omega

theorem biasedExponent_eq (e : ℤ) :
    e + (Format.binary64.exponentBias : ℤ) + (52 : ℕ) = e + 1075 := by
  show e + (1023 : ℕ) + (52 : ℕ) = e + 1075
  omega

/-- **Packing keeps exponents small**, unless the format has no such exponent. -/
theorem unpack_pack_exponentLE {a : UnpackedFloat} {b : ℤ} (h : ExponentLE b a) (hlo : -1074 ≤ b)
    (hhi : b ≤ 971) : ExponentLE b (unpack .binary64 (pack .binary64 a)) := by
  rcases a with s | _ | s | ⟨s, m, e, hm⟩
  · exact h.elim
  · exact h.elim
  · refine unpack_packComponents_exponentLE hlo s (by decide) ?_ 0
    show (0 : ℤ) - 1075 ≤ b
    omega
  · have he : e ≤ b := h
    rw [UnpackedFloat.pack]
    dsimp only
    rw [biasedExponent_eq]
    split
    · rename_i hbig
      have hbig' : 2048 ≤ (e + 1075).toNat + 1 := hbig
      omega
    · rename_i hbig
      have hbig' : ¬2048 ≤ (e + 1075).toNat + 1 := hbig
      split
      · exact unpack_packComponents_exponentLE hlo s (by omega) (by omega) _
      · exact unpack_packComponents_exponentLE hlo s (by decide) (by omega) _

theorem mantissa_lt_of_unpack {bits : BitVec Format.binary64.numBits} {s : Sign} {m : ℕ} {e : ℤ}
    {hm : 0 < m} (h : unpack .binary64 bits = .finite s m e hm) : m < 2 ^ 53 := by
  rw [UnpackedFloat.unpack] at h
  split at h
  · split at h <;> cases h
  · split at h
    · split at h
      · cases h
      · cases h
        exact lt_trans (BitVec.isLt _) (by decide)
    · cases h
      exact BitVec.isLt _

/-! ### Integers -/

/-- **A machine word is finite.** -/
theorem unpack_toFloat_exponentLE (n : UInt64) : ExponentLE 234 n.toFloat.toModel.unpack := by
  refine unpack_pack_exponentLE ?_ (by decide) (by decide)
  show ExponentLE 234 (UnpackedFloat.normalize .binary64 (n.toNat : ℤ) 0 .positive)
  have hword : n.toNat < 2 ^ 64 := n.toNat_lt
  rw [UnpackedFloat.normalize]
  split
  · exact round_exponentLE (k := 64) (by omega) _
  · trivial
  · exact round_exponentLE (k := 64) (by omega) _

/-- The product of a packed value and one. -/
theorem mul_one_exponentLE {bits : BitVec Format.binary64.numBits}
    (h : ExponentLE 234 (unpack .binary64 bits)) {s : Sign} {m : ℕ} {e : ℤ} {hm : 0 < m}
    (hone : m < 2 ^ 53) (he : e ≤ 0) :
    ExponentLE 446 (mul .binary64 (unpack .binary64 bits) (.finite s m e hm)) := by
  rcases hunpack : unpack .binary64 bits with s' | _ | s' | ⟨s', m', e', hm'⟩
  · rw [hunpack] at h
    exact h.elim
  · rw [hunpack] at h
    exact h.elim
  · trivial
  · have he' : e' ≤ 234 := by rwa [hunpack] at h
    have hm' := mantissa_lt_of_unpack hunpack
    have hmul : m' * m < 2 ^ 106 := by
      rw [show 106 = 53 + 53 from rfl, Nat.pow_add]
      exact Nat.mul_lt_mul'' hm' hone
    refine (roundWithAccuracy_exponentLE hmul (s' * s) (e' + e)).mono ?_
    push_cast
    omega

theorem ofScientific_exponentLE {n : ℕ} (hn : n < 2 ^ 64) :
    ExponentLE 234 (UnpackedFloat.ofScientific .binary64 n 0) := by
  rw [UnpackedFloat.ofScientific]
  split
  · trivial
  · have hbits : (0 : ℤ) < 2 ^ Format.binary64.exponentBits := by decide
    rw [if_neg (by omega), if_neg (by omega), if_pos (le_refl 0)]
    have hmantissa : n <<< Format.binary64.mantissaBits * 10 ^ (0 : ℤ).toNat < 2 ^ 117 := by
      rw [Nat.shiftLeft_eq, show Format.binary64.mantissaBits = 53 from rfl]
      show n * 2 ^ 53 * 1 < _
      omega
    rw [UnpackedFloat.mul]
    refine (roundWithAccuracy_exponentLE hmantissa _ _).mono ?_
    push_cast
    omega

/-- **A natural number of 64 bits is finite**, on both of the ways to read it. -/
theorem unpack_ofNat_exponentLE {n : ℕ} (hn : n < 2 ^ 64) :
    ExponentLE 446 (Float.ofNat n).toModel.unpack := by
  show ExponentLE 446 (Float.ofScientific n false 0).toModel.unpack
  rw [Float.ofScientific]
  split
  · dsimp only
    rw [if_neg (by decide), unpack_mul, powersOfTen_zero]
    refine unpack_pack_exponentLE ?_ (by decide) (by decide)
    exact mul_one_exponentLE (unpack_toFloat_exponentLE _) (by decide) (by decide)
  · refine unpack_pack_exponentLE ?_ (by decide) (by decide)
    exact (ofScientific_exponentLE hn).mono (by decide)

instance : Scalar.FiniteIntegers Float where
  isFinite_ofInt n := by
    obtain ⟨n, hle, hlt⟩ := n
    show UnpackedFloat.isFinite (Float.ofInt n).toModel.unpack = true
    rcases n with n | n
    · have hn : (n : ℤ) < 2 ^ 64 := hlt
      exact (unpack_ofNat_exponentLE (by omega)).isFinite
    · have hn : -2 ^ 63 ≤ -((n : ℤ) + 1) := Int.negSucc_eq n ▸ hle
      refine (unpack_pack_exponentLE (b := 446) ?_ (by decide) (by decide)).isFinite
      exact (unpack_ofNat_exponentLE (by omega)).neg

end Binary64

instance [RealFunctions] : Scalar.FiniteIntegers ℝ where
  isFinite_ofInt _ := rfl

end MapStyle
