import Mathlib
import MapStyle.Proofs.Scalar.Finite

/-!
# Canonical pairs

A finite binary64 value other than zero is a mantissa times a power of two, and can be written so in
many ways. The pair that is kept has a mantissa of 53 bits, or of fewer where the exponent is the
least one (`Canonical`). So the pair is determined by the value (`Canonical.unique`), and

* packing it into bits and unpacking these gives it back (`unpack_pack_of_canonical`), as every pair
  that is unpacked is canonical (`canonical_of_unpack`);
* **a value that has a canonical pair is not rounded**, in whatever way it is written
  (`Canonical.roundWithAccuracy_eq`, `Canonical.round_eq`). Shifting brings it to the exponent of
  its canonical pair, and no bit that is shifted out is set.

`value` is the rational number that a finite float stands for.
-/

namespace MapStyle.Binary64

open Float.Model Float.Model.UnpackedFloat

/-- **A canonical pair** of mantissa and exponent. -/
structure Canonical (m : ℕ) (e : ℤ) : Prop where
  /-- The mantissa is not zero. -/
  pos : 0 < m
  /-- The mantissa has at most 53 bits. -/
  lt : m < 2 ^ 53
  /-- The exponent is not below the least one. -/
  le_exponent : -1074 ≤ e
  /-- The mantissa has 53 bits unless the exponent is the least one. -/
  full : 2 ^ 52 ≤ m ∨ e = -1074

/-- The rational number that a finite float stands for; the others stand for none. -/
def valueOf : UnpackedFloat → ℚ
  | .finite s m e _ => s.apply m * 2 ^ e
  | _ => 0

/-- The rational number that a finite float stands for. -/
def value (x : Float) : ℚ := valueOf x.toModel.unpack

variable {m n : ℕ} {e f : ℤ}

/-! ### One value, one pair -/

/-- Of two pairs with one value, that with the smaller exponent has the larger mantissa. -/
theorem eq_mul_of_value_eq (h : (n : ℚ) * 2 ^ f = m * 2 ^ e) (hle : f ≤ e) :
    n = m * 2 ^ (e - f).toNat := by
  have hexp : e = f + ((e - f).toNat : ℤ) := by omega
  have hsplit : (2 : ℚ) ^ e = 2 ^ (e - f).toNat * 2 ^ f := by
    conv_lhs => rw [hexp]
    rw [zpow_add₀ two_ne_zero, zpow_natCast, mul_comm]
  rw [hsplit, ← mul_assoc] at h
  exact_mod_cast mul_right_cancel₀ (zpow_ne_zero f two_ne_zero) h

/-- No mantissa of 53 bits makes up for a smaller exponent. -/
theorem Canonical.le_of_value_eq (h : Canonical m e) (h' : Canonical n f)
    (hvalue : (n : ℚ) * 2 ^ f = m * 2 ^ e) : e ≤ f := by
  -- Otherwise `m` has all its 53 bits, and `n`, which is twice as large or more, has one too many.
  by_contra hlt
  have hmul := eq_mul_of_value_eq hvalue (by omega)
  have hfull : 2 ^ 52 ≤ m := h.full.resolve_right fun he ↦ by
    have hf := h'.le_exponent
    omega
  have htwice : 2 ^ 1 ≤ 2 ^ (e - f).toNat := Nat.pow_le_pow_right (by decide) (by omega)
  have hprod := Nat.mul_le_mul hfull htwice
  have hn := h'.lt
  omega

/-- **A value has one canonical pair.** -/
theorem Canonical.unique (h : Canonical m e) (h' : Canonical n f)
    (hvalue : (n : ℚ) * 2 ^ f = m * 2 ^ e) : n = m ∧ f = e := by
  have hexp : f = e :=
    le_antisymm (h'.le_of_value_eq h hvalue.symm) (h.le_of_value_eq h' hvalue)
  refine ⟨?_, hexp⟩
  have hmul := eq_mul_of_value_eq hvalue hexp.le
  rwa [hexp, sub_self, Int.toNat_zero, pow_zero, mul_one] at hmul

/-! ### Shifting -/

theorem log2_mul_two_pow (hm : m ≠ 0) (k : ℕ) : (m * 2 ^ k).log2 = m.log2 + k := by
  rw [Nat.log2_eq_iff (by positivity), pow_add, add_right_comm, pow_add _ _ k]
  exact ⟨Nat.mul_le_mul_right _ (Nat.log2_self_le hm),
    Nat.mul_lt_mul_of_pos_right Nat.lt_log2_self (by positivity)⟩

theorem Canonical.targetExponent_eq (h : Canonical m e) :
    Format.binary64.targetExponent (totalExponent m e) = e := by
  have hm := h.pos.ne'
  have hlt : m.log2 < 53 := (Nat.log2_lt hm).2 h.lt
  have hle := h.le_exponent
  rw [Binary64.targetExponent_eq]
  rcases h.full with hfull | hleast
  · have hlog : 52 ≤ m.log2 := (Nat.le_log2 hm).2 hfull
    omega
  · omega

/-- Exponents are shifted to by the value alone. -/
theorem totalExponent_eq_of_value_eq (hm : m ≠ 0) (hn : n ≠ 0)
    (hvalue : (n : ℚ) * 2 ^ f = m * 2 ^ e) : totalExponent n f = totalExponent m e := by
  have hle : ∀ {m n : ℕ} {e f : ℤ}, m ≠ 0 → (n : ℚ) * 2 ^ f = m * 2 ^ e → f ≤ e →
      totalExponent n f = totalExponent m e := by
    intro m n e f hm hvalue hle
    rw [eq_mul_of_value_eq hvalue hle, totalExponent, totalExponent, log2_mul_two_pow hm]
    push_cast
    omega
  rcases le_total f e with h | h
  · exact hle hm hvalue h
  · exact (hle hn hvalue.symm h).symm

/-- Shifting out bits that are not set loses nothing. -/
theorem shiftRight_exact (m k : ℕ) :
    (⟨m * 2 ^ k, false, false⟩ : ExtendedMantissa) >>> k = ⟨m, false, false⟩ := by
  show k.repeat ExtendedMantissa.shiftRightOne ⟨m * 2 ^ k, false, false⟩ = _
  induction k generalizing m with
  | zero => rw [pow_zero, mul_one]; rfl
  | succ k ih =>
    rw [Nat.repeat, pow_succ', ← mul_assoc, ih, ExtendedMantissa.shiftRightOne]
    simp

/-- A value that has a canonical pair is shifted to it, and nothing is lost. -/
theorem Canonical.shiftToTargetExponent_eq (h : Canonical m e) (hn : n ≠ 0)
    (hvalue : (n : ℚ) * 2 ^ f = m * 2 ^ e) (hle : f ≤ e) :
    shiftToTargetExponent .binary64 n f .exact = (⟨m, false, false⟩, e) := by
  rw [shiftToTargetExponent, totalExponent_eq_of_value_eq h.pos.ne' hn hvalue,
    h.targetExponent_eq, shiftToExponent]
  have hexp : f + ((e - f).toNat : ℤ) = e := by omega
  simp only [hexp, Prod.mk.injEq, and_true]
  rw [eq_mul_of_value_eq hvalue hle]
  exact shiftRight_exact m (e - f).toNat

/-! ### Rounding -/

/-- Rounding shifts twice. Only the first shift is followed by a rounding of the mantissa. -/
theorem roundWithAccuracy_of_shifts {acc : Accuracy} {em em' : ExtendedMantissa} {e' : ℤ}
    (hfirst : shiftToTargetExponent .binary64 n f acc = (em, e))
    (hsecond : shiftToTargetExponent .binary64 em.roundedMantissa e .exact = (em', e'))
    (hpos : 0 < em'.mantissa) (s : Sign) :
    roundWithAccuracy .binary64 s n f acc = .finite s em'.mantissa e' hpos := by
  rw [roundWithAccuracy, hfirst]
  dsimp only
  rw [hsecond]
  exact dif_neg hpos.ne'

/-- **What has a canonical pair is not rounded**, if it has to be shifted down to it. -/
theorem Canonical.roundWithAccuracy_eq (h : Canonical m e) (hn : n ≠ 0)
    (hvalue : (n : ℚ) * 2 ^ f = m * 2 ^ e) (hle : f ≤ e) (s : Sign) :
    roundWithAccuracy .binary64 s n f .exact = .finite s m e h.pos :=
  roundWithAccuracy_of_shifts (h.shiftToTargetExponent_eq hn hvalue hle)
    (h.shiftToTargetExponent_eq h.pos.ne' rfl le_rfl) h.pos s

/-- **What has a canonical pair is not rounded.** -/
theorem Canonical.round_eq (h : Canonical m e) (hn : n ≠ 0)
    (hvalue : (n : ℚ) * 2 ^ f = m * 2 ^ e) (s : Sign) :
    UnpackedFloat.round .binary64 s n f = .finite s m e h.pos := by
  rw [UnpackedFloat.round, totalExponent_eq_of_value_eq h.pos.ne' hn hvalue, h.targetExponent_eq]
  rcases le_total f e with hle | hle
  · have hzero : (f - e).toNat = 0 := by omega
    simp only [decreaseExponent, hzero, Nat.shiftLeft_zero, Nat.cast_zero, sub_zero]
    exact h.roundWithAccuracy_eq hn hvalue hle s
  · have hexp : f - ((f - e).toNat : ℤ) = e := by omega
    have hshift : n <<< (f - e).toNat = m := by
      rw [Nat.shiftLeft_eq]
      exact (eq_mul_of_value_eq hvalue.symm hle).symm
    simp only [decreaseExponent, hexp, hshift]
    exact h.roundWithAccuracy_eq h.pos.ne' rfl le_rfl s

/-! ### Packing -/

theorem toNat_append_one (b : BitVec 52) : (1#1 ++ b).toNat = 2 ^ 52 + b.toNat := by
  rw [BitVec.toNat_append, ← Nat.shiftLeft_add_eq_or_of_lt b.isLt]
  rfl

/-- **Every pair that is unpacked is canonical**, with an exponent that the format has. -/
theorem canonical_of_unpack {bits : BitVec Format.binary64.numBits} {s : Sign} {hm : 0 < m}
    (h : unpack .binary64 bits = .finite s m e hm) : Canonical m e ∧ e ≤ 971 := by
  have hlt := mantissa_lt_of_unpack h
  have hexp : (unpackExponent bits).toNat < 2 ^ 11 := (unpackExponent bits).isLt
  rw [UnpackedFloat.unpack] at h
  split at h
  · split at h <;> cases h
  · rename_i hones
    have hmax : (unpackExponent bits).toNat ≠ 2047 := fun hval ↦ hones (BitVec.eq_of_toNat_eq hval)
    split at h
    · rename_i hzero
      split at h
      · cases h
      · cases h
        rw [hzero]
        exact ⟨⟨hm, hlt, by decide, .inr rfl⟩, by decide⟩
    · rename_i hzero
      have hmin : (unpackExponent bits).toNat ≠ 0 := fun hval ↦ hzero (BitVec.eq_of_toNat_eq hval)
      cases h
      rw [toNat_append_one] at hlt ⊢
      have hbias : ((unpackExponent bits).toNat : ℤ) - (Format.binary64.exponentBias + 52 : ℕ) =
          (unpackExponent bits).toNat - 1075 := rfl
      refine ⟨⟨by omega, hlt, ?_, .inl (by omega)⟩, ?_⟩
      · show -1074 ≤ ((unpackExponent bits).toNat : ℤ) - 1075
        omega
      · show ((unpackExponent bits).toNat : ℤ) - 1075 ≤ 971
        omega

/-- Exponent bits that are neither all clear nor all set belong to a mantissa of 53 bits. -/
theorem unpack_packComponents_full (s : Sign) {biased : ℕ} (hpos : 0 < biased)
    (hlt : biased < 2047) (mantissa : BitVec 52) :
    unpack .binary64 (packComponents .binary64 s (BitVec.ofNat 11 biased) mantissa) =
      .finite s (2 ^ 52 + mantissa.toNat) (biased - 1075) (by omega) := by
  have hnat : (BitVec.ofNat 11 biased).toNat = biased := by
    rw [BitVec.toNat_ofNat]
    omega
  have hones : BitVec.ofNat 11 biased ≠ -1#11 := fun h ↦ by
    have hval := congrArg BitVec.toNat h
    rw [hnat] at hval
    exact absurd hval hlt.ne
  have hzero : BitVec.ofNat 11 biased ≠ 0#11 := fun h ↦ by
    have hval := congrArg BitVec.toNat h
    rw [hnat] at hval
    exact absurd hval hpos.ne'
  rw [UnpackedFloat.unpack]
  simp only [unpackExponent_packComponents, unpackMantissa_packComponents,
    unpackSign_packComponents, Sign.ofBitVec_toBitVec, if_neg hones, if_neg hzero, hnat,
    toNat_append_one]
  rfl

/-- Clear exponent bits belong to the least exponent. -/
theorem unpack_packComponents_least (s : Sign) {mantissa : BitVec 52} (hpos : 0 < mantissa.toNat) :
    unpack .binary64 (packComponents .binary64 s 0#11 mantissa) =
      .finite s mantissa.toNat (-1074) hpos := by
  have hones : 0#11 ≠ -1#11 := by decide
  have hne : mantissa ≠ 0#52 := fun h ↦ by
    rw [h] at hpos
    exact absurd hpos (by decide)
  rw [UnpackedFloat.unpack]
  simp only [unpackExponent_packComponents, unpackMantissa_packComponents,
    unpackSign_packComponents, Sign.ofBitVec_toBitVec, if_neg hones, dif_neg hne]
  rfl

/-- **A canonical pair that is packed is unpacked again**, if the format has its exponent. -/
theorem unpack_pack_of_canonical (h : Canonical m e) (he : e ≤ 971) (s : Sign) :
    unpack .binary64 (pack .binary64 (.finite s m e h.pos)) = .finite s m e h.pos := by
  have hm := h.pos.ne'
  have hlt := h.lt
  have hle := h.le_exponent
  have hfits : ¬2 ^ 11 ≤ (e + 1075).toNat + 1 := by omega
  rw [UnpackedFloat.pack]
  dsimp only
  rw [biasedExponent_eq, if_neg hfits]
  -- A mantissa of fewer than 53 bits is packed with clear exponent bits.
  rcases Nat.lt_or_ge m (2 ^ 52) with hsmall | hlarge
  · have hlog : ¬m.log2 + 1 = Format.binary64.mantissaBits := by
      have hlog' := (Nat.log2_lt hm).2 hsmall
      show ¬m.log2 + 1 = 53
      omega
    have hnat : (BitVec.ofNat 52 m).toNat = m := by
      rw [BitVec.toNat_ofNat, Nat.mod_eq_of_lt hsmall]
    have hleast : e = -1074 := h.full.resolve_left (by omega)
    rw [if_neg hlog, unpack_packComponents_least s (hnat.symm ▸ h.pos)]
    simp only [hnat, hleast]
  · have hlog : m.log2 + 1 = Format.binary64.mantissaBits := by
      have hlog' := (Nat.log2_lt hm).2 hlt
      have hlog'' := (Nat.le_log2 hm).2 hlarge
      show m.log2 + 1 = 53
      omega
    have hnat : 2 ^ 52 + (BitVec.ofNat 52 m).toNat = m := by
      rw [BitVec.toNat_ofNat]
      omega
    have hexp : ((e + 1075).toNat : ℤ) - 1075 = e := by omega
    rw [if_pos hlog, unpack_packComponents_full s (by omega) (by omega)]
    simp only [hnat, hexp]

end MapStyle.Binary64
