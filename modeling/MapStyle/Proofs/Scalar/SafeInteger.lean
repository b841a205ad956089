import Mathlib
import MapStyle.Proofs.Scalar.Canonical

/-!
# Safe integers

An integer below `2 ^ 53` in magnitude is *safe*: one float is equal to it, and converting it gives
that float. Two ways lead there and back.

* The integer of a float is computed from its bits. They are the fields of what it is unpacked to,
  so the integer is the value of the float (`toInt?_eq_some_iff`), and **a finite float with a safe
  value is told from all others** (`toSafeInt?_eq_some_iff`).
* A safe integer is converted as a machine word and then multiplied by one. Its value has a
  canonical pair, so neither step rounds, and **the float with its value is what it is converted
  to** (`ofInt_eq_of_value_eq`).

Zero alone is the value of two floats, and is converted to the positive one.
-/

namespace MapStyle.Binary64

open Float.Model Float.Model.UnpackedFloat

variable {x : Float} {m k : ℕ} {e n : ℤ}

/-- A finite float is zero or has a mantissa and an exponent. -/
theorem unpack_of_isFinite (h : x.isFinite = true) : (∃ s, x.toModel.unpack = .zero s) ∨
    ∃ s m e, ∃ hm : 0 < m, x.toModel.unpack = .finite s m e hm := by
  have hfinite : UnpackedFloat.isFinite x.toModel.unpack = true := h
  rcases hx : x.toModel.unpack with s | _ | s | ⟨s, m, e, hm⟩
  · rw [hx] at hfinite
    exact absurd hfinite Bool.false_ne_true
  · rw [hx] at hfinite
    exact absurd hfinite Bool.false_ne_true
  · exact .inl ⟨s, rfl⟩
  · exact .inr ⟨s, m, e, hm, rfl⟩

/-! ### The fields of a float -/

theorem toNat_unpackMantissa (x : Float) :
    (@unpackMantissa .binary64 x.toBits.toBitVec).toNat = fractionBits x := by
  rw [unpackMantissa_def, BitVec.extractLsb'_toNat]
  rfl

theorem toNat_unpackExponent (x : Float) :
    (@unpackExponent .binary64 x.toBits.toBitVec).toNat = exponentBits x := by
  rw [unpackExponent_def, BitVec.extractLsb'_toNat, Nat.shiftRight_eq_div_pow]
  rfl

theorem ofBitVec_unpackSign (x : Float) :
    Sign.ofBitVec (@unpackSign .binary64 x.toBits.toBitVec) =
      if isNegative x then .negative else .positive := by
  have hword : x.toBits.toNat < 2 ^ 64 := x.toBits.toNat_lt
  have hbit : (@unpackSign .binary64 x.toBits.toBitVec).toNat =
      x.toBits.toNat / 2 ^ 63 % 2 := by
    rw [unpackSign_def, BitVec.extractLsb'_toNat, Nat.shiftRight_eq_div_pow]
    rfl
  have hclear : @unpackSign .binary64 x.toBits.toBitVec = 0#1 ↔ ¬isNegative x = true := by
    rw [← BitVec.toNat_inj, hbit, isNegative, decide_eq_true_iff]
    show _ / 2 ^ 63 % 2 = 0 ↔ ¬2 ^ 63 ≤ _
    omega
  rw [Sign.ofBitVec]
  simp only [hclear, ite_not]

theorem apply_ite (b : Bool) (a : ℤ) :
    (if b then Sign.negative else Sign.positive).apply a = if b then -a else a := by
  cases b <;> rfl

/-- **The value of a finite float**, by its fields. -/
theorem value_eq_of_isFinite (h : x.isFinite = true) : value x =
    (if isNegative x then -(significand x : ℤ) else significand x : ℤ) * 2 ^ exponent x := by
  have hfinite : UnpackedFloat.isFinite (unpack .binary64 x.toBits.toBitVec) = true := h
  have hexp := toNat_unpackExponent x
  have hfrac := toNat_unpackMantissa x
  show valueOf (unpack .binary64 x.toBits.toBitVec) = _
  rw [UnpackedFloat.unpack] at hfinite ⊢
  simp only [ofBitVec_unpackSign] at hfinite ⊢
  split at hfinite
  · split at hfinite <;> exact absurd hfinite Bool.false_ne_true
  · rename_i hones
    rw [if_neg hones]
    clear hfinite
    split
    · rename_i hleast
      have hexp' : exponentBits x = 0 := hexp.symm.trans (congrArg BitVec.toNat hleast)
      have hexponent : exponent x = -1074 := by rw [exponent, hexp']; rfl
      rw [significand, if_pos hexp', hexponent]
      split
      · rename_i hzero
        have hfrac' : fractionBits x = 0 := hfrac.symm.trans (congrArg BitVec.toNat hzero)
        simp [valueOf, hfrac']
      · rw [valueOf, apply_ite, hfrac, hexp, hexp']
        rfl
    · rename_i hleast
      have hexp' : exponentBits x ≠ 0 := fun h0 ↦
        hleast (BitVec.eq_of_toNat_eq (hexp.trans h0))
      have hexponent : exponent x = exponentBits x - 1075 := by
        rw [exponent]
        omega
      rw [significand, if_neg hexp', hexponent]
      rw [valueOf, apply_ite, toNat_append_one, hfrac, hexp, add_comm]
      rfl

/-! ### From floats to integers -/

/-- Scaling a natural number by a power of two, without fractions. -/
theorem mul_zpow_eq_natCast_iff : (m : ℚ) * 2 ^ e = k ↔ m * 2 ^ e.toNat = k * 2 ^ (-e).toNat := by
  have hunit : (2 : ℚ) ^ (-e).toNat ≠ 0 := by positivity
  have hscaled : (2 : ℚ) ^ e * 2 ^ (-e).toNat = 2 ^ e.toNat := by
    rw [← zpow_natCast, ← zpow_natCast, ← zpow_add₀ two_ne_zero]
    congr 1
    omega
  rw [← mul_left_inj' hunit, mul_assoc, hscaled]
  exact_mod_cast Iff.rfl

/-- A number and its sign make an integer if the number is a natural one. -/
theorem signed_eq_intCast_iff (b : Bool) {q : ℚ} (hq : 0 ≤ q) :
    (if b then -q else q) = n ↔ ∃ k : ℕ, q = k ∧ (if b then -(k : ℤ) else k) = n := by
  constructor
  · intro h
    have habs : q = (n.natAbs : ℚ) := by
      rw [Nat.cast_natAbs, Int.cast_abs, ← h]
      split <;> simp [abs_of_nonneg hq]
    refine ⟨n.natAbs, habs, ?_⟩
    rw [habs, ← Int.cast_natCast] at h
    exact_mod_cast h
  · rintro ⟨k, rfl, rfl⟩
    exact_mod_cast rfl

/-- **The integer of a finite float is its value.** -/
theorem toInt?_eq_some_iff (h : x.isFinite = true) : toInt? x = some n ↔ value x = n := by
  -- both sides say that the magnitude is a natural number, and that its sign makes it the integer
  have hread : toInt? x = some n ↔
      ∃ k : ℕ, significand x * 2 ^ (exponent x).toNat = k * 2 ^ (-exponent x).toNat ∧
        (if isNegative x then -(k : ℤ) else k) = n := by
    have hunit : 0 < 2 ^ (-exponent x).toNat := by positivity
    simp only [toInt?, Nat.pow_eq]
    split
    · rename_i hmod
      simp [← Nat.div_eq_iff_eq_mul_left hunit (Nat.dvd_of_mod_eq_zero hmod)]
    · rename_i hmod
      simp only [reduceCtorEq, false_iff]
      rintro ⟨k, hk, -⟩
      exact hmod (hk ▸ Nat.mul_mod_left k _)
  have hvalue : value x = n ↔
      ∃ k : ℕ, (significand x : ℚ) * 2 ^ exponent x = k ∧
        (if isNegative x then -(k : ℤ) else k) = n := by
    rw [← signed_eq_intCast_iff _ (by positivity), value_eq_of_isFinite h]
    split <;> simp
  rw [hread, hvalue]
  simp only [mul_zpow_eq_natCast_iff]

/-- **A float is told to be a safe integer if its value is one.** -/
theorem toSafeInt?_eq_some_iff :
    toSafeInt? x = some n ↔ x.isFinite = true ∧ value x = n ∧ n.natAbs < 2 ^ 53 := by
  rw [toSafeInt?]
  split
  · rename_i h
    simp [Option.filter_eq_some_iff, toInt?_eq_some_iff h, h]
  · rename_i h
    simp [h]

/-- Two floats have the value zero. -/
theorem value_eq_zero_iff (h : x.isFinite = true) : value x = 0 ↔ x = 0.0 ∨ x = -0.0 := by
  constructor
  · intro hvalue
    rw [value] at hvalue
    obtain ⟨s, hx⟩ | ⟨s, m, e, hm, hx⟩ := unpack_of_isFinite h
    · cases s with
      | positive => exact .inl (eq_of_unpack_eq hx)
      | negative => exact .inr (eq_of_unpack_eq hx)
    · rw [hx] at hvalue
      have hmantissa : (s.apply m : ℚ) = 0 :=
        (mul_eq_zero.1 hvalue).resolve_right (zpow_ne_zero e two_ne_zero)
      cases s <;> simp [Sign.apply] at hmantissa <;> omega
  · rintro (rfl | rfl) <;> rfl

theorem toSafeInt?_of_eq_zero (h : x = 0.0 ∨ x = -0.0) : toSafeInt? x = some 0 := by
  have hfinite : x.isFinite = true := by rcases h with rfl | rfl <;> rfl
  refine toSafeInt?_eq_some_iff.2 ⟨hfinite, ?_, by decide⟩
  rw [(value_eq_zero_iff hfinite).2 h, Int.cast_zero]

/-! ### From integers to floats -/

theorem unpack_toFloat (h : Canonical m e) (he : e ≤ 971) (hk : k < 2 ^ 64) (hpos : 0 < k)
    (hvalue : (k : ℚ) = m * 2 ^ e) :
    k.toUInt64.toFloat.toModel.unpack = .finite .positive m e h.pos := by
  have hword : k.toUInt64.toNat = k := UInt64.toNat_ofNat_of_lt' hk
  show unpack .binary64 (pack .binary64
    (UnpackedFloat.normalize .binary64 (k.toUInt64.toNat : ℤ) 0 .positive)) = _
  rw [hword, UnpackedFloat.normalize, compare_gt_iff_gt.2 (Int.natCast_pos.2 hpos)]
  show unpack .binary64 (pack .binary64 (UnpackedFloat.round .binary64 .positive k 0)) = _
  rw [h.round_eq hpos.ne' (by rw [zpow_zero, mul_one, hvalue]), unpack_pack_of_canonical h he]

/-- **A safe natural number is converted exactly.** -/
theorem unpack_ofNat (h : Canonical m e) (he : e ≤ 971) (hk : k < 2 ^ 53) (hpos : 0 < k)
    (hvalue : (k : ℚ) = m * 2 ^ e) :
    (Float.ofNat k).toModel.unpack = .finite .positive m e h.pos := by
  have hword := unpack_toFloat h he (by omega) hpos hvalue
  have hmul : ((m * 2 ^ 52 : ℕ) : ℚ) * 2 ^ (e + -52) = m * 2 ^ e := by
    rw [zpow_add₀ two_ne_zero]
    push_cast
    ring
  show (Float.ofScientific k false 0).toModel.unpack = _
  rw [Float.ofScientific, dif_pos ⟨hk, by decide⟩]
  dsimp only
  rw [if_neg (by decide), unpack_mul, powersOfTen_zero, hword, unpack_one]
  show unpack .binary64 (pack .binary64
    (roundWithAccuracy .binary64 .positive (m * 2 ^ 52) (e + -52) .exact)) = _
  have hm := h.pos.ne'
  rw [h.roundWithAccuracy_eq (by positivity) hmul (by omega), unpack_pack_of_canonical h he]

/-- **The float with a safe value is what this value is converted to**, unless it is zero. -/
theorem ofInt_eq_of_value_eq (h : x.isFinite = true) (hvalue : value x = n) (hn : n ≠ 0)
    (hsafe : n.natAbs < 2 ^ 53) : Float.ofInt n = x := by
  refine eq_of_unpack_eq ?_
  rw [value] at hvalue
  obtain ⟨s, hx⟩ | ⟨s, m, e, hm, hx⟩ := unpack_of_isFinite h
  · rw [hx] at hvalue
    exact absurd (Int.cast_eq_zero.1 hvalue.symm) hn
  · obtain ⟨hcanonical, he⟩ := canonical_of_unpack hx
    rw [hx] at hvalue ⊢
    have hpos : (0 : ℚ) < m * 2 ^ e := by positivity
    cases s with
    | positive =>
      have hn' : (n : ℚ) = m * 2 ^ e := by simpa [valueOf, Sign.apply] using hvalue.symm
      obtain ⟨k, rfl⟩ := Int.eq_ofNat_of_zero_le (Int.cast_nonneg_iff.1 (hn'.symm ▸ hpos.le))
      exact unpack_ofNat hcanonical he hsafe (by omega) (by exact_mod_cast hn')
    | negative =>
      have hn' : (n : ℚ) = -(m * 2 ^ e) := by simpa [valueOf, Sign.apply] using hvalue.symm
      have hneg : (n : ℚ) < 0 := by linarith
      obtain ⟨k, rfl⟩ := Int.eq_negSucc_of_lt_zero (Int.cast_lt_zero.1 hneg)
      have hk : ((k + 1 : ℕ) : ℚ) = m * 2 ^ e := by rw [← neg_inj, ← hn', Int.cast_negSucc]
      have hnat : (Float.ofNat (k + 1)).toModel.unpack = .finite .positive m e hm :=
        unpack_ofNat hcanonical he hsafe k.succ_pos hk
      show unpack .binary64 (pack .binary64
        (UnpackedFloat.neg (Float.ofNat (k + 1)).toModel.unpack)) = _
      rw [hnat]
      exact unpack_pack_of_canonical hcanonical he .negative

/-- **The integer that a float is told to be is converted to it**, but to the positive zero from
both. -/
theorem ofInt_of_toSafeInt? (h : toSafeInt? x = some n) :
    Float.ofInt n = if x = -0.0 then 0.0 else x := by
  obtain ⟨hfinite, hvalue, hsafe⟩ := toSafeInt?_eq_some_iff.1 h
  by_cases hn : n = 0
  · subst hn
    rcases (value_eq_zero_iff hfinite).1 (hvalue.trans Int.cast_zero) with rfl | rfl <;> decide
  · rw [if_neg, ofInt_eq_of_value_eq hfinite hvalue hn hsafe]
    rintro rfl
    exact hn (Option.some.inj (h.symm.trans (toSafeInt?_of_eq_zero (.inr rfl))))

end MapStyle.Binary64
