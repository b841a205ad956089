import Mathlib
import MapStyle.Proofs.Scalar.Lawful
import MapStyle.Scalar.Binary64

/-!
# Binary64 comparison is lawful

`Float` compares by the unpacked form of its two values. `rank?` maps that form to a
lexicographically ordered triple of integers, and to nothing for the value that is no number;
comparison of floats is comparison of ranks (`compare_eq_rank?`), so the laws are those of a linear
order. Both zeros have one rank, which is where numeric equality and equality part.

The laws about numbers need one fact about packing: it makes no value *not a number* that was one
(`unpack_pack_ne_nan`).
-/

namespace MapStyle.Binary64

open Float.Model Float.Model.UnpackedFloat

/-! ### Ranks -/

/-- The place of a float among the numbers: its sign and kind, then exponent, then mantissa. -/
def rank? : UnpackedFloat → Option (ℤ ×ₗ ℤ ×ₗ ℤ)
  | .notANumber => none
  | .infinity .negative => some (toLex (-2, toLex (0, 0)))
  | .finite .negative m e _ => some (toLex (-1, toLex (-e, -(m : ℤ))))
  | .zero _ => some (toLex (0, toLex (0, 0)))
  | .finite .positive m e _ => some (toLex (1, toLex (e, (m : ℤ))))
  | .infinity .positive => some (toLex (2, toLex (0, 0)))

theorem compare_neg (a b : ℤ) : compare (-a) (-b) = (compare a b).swap := by
  rcases lt_trichotomy a b with h | h | h
  · rw [compare_lt_iff_lt.2 h, compare_gt_iff_gt.2 (by omega : -b < -a)]
    rfl
  · rw [compare_eq_iff_eq.2 h, compare_eq_iff_eq.2 (by omega : -a = -b)]
    rfl
  · rw [compare_gt_iff_gt.2 h, compare_lt_iff_lt.2 (by omega : -a < -b)]
    rfl

theorem compare_natCast (a b : ℕ) : compare (a : ℤ) (b : ℤ) = compare a b := by
  rcases lt_trichotomy a b with h | h | h
  · rw [compare_lt_iff_lt.2 h, compare_lt_iff_lt.2 (by omega : (a : ℤ) < b)]
  · rw [h, compare_eq_iff_eq.2 rfl, compare_eq_iff_eq.2 rfl]
  · rw [compare_gt_iff_gt.2 h, compare_gt_iff_gt.2 (by omega : (b : ℤ) < a)]

/-- **Floats compare as their ranks do**, and not at all if one of them has none. -/
theorem compare_eq_rank? (a b : UnpackedFloat) :
    a.compare b = (rank? a).bind fun p ↦ (rank? b).map fun q ↦ compare p q := by
  -- only two finite values of one sign compare by more than their sign and kind
  rcases a with (_ | _) | _ | _ | ⟨_ | _, m, e, hm⟩ <;>
    rcases b with (_ | _) | _ | _ | ⟨_ | _, m', e', hm'⟩ <;>
      try rfl
  · show some ((compare e e').then (compare m m')).swap =
      some ((compare (-e) (-e')).then (compare (-(m : ℤ)) (-(m' : ℤ))))
    rw [Ordering.swap_then, compare_neg, compare_neg, compare_natCast]
  · show some ((compare e e').then (compare m m')) =
      some ((compare e e').then (compare (m : ℤ) (m' : ℤ)))
    rw [compare_natCast]

/-- The rank of a packed float. -/
def place? (x : Float) : Option (ℤ ×ₗ ℤ ×ₗ ℤ) := rank? x.toModel.unpack

theorem compare_eq_place? (x y : Float) :
    x.toModel.unpack.compare y.toModel.unpack =
      (place? x).bind fun p ↦ (place? y).map fun q ↦ compare p q :=
  compare_eq_rank? _ _

theorem le_iff_place? {x y : Float} :
    x ≤ y ↔ ∃ p q, place? x = some p ∧ place? y = some q ∧ p ≤ q := by
  have hle : x ≤ y ↔ UnpackedFloat.le x.toModel.unpack y.toModel.unpack = true := by
    show decide (UnpackedFloat.le x.toModel.unpack y.toModel.unpack = true) = true ↔ _
    rw [decide_eq_true_iff]
  rw [hle, UnpackedFloat.le, compare_eq_place?]
  rcases place? x with - | p <;> rcases place? y with - | q <;>
    simp [Ordering.isLE_iff_ne_gt, compare_gt_iff_gt]

theorem lt_iff_place? {x y : Float} :
    x < y ↔ ∃ p q, place? x = some p ∧ place? y = some q ∧ p < q := by
  have hlt : x < y ↔ UnpackedFloat.lt x.toModel.unpack y.toModel.unpack = true := by
    show decide (UnpackedFloat.lt x.toModel.unpack y.toModel.unpack = true) = true ↔ _
    rw [decide_eq_true_iff]
  rw [hlt, UnpackedFloat.lt, compare_eq_place?]
  rcases place? x with - | p <;> rcases place? y with - | q <;> simp
  exact compare_lt_iff_lt

theorem beq_iff_place? {x y : Float} :
    (x == y) = true ↔ ∃ p, place? x = some p ∧ place? y = some p := by
  have hbeq : (x == y) = UnpackedFloat.beq x.toModel.unpack y.toModel.unpack := rfl
  rw [hbeq, UnpackedFloat.beq, compare_eq_place?]
  rcases place? x with - | p <;> rcases place? y with - | q <;> simp
  exact compare_eq_iff_eq.trans eq_comm

theorem isNaN_eq_false_iff_place? {x : Float} :
    Scalar.isNaN x = false ↔ ∃ p, place? x = some p := by
  rw [Scalar.isNaN_eq_false_iff]
  exact beq_iff_place?.trans (exists_congr fun p ↦ and_self_iff)

/-- The infinite values are the lowest and the highest kind. -/
theorem isFinite_iff_rank? {a : UnpackedFloat} : UnpackedFloat.isFinite a = true ↔
    ∃ p, rank? a = some p ∧ -1 ≤ (ofLex p).1 ∧ (ofLex p).1 ≤ 1 := by
  rcases a with (_ | _) | _ | _ | ⟨_ | _, m, e, hm⟩ <;> simp [rank?, UnpackedFloat.isFinite]

theorem isFinite_iff_place? {x : Float} : x.isFinite = true ↔
    ∃ p, place? x = some p ∧ -1 ≤ (ofLex p).1 ∧ (ofLex p).1 ≤ 1 := isFinite_iff_rank?

/-- **What lies between finite floats is finite.** -/
theorem isFinite_of_le_of_le {lo hi x : Float} (hlo : lo.isFinite = true) (hhi : hi.isFinite = true)
    (hle : lo ≤ x) (hle' : x ≤ hi) : x.isFinite = true := by
  obtain ⟨p, q, hp, hq, hpq⟩ := le_iff_place?.1 hle
  obtain ⟨q', r, hq', hr, hqr⟩ := le_iff_place?.1 hle'
  obtain rfl := Option.some.inj (hq.symm.trans hq')
  obtain ⟨p', hp', hbelow, -⟩ := isFinite_iff_place?.1 hlo
  obtain ⟨r', hr', -, habove⟩ := isFinite_iff_place?.1 hhi
  obtain rfl := Option.some.inj (hp.symm.trans hp')
  obtain rfl := Option.some.inj (hr.symm.trans hr')
  exact isFinite_iff_place?.2 ⟨q, hq, hbelow.trans (Prod.Lex.monotone_fst _ _ hpq),
    (Prod.Lex.monotone_fst _ _ hqr).trans habove⟩

/-! ### One float of each rank -/

/-- Floats of one rank are one float, unless they are zeros or no numbers. -/
theorem rank?_inj {a b : UnpackedFloat} (h : rank? a = rank? b) (hnone : rank? a ≠ none)
    (hzero : rank? a ≠ some (toLex (0, toLex (0, 0)))) : a = b := by
  rcases a with (_ | _) | _ | _ | ⟨_ | _, m, e, hm⟩ <;>
    rcases b with (_ | _) | _ | _ | ⟨_ | _, m', e', hm'⟩ <;> simp_all [rank?]

/-- A float is what it is unpacked to. -/
theorem eq_of_unpack_eq {x y : Float} (h : x.toModel.unpack = y.toModel.unpack) : x = y :=
  Float.toBits_inj.1 (UInt64.toBitVec_inj.1
    ((unpack_inj_of_valid x.toModel.valid y.toModel.valid (by decide)).1 h))

theorem place?_zero : place? 0.0 = some (toLex (0, toLex (0, 0))) := by decide

/-! ### Numbers -/

theorem exists_rank?_iff {a : UnpackedFloat} : (∃ p, rank? a = some p) ↔ a ≠ .notANumber := by
  rcases a with (_ | _) | _ | _ | ⟨_ | _, m, e, hm⟩ <;> simp [rank?]

theorem unpack_ne_nan {b : BitVec Format.binary64.numBits}
    (h : unpackExponent b = -1#11 → unpackMantissa b = 0#52) :
    unpack .binary64 b ≠ .notANumber := by
  rw [UnpackedFloat.unpack]
  split
  · rename_i hexp
    rw [if_pos (h hexp)]
    exact UnpackedFloat.noConfusion
  · split
    · split <;> exact UnpackedFloat.noConfusion
    · exact UnpackedFloat.noConfusion

/-- **Packing a number packs a number.** An overflow becomes infinite, and all other finite values
have an exponent that is not all ones. -/
theorem unpack_pack_ne_nan {a : UnpackedFloat} (h : a ≠ .notANumber) :
    unpack .binary64 (pack .binary64 a) ≠ .notANumber := by
  refine unpack_ne_nan fun hexp ↦ ?_
  rcases a with s | _ | s | ⟨s, m, e, hm⟩
  · exact unpackMantissa_packComponents
  · exact absurd rfl h
  · exact unpackMantissa_packComponents
  · rw [UnpackedFloat.pack] at hexp ⊢
    dsimp only at hexp ⊢
    split at hexp
    · rename_i hbig
      rw [if_pos hbig]
      exact unpackMantissa_packComponents
    · rename_i hbig
      exfalso
      split at hexp <;> rw [unpackExponent_packComponents] at hexp
      · have hval := congrArg BitVec.toNat hexp
        rw [BitVec.toNat_ofNat, show (-1#11).toNat = 2047 from rfl] at hval
        omega
      · exact absurd hexp (by decide)

theorem roundWithAccuracy_ne_nan (s : Sign) (m : ℕ) (e : ℤ) (acc : Accuracy) :
    roundWithAccuracy .binary64 s m e acc ≠ .notANumber := by
  unfold roundWithAccuracy
  dsimp only
  split <;> exact UnpackedFloat.noConfusion

theorem normalize_ne_nan (m e : ℤ) (s : Sign) :
    UnpackedFloat.normalize .binary64 m e s ≠ .notANumber := by
  rw [UnpackedFloat.normalize]
  split
  · exact roundWithAccuracy_ne_nan _ _ _ _
  · exact UnpackedFloat.noConfusion
  · exact roundWithAccuracy_ne_nan _ _ _ _

/-- A product with a finite factor is a number if the other factor is. -/
theorem mul_finite_ne_nan {a : UnpackedFloat} (h : a ≠ .notANumber) (s : Sign) (m : ℕ) (e : ℤ)
    (hm : 0 < m) : mul .binary64 a (.finite s m e hm) ≠ .notANumber := by
  rcases a with s' | _ | s' | ⟨s', m', e', hm'⟩
  · exact UnpackedFloat.noConfusion
  · exact absurd rfl h
  · exact UnpackedFloat.noConfusion
  · exact roundWithAccuracy_ne_nan _ _ _ _

theorem ofScientific_ne_nan (n : ℕ) :
    UnpackedFloat.ofScientific .binary64 n 0 ≠ .notANumber := by
  rw [UnpackedFloat.ofScientific]
  split
  · exact UnpackedFloat.noConfusion
  · have hbits : (0 : ℤ) < 2 ^ Format.binary64.exponentBits := by decide
    rw [if_neg (by omega), if_neg (by omega), if_pos (le_refl 0)]
    exact mul_finite_ne_nan UnpackedFloat.noConfusion _ _ _ _

theorem unpack_mul (x y : Float) : (x * y).toModel.unpack =
    unpack .binary64 (pack .binary64 (mul .binary64 x.toModel.unpack y.toModel.unpack)) :=
  rfl

theorem unpack_toFloat_ne_nan (n : UInt64) : n.toFloat.toModel.unpack ≠ .notANumber :=
  unpack_pack_ne_nan (normalize_ne_nan _ _ _)

/-- The zeroth power of ten, as it is tabulated for reading decimals. -/
theorem powersOfTen_zero (h : 0 < Float.exactlyRepresentablePowersOfTen.size) :
    Float.exactlyRepresentablePowersOfTen[0] = Float.ofBits 0x3FF0000000000000 :=
  rfl

theorem unpack_one : (Float.ofBits 0x3FF0000000000000).toModel.unpack =
    .finite .positive (2 ^ 52) (-52) (by decide) :=
  rfl

/-- The float of a natural number is a number. Small ones are the product of a machine word and
one, all others are rounded from their digits. -/
theorem unpack_ofNat_ne_nan (n : ℕ) : (Float.ofNat n).toModel.unpack ≠ .notANumber := by
  show (Float.ofScientific n false 0).toModel.unpack ≠ .notANumber
  rw [Float.ofScientific]
  split
  · dsimp only
    rw [if_neg (by decide), unpack_mul, powersOfTen_zero, unpack_one]
    exact unpack_pack_ne_nan (mul_finite_ne_nan (unpack_toFloat_ne_nan _) _ _ _ _)
  · exact unpack_pack_ne_nan (ofScientific_ne_nan n)

theorem unpack_ofInt_ne_nan (n : ℤ) : (Float.ofInt n).toModel.unpack ≠ .notANumber := by
  rcases n with n | n
  · exact unpack_ofNat_ne_nan n
  · refine unpack_pack_ne_nan ?_
    have h := unpack_ofNat_ne_nan n.succ
    generalize (Float.ofNat n.succ).toModel.unpack = a at h
    rcases a with s | _ | s | ⟨s, m, e, hm⟩
    · exact UnpackedFloat.noConfusion
    · exact absurd rfl h
    · exact UnpackedFloat.noConfusion
    · exact UnpackedFloat.noConfusion

/-! ### The laws -/

instance : Scalar.Lawful Float where
  beq_iff x y := by
    rw [beq_iff_place?, le_iff_place?, le_iff_place?]
    constructor
    · rintro ⟨p, hx, hy⟩
      exact ⟨⟨p, p, hx, hy, le_refl p⟩, ⟨p, p, hy, hx, le_refl p⟩⟩
    · rintro ⟨⟨p, q, hx, hy, hpq⟩, ⟨q', p', hy', hx', hqp⟩⟩
      obtain rfl : p' = p := Option.some.inj (hx'.symm.trans hx)
      obtain rfl : q' = q := Option.some.inj (hy'.symm.trans hy)
      exact ⟨p', hx, (le_antisymm hpq hqp).symm ▸ hy⟩
  lt_iff x y := by
    rw [lt_iff_place?, le_iff_place?, le_iff_place?]
    constructor
    · rintro ⟨p, q, hx, hy, hpq⟩
      refine ⟨⟨p, q, hx, hy, le_of_lt hpq⟩, ?_⟩
      rintro ⟨q', p', hy', hx', hqp⟩
      obtain rfl : p' = p := Option.some.inj (hx'.symm.trans hx)
      obtain rfl : q' = q := Option.some.inj (hy'.symm.trans hy)
      exact absurd hpq (not_lt_of_ge hqp)
    · rintro ⟨⟨p, q, hx, hy, hpq⟩, hnot⟩
      exact ⟨p, q, hx, hy, lt_of_le_not_ge hpq fun hqp ↦ hnot ⟨q, p, hy, hx, hqp⟩⟩
  le_trans {x y z} hxy hyz := by
    rw [le_iff_place?] at *
    obtain ⟨p, q, hx, hy, hpq⟩ := hxy
    obtain ⟨q', r, hy', hz, hqr⟩ := hyz
    obtain rfl : q' = q := Option.some.inj (hy'.symm.trans hy)
    exact ⟨p, r, hx, hz, le_trans hpq hqr⟩
  le_or_ge {x y} hx hy := by
    obtain ⟨p, hp⟩ := isNaN_eq_false_iff_place?.1 hx
    obtain ⟨q, hq⟩ := isNaN_eq_false_iff_place?.1 hy
    rw [le_iff_place?, le_iff_place?]
    exact (le_total p q).imp (fun h ↦ ⟨p, q, hp, hq, h⟩) fun h ↦ ⟨q, p, hq, hp, h⟩
  isNaN_of_le_left {x y} h := by
    obtain ⟨p, -, hp, -, -⟩ := le_iff_place?.1 h
    exact isNaN_eq_false_iff_place?.2 ⟨p, hp⟩
  isNaN_of_le_right {x y} h := by
    obtain ⟨-, q, -, hq, -⟩ := le_iff_place?.1 h
    exact isNaN_eq_false_iff_place?.2 ⟨q, hq⟩
  isNaN_of_isFinite {x} h := by
    refine isNaN_eq_false_iff_place?.2 (exists_rank?_iff.2 fun hnan ↦ ?_)
    have hfin : UnpackedFloat.isFinite x.toModel.unpack = true := h
    rw [hnan] at hfin
    exact Bool.false_ne_true hfin
  isNaN_ofInt n := isNaN_eq_false_iff_place?.2 (exists_rank?_iff.2 (unpack_ofInt_ne_nan n))

end MapStyle.Binary64
