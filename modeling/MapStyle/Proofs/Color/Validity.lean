import MapStyle.Color.Css
import MapStyle.Color.Space
import MapStyle.Proofs.Scalar.Real

/-!
# Valid colors

A color with premultiplied channels stands for a straight one only if no channel is above alpha. In
exact arithmetic every color of the library is of that kind:

* **every color that a text names is valid** (`ofText?_valid`), since each form of text ends in
  straight channels, and premultiplying brings those into the unit interval first;
* **blending keeps colors valid** in every space (`ColorSpace.blend_valid`). Plain channels are
  blended as they are, and the bounds of a valid color are respected by a blend at any factor of the
  unit interval; the other spaces come back through straight channels.

Nothing is asked of powers, roots and angles, and so nothing of what the other spaces compute.
-/

namespace MapStyle

open Set

/-- **A valid color**: alpha is at most one, and no channel is below zero or above alpha. -/
structure Color.Valid (c : Color ℝ) : Prop where
  /-- Red is between zero and alpha. -/
  red : c.red ∈ Icc 0 c.alpha
  /-- Green is between zero and alpha. -/
  green : c.green ∈ Icc 0 c.alpha
  /-- Blue is between zero and alpha. -/
  blue : c.blue ∈ Icc 0 c.alpha
  /-- Alpha is at most one. -/
  alpha_le : c.alpha ≤ 1

section

variable [RealFunctions]

/-! ### Premultiplying -/

theorem Scalar.clamp_mem_Icc {lo hi : ℝ} (h : lo ≤ hi) (x : ℝ) : clamp lo hi x ∈ Icc lo hi := by
  rw [clamp]
  split_ifs with hlo hhi
  · exact left_mem_Icc.2 h
  · exact right_mem_Icc.2 h
  · exact ⟨not_lt.1 hlo, not_lt.1 hhi⟩

theorem Scalar.clamp_mem_unit (x : ℝ) : clamp 0.0 1.0 x ∈ Icc 0 1 := by
  have h := clamp_mem_Icc (by norm_num : (0.0 : ℝ) ≤ 1.0) x
  exact ⟨le_trans (by norm_num) h.1, h.2.trans (by norm_num)⟩

/-- What is in the unit interval is not clamped. -/
theorem Scalar.clamp_of_mem_unit {x : ℝ} (hx : x ∈ Icc 0 1) : clamp 0.0 1.0 x = x := by
  have hlo : ¬x < (0.0 : ℝ) := by
    rw [not_lt]
    norm_num [hx.1]
  have hhi : ¬(1.0 : ℝ) < x := by
    rw [not_lt]
    norm_num [hx.2]
  rw [clamp, if_neg hlo, if_neg hhi]

/-- **Premultiplying makes valid colors**, whatever the straight channels are. -/
theorem Straight.premultiply_valid (s : Straight ℝ) : s.premultiply.Valid := by
  have halpha := Scalar.clamp_mem_unit s.alpha
  have hchannel : ∀ x, Scalar.clamp 0.0 1.0 x * Scalar.clamp 0.0 1.0 s.alpha ∈
      Icc 0 (Scalar.clamp 0.0 1.0 s.alpha) := by
    intro x
    have hx := Scalar.clamp_mem_unit x
    exact ⟨mul_nonneg hx.1 halpha.1, mul_le_of_le_one_left halpha.1 hx.2⟩
  exact ⟨hchannel s.red, hchannel s.green, hchannel s.blue, halpha.2⟩

/-! ### Texts -/

namespace Color

variable {c : Color ℝ}

theorem ofBytes_valid (b : Bytes) : (ofBytes b : Color ℝ).Valid := Straight.premultiply_valid _

theorem ofHex?_valid {cs : List Char} (h : ofHex? cs = some c) : c.Valid := by
  obtain ⟨digits, -, h⟩ := Option.bind_eq_some_iff.1 h
  obtain ⟨b, -, h⟩ := Option.bind_eq_some_iff.1 h
  obtain rfl := Option.some.inj h
  exact ofBytes_valid b

theorem ofRgb?_valid {args : List (List Char)} (h : ofRgb? args = some c) : c.Valid := by
  obtain ⟨components, -, h⟩ := Option.bind_eq_some_iff.1 h
  split at h
  · exact absurd h (by simp)
  · obtain rfl := Option.some.inj h
    exact Straight.premultiply_valid _

theorem ofHsl?_valid {args : List (List Char)} (h : ofHsl? args = some c) : c.Valid := by
  obtain ⟨components, -, h⟩ := Option.bind_eq_some_iff.1 h
  split at h
  · exact absurd h (by simp)
  · obtain rfl := Option.some.inj h
    exact Straight.premultiply_valid _

/-- **Every color that a text names is valid.** -/
theorem ofText?_valid {s : String} (h : ofText? s = some c) : c.Valid := by
  rw [ofText?, ofLower?] at h
  split at h
  · exact ofHex?_valid h
  · split at h
    · exact ofRgb?_valid h
    · split at h
      · exact ofHsl?_valid h
      · obtain ⟨b, -, rfl⟩ := Option.map_eq_some_iff.1 h
        exact ofBytes_valid b

end Color

/-! ### Blends -/

/-- A blend at a share of the way respects the order of both of its ends. -/
theorem Scalar.lerp_le_lerp {a b c d t : ℝ} (ht : t ∈ Icc 0 1) (hac : a ≤ c) (hbd : b ≤ d) :
    lerp a b t ≤ lerp c d t := by
  have hfar : t * b ≤ t * d := mul_le_mul_of_nonneg_left hbd ht.1
  have hnear : (1 - t) * a ≤ (1 - t) * c := mul_le_mul_of_nonneg_left hac (sub_nonneg.2 ht.2)
  calc
    lerp a b t = (1 - t) * a + t * b := by rw [lerp_real]; ring
    _ ≤ (1 - t) * c + t * d := add_le_add hnear hfar
    _ = lerp c d t := by rw [lerp_real]; ring

theorem Scalar.lerp_self (a t : ℝ) : lerp a a t = a := by
  rw [lerp_real, sub_self, zero_mul, add_zero]

/-- A blended channel is bounded by the blended alpha. -/
theorem Scalar.lerp_mem_Icc {a b alpha beta t : ℝ} (ht : t ∈ Icc 0 1) (ha : a ∈ Icc 0 alpha)
    (hb : b ∈ Icc 0 beta) : lerp a b t ∈ Icc 0 (lerp alpha beta t) := by
  refine ⟨?_, lerp_le_lerp ht ha.2 hb.2⟩
  calc
    0 = lerp 0 0 t := (lerp_self 0 t).symm
    _ ≤ lerp a b t := lerp_le_lerp ht ha.1 hb.1

variable {c d : Color ℝ} {t : ℝ}

theorem Color.Valid.blend (hc : c.Valid) (hd : d.Valid) (ht : t ∈ Icc 0 1) :
    (c.blend d t).Valid where
  red := Scalar.lerp_mem_Icc ht hc.red hd.red
  green := Scalar.lerp_mem_Icc ht hc.green hd.green
  blue := Scalar.lerp_mem_Icc ht hc.blue hd.blue
  alpha_le := by
    calc
      Scalar.lerp c.alpha d.alpha t ≤ Scalar.lerp 1 1 t :=
        Scalar.lerp_le_lerp ht hc.alpha_le hd.alpha_le
      _ = 1 := Scalar.lerp_self 1 t

/-- **Blending keeps colors valid**, in each of the spaces. -/
theorem ColorSpace.blend_valid (space : ColorSpace) (hc : c.Valid) (hd : d.Valid)
    (ht : t ∈ Icc 0 1) : (space.blend c d t).Valid := by
  cases space with
  | rgb => exact hc.blend hd ht
  | lab => exact Straight.premultiply_valid _
  | hcl => exact Straight.premultiply_valid _

end

end MapStyle
