import MapStyle.Color.Hsl
import MapStyle.Proofs.Color.Validity

/-!
# The formula for hues

CSS defines the channels of a hue by one formula. A channel has an offset on a dial of twelve hours,
four hours away from the other two, on which the hue turns; where that ends up is its `sector`. From
there it reads a `wave` that is below the middle for four hours, above it for four hours, and
crosses over in the two hours between.

The profile that `Hsl.toStraight` reads has the same pieces, measured in whole turns from another
start, with its own rules for what is beyond the ends of the turn. So **a whole number of turns and
a third** is all the difference (`profile_eq_wave`), and the two definitions agree on every hue,
boundaries of pieces and the full turn included (`toStraight_eq_css`).

The three sectors are four hours apart, so that one of them is always where the wave is highest and
one where it is lowest (`exists_wave_eq_one`, `exists_wave_eq_neg_one`). Hence the largest and the
smallest channel lie at equal distances from the lightness.
-/

namespace MapStyle.Hsl

open Set

/-! ### The formula -/

/-- The hour on the dial at which a channel reads its wave: its offset and the hue, less whole
rounds of twelve hours. -/
noncomputable def sector (offset hue : ℝ) : ℝ := 12 * Int.fract ((offset + hue / 30) / 12)

/-- **The wave**: minus one from ten to two, one from four to eight, on straight lines in
between. -/
noncomputable def wave (k : ℝ) : ℝ := max (-1.0) (min (min (k - 3.0) (9.0 - k)) 1.0)

/-- The distance of the extreme channels from the lightness. -/
noncomputable def amplitude (saturation lightness : ℝ) : ℝ :=
  saturation * min lightness (1 - lightness)

/-- The channel with an offset. -/
noncomputable def cssChannel (offset hue saturation lightness : ℝ) : ℝ :=
  lightness - amplitude saturation lightness * wave (sector offset hue)

/-- **The straight color of a hue as CSS defines it.** -/
noncomputable def css (hue saturation lightness alpha : ℝ) : Straight ℝ :=
  ⟨cssChannel 0 hue saturation lightness, cssChannel 8 hue saturation lightness,
    cssChannel 4 hue saturation lightness, alpha⟩

/-! ### Pieces of the wave -/

variable {k h s l : ℝ}

theorem wave_eq_max (k : ℝ) : wave k = max (-1) (min (min (k - 3) (9 - k)) 1) := by
  norm_num [wave]

theorem wave_eq_neg_one (hk : k ≤ 2 ∨ 10 ≤ k) : wave k = -1 := by
  rw [wave_eq_max, max_eq_left]
  rcases hk with hk | hk
  · exact (min_le_left _ _).trans ((min_le_left _ _).trans (by linarith))
  · exact (min_le_left _ _).trans ((min_le_right _ _).trans (by linarith))

theorem wave_rising (hlo : 2 ≤ k) (hhi : k ≤ 4) : wave k = k - 3 := by
  rw [wave_eq_max, min_eq_left (by linarith : k - 3 ≤ 9 - k), min_eq_left (by linarith),
    max_eq_right (by linarith)]

theorem wave_eq_one (hlo : 4 ≤ k) (hhi : k ≤ 8) : wave k = 1 := by
  rw [wave_eq_max, min_eq_right (le_min (by linarith) (by linarith)), max_eq_right (by norm_num)]

theorem wave_falling (hlo : 8 ≤ k) (hhi : k ≤ 10) : wave k = 9 - k := by
  rw [wave_eq_max, min_eq_right (by linarith : 9 - k ≤ k - 3), min_eq_left (by linarith),
    max_eq_right (by linarith)]

theorem wave_mem_Icc (k : ℝ) : wave k ∈ Icc (-1) 1 := by
  rw [wave_eq_max]
  exact ⟨le_max_left _ _, max_le (by norm_num) (min_le_right _ _)⟩

theorem sector_nonneg (offset hue : ℝ) : 0 ≤ sector offset hue :=
  mul_nonneg (by norm_num) (Int.fract_nonneg _)

theorem sector_lt (offset hue : ℝ) : sector offset hue < 12 := by
  have hlt := Int.fract_lt_one ((offset + hue / 30) / 12)
  rw [sector]
  linarith

/-- A sector is whole rounds away from the offset and the hue. -/
theorem exists_sector_eq (offset hue : ℝ) :
    ∃ rounds : ℤ, sector offset hue = offset + hue / 30 + 12 * rounds := by
  refine ⟨-⌊(offset + hue / 30) / 12⌋, ?_⟩
  rw [sector, Int.fract]
  push_cast
  ring

/-- Whole rounds aside there is one sector. -/
theorem sector_eq {offset hue : ℝ} (rounds : ℤ) (hk : k = offset + hue / 30 + 12 * rounds)
    (hlo : 0 ≤ k) (hhi : k < 12) : sector offset hue = k := by
  have hfract : Int.fract ((offset + hue / 30) / 12) = k / 12 := by
    refine Int.fract_eq_iff.2 ⟨by linarith, by linarith, -rounds, ?_⟩
    push_cast
    linarith
  rw [sector, hfract]
  ring

/-! ### The profile -/

/-- The profile within one turn. -/
noncomputable def pieces (p q t : ℝ) : ℝ :=
  if t < 1.0 / 6.0 then p + (q - p) * 6.0 * t
  else if t < 1.0 / 2.0 then q
  else if t < 2.0 / 3.0 then p + (q - p) * (2.0 / 3.0 - t) * 6.0
  else p

theorem pieces_eq_ite (p q t : ℝ) : pieces p q t =
    if t < 1 / 6 then p + (q - p) * 6 * t
    else if t < 1 / 2 then q
    else if t < 2 / 3 then p + (q - p) * (2 / 3 - t) * 6
    else p := by
  norm_num [pieces]

/-- What is at most one turn away, brought into the turn. -/
noncomputable def wrap (t : ℝ) : ℝ :=
  if t < 0 then t + 1 else if 1 < t then t - 1 else t

theorem wrap_mem_Icc {t : ℝ} (ht : t ∈ Icc (-1) 2) : wrap t ∈ Icc 0 1 := by
  obtain ⟨hlo, hhi⟩ := ht
  rw [wrap]
  split_ifs with hneg hover
  · exact ⟨by linarith, by linarith⟩
  · exact ⟨by linarith, by linarith⟩
  · exact ⟨not_lt.1 hneg, not_lt.1 hover⟩

/-- Wrapping takes whole turns off. -/
theorem exists_wrap_eq (t : ℝ) : ∃ turns : ℤ, wrap t = t + turns := by
  rw [wrap]
  split_ifs
  · exact ⟨1, by push_cast; ring⟩
  · exact ⟨-1, by push_cast; ring⟩
  · exact ⟨0, by push_cast; ring⟩

/-- **Within a turn the profile is the wave**, a third of a turn apart. -/
theorem pieces_eq_wave {t : ℝ} (ht : t ∈ Icc 0 1) (hk : k ∈ Ico 0 12)
    (htk : 12 * t = k + 4 ∨ 12 * t = k - 8) (l a : ℝ) :
    pieces (l - a) (l + a) t = l - a * wave k := by
  obtain ⟨hk0, hk12⟩ := hk
  obtain ⟨ht0, ht1⟩ := ht
  rw [pieces_eq_ite]
  split_ifs with hup hhigh hdown
  · have hturn : 12 * t = k - 8 := htk.resolve_left fun h ↦ by linarith
    rw [wave_falling (by linarith) (by linarith), ← sub_eq_zero]
    linear_combination a * hturn
  · -- the wave is lowest where the profile is highest, around the start of the dial
    have hlow : k ≤ 2 ∨ 10 ≤ k := by
      rcases htk with h | h
      · exact .inl (by linarith)
      · exact .inr (by linarith)
    rw [wave_eq_neg_one hlow]
    ring
  · have hturn : 12 * t = k + 4 := htk.resolve_right fun h ↦ by linarith
    rw [wave_rising (by linarith) (by linarith), ← sub_eq_zero]
    linear_combination (-a) * hturn
  · have hturn : 12 * t = k + 4 := htk.resolve_right fun h ↦ by linarith
    rw [wave_eq_one (by linarith) (by linarith)]
    ring

variable [RealFunctions]

/-- The profile of the library wraps first. What has been raised into the turn is not above it. -/
theorem profile_real (p q t : ℝ) : profile p q t = pieces p q (wrap t) := by
  have hwrap : wrap t =
      if (1.0 : ℝ) < (if t < (0.0 : ℝ) then t + (1.0 : ℝ) else t)
      then (if t < (0.0 : ℝ) then t + (1.0 : ℝ) else t) - (1.0 : ℝ)
      else if t < (0.0 : ℝ) then t + (1.0 : ℝ) else t := by
    have hzero : (0.0 : ℝ) = 0 := by norm_num
    have hone : (1.0 : ℝ) = 1 := by norm_num
    rw [wrap, hzero, hone]
    split_ifs <;> first | rfl | linarith
  rw [hwrap, pieces_eq_ite]
  norm_num [profile]

/-- A hue as a fraction of a turn is whole turns away from the hue. -/
theorem turn_real (hh : h ∈ Icc 0 360) :
    turn h ∈ Icc 0 1 ∧ ∃ turns : ℤ, turn h = h / 360 + turns := by
  obtain ⟨hlo, hhi⟩ := hh
  have hturn : turn h = (if (if h < 360 then h else h - 360) + 360 < 720
      then (if h < 360 then h else h - 360) + 360 - 360
      else (if h < 360 then h else h - 360) + 360 - 720) / 360 := by
    norm_num [turn]
  rcases lt_or_eq_of_le hhi with hlt | rfl
  · rw [if_pos hlt, if_pos (by linarith), add_sub_cancel_right] at hturn
    rw [hturn]
    exact ⟨⟨by linarith, by linarith⟩, 0, by push_cast; ring⟩
  · have hzero : turn (360 : ℝ) = 0 := by
      rw [hturn]
      norm_num
    rw [hzero]
    exact ⟨⟨le_refl 0, zero_le_one⟩, -1, by norm_num⟩

/-- **A channel of the library is the channel of the formula** whose offset is a third of a turn
away from its own, whole rounds aside. -/
theorem profile_eq_wave (hh : h ∈ Icc 0 360) {shift : ℝ} (hshift : shift ∈ Icc (-1) 1)
    (offset : ℝ) (rounds : ℤ) (hoffset : 12 * shift = offset + 4 + 12 * rounds) (l a : ℝ) :
    profile (l - a) (l + a) (turn h + shift) = l - a * wave (sector offset h) := by
  obtain ⟨hturn, turns, hturns⟩ := turn_real hh
  obtain ⟨wraps, hwraps⟩ := exists_wrap_eq (turn h + shift)
  obtain ⟨whole, hwhole⟩ := exists_sector_eq offset h
  have hwrap : wrap (turn h + shift) ∈ Icc 0 1 :=
    wrap_mem_Icc ⟨by linarith [hturn.1, hshift.1], by linarith [hturn.2, hshift.2]⟩
  have hsector : sector offset h ∈ Ico 0 12 := ⟨sector_nonneg _ _, sector_lt _ _⟩
  -- both sides are known up to whole rounds, and only two numbers of rounds are left
  have hrounds : 12 * wrap (turn h + shift) =
      sector offset h + 4 + 12 * ((rounds + turns + wraps - whole : ℤ) : ℝ) := by
    push_cast
    linear_combination 12 * hwraps + 12 * hturns + hoffset - hwhole
  have hlo : (-2 : ℤ) < rounds + turns + wraps - whole := by
    have hreal : (-2 : ℝ) < ((rounds + turns + wraps - whole : ℤ) : ℝ) := by
      linarith [hwrap.1, hsector.2]
    exact_mod_cast hreal
  have hhi : rounds + turns + wraps - whole < (1 : ℤ) := by
    have hreal : ((rounds + turns + wraps - whole : ℤ) : ℝ) < 1 := by
      linarith [hwrap.2, hsector.1]
    exact_mod_cast hreal
  rw [profile_real]
  refine pieces_eq_wave hwrap hsector ?_ l a
  obtain hm | hm : rounds + turns + wraps - whole = 0 ∨ rounds + turns + wraps - whole = -1 := by
    omega
  · rw [hm] at hrounds
    exact .inl (by rw [hrounds]; norm_num)
  · rw [hm] at hrounds
    exact .inr (by rw [hrounds]; push_cast; ring)

/-! ### Colors -/

/-- The conversion over the reals: the profile runs as far from the lightness, on both sides of it,
as the amplitude says. -/
theorem toStraight_real (h s l alpha : ℝ) :
    toStraight h s l alpha =
      if s = 0 then ⟨l, l, l, alpha⟩
      else ⟨profile (l - amplitude s l) (l + amplitude s l) (turn h + 1 / 3),
        profile (l - amplitude s l) (l + amplitude s l) (turn h + 0),
        profile (l - amplitude s l) (l + amplitude s l) (turn h + -(1 / 3)), alpha⟩ := by
  have hhigh : (if l < 0.5 then l * (1.0 + s) else l + s - l * s) = l + amplitude s l := by
    rw [amplitude]
    split_ifs with hl
    · rw [min_eq_left (by linarith)]
      norm_num
      ring
    · rw [min_eq_right (by linarith)]
      ring
  have hlow : 2.0 * l - (l + amplitude s l) = l - amplitude s l := by
    norm_num
    ring
  have hzero : (s == (0.0 : ℝ)) = true ↔ s = 0 := by
    rw [Scalar.beq_real_iff]
    norm_num
  have hthird : (1.0 / 3.0 : ℝ) = 1 / 3 := by norm_num
  have hunfold : toStraight h s l alpha =
      if (s == (0.0 : ℝ)) = true then ⟨l, l, l, alpha⟩
      else
        let q := if l < 0.5 then l * (1.0 + s) else l + s - l * s
        let p := 2.0 * l - q
        ⟨profile p q (turn h + 1.0 / 3.0), profile p q (turn h), profile p q (turn h - 1.0 / 3.0),
          alpha⟩ := rfl
  rw [hunfold, hhigh]
  dsimp only
  rw [hlow, hthird, add_zero, ← sub_eq_add_neg]
  exact if_congr hzero rfl rfl

/-- **The conversion is the formula of CSS.** -/
theorem toStraight_eq_css (hh : h ∈ Icc 0 360) (s l alpha : ℝ) :
    toStraight h s l alpha = css h s l alpha := by
  rw [toStraight_real]
  split_ifs with hs
  · simp only [css, cssChannel, amplitude, hs, zero_mul, sub_zero]
  · rw [profile_eq_wave hh (by constructor <;> norm_num) 0 0 (by norm_num),
      profile_eq_wave hh (by constructor <;> norm_num) 8 (-1) (by norm_num),
      profile_eq_wave hh (by constructor <;> norm_num) 4 (-1) (by norm_num)]
    rfl

/-! ### Extreme channels -/

section Extremes

omit [RealFunctions]

theorem wave_sector_eq_one {offset : ℝ} (rounds : ℤ) (hlo : 4 ≤ offset + h / 30 + 12 * rounds)
    (hhi : offset + h / 30 + 12 * rounds ≤ 8) : wave (sector offset h) = 1 := by
  rw [sector_eq rounds rfl (by linarith) (by linarith)]
  exact wave_eq_one hlo hhi

/-- The four lowest hours go on into the next round. -/
theorem wave_sector_eq_neg_one {offset : ℝ} (rounds : ℤ)
    (hlo : 10 ≤ offset + h / 30 + 12 * rounds) (hhi : offset + h / 30 + 12 * rounds ≤ 14) :
    wave (sector offset h) = -1 := by
  rcases lt_or_ge (offset + h / 30 + 12 * (rounds : ℝ)) 12 with hlt | hge
  · rw [sector_eq rounds rfl (by linarith) hlt]
    exact wave_eq_neg_one (.inr hlo)
  · have hnext : offset + h / 30 + 12 * ((rounds - 1 : ℤ) : ℝ) =
        offset + h / 30 + 12 * rounds - 12 := by
      push_cast
      ring
    rw [sector_eq (rounds - 1) rfl (by linarith) (by linarith)]
    exact wave_eq_neg_one (.inl (by linarith))

/-- **One of the three channels is where the wave is highest.** -/
theorem exists_wave_eq_one (hh : h ∈ Icc 0 360) :
    wave (sector 0 h) = 1 ∨ wave (sector 8 h) = 1 ∨ wave (sector 4 h) = 1 := by
  obtain ⟨hlo, hhi⟩ := hh
  rcases le_total h 120 with hfirst | hfirst
  · exact .inr (.inr (wave_sector_eq_one 0 (by norm_num; linarith) (by norm_num; linarith)))
  · rcases le_total h 240 with hsecond | hsecond
    · exact .inl (wave_sector_eq_one 0 (by norm_num; linarith) (by norm_num; linarith))
    · exact .inr (.inl (wave_sector_eq_one (-1) (by norm_num; linarith) (by norm_num; linarith)))

/-- **One of the three channels is where the wave is lowest.** -/
theorem exists_wave_eq_neg_one (hh : h ∈ Icc 0 360) :
    wave (sector 0 h) = -1 ∨ wave (sector 8 h) = -1 ∨ wave (sector 4 h) = -1 := by
  obtain ⟨hlo, hhi⟩ := hh
  rcases le_total h 60 with hfirst | hfirst
  · exact .inl (wave_sector_eq_neg_one 1 (by norm_num; linarith) (by norm_num; linarith))
  · rcases le_total h 180 with hsecond | hsecond
    · exact .inr (.inl
        (wave_sector_eq_neg_one 0 (by norm_num; linarith) (by norm_num; linarith)))
    · rcases le_total h 300 with hthird | hthird
      · exact .inr (.inr
          (wave_sector_eq_neg_one 0 (by norm_num; linarith) (by norm_num; linarith)))
      · exact .inl (wave_sector_eq_neg_one 0 (by norm_num; linarith) (by norm_num; linarith))

theorem amplitude_nonneg (hs : s ∈ Icc 0 1) (hl : l ∈ Icc 0 1) : 0 ≤ amplitude s l :=
  mul_nonneg hs.1 (le_min hl.1 (by linarith [hl.2]))

/-- The amplitude leaves room on both sides of the lightness. -/
theorem amplitude_le (hs : s ∈ Icc 0 1) (hl : l ∈ Icc 0 1) :
    amplitude s l ≤ l ∧ amplitude s l ≤ 1 - l := by
  have hroom : 0 ≤ min l (1 - l) := le_min hl.1 (by linarith [hl.2])
  have hle : amplitude s l ≤ min l (1 - l) := mul_le_of_le_one_left hroom hs.2
  exact ⟨hle.trans (min_le_left _ _), hle.trans (min_le_right _ _)⟩

/-- A channel is within the amplitude of the lightness. -/
theorem cssChannel_mem_Icc (hs : s ∈ Icc 0 1) (hl : l ∈ Icc 0 1) (offset h : ℝ) :
    cssChannel offset h s l ∈ Icc (l - amplitude s l) (l + amplitude s l) := by
  have hwave := wave_mem_Icc (sector offset h)
  have ha := amplitude_nonneg hs hl
  have hhigh : amplitude s l * wave (sector offset h) ≤ amplitude s l :=
    mul_le_of_le_one_right ha hwave.2
  have hlow : amplitude s l * -1 ≤ amplitude s l * wave (sector offset h) :=
    mul_le_mul_of_nonneg_left hwave.1 ha
  rw [cssChannel]
  exact ⟨by linarith, by linarith⟩

/-- Every channel is in the unit interval. -/
theorem cssChannel_mem_unit (hs : s ∈ Icc 0 1) (hl : l ∈ Icc 0 1) (offset h : ℝ) :
    cssChannel offset h s l ∈ Icc 0 1 := by
  obtain ⟨hlo, hhi⟩ := cssChannel_mem_Icc hs hl offset h
  obtain ⟨hbelow, habove⟩ := amplitude_le hs hl
  exact ⟨by linarith, by linarith⟩

/-- **The largest channel** is above the lightness by the amplitude. -/
theorem max_cssChannel (hh : h ∈ Icc 0 360) (hs : s ∈ Icc 0 1) (hl : l ∈ Icc 0 1) :
    max (max (cssChannel 0 h s l) (cssChannel 8 h s l)) (cssChannel 4 h s l) =
      l + amplitude s l := by
  have hle := fun offset ↦ (cssChannel_mem_Icc hs hl offset h).2
  refine le_antisymm (max_le (max_le (hle 0) (hle 8)) (hle 4)) ?_
  have hreach : ∀ offset, wave (sector offset h) = -1 →
      cssChannel offset h s l = l + amplitude s l := by
    intro offset hwave
    rw [cssChannel, hwave]
    ring
  obtain hwave | hwave | hwave := exists_wave_eq_neg_one hh
  · exact (hreach 0 hwave).ge.trans ((le_max_left _ _).trans (le_max_left _ _))
  · exact (hreach 8 hwave).ge.trans ((le_max_right _ _).trans (le_max_left _ _))
  · exact (hreach 4 hwave).ge.trans (le_max_right _ _)

/-- **The smallest channel** is below the lightness by the amplitude. -/
theorem min_cssChannel (hh : h ∈ Icc 0 360) (hs : s ∈ Icc 0 1) (hl : l ∈ Icc 0 1) :
    min (min (cssChannel 0 h s l) (cssChannel 8 h s l)) (cssChannel 4 h s l) =
      l - amplitude s l := by
  have hge := fun offset ↦ (cssChannel_mem_Icc hs hl offset h).1
  refine le_antisymm ?_ (le_min (le_min (hge 0) (hge 8)) (hge 4))
  have hreach : ∀ offset, wave (sector offset h) = 1 →
      cssChannel offset h s l = l - amplitude s l := by
    intro offset hwave
    rw [cssChannel, hwave, mul_one]
  obtain hwave | hwave | hwave := exists_wave_eq_one hh
  · exact ((min_le_left _ _).trans (min_le_left _ _)).trans (hreach 0 hwave).le
  · exact ((min_le_left _ _).trans (min_le_right _ _)).trans (hreach 8 hwave).le
  · exact (min_le_right _ _).trans (hreach 4 hwave).le

/-- A full turn leaves every sector where it is. -/
theorem sector_full_turn (offset : ℝ) : sector offset 360 = sector offset 0 := by
  have hturn : (offset + 360 / 30) / 12 = (offset + 0 / 30) / 12 + 1 := by ring
  rw [sector, sector, hturn, Int.fract_add_one]

end Extremes

/-! ### The main statement -/

/-- A straight color with channels in the unit interval. -/
structure InUnit (c : Straight ℝ) : Prop where
  /-- The red channel. -/
  red : c.red ∈ Icc 0 1
  /-- The green channel. -/
  green : c.green ∈ Icc 0 1
  /-- The blue channel. -/
  blue : c.blue ∈ Icc 0 1

/-- Straight channels just multiplied by an alpha. -/
noncomputable def scaled (c : Straight ℝ) (a : ℝ) : Color ℝ :=
  ⟨c.red * a, c.green * a, c.blue * a, a⟩

/-- The mean of the largest and the smallest channel. -/
noncomputable def middle (c : Straight ℝ) : ℝ :=
  (max (max c.red c.green) c.blue + min (min c.red c.green) c.blue) / 2.0

/-- Channels in the unit interval are not clamped. -/
theorem InUnit.premultiply_eq {c : Straight ℝ} (hc : InUnit c) :
    c.premultiply = scaled c (Scalar.clamp 0.0 1.0 c.alpha) := by
  rw [Straight.premultiply, scaled, Scalar.clamp_of_mem_unit hc.red,
    Scalar.clamp_of_mem_unit hc.green, Scalar.clamp_of_mem_unit hc.blue]

/-- **The conversion is the formula of CSS**, for every hue from `0` to `360` degrees. With
saturation and lightness in the unit interval its channels are there too, so that premultiplying
cuts nothing off them; the largest and the smallest of them average to the lightness; and a full
turn is the hue zero. -/
theorem toStraight_css (hh : h ∈ Icc 0 360) (hs : s ∈ Icc 0 1) (hl : l ∈ Icc 0 1) (alpha : ℝ) :
    toStraight h s l alpha = css h s l alpha ∧ InUnit (toStraight h s l alpha) ∧
      (toStraight h s l alpha).premultiply =
        scaled (toStraight h s l alpha) (Scalar.clamp 0.0 1.0 alpha) ∧
      middle (toStraight h s l alpha) = l ∧
      toStraight 0 s l alpha = toStraight 360 s l alpha := by
  have hcss : toStraight h s l alpha = css h s l alpha := toStraight_eq_css hh s l alpha
  have hunit : InUnit (css h s l alpha) :=
    ⟨cssChannel_mem_unit hs hl 0 h, cssChannel_mem_unit hs hl 8 h, cssChannel_mem_unit hs hl 4 h⟩
  rw [hcss]
  refine ⟨rfl, hunit, hunit.premultiply_eq, ?_, ?_⟩
  · have htwo : (2.0 : ℝ) = 2 := by norm_num
    rw [middle, css, max_cssChannel hh hs hl, min_cssChannel hh hs hl, htwo]
    ring
  · rw [toStraight_eq_css (by constructor <;> norm_num),
      toStraight_eq_css (by constructor <;> norm_num)]
    simp only [css, cssChannel, sector_full_turn]

omit [RealFunctions] in
/-- A dark purple, on the boundary of two pieces of the wave. -/
theorem toStraight_css_purple :
    letI := RealFunctions.standard
    (300 : ℝ) ∈ Icc 0 360 ∧ (1 / 2 : ℝ) ∈ Icc 0 1 ∧ (1 / 4 : ℝ) ∈ Icc 0 1 ∧
      toStraight 300 (1 / 2) (1 / 4) 1 = (⟨3 / 8, 1 / 8, 3 / 8, 1⟩ : Straight ℝ) := by
  let := RealFunctions.standard
  have hh : (300 : ℝ) ∈ Icc 0 360 := by constructor <;> norm_num
  have hs : (1 / 2 : ℝ) ∈ Icc 0 1 := by constructor <;> norm_num
  have hl : (1 / 4 : ℝ) ∈ Icc 0 1 := by constructor <;> norm_num
  refine ⟨hh, hs, hl, (toStraight_css hh hs hl 1).1.trans ?_⟩
  have hred : wave (sector 0 300) = -1 :=
    wave_sector_eq_neg_one 0 (by norm_num) (by norm_num)
  have hgreen : wave (sector 8 300) = 1 := wave_sector_eq_one (-1) (by norm_num) (by norm_num)
  have hblue : wave (sector 4 300) = -1 :=
    wave_sector_eq_neg_one 0 (by norm_num) (by norm_num)
  have hamplitude : amplitude (1 / 2) (1 / 4) = 1 / 8 := by
    rw [amplitude, min_eq_left (by norm_num)]
    norm_num
  simp only [css, cssChannel, hred, hgreen, hblue, hamplitude]
  norm_num

end MapStyle.Hsl
