import MapStyle.Proofs.Interpolation.Factor
import MapStyle.Proofs.Lookup.Places
import MapStyle.Proofs.Ramp.Floor
import MapStyle.Proofs.Scalar.Binary64
import MapStyle.StyleFunction.Compilation

/-!
# Blending at a stop

An input that equals a key has a stop of its own, and one expects the output of that stop whatever
the others are. `AtStop` says how far a lookup rule that blends keeps to it.

* **At either end** the stop hands out its own output, or the fallback if that is malformed.
* **Anywhere else** the input counts as one between the stop and the next one, and the two outputs
  are blended. So the next output has a say: if it does not blend with the stop's own one, the
  fallback takes the place of an output that is perfectly well formed
  (`compile_widths_at_stop`).

Where the outputs do blend, the blend is the stop's own output as far as interpolation by the factor
leaves its numbers as they are (`Stays`). Exact arithmetic does, whatever the base (`stays_real`),
but for colors that are carried into another space and back.
-/

namespace MapStyle

open Scalar (Lawful lerp)

/-! ### Blends that stay -/

namespace OutputRule

variable {α : Type} [Scalar α] {t : α} {rule : OutputRule} {v w u : Value α}

/-- **Blending by a factor leaves the lower of two outputs as it is**, one meaning for each rule. -/
def Stays (t : α) : OutputRule → Value α → Value α → Prop
  | number, v, w => ∀ x y, v = .number x → w = .number y → lerp x y t = x
  | color space, v, w => ∀ c d, v = .color c → w = .color d → space.blend c d t = c
  | numbers, v, w => ∀ xs ys : List α, v = .array (xs.map .number) → w = .array (ys.map .number) →
      lerpAll xs ys t = xs
  | hold, _, _ => True

omit [Scalar α] in
/-- A fallback is what the output and the fallback come to exactly if the output is malformed or the
same. -/
theorem eq_own_iff {fallback : Option (Value α)} (hv : v.isConcrete = true) :
    fallback = (rule.keep? v).or fallback ↔ (rule.Fits v → fallback = some v) := by
  rw [← allows_iff hv, keep?]
  by_cases hallows : rule.allows v = true
  · rw [if_pos hallows, Option.some_or]
    exact ⟨fun h _ ↦ h, fun h ↦ h hallows⟩
  · rw [if_neg hallows, Option.none_or]
    exact iff_of_true rfl fun h ↦ absurd h hallows

/-- The blend is the lower output exactly where blending leaves that as it is. -/
theorem Blend.eq_lower_iff (h : Blend t rule v w u) : u = v ↔ rule.Stays t v w := by
  cases h with
  | number =>
    rw [Value.number.injEq]
    constructor
    · rintro hstays x y ⟨⟩ ⟨⟩
      exact hstays
    · intro hstays
      exact hstays _ _ rfl rfl
  | color =>
    rw [Value.color.injEq]
    constructor
    · rintro hstays c d ⟨⟩ ⟨⟩
      exact hstays
    · intro hstays
      exact hstays _ _ rfl rfl
  | numbers hlength =>
    rw [Value.array.injEq, Value.map_number_inj]
    constructor
    · intro hstays xs ys hxs hys
      rw [Value.array.injEq, Value.map_number_inj] at hxs hys
      rwa [← hxs, ← hys]
    · intro hstays
      exact hstays _ _ rfl rfl
  | hold => exact iff_of_true rfl trivial

end OutputRule

/-! ### Exact arithmetic -/

section Exact

variable [RealFunctions] {rule : OutputRule} {v w : Value ℝ}

theorem lerp_lower (x y base lo hi : ℝ) : lerp x y (exponentialFactor lo base lo hi) = x := by
  rw [exponentialFactor_lower, Scalar.lerp_real, mul_zero, add_zero]

theorem lerpAll_lower {xs ys : List ℝ} (hlength : xs.length = ys.length) (base lo hi : ℝ) :
    lerpAll xs ys (exponentialFactor lo base lo hi) = xs := by
  induction xs generalizing ys with
  | nil => rfl
  | cons x xs ih =>
    cases ys with
    | nil => exact absurd hlength (by simp)
    | cons y ys =>
      show lerp x y _ :: lerpAll xs ys _ = x :: xs
      rw [lerp_lower, ih (Nat.succ.inj hlength)]

/-- **At the lower key exact blends stay**, whatever the base, unless colors change their space. -/
theorem OutputRule.stays_real (hlab : rule ≠ .color .lab) (hhcl : rule ≠ .color .hcl)
    (h : rule.Blendable v w) (base lo hi : ℝ) :
    rule.Stays (exponentialFactor lo base lo hi) v w := by
  cases rule with
  | number => exact fun x y _ _ ↦ lerp_lower x y base lo hi
  | color space =>
    intro c d _ _
    -- Plain channels are numbers and stay as they do; other spaces are not led back exactly.
    cases space with
    | rgb => simp only [ColorSpace.blend, Color.blend, lerp_lower]
    | lab => exact absurd rfl hlab
    | hcl => exact absurd rfl hhcl
  | numbers =>
    intro xs ys hxs hys
    obtain ⟨xs', ys', rfl, rfl, hlength⟩ := h
    rw [Value.array.injEq, Value.map_number_inj] at hxs hys
    subst hxs hys
    exact lerpAll_lower hlength base lo hi
  | hold => trivial

end Exact

/-! ### The answer at a stop -/

variable {α : Type} [Scalar α]

/-- **The value at a stop**: what a function that blends between some stops gives for the key of one
of them. Its *own* value is its output, or the fallback if that may not be handed out. -/
structure AtStop (stops : List (α × Value α)) (base : α) (rule : OutputRule)
    (fallback : Option (Value α)) (i : Nat) (key : α) (output : Value α)
    (value : Option (Value α)) : Prop where
  /-- The first and the last stop have their own value. -/
  ends : i = 0 ∨ i + 1 = stops.length → value = (rule.keep? output).or fallback
  /-- Any other stop whose output blends with the next one has its own value exactly where the blend
  stays. -/
  blendable : ∀ upper w, 0 < i → stops[i + 1]? = some (upper, w) → rule.Blendable output w →
    (value = (rule.keep? output).or fallback ↔
      rule.Stays (exponentialFactor key base key upper) output w)
  /-- If it does not blend with the next one the value is the fallback, which is the stop's own one
  only if the output is malformed itself or the same as the fallback. -/
  unblendable : ∀ upper w, 0 < i → stops[i + 1]? = some (upper, w) → ¬rule.Blendable output w →
    value = fallback ∧
      (value = (rule.keep? output).or fallback ↔ (rule.Fits output → fallback = some output))

namespace InputFunction

variable [Lawful α] {stops : List (α × Value α)} {base : α} {rule : OutputRule}
  {fallback : Option (Value α)} {i : Nat} {key upper : α} {output w : Value α}
  (hstrict : (stops.map Prod.fst).Pairwise (· < ·)) (hstop : stops[i]? = some (key, output))

include hstrict hstop

theorem evaluate_exponential_end (h : i = 0 ∨ i + 1 = stops.length) :
    evaluate ⟨.exponential (.ofList stops) base rule, fallback⟩ (.number key) =
      (rule.keep? output).or fallback := by
  have hplace := Ramp.place?_key hstrict (Ramp.key?_of_stop hstop)
  rw [if_pos h] at hplace
  rw [evaluate, Lookup.answer?, Lookup.exponential?_of_at hplace (Ramp.output?_of_stop hstop)]

/-- **A stop that is not at an end is blended with the next one.** -/
theorem evaluate_exponential_inner (hpos : 0 < i) (hnext : stops[i + 1]? = some (upper, w)) :
    evaluate ⟨.exponential (.ofList stops) base rule, fallback⟩ (.number key) =
      (rule.blend? output w (exponentialFactor key base key upper)).or fallback := by
  have hsize := (List.getElem?_eq_some_iff.1 hnext).1
  have hplace := Ramp.place?_key hstrict (Ramp.key?_of_stop hstop)
  rw [if_neg (by omega)] at hplace
  rw [evaluate, Lookup.answer?, Lookup.exponential?_of_between hplace (Ramp.key?_of_stop hstop)
    (Ramp.key?_of_stop hnext) (Ramp.output?_of_stop hstop) (Ramp.output?_of_stop hnext)]

theorem evaluate_exponential_unblendable (hpos : 0 < i) (hnext : stops[i + 1]? = some (upper, w))
    (hblend : ¬rule.Blendable output w) :
    evaluate ⟨.exponential (.ofList stops) base rule, fallback⟩ (.number key) = fallback := by
  rw [← OutputRule.isSome_blend?_iff (t := exponentialFactor key base key upper),
    Option.not_isSome_iff_eq_none] at hblend
  rw [evaluate_exponential_inner hstrict hstop hpos hnext, hblend, Option.none_or]

/-- Where the two outputs blend, what is left of the stop's own one is what interpolation leaves. -/
theorem evaluate_exponential_eq_own_iff (hpos : 0 < i) (hnext : stops[i + 1]? = some (upper, w))
    (hblend : rule.Blendable output w) :
    evaluate ⟨.exponential (.ofList stops) base rule, fallback⟩ (.number key) =
        (rule.keep? output).or fallback ↔
      rule.Stays (exponentialFactor key base key upper) output w := by
  obtain ⟨u, hu⟩ := Option.isSome_iff_exists.1 ((OutputRule.isSome_blend?_iff
    (t := exponentialFactor key base key upper)).2 hblend)
  rw [evaluate_exponential_inner hstrict hstop hpos hnext, hu,
    OutputRule.keep?_of_blendable hblend, Option.some_or, Option.some_or, Option.some.injEq]
  exact (OutputRule.blend?_eq_some_iff.1 hu).eq_lower_iff

/-- **Blending at a stop**, in strict order of the keys, and the inputs that count as between two
stops: the lower key is one of them unless it is the first. -/
theorem evaluate_exponential_key (houtput : output.isConcrete = true) :
    AtStop stops base rule fallback i key output
        (evaluate ⟨.exponential (.ofList stops) base rule, fallback⟩ (.number key)) ∧
      ∀ x j, (Ramp.ofList stops).place? x = some (.between j) ↔
        ∃ lo hi, (stops.map Prod.fst)[j]? = some lo ∧ (stops.map Prod.fst)[j + 1]? = some hi ∧
          lo ≤ x ∧ x < hi ∧ (j = 0 → lo < x) := by
  refine ⟨⟨?_, ?_, ?_⟩, fun x j ↦ Ramp.place?_eq_between_iff hstrict⟩
  · exact evaluate_exponential_end hstrict hstop
  · intro upper w hpos hnext hblend
    exact evaluate_exponential_eq_own_iff hstrict hstop hpos hnext hblend
  · intro upper w hpos hnext hblend
    rw [evaluate_exponential_unblendable hstrict hstop hpos hnext hblend]
    exact ⟨rfl, OutputRule.eq_own_iff houtput⟩

end InputFunction

/-! ### Widths that do not blend -/

/-- Widths at four zoom levels, the last of which is no width. -/
def widths (α : Type) [Scalar α] : List (α × Value α) :=
  [(0.0, .number 1.0), (10.0, .number 2.0), (20.0, .number 3.0), (30.0, .string "wide")]

theorem not_blendable_wide {α : Type} {x : α} :
    ¬OutputRule.number.Blendable (.number x) (.string "wide") := by
  rintro ⟨-, y, hy⟩
  cases hy

/-- In exact arithmetic, on whatever curve, the second stop has its own width. The third has not,
because of the one after it. -/
theorem InputFunction.evaluate_exponential_key_widths :
    letI := RealFunctions.standard
    ((widths ℝ).map Prod.fst).Pairwise (· < ·) ∧
      (widths ℝ)[1]? = some ((10.0 : ℝ), .number (2.0 : ℝ)) ∧
      (widths ℝ)[2]? = some ((20.0 : ℝ), .number (3.0 : ℝ)) ∧
      ∀ base : ℝ,
        evaluate ⟨.exponential (.ofList (widths ℝ)) base .number, some (.number (0.0 : ℝ))⟩
            (.number (10.0 : ℝ)) = some (.number (2.0 : ℝ)) ∧
          evaluate ⟨.exponential (.ofList (widths ℝ)) base .number, some (.number (0.0 : ℝ))⟩
            (.number (20.0 : ℝ)) = some (.number (0.0 : ℝ)) := by
  let := RealFunctions.standard
  have hstrict : ((widths ℝ).map Prod.fst).Pairwise (· < ·) := by
    show [(0.0 : ℝ), 10.0, 20.0, 30.0].Pairwise (· < ·)
    norm_num
  refine ⟨hstrict, rfl, rfl, fun base ↦ ⟨?_, ?_⟩⟩
  · have hat : AtStop (widths ℝ) base .number (some (.number (0.0 : ℝ))) 1 _ _ _ :=
      (evaluate_exponential_key hstrict rfl rfl).1
    have hblend : OutputRule.number.Blendable (.number (2.0 : ℝ)) (.number (3.0 : ℝ)) :=
      ⟨⟨_, rfl⟩, _, rfl⟩
    exact (hat.blendable _ _ Nat.one_pos rfl hblend).2
      (OutputRule.stays_real (by simp) (by simp) hblend base _ _)
  · have hat : AtStop (widths ℝ) base .number (some (.number (0.0 : ℝ))) 2 _ _ _ :=
      (evaluate_exponential_key hstrict rfl rfl).1
    exact (hat.unblendable _ _ Nat.two_pos rfl not_blendable_wide).1

namespace FunctionDefinition

/-- The definition of these widths. -/
def widthsByZoom : FunctionDefinition Float where
  strategyName := none
  property := none
  base := none
  default := none
  colorSpaceName := none
  stops := some [⟨.plain (.ofInt 0), .ofInt 1⟩, ⟨.plain (.ofInt 10), .ofInt 2⟩,
    ⟨.plain (.ofInt 20), .ofInt 3⟩, ⟨.plain (.ofInt 30), .str "wide"⟩]

/-- **The third width is lost**: right at its stop the default is given, although the output is a
number, which may be handed out. -/
theorem compile_widths_at_stop :
    ∃ f : InputFunction Float, f = ⟨.exponential (.ofList (widths Float)) 1.0 .number,
        some (.number 0.0)⟩ ∧
      widthsByZoom.compile ⟨.number, some (.number 0.0), [], true⟩ =
        .ok (.camera f [0.0, 10.0, 20.0, 30.0]) ∧
      ((widths Float).map Prod.fst).Pairwise (· < ·) ∧
      (widths Float)[2]? = some (20.0, .number 3.0) ∧
      f.evaluate (.number 20.0) = some (.number 0.0) ∧
      (OutputRule.number.keep? (.number 3.0)).or f.fallback = some (.number 3.0) ∧
      (0.0 : Float) ≠ 3.0 := by
  have hstrict : ((widths Float).map Prod.fst).Pairwise (· < ·) := by decide
  refine ⟨_, rfl, rfl, hstrict, rfl, ?_, rfl, by decide⟩
  exact InputFunction.evaluate_exponential_unblendable hstrict (i := 2) rfl Nat.two_pos rfl
    not_blendable_wide

end FunctionDefinition

end MapStyle
