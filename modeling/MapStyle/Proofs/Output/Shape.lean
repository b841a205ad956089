import MapStyle.OutputRule
import MapStyle.Scalar.Binary64

/-!
# The shape of outputs

An output rule names a shape: numbers, colors, lists of numbers, or anything. What may be handed out
and what blends both follow from it.

* A concrete output may be handed out exactly if it has the shape (`allows_iff`). That it is not
  deferred as a whole is enough for this (`fits_of_allows`), since elements are numbers or are not.
* Two outputs blend exactly if both have the shape and lists have one length (`isSome_blend?_iff`),
  and their blend has the shape again (`fits_of_blend?`).

So **an output is malformed at a stop exactly if it is malformed beside it**
(`blend?_agrees_allows`), although the two are told by different means: admission looks at elements
one by one, and a blend collects them first. Only the lengths of two lists are a matter of the pair.
-/

namespace MapStyle

variable {α : Type}

/-! ### Lists of numbers -/

namespace Value

theorem number?_eq_some_iff {v : Value α} {x : α} : v.number? = some x ↔ v = .number x := by
  cases v <;> simp [number?]

theorem color?_eq_some_iff {v : Value α} {c : Color α} : v.color? = some c ↔ v = .color c := by
  cases v <;> simp [color?]

theorem mapM_number?_eq_some_iff {items : List (Value α)} {xs : List α} :
    items.mapM number? = some xs ↔ items = xs.map .number := by
  induction items generalizing xs with
  | nil =>
    rw [List.mapM_nil, Option.pure_def, Option.some.injEq, eq_comm, eq_comm (a := []),
      List.map_eq_nil_iff]
  | cons v items ih =>
    rw [List.mapM_cons]
    simp only [Option.bind_eq_bind, Option.bind_eq_some_iff, Option.pure_def, Option.some.injEq, ih,
      number?_eq_some_iff]
    constructor
    · rintro ⟨x, rfl, xs, rfl, rfl⟩
      rfl
    · intro h
      cases xs with
      | nil => exact absurd h (by simp)
      | cons x xs =>
        cases h
        exact ⟨x, rfl, xs, rfl, rfl⟩

theorem numbers?_eq_some_iff {v : Value α} {xs : List α} :
    v.numbers? = some xs ↔ v = .array (xs.map .number) := by
  cases v with
  | array items => rw [numbers?, mapM_number?_eq_some_iff, array.injEq]
  | _ => simp [numbers?]

/-- The number of elements, if the value is a list. -/
def size? : Value α → Option Nat
  | array items => some items.length
  | _ => none

@[simp] theorem size?_map_number (xs : List α) : (array (xs.map number)).size? = some xs.length :=
  congrArg some (List.length_map number)

@[simp] theorem map_number_inj {xs ys : List α} :
    (xs.map number : List (Value α)) = ys.map number ↔ xs = ys :=
  List.map_inj_right fun _ _ ↦ number.inj

/-- A list of values that are numbers one by one is a list of numbers. -/
theorem all_number?_iff {items : List (Value α)} :
    (items.all fun v ↦ v.number?.isSome) = true ↔ ∃ xs : List α, items = xs.map .number := by
  induction items with
  | nil => exact ⟨fun _ ↦ ⟨[], rfl⟩, fun _ ↦ rfl⟩
  | cons v items ih =>
    rw [List.all_cons, Bool.and_eq_true, ih, Option.isSome_iff_exists]
    constructor
    · rintro ⟨⟨x, hx⟩, xs, rfl⟩
      rw [number?_eq_some_iff.1 hx]
      exact ⟨x :: xs, rfl⟩
    · rintro ⟨xs, h⟩
      cases xs with
      | nil => exact absurd h (by simp)
      | cons x xs =>
        cases h
        exact ⟨⟨x, rfl⟩, xs, rfl⟩

/-- **Whether a value is deferred as a whole.** A list or an object that holds something deferred is
not. -/
def isDeferred : Value α → Bool
  | deferred _ _ => true
  | _ => false

theorem isDeferred_of_isConcrete {v : Value α} (h : v.isConcrete = true) :
    v.isDeferred = false := by
  cases v with
  | deferred identity rule => exact absurd h Bool.false_ne_true
  | _ => rfl

end Value

namespace OutputRule

/-! ### Shapes -/

/-- **Whether a value has the shape that a rule names.** -/
def Fits : OutputRule → Value α → Prop
  | number, v => ∃ x, v = .number x
  | color _, v => ∃ c, v = .color c
  | numbers, v => ∃ xs : List α, v = .array (xs.map .number)
  | hold, _ => True

/-- **Whether two values blend**: both have the shape, and lists of numbers have one length. A rule
that holds the lower value asks nothing of either. -/
def Blendable : OutputRule → Value α → Value α → Prop
  | number, v, w => (∃ x, v = .number x) ∧ ∃ y, w = .number y
  | color _, v, w => (∃ c, v = .color c) ∧ ∃ c, w = .color c
  | numbers, v, w => ∃ xs ys : List α, v = .array (xs.map .number) ∧ w = .array (ys.map .number) ∧
      xs.length = ys.length
  | hold, _, _ => True

variable {rule : OutputRule} {v lower upper : Value α}

/-- What has the shape may be handed out. -/
theorem allows_of_fits (h : rule.Fits v) : rule.allows v = true := by
  cases rule with
  | number =>
    obtain ⟨x, rfl⟩ := h
    rfl
  | color space =>
    obtain ⟨c, rfl⟩ := h
    rfl
  | numbers =>
    obtain ⟨xs, rfl⟩ := h
    exact Value.all_number?_iff.2 ⟨xs, rfl⟩
  | hold => cases v <;> rfl

/-- What may be handed out has the shape, unless it is deferred as a whole. -/
theorem fits_of_allows (hv : v.isDeferred = false) (h : rule.allows v = true) : rule.Fits v := by
  cases rule with
  | number =>
    cases v with
    | number x => exact ⟨x, rfl⟩
    | deferred identity rule => exact absurd hv.symm Bool.false_ne_true
    | _ => exact absurd h Bool.false_ne_true
  | color space =>
    cases v with
    | color c => exact ⟨c, rfl⟩
    | deferred identity rule => exact absurd hv.symm Bool.false_ne_true
    | _ => exact absurd h Bool.false_ne_true
  | numbers =>
    cases v with
    | array items => exact (Value.all_number?_iff.1 h).imp fun xs hxs ↦ congrArg Value.array hxs
    | deferred identity rule => exact absurd hv.symm Bool.false_ne_true
    | _ => exact absurd h Bool.false_ne_true
  | hold => trivial

/-- **A concrete value may be handed out exactly if it has the shape.** -/
theorem allows_iff (hv : v.isConcrete = true) : rule.allows v = true ↔ rule.Fits v :=
  ⟨fits_of_allows (Value.isDeferred_of_isConcrete hv), allows_of_fits⟩

/-- **Two values blend exactly if both have the shape and lists have one length.** -/
theorem blendable_iff : rule.Blendable lower upper ↔
    rule.Fits lower ∧ rule.Fits upper ∧ (rule = .numbers → lower.size? = upper.size?) := by
  cases rule with
  | numbers =>
    constructor
    · rintro ⟨xs, ys, rfl, rfl, hlength⟩
      exact ⟨⟨xs, rfl⟩, ⟨ys, rfl⟩, fun _ ↦ by simp [hlength]⟩
    · rintro ⟨⟨xs, rfl⟩, ⟨ys, rfl⟩, hsize⟩
      exact ⟨xs, ys, rfl, rfl, by simpa using hsize rfl⟩
  | _ => simp [Blendable, Fits]

theorem keep?_eq_some_iff {w : Value α} : rule.keep? v = some w ↔ v = w ∧ rule.allows v = true := by
  rw [keep?, Option.ite_none_right_eq_some, Option.some.injEq, and_comm]

/-- Outputs that blend have the shape, so that the lower one may be handed out by itself. -/
theorem keep?_of_blendable (h : rule.Blendable lower upper) : rule.keep? lower = some lower :=
  keep?_eq_some_iff.2 ⟨rfl, allows_of_fits (blendable_iff.1 h).1⟩

/-- Where the lower output holds, every output may be handed out. -/
@[simp] theorem keep?_hold (v : Value α) : hold.keep? v = some v := by
  have hfits : hold.Fits v := trivial
  exact keep?_eq_some_iff.2 ⟨rfl, allows_of_fits hfits⟩

/-! ### Blends -/

variable [Scalar α] {t : α}

/-- **The blends of two values** at a factor, one for each rule. -/
inductive Blend (t : α) : OutputRule → Value α → Value α → Value α → Prop where
  /-- Numbers are interpolated. -/
  | number {x y : α} : Blend t .number (.number x) (.number y) (.number (Scalar.lerp x y t))
  /-- Colors are blended in the space of the rule. -/
  | color {space : ColorSpace} {c d : Color α} :
    Blend t (.color space) (.color c) (.color d) (.color (space.blend c d t))
  /-- Lists of one length are interpolated place by place. -/
  | numbers {xs ys : List α} (h : xs.length = ys.length) :
    Blend t .numbers (.array (xs.map .number)) (.array (ys.map .number))
      (.array ((lerpAll xs ys t).map .number))
  /-- The lower value holds. -/
  | hold {v w : Value α} : Blend t .hold v w v

theorem blend?_eq_some_iff : rule.blend? lower upper t = some v ↔ Blend t rule lower upper v := by
  cases rule with
  | number =>
    simp only [blend?, Option.bind_eq_bind, Option.bind_eq_some_iff, Option.pure_def,
      Option.some.injEq, Value.number?_eq_some_iff]
    constructor
    · rintro ⟨x, rfl, y, rfl, rfl⟩
      exact .number
    · rintro ⟨⟩
      exact ⟨_, rfl, _, rfl, rfl⟩
  | color space =>
    simp only [blend?, Option.bind_eq_bind, Option.bind_eq_some_iff, Option.pure_def,
      Option.some.injEq, Value.color?_eq_some_iff]
    constructor
    · rintro ⟨c, rfl, d, rfl, rfl⟩
      exact .color
    · rintro ⟨⟩
      exact ⟨_, rfl, _, rfl, rfl⟩
  | numbers =>
    simp only [blend?, Option.bind_eq_bind, Option.bind_eq_some_iff, Value.numbers?_eq_some_iff,
      Option.ite_none_right_eq_some, Option.some.injEq]
    constructor
    · rintro ⟨xs, rfl, ys, rfl, hlength, rfl⟩
      exact .numbers hlength
    · intro h
      cases h with
      | numbers hlength => exact ⟨_, rfl, _, rfl, hlength, rfl⟩
  | hold =>
    rw [blend?, Option.some.injEq]
    constructor
    · rintro rfl
      exact .hold
    · rintro ⟨⟩
      rfl

/-- **Two values have a blend exactly if they blend**, whatever the factor. -/
theorem isSome_blend?_iff : (rule.blend? lower upper t).isSome ↔ rule.Blendable lower upper := by
  rw [Option.isSome_iff_exists]
  simp only [blend?_eq_some_iff]
  constructor
  · rintro ⟨v, h⟩
    cases h with
    | number => exact ⟨⟨_, rfl⟩, _, rfl⟩
    | color => exact ⟨⟨_, rfl⟩, _, rfl⟩
    | numbers hlength => exact ⟨_, _, rfl, rfl, hlength⟩
    | hold => trivial
  · intro h
    cases rule with
    | number =>
      obtain ⟨⟨x, rfl⟩, y, rfl⟩ := h
      exact ⟨_, .number⟩
    | color space =>
      obtain ⟨⟨c, rfl⟩, d, rfl⟩ := h
      exact ⟨_, .color⟩
    | numbers =>
      obtain ⟨xs, ys, rfl, rfl, hlength⟩ := h
      exact ⟨_, .numbers hlength⟩
    | hold => exact ⟨_, .hold⟩

/-- **A blend has the shape again.** -/
theorem fits_of_blend? (h : rule.blend? lower upper t = some v) : rule.Fits v := by
  cases blend?_eq_some_iff.1 h with
  | number => exact ⟨_, rfl⟩
  | color => exact ⟨_, rfl⟩
  | numbers _ => exact ⟨_, rfl⟩
  | hold => trivial

/-- A blend of lists of numbers has their common length. -/
theorem exists_size?_of_blend? (h : numbers.blend? lower upper t = some v) :
    ∃ n, lower.size? = some n ∧ upper.size? = some n ∧ v.size? = some n := by
  cases blend?_eq_some_iff.1 h with
  | @numbers xs ys hlength =>
    have hblend : (lerpAll xs ys t).length = xs.length := by
      rw [lerpAll, List.length_zipWith, hlength, Nat.min_self]
    refine ⟨xs.length, Value.size?_map_number xs, ?_, ?_⟩
    · rw [Value.size?_map_number, hlength]
    · rw [Value.size?_map_number, hblend]

/-! ### Handing out and blending -/

/-- **Handing out and blending agree on what is malformed.** Two values, neither deferred as a
whole, have a blend at a factor exactly if the lower one holds, or both may be handed out and lists
of numbers have one length; and their blend may be handed out again and has that length. -/
theorem blend?_agrees_allows (rule : OutputRule) (hlower : lower.isDeferred = false)
    (hupper : upper.isDeferred = false) (t : α) :
    ((rule.blend? lower upper t).isSome = true ↔
      rule = .hold ∨ rule.allows lower = true ∧ rule.allows upper = true ∧
        (rule = .numbers → lower.size? = upper.size?)) ∧
    ∀ v, rule.blend? lower upper t = some v → rule.allows v = true ∧
      (rule = .numbers → ∃ n, lower.size? = some n ∧ upper.size? = some n ∧ v.size? = some n) := by
  -- Both tests are compared with the shape that they ask for, and through it with each other.
  constructor
  · rw [isSome_blend?_iff]
    constructor
    · intro h
      obtain ⟨hfits, hfits', hsize⟩ := blendable_iff.1 h
      exact .inr ⟨allows_of_fits hfits, allows_of_fits hfits', hsize⟩
    · rintro (rfl | ⟨hallows, hallows', hsize⟩)
      · trivial
      · exact blendable_iff.2
          ⟨fits_of_allows hlower hallows, fits_of_allows hupper hallows', hsize⟩
  · intro v hv
    refine ⟨allows_of_fits (fits_of_blend? hv), ?_⟩
    rintro rfl
    exact exists_size?_of_blend? hv

/-- Two pairs of numbers, and a pair that has the right length but holds something deferred: the
first two blend to a pair that may be handed out, and the last may neither be handed out nor
blend. -/
theorem blend?_agrees_allows_pairs :
    let lower : Value Float := .array [.number 0.0, .number 10.0]
    let upper : Value Float := .array [.number 10.0, .number 20.0]
    let partly : Value Float := .array [.number 1.0, .deferred 0 .zoom]
    lower.isDeferred = false ∧ upper.isDeferred = false ∧ partly.isDeferred = false ∧
      (∃ v, numbers.blend? lower upper 0.5 = some v ∧ numbers.allows v = true ∧
        v.size? = some 2) ∧
      numbers.allows partly = false ∧ (numbers.blend? lower partly 0.5).isSome = false := by
  intro lower upper partly
  have hlower : lower.isDeferred = false := rfl
  have hupper : upper.isDeferred = false := rfl
  have hpartly : partly.isDeferred = false := rfl
  have hsizeLower : lower.size? = some 2 := rfl
  have hsizeUpper : upper.size? = some 2 := rfl
  obtain ⟨hsome, hblend⟩ := blend?_agrees_allows numbers hlower hupper 0.5
  obtain ⟨hsome', -⟩ := blend?_agrees_allows numbers hlower hpartly 0.5
  obtain ⟨v, hv⟩ := Option.isSome_iff_exists.1
    (hsome.2 (.inr ⟨rfl, rfl, fun _ ↦ hsizeLower.trans hsizeUpper.symm⟩))
  obtain ⟨hallows, hsize⟩ := hblend v hv
  obtain ⟨n, hn, -, hvn⟩ := hsize rfl
  cases hn
  have hrefused : numbers.allows partly = false := rfl
  refine ⟨hlower, hupper, hpartly, ⟨v, hv, hallows, hvn⟩, hrefused, ?_⟩
  rw [Bool.eq_false_iff, Ne, hsome', hrefused]
  simp

end OutputRule

end MapStyle
