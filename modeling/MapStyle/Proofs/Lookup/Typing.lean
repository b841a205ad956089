import MapStyle.Scalar.Binary64
import MapStyle.StyleFunction.Compilation

/-!
# The type of coerced inputs

The identity takes its input for an answer, coerced to the type of the property. `Property.HasType`
says what the type asks of a value, of the elements and the length of a list too.

* Colors, rich text and images are made of other values, and what is made has the type
  (`Lookup.hasType_of_coerces`).
* Every other type takes only what suits it (`Lookup.identity?_of_not_coerces`). That is what has
  the type, but for lists: **every list suits a property of lists**, whatever stands in it and
  however long it is (`Property.suits_iff`).

So the identity keeps to the type exactly where no list is let through that breaks it
(`evaluate_identity_typed`), and a list of strings reaches a property of pairs of numbers
(`compile_offset_not_typed`).
-/

namespace MapStyle

variable {α : Type}

/-! ### Values of a type -/

/-- **A value has a type.** The strings are those that an enumeration allows. -/
inductive Value.HasType (names : List String) : PropertyType → Value α → Prop where
  /-- Numbers. -/
  | number (x : α) : HasType names .number (.number x)
  /-- Strings. -/
  | string (s : String) : HasType names .string (.string s)
  /-- Truth values. -/
  | boolean (b : Bool) : HasType names .boolean (.bool b)
  /-- Colors. -/
  | color (c : Color α) : HasType names .color (.color c)
  /-- Strings that are allowed. -/
  | enumeration {s : String} (h : s ∈ names) : HasType names .enumeration (.string s)
  /-- Rich text. -/
  | formatted (f : Formatted α) : HasType names .formatted (.formatted f)
  /-- References to images. -/
  | resolvedImage (i : Image) : HasType names .resolvedImage (.image i)
  /-- Lists of elements of the type that have the length, if one is given. -/
  | array {element : PropertyType} {length : Option Nat} {items : List (Value α)}
    (hitems : ∀ v ∈ items, HasType names element v)
    (hlength : ∀ n, length = some n → items.length = n) :
    HasType names (.array element length) (.array items)

/-- A value has the type of a property. -/
def Property.HasType (p : Property α) (v : Value α) : Prop := v.HasType p.values p.type

/-- A value is a list and the property is one of lists. -/
def Property.Lists (p : Property α) (v : Value α) : Prop :=
  (∃ element length, p.type = .array element length) ∧ ∃ items, v = .array items

namespace Property

variable {p : Property α} {v : Value α}

theorem HasType.suits (h : p.HasType v) : p.suits v = true := by
  obtain ⟨type, default, values, interpolated⟩ := p
  cases h with
  | enumeration h => exact decide_eq_true h
  | _ => rfl

theorem Lists.suits (h : p.Lists v) : p.suits v = true := by
  obtain ⟨⟨element, length, htype⟩, items, rfl⟩ := h
  simp only [Property.suits, htype]

/-- **What suits a property** has its type, or is a list where lists are asked for. -/
theorem suits_iff : p.suits v = true ↔ p.HasType v ∨ p.Lists v := by
  constructor
  · obtain ⟨type, default, values, interpolated⟩ := p
    intro h
    -- of all pairs of a type and a value one for each type suits
    cases type <;> cases v <;> simp only [suits, decide_eq_true_eq, Bool.false_eq_true] at h
    · exact .inl (.number _)
    · exact .inl (.string _)
    · exact .inl (.boolean _)
    · exact .inl (.color _)
    · exact .inl (.enumeration h)
    · exact .inl (.formatted _)
    · exact .inl (.resolvedImage _)
    · exact .inr ⟨⟨_, _, rfl⟩, _, rfl⟩
  · rintro (h | h)
    · exact h.suits
    · exact h.suits

end Property

/-! ### Coercion -/

/-- **Whether values are made to have a type**, rather than taken only if they do. -/
def PropertyType.coerces : PropertyType → Bool
  | color => true
  | formatted => true
  | resolvedImage => true
  | _ => false

namespace Lookup

variable [Scalar α] {p : Property α} {input v : Value α}

/-- For a color property the coercion of an input is a color. -/
theorem identity?_color (hcolor : p.type = .color) (h : identity? p input = some v) :
    ∃ c, v = .color c := by
  cases input with
  | color c =>
    simp only [identity?, hcolor, Option.some.injEq] at h
    exact ⟨c, h.symm⟩
  | string s =>
    simp only [identity?, hcolor] at h
    obtain ⟨c, -, rfl⟩ := Option.map_eq_some_iff.1 h
    exact ⟨c, rfl⟩
  | _ =>
    simp only [identity?, hcolor] at h
    exact absurd h (by simp)

/-- Anything becomes rich text. -/
theorem identity?_formatted (hformatted : p.type = .formatted) (input : Value α) :
    ∃ f, identity? p input = some (.formatted f) := by
  obtain ⟨type, default, values, interpolated⟩ := p
  obtain rfl : type = .formatted := hformatted
  cases input <;> exact ⟨_, rfl⟩

theorem identity?_image (himage : p.type = .resolvedImage) (h : identity? p input = some v) :
    ∃ i, v = .image i := by
  cases input with
  | image i =>
    simp only [identity?, himage, Option.some.injEq] at h
    exact ⟨i, h.symm⟩
  | _ =>
    simp only [identity?, himage] at h
    obtain ⟨i, -, rfl⟩ := Option.map_eq_some_iff.1 h
    exact ⟨i, rfl⟩

/-- **What is made to have a type has it.** -/
theorem hasType_of_coerces (hcoerces : p.type.coerces = true) (h : identity? p input = some v) :
    p.HasType v := by
  rw [Property.HasType]
  cases htype : p.type with
  | color =>
    obtain ⟨c, rfl⟩ := identity?_color htype h
    exact .color c
  | formatted =>
    obtain ⟨f, hf⟩ := identity?_formatted htype input
    obtain rfl : .formatted f = v := Option.some.inj (hf.symm.trans h)
    exact .formatted f
  | resolvedImage =>
    obtain ⟨i, rfl⟩ := identity?_image htype h
    exact .resolvedImage i
  | _ =>
    rw [htype] at hcoerces
    exact absurd hcoerces Bool.false_ne_true

/-- Where nothing is made to have the type, what suits it is taken. -/
theorem identity?_of_not_coerces (h : p.type.coerces = false) (input : Value α) :
    identity? p input = if p.suits input then some input else none := by
  obtain ⟨type, default, values, interpolated⟩ := p
  cases type with
  | color => exact absurd h (by simp [PropertyType.coerces])
  | formatted => exact absurd h (by simp [PropertyType.coerces])
  | resolvedImage => exact absurd h (by simp [PropertyType.coerces])
  | _ => rfl

/-- **What has the type is left as it is.** -/
theorem identity?_of_hasType (h : p.HasType input) : identity? p input = some input := by
  rcases hcoerces : p.type.coerces with - | -
  · rw [identity?_of_not_coerces hcoerces, if_pos h.suits]
  · obtain ⟨type, default, values, interpolated⟩ := p
    cases h with
    | color c => rfl
    | formatted f => rfl
    | resolvedImage i => rfl
    | _ => exact absurd hcoerces Bool.false_ne_true

/-- **A coerced input has the type, or is a list** where lists are asked for. -/
theorem hasType_or_lists (h : identity? p input = some v) :
    p.HasType v ∨ p.Lists input ∧ v = input := by
  rcases hcoerces : p.type.coerces with - | -
  · rw [identity?_of_not_coerces hcoerces, Option.ite_none_right_eq_some, Option.some.injEq] at h
    obtain ⟨hsuits, rfl⟩ := h
    exact (Property.suits_iff.1 hsuits).imp_right fun hlists ↦ ⟨hlists, rfl⟩
  · exact .inl (hasType_of_coerces hcoerces h)

theorem identity?_of_lists (h : p.Lists input) : identity? p input = some input := by
  obtain ⟨element, length, htype⟩ := h.1
  rw [identity?_of_not_coerces (by rw [htype]; rfl), if_pos h.suits]

end Lookup

/-! ### The identity -/

namespace InputFunction

variable [Scalar α]

/-- **The identity keeps to the type of its property**, default apart, exactly where it is not given
a list that breaks the type. What has the type already is left as it is, and a list is in any
case. -/
theorem evaluate_identity_typed (p : Property α) (fallback : Option (Value α))
    (input : Value α) :
    ((∀ v, evaluate ⟨.identity p, fallback⟩ input = some v → fallback = some v ∨ p.HasType v) ↔
        (p.Lists input → fallback = some input ∨ p.HasType input)) ∧
      (p.HasType input ∨ p.Lists input →
        evaluate ⟨.identity p, fallback⟩ input = some input) := by
  have hunchanged : p.HasType input ∨ p.Lists input →
      evaluate ⟨.identity p, fallback⟩ input = some input := by
    intro h
    rw [evaluate, Lookup.answer?, h.elim Lookup.identity?_of_hasType Lookup.identity?_of_lists,
      Option.some_or]
  refine ⟨⟨fun htyped hlists ↦ htyped input (hunchanged (.inr hlists)), ?_⟩, hunchanged⟩
  intro hlists v hv
  rw [evaluate, Lookup.answer?, Option.or_eq_some_iff] at hv
  rcases hv with hanswer | ⟨-, hfallback⟩
  · rcases Lookup.hasType_or_lists hanswer with htype | ⟨hlist, rfl⟩
    · exact .inr htype
    · exact hlists hlist
  · exact .inl hfallback

end InputFunction

/-! ### A list that breaks its type -/

/-- Offsets, which are pairs of numbers. -/
def offset : Property Float :=
  ⟨.array .number (some 2), some (.array [.number 0.0, .number 0.0]), [], false⟩

theorem hasType_offset (x y : Float) : offset.HasType (.array [.number x, .number y]) := by
  refine .array (fun v hv ↦ ?_) fun n hn ↦ Option.some.inj hn
  rcases List.mem_cons.1 hv with rfl | hv
  · exact .number x
  · obtain rfl := List.mem_singleton.1 hv
    exact .number y

theorem not_hasType_offset (s : String) : ¬offset.HasType (.array [.string s]) := by
  intro h
  cases h with
  | array _ hlength => exact absurd (hlength 2 rfl) (by simp)

/-- A pair of numbers is left as it is, and a string, which is no list, becomes the default. -/
theorem InputFunction.evaluate_identity_typed_offset :
    offset.HasType (.array [.number 3.0, .number 4.0]) ∧ ¬offset.Lists (.string "left") ∧
      evaluate ⟨.identity offset, offset.default⟩ (.array [.number 3.0, .number 4.0]) =
        some (.array [.number 3.0, .number 4.0]) ∧
      ∀ v, evaluate ⟨.identity offset, offset.default⟩ (.string "left") = some v →
        offset.default = some v ∨ offset.HasType v := by
  have hstring : ¬offset.Lists (.string "left") := by
    rintro ⟨-, items, hitems⟩
    exact absurd hitems (by simp)
  exact ⟨hasType_offset 3.0 4.0, hstring,
    (evaluate_identity_typed offset offset.default _).2 (.inl (hasType_offset 3.0 4.0)),
    (evaluate_identity_typed offset offset.default _).1.2 fun h ↦ absurd h hstring⟩

namespace FunctionDefinition

/-- Offsets taken from the features. -/
def ownOffset : FunctionDefinition Float where
  strategyName := some "identity"
  property := some "offset"
  base := none
  default := none
  colorSpaceName := none
  stops := none

/-- **A string in a list gets through** to offsets, which have another default. -/
theorem compile_offset_not_typed :
    ∃ f, ownOffset.compile offset = .ok f ∧
      f.evaluate 0.0 (some ⟨[("offset", .array [.string "left"])]⟩) =
        some (.array [.string "left"]) ∧
      ¬offset.HasType (.array [.string "left"]) ∧
      offset.default ≠ some (.array [.string "left"]) := by
  refine ⟨_, rfl, rfl, not_hasType_offset "left", fun hdefault ↦ ?_⟩
  have hlength := congrArg List.length (Value.array.inj (Option.some.inj hdefault))
  exact absurd hlength (by decide)

end FunctionDefinition

end MapStyle
