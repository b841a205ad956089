import MapStyle.Proofs.Lookup.Typing
import MapStyle.Proofs.Output.Provenance
import MapStyle.Proofs.Scalar.Binary64

/-!
# The shape of values

Whatever a compiled function gives has the shape of its property or is its fallback. An output of
the wrong shape may stand at a stop, since compilation keeps it; what is shown here is that no way
of evaluating hands it out.

Of the origins of a value (`FunctionDefinition.Arises`) each has a reason of its own. An output that
may be handed out has the shape because it is concrete, as data is (`holdsOfData_isConcrete`). A
blend has it whatever its sides are (`OutputRule.fits_of_blend?`). What is coerced to a color is a
color (`Lookup.identity?_color`).

The main statement is `evaluate_fits`.
-/

namespace MapStyle

variable {α : Type} [Scalar α]

/-! ### Outputs -/

theorem Value.holdsOfData_isConcrete :
    HoldsOfData (α := α) fun v ↦ v.isConcrete = true where
  json := Value.isConcrete_ofJson
  color _ _ _ := rfl
  formatted _ := rfl
  image _ := rfl

/-! ### Values -/

namespace FunctionDefinition

variable {d : FunctionDefinition α} {p : Property α} {f : StyleFunction α} {zoom : α}
  {feature : Option (Feature α)} {v : Value α}

/-- **A compiled function gives a value in shape or its fallback**, provided that what its strategy
coerces has the shape. -/
theorem Compiles.fits_or_fallback (h : d.Compiles p f)
    (hv : f.evaluate zoom feature = some v) :
    ∃ strategy rule fallback, d.Resolves p strategy rule fallback ∧
      ((strategy = .identity → ∀ input w, Lookup.identity? p input = some w → rule.Fits w) →
        rule.Fits v ∨ fallback = some v) := by
  obtain ⟨strategy, rule, fallback, hres, harises⟩ := h.arises hv
  refine ⟨strategy, rule, fallback, hres, fun hidentity ↦ ?_⟩
  cases harises with
  | fallback hfallback =>
    exact .inr (Except.ok.inj (hres.fallback_eq.symm.trans hfallback))
  | output hallows =>
    exact .inl ((OutputRule.allows_iff (Value.holdsOfData_isConcrete.output p _)).1 hallows)
  | coerced hstrategy _ hcoerced =>
    have hresolved : strategy = .identity := Except.ok.inj (hres.strategy_eq.symm.trans hstrategy)
    exact .inl (hidentity hresolved _ v hcoerced)
  | blend _ hblend => exact .inl (OutputRule.fits_of_blend? hblend)
  | levels _ _ _ hblend => exact .inl (OutputRule.fits_of_blend? hblend)

/-- The fallback of a color property is a color. -/
theorem fallback_color (hcolor : p.type = .color) (h : d.fallback p = .ok (some v)) :
    ∃ c, v = .color c := by
  obtain ⟨w, -, hcoerced⟩ := exists_of_fallback h
  rw [Property.coerced?, if_pos hcolor] at hcoerced
  obtain ⟨c, -, rfl⟩ := Option.map_eq_some_iff.1 hcoerced
  exact ⟨c, rfl⟩

/-- The fallback of any other property is the default that counts, untouched. -/
theorem fallback_of_ne_color {fallback : Option (Value α)} (hcolor : p.type ≠ .color)
    (h : d.fallback p = .ok fallback) : d.effectiveDefault p = fallback := by
  have hrel := fallback_eq_ok_iff.1 h
  revert hrel
  generalize d.effectiveDefault p = default?
  rintro (hcoerced | -)
  · rw [Property.coerced?, if_neg hcolor] at hcoerced
    exact hcoerced
  · rfl

/-- Every value that a function for a color property gives is a color. -/
theorem Compiles.color (h : d.Compiles p f) (hv : f.evaluate zoom feature = some v)
    (hcolor : p.type = .color) : ∃ c, v = .color c := by
  obtain ⟨strategy, rule, fallback, hres, hfits⟩ := h.fits_or_fallback hv
  obtain ⟨space, -, rfl⟩ := hres.rule_eq
  rw [hcolor] at hfits
  rcases hfits fun _ input w hw ↦ Lookup.identity?_color hcolor hw with hcolor' | rfl
  · exact hcolor'
  · exact fallback_color hcolor hres.fallback_eq

/-- Without coercion of inputs, every value has the shape or is the default that counts. -/
theorem Compiles.fits_or_default (h : d.Compiles p f) (hv : f.evaluate zoom feature = some v)
    (hcolor : p.type ≠ .color) (hidentity : d.strategyFor p ≠ .ok .identity) :
    ∃ space, (OutputRule.ofType space p.type).Fits v ∨ d.effectiveDefault p = some v := by
  obtain ⟨strategy, rule, fallback, hres, hfits⟩ := h.fits_or_fallback hv
  obtain ⟨space, -, rfl⟩ := hres.rule_eq
  have hne : strategy ≠ .identity := fun h ↦ hidentity (by rw [hres.strategy_eq, h])
  refine ⟨space, (hfits fun h ↦ absurd h hne).imp_right fun hfallback ↦ ?_⟩
  rw [fallback_of_ne_color hcolor hres.fallback_eq, hfallback]

end FunctionDefinition

open FunctionDefinition in
/-- **No output of the wrong shape is handed out.** What a compiled function gives for a color
property is a color, whatever its strategy. For a number property or one of lists of numbers it is a
number or such a list, or else the default that counts, unless the function takes its input for an
answer. And what a color property is given directly, function or constant, is a color again. -/
theorem evaluate_fits (p : Property α) (zoom : α) (feature : Option (Feature α)) (v : Value α) :
    (∀ (d : FunctionDefinition α) (f : StyleFunction α), d.compile p = .ok f →
      f.evaluate zoom feature = some v →
      (p.type = .color → ∃ c, v = .color c) ∧
      (p.type = .number → d.strategyFor p ≠ .ok .identity →
        (∃ x, v = .number x) ∨ d.effectiveDefault p = some v) ∧
      ∀ length, p.type = .array .number length → d.strategyFor p ≠ .ok .identity →
        (∃ xs : List α, v = .array (xs.map .number)) ∨ d.effectiveDefault p = some v) ∧
    ∀ (j : Json α) (f : StyleFunction α), p.compile j = .ok f → p.type = .color →
      f.evaluate zoom feature = some v → ∃ c, v = .color c := by
  constructor
  · intro d f hf hv
    have h := compile_eq_ok_iff.1 hf
    refine ⟨h.color hv, fun hnumber hidentity ↦ ?_, fun length harray hidentity ↦ ?_⟩
    · have hcolor : p.type ≠ .color := by rw [hnumber]; simp
      obtain ⟨space, hfits⟩ := h.fits_or_default hv hcolor hidentity
      rwa [hnumber] at hfits
    · have hcolor : p.type ≠ .color := by rw [harray]; simp
      obtain ⟨space, hfits⟩ := h.fits_or_default hv hcolor hidentity
      rwa [harray] at hfits
  · intro j f hf hcolor hv
    rw [Property.compile] at hf
    split at hf
    · split at hf
      · exact absurd hf (by simp)
      · exact (compile_eq_ok_iff.1 hf).color hv hcolor
    · obtain ⟨w, hw, rfl⟩ := map_eq_ok_iff.1 hf
      rw [StyleFunction.evaluate, Option.some.injEq] at hv
      rw [Property.coerce_eq_ok_iff, Property.coerced?, if_pos hcolor] at hw
      obtain ⟨c, -, rfl⟩ := Option.map_eq_some_iff.1 hw
      exact ⟨c, hv.symm⟩

/-- A function whose outputs are neither numbers nor colors. -/
def malformed : FunctionDefinition Float where
  strategyName := some "categorical"
  property := some "kind"
  base := none
  default := none
  colorSpaceName := none
  stops := some [⟨.plain (.str "road"), .str "wide"⟩, ⟨.plain (.str "path"), .obj []⟩]

set_option maxRecDepth 1000 in
/-- At a stop with an output of the wrong shape a color property has its default as a color, and a
number property its default. -/
theorem evaluate_fits_malformed :
    (∃ f v, malformed.compile ⟨.color, some (.string "red"), [], false⟩ = .ok f ∧
      f.evaluate 3.0 (some ⟨[("kind", .string "road")]⟩) = some v ∧ ∃ c, v = .color c) ∧
    (∃ f v, malformed.compile ⟨.number, some (.number 4.0), [], false⟩ = .ok f ∧
      f.evaluate 3.0 (some ⟨[("kind", .string "path")]⟩) = some v ∧
      ((∃ x, v = .number x) ∨
        malformed.effectiveDefault ⟨.number, some (.number 4.0), [], false⟩ = some v)) ∧
    ∃ f v, (Property.ofType .color).compile (.str "#f00" : Json Float) = .ok f ∧
      f.evaluate 3.0 none = some v ∧ ∃ c, v = .color c := by
  refine ⟨⟨_, _, rfl, rfl, ?_⟩, ⟨_, _, rfl, rfl, ?_⟩, ⟨_, _, rfl, rfl, ?_⟩⟩
  · exact ((evaluate_fits ⟨.color, some (.string "red"), [], false⟩ 3.0
      (some ⟨[("kind", .string "road")]⟩) _).1 malformed _ rfl rfl).1 rfl
  · exact ((evaluate_fits ⟨.number, some (.number 4.0), [], false⟩ 3.0
      (some ⟨[("kind", .string "path")]⟩) _).1 malformed _ rfl rfl).2.1 rfl (fun h ↦ by cases h)
  · exact (evaluate_fits (.ofType .color) 3.0 none _).2 (.str "#f00") _ rfl rfl rfl

end MapStyle
