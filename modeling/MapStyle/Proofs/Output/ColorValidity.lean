import MapStyle.Proofs.Color.Validity
import MapStyle.Proofs.Interpolation.Factor
import MapStyle.Proofs.Output.Provenance

/-!
# Valid colors throughout

In exact arithmetic every color that comes out of a compiled function is valid, if those that go in
are. Colors go in as texts of the definition, as the default of the property and as values of
features; the first are valid by themselves.

Of what a value may come from (`FunctionDefinition.Arises.holds`) only blends make colors out of
colors, and they keep them valid at factors of the unit interval. That the factors are of that kind
is where the check of the definition comes in (`BlendsBy.mem_Icc`): its tables ascend, so that an
input between two neighbours is enclosed by them, and its base is not negative.

The main statement is `FunctionDefinition.evaluate_color_valid`.
-/

namespace MapStyle

open Set

/-! ### Values with valid colors -/

/-- **A value is a valid color if it is a color.** -/
def Value.ValidColor (v : Value ℝ) : Prop := ∀ c, v = .color c → c.Valid

theorem Color.Valid.validColor {c : Color ℝ} (h : c.Valid) : (Value.color c).ValidColor := by
  intro c' hc
  obtain rfl := Value.color.inj hc
  exact h

section

variable [RealFunctions] {v : Value ℝ}

/-- **Data is a valid color** if it is a color, since only texts name colors. -/
theorem Value.holdsOfData_validColor : HoldsOfData ValidColor where
  json j c hc := by cases j <;> cases hc
  color _ _ h := (Color.ofText?_valid h).validColor
  formatted _ c hc := by cases hc
  image _ c hc := by cases hc

/-- **Blending keeps colors valid** at a share of the way, whatever the rule. -/
theorem OutputRule.validColor_blend? {rule : OutputRule} {lower upper : Value ℝ} {t : ℝ}
    (hlower : lower.ValidColor) (hupper : upper.ValidColor) (ht : t ∈ Icc 0 1)
    (h : rule.blend? lower upper t = some v) : v.ValidColor := by
  cases blend?_eq_some_iff.1 h with
  | number => exact fun c hc ↦ by cases hc
  | color => exact (ColorSpace.blend_valid _ (hlower _ rfl) (hupper _ rfl) ht).validColor
  | numbers => exact fun c hc ↦ by cases hc
  | hold => exact hlower

/-! ### Factors -/

/-- **Factors between ascending keys are shares of the way**, for a base that is not negative. -/
theorem StyleFunction.BlendsBy.mem_Icc [RealPower] {f : StyleFunction ℝ} {base t : ℝ}
    (h : f.BlendsBy base t) (hkeys : ∀ keys ∈ f.keyTables, Ramp.Ascending keys)
    (hbase : 0 ≤ base) : t ∈ Icc 0 1 := by
  cases h with
  | @intro keys i x lo hi curve hmem hplace hlo hhi hcurve =>
    have hpos : 0 < keys.size := Nat.zero_lt_of_lt (Array.getElem?_eq_some_iff.1 hlo).1
    have hencloses := (hkeys keys hmem).encloses_of_placeAmong hpos (Scalar.isNaN_real x) hplace
    obtain ⟨lo', hi', hlo', hhi', hle, hlt⟩ := hencloses
    obtain rfl := Option.some.inj (hlo.symm.trans hlo')
    obtain rfl := Option.some.inj (hhi.symm.trans hhi')
    have hcurve : 0 ≤ curve := by
      rcases hcurve with rfl | rfl
      · exact hbase
      · norm_num
    exact exponentialFactor_mem_Icc hcurve (lt_of_le_of_lt hle hlt) ⟨hle, le_of_lt hlt⟩

namespace FunctionDefinition

variable {d : FunctionDefinition ℝ} {zoom : ℝ} {feature : Option (Feature ℝ)}

/-- The base of a definition that passes the check is not negative. -/
theorem base_nonneg_of_structuralCheck {name : String} (h : d.structuralCheck name = []) :
    0 ≤ d.base.getD 1.0 := by
  rw [structuralCheck, List.map_eq_nil_iff, problems_eq_nil_iff] at h
  rcases hd : d.base with - | base
  · show (0 : ℝ) ≤ 1.0
    norm_num
  · show 0 ≤ base
    exact le_trans (by norm_num) (h.base base hd).2

/-! ### Values of functions -/

/-- What a definition asks for is a valid color if the feature has no others. -/
theorem Asks.validColor {input : Value ℝ} (h : d.Asks zoom feature input)
    (hfeature : ∀ g, feature = some g → ∀ name v, g.get? name = some v → v.ValidColor) :
    input.ValidColor := by
  cases h with
  | zoom => exact fun c hc ↦ by cases hc
  | property _ hg hget => exact hfeature _ hg _ _ hget

/-- **Colors stay valid.** Every color that a text names is valid. And a function that passed the
check gives only valid colors, in whatever space it blends them and for whatever property, if a
color that is the default of the property is valid and so are all colors of the feature. -/
theorem evaluate_color_valid [RealPower] :
    (∀ (s : String) (c : Color ℝ), Color.ofText? s = some c → c.Valid) ∧
      ∀ (d : FunctionDefinition ℝ) (p : Property ℝ) (name : String) (f : StyleFunction ℝ),
        d.structuralCheck name = [] → d.compile p = .ok f →
        (∀ v, p.default = some v → v.ValidColor) → ∀ zoom (feature : Option (Feature ℝ)),
        (∀ g, feature = some g → ∀ key v, g.get? key = some v → v.ValidColor) →
        ∀ c, f.evaluate zoom feature = some (.color c) → c.Valid := by
  refine ⟨fun s c hc ↦ Color.ofText?_valid hc, ?_⟩
  intro d p name f hcheck hf hdefault zoom feature hfeature c hc
  have hkeys := ((checked_of_structuralCheck hcheck).searchable hf).1
  have hbase := base_nonneg_of_structuralCheck hcheck
  obtain ⟨_, _, _, _, harises⟩ := (compile_eq_ok_iff.1 hf).arises hc
  refine harises.holds Value.holdsOfData_validColor hdefault
    (fun input hinput ↦ hinput.validColor hfeature) ?_ c rfl
  exact fun _ _ t _ ht hlower hupper ↦
    OutputRule.validColor_blend? hlower hupper (ht.mem_Icc hkeys hbase)

/-- A color that changes along zoom and fades, by way of a perceptual space. -/
noncomputable def fading : FunctionDefinition ℝ where
  strategyName := some "exponential"
  property := none
  base := some 2.0
  default := none
  colorSpaceName := some "lab"
  stops := some [⟨.plain (.ofScalar 0.0), .str "#ff0000"⟩,
    ⟨.plain (.ofScalar 8.0), .str "#0000ff80"⟩]

/-- The opaque color that it starts from and the translucent one that it comes to. -/
noncomputable def fadingStops : List (ℝ × Value ℝ) :=
  [(0.0, .color (.ofBytes ⟨255, 0, 0, 255⟩)), (8.0, .color (.ofBytes ⟨0, 0, 255, 128⟩))]

/-- What it compiles to. -/
noncomputable def fadingFunction : StyleFunction ℝ :=
  .camera ⟨.exponential (.ofList fadingStops) 2.0 (.color .lab), none⟩ [0.0, 8.0]

theorem structuralCheck_fading : fading.structuralCheck "fill" = [] := by
  -- only its base and the order of its two keys are compared with anything
  have hproblems : fading.problems = baseProblems (some (2.0 : ℝ)) ++
      ((if decide ((8.0 : ℝ) < 0.0) then [.keyDescends 1] else []) ++ []) := rfl
  have hbase : baseProblems (some (2.0 : ℝ)) = [] := by
    refine baseProblems_eq_nil_iff.2 fun base h ↦ ?_
    rw [← Option.some.inj h]
    exact ⟨rfl, by norm_num⟩
  have horder : decide ((8.0 : ℝ) < 0.0) = false := by norm_num
  rw [structuralCheck, hproblems, hbase, horder]
  rfl

theorem evaluate_fading : fadingFunction.evaluate 5.0 none =
    some (.color (ColorSpace.lab.blend (.ofBytes ⟨255, 0, 0, 255⟩) (.ofBytes ⟨0, 0, 255, 128⟩)
      (exponentialFactor 5.0 2.0 0.0 8.0))) := by
  have hkeys : Ramp.Ascending (fadingStops.map Prod.fst).toArray :=
    ⟨fun k _ ↦ Scalar.isNaN_real k, by norm_num [fadingStops]⟩
  have hplace : (Ramp.ofList fadingStops).place? 5.0 = some (.between 0) := by
    refine Ramp.place?_of_encloses hkeys ⟨0.0, 8.0, rfl, rfl, by norm_num, by norm_num⟩ ?_
    intro lo hlo
    cases hlo
    norm_num
  rw [fadingFunction, StyleFunction.evaluate, InputFunction.evaluate, Lookup.answer?,
    Lookup.exponential?]
  simp only [Value.number?, Option.bind_eq_bind, Option.bind_some, hplace]
  rfl

/-- A color that is taken from the feature. -/
def tint : FunctionDefinition ℝ where
  strategyName := some "identity"
  property := some "tint"
  base := none
  default := some (.str "#336699")
  colorSpaceName := none
  stops := none

/-- A translucent red. -/
noncomputable def red : Color ℝ := ⟨0.5, 0.0, 0.0, 0.5⟩

/-- A feature that has it. -/
noncomputable def reddish : Option (Feature ℝ) := some ⟨[("tint", .color red)]⟩

omit [RealFunctions] in
theorem validColor_reddish {g : Feature ℝ} (hg : reddish = some g) {key : String} {v : Value ℝ}
    (hv : g.get? key = some v) : v.ValidColor := by
  have hred : red.Valid := by constructor <;> norm_num [red]
  cases hg
  rw [Feature.get?, Entries.get?, List.lookup_cons] at hv
  split at hv
  · cases hv
    exact hred.validColor
  · cases hv

omit [RealFunctions] in
/-- A text gives a valid color, and so do a blend within a perceptual space and a feature that has a
valid color. -/
theorem evaluate_color_valid_fading :
    letI := RealFunctions.standard
    (∃ c : Color ℝ, Color.ofText? "#336699" = some c ∧ c.Valid) ∧
      (∃ f c, fading.structuralCheck "fill" = [] ∧ fading.compile (.ofType .color) = .ok f ∧
        f.evaluate 5.0 none = some (.color c) ∧ c.Valid) ∧
      ∃ f c, tint.structuralCheck "fill" = [] ∧ tint.compile (.ofType .color) = .ok f ∧
        f.evaluate 5.0 reddish = some (.color c) ∧ c.Valid := by
  let := RealFunctions.standard
  obtain ⟨htexts, hvalues⟩ := evaluate_color_valid
  have hdefault : ∀ v, (Property.ofType .color : Property ℝ).default = some v → v.ValidColor :=
    fun v hv ↦ by cases hv
  refine ⟨?_, ?_, ?_⟩
  · have htext : Color.ofText? "#336699" = some (Color.ofBytes ⟨51, 102, 153, 255⟩ : Color ℝ) := rfl
    exact ⟨_, htext, htexts _ _ htext⟩
  · have hf : fading.compile (.ofType .color) = .ok fadingFunction := rfl
    have hnothing : ∀ g, (none : Option (Feature ℝ)) = some g → ∀ key v, g.get? key = some v →
        v.ValidColor := fun g hg ↦ by cases hg
    exact ⟨_, _, structuralCheck_fading, hf, evaluate_fading,
      hvalues fading _ "fill" _ structuralCheck_fading hf hdefault 5.0 none hnothing _
        evaluate_fading⟩
  · have hcheck : tint.structuralCheck "fill" = [] := rfl
    have hf : tint.compile (.ofType .color) = .ok (.source ⟨"tint",
        ⟨.identity (.ofType .color), some (.color (.ofBytes ⟨51, 102, 153, 255⟩))⟩⟩) := rfl
    refine ⟨_, red, hcheck, hf, rfl, ?_⟩
    exact hvalues tint _ "fill" _ hcheck hf hdefault 5.0 reddish
      (fun _ hg _ _ ↦ validColor_reddish hg) _ rfl

end FunctionDefinition

end

end MapStyle
