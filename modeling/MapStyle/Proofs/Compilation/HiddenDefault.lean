import MapStyle.Proofs.Compilation.Outputs
import MapStyle.Proofs.Output.Dependence

/-!
# A default behind a default

The default of a property is for functions that have none of their own. Behind the default of a
function it may be anything, also what could not be a value of the property at all: **compilation
for two properties that differ in it fails alike, or gives functions that nobody can tell apart**
(`compile_hidden_default`).

The two functions need not be the same. An identity rule keeps the whole property that it coerces
to, and with it the default that is not looked at; so what is carried through compilation is that
lookup rules differ in such a property at most (`Lookup.SameButDefault`), and coercion is shown not
to look at it.
-/

namespace MapStyle

variable {α : Type} [Scalar α]

/-! ### Properties -/

namespace Property

/-- **Two properties that differ in their default at most.** -/
structure SameButDefault (p p' : Property α) : Prop where
  /-- They are of the same type. -/
  type : p.type = p'.type
  /-- They allow the same strings. -/
  values : p.values = p'.values
  /-- Both blend by default, or neither does. -/
  interpolated : p.interpolated = p'.interpolated

variable {p p' : Property α}

theorem SameButDefault.coerce_eq (h : p.SameButDefault p') (role : ColorRole) (v : Value α) :
    p.coerce role v = p'.coerce role v := by
  rw [coerce, coerce, h.type]

theorem SameButDefault.output_eq (h : p.SameButDefault p') (j : Json α) :
    p.output j = p'.output j := by
  rw [output, output, h.type]

omit [Scalar α] in
theorem SameButDefault.suits_eq (h : p.SameButDefault p') (v : Value α) :
    p.suits v = p'.suits v := by
  obtain ⟨type, _, values, _⟩ := p
  obtain ⟨rfl, rfl, -⟩ := h
  rfl

end Property

/-! ### Lookup rules -/

namespace Lookup

/-- **Two lookup rules that differ at most in the default of the property they coerce to.** -/
inductive SameButDefault : Lookup α → Lookup α → Prop where
  /-- Equal rules. -/
  | refl (lookup : Lookup α) : SameButDefault lookup lookup
  /-- Rules that coerce to two such properties. -/
  | identity {p p' : Property α} (h : p.SameButDefault p') :
    SameButDefault (.identity p) (.identity p')

variable {p p' : Property α}

/-- Coercion does not look at the default. -/
theorem identity?_eq (h : p.SameButDefault p') (v : Value α) : identity? p v = identity? p' v := by
  have hsuits : p.suits = p'.suits := funext h.suits_eq
  rw [identity?.eq_def, identity?.eq_def, h.type, hsuits]

theorem SameButDefault.answer?_eq {lookup lookup' : Lookup α} (h : lookup.SameButDefault lookup')
    (v : Value α) : lookup.answer? v = lookup'.answer? v := by
  cases h with
  | refl => rfl
  | identity h => exact identity?_eq h v

end Lookup

variable {p p' : Property α}

theorem scalarStops_eq (h : p.SameButDefault p') (strategy : Strategy) (i : Nat)
    (stops : List (Stop α)) :
    scalarStops p strategy i stops = scalarStops p' strategy i stops := by
  induction stops generalizing i with
  | nil => rfl
  | cons s stops ih => rw [scalarStops, scalarStops, ih, h.output_eq]

theorem categoryStops_eq (h : p.SameButDefault p') (i : Nat) (stops : List (Stop α)) :
    categoryStops p i stops = categoryStops p' i stops := by
  induction stops generalizing i with
  | nil => rfl
  | cons s stops ih => rw [categoryStops, categoryStops, ih, h.output_eq]

/-- **The lookup rules of some stops** differ at most in the default that identity rules keep. -/
theorem Lookup.ofStops_sameButDefault (h : p.SameButDefault p') (strategy : Strategy) (base : α)
    (rule : OutputRule) (stops : List (Stop α)) :
    FailAlike SameButDefault (ofStops p strategy base rule stops)
      (ofStops p' strategy base rule stops) := by
  cases strategy with
  | exponential =>
    refine (FailAlike.of_eq (scalarStops_eq h _ 0 stops)).bind fun entries _ hentries ↦ ?_
    exact .ok (hentries ▸ .refl _)
  | interval =>
    refine (FailAlike.of_eq (scalarStops_eq h _ 0 stops)).bind fun entries _ hentries ↦ ?_
    exact .ok (hentries ▸ .refl _)
  | categorical =>
    refine (FailAlike.of_eq (categoryStops_eq h 0 stops)).bind fun entries _ hentries ↦ ?_
    exact .ok (hentries ▸ .refl _)
  | identity => exact .ok (.identity h)

/-! ### Functions that cannot be told apart -/

variable {lookup lookup' : Lookup α} {fallback : Option (Value α)}

theorem InputFunction.evaluate_congr_lookup (h : lookup.SameButDefault lookup') (v : Value α) :
    evaluate ⟨lookup, fallback⟩ v = evaluate ⟨lookup', fallback⟩ v := by
  rw [evaluate, evaluate, h.answer?_eq]

/-- Two source functions that read one property and make the same of it. -/
structure SourceFunction.Alike (g g' : SourceFunction α) : Prop where
  /-- They read the same property. -/
  property : g.property = g'.property
  /-- They have the same value for every feature. -/
  evaluate : ∀ feature, g.evaluate feature = g'.evaluate feature

theorem SourceFunction.alike_of_lookup (h : lookup.SameButDefault lookup') (name : String) :
    Alike ⟨name, ⟨lookup, fallback⟩⟩ ⟨name, ⟨lookup', fallback⟩⟩ := by
  refine ⟨rfl, fun feature ↦ ?_⟩
  simp only [SourceFunction.evaluate, InputFunction.evaluate_congr_lookup h]

namespace StyleFunction

/-- **Two style functions that cannot be told apart**: they report the same and have the same
values, and so do the source functions that they are made of, one by one. -/
structure Alike (f f' : StyleFunction α) : Prop where
  /-- They depend on the same. -/
  dependence : f.dependence = f'.dependence
  /-- They move between zoom levels in the same way. -/
  interpolation : f.interpolation = f'.interpolation
  /-- They have the same breakpoints. -/
  breakpoints : f.breakpoints = f'.breakpoints
  /-- They have the same value everywhere. -/
  evaluate : ∀ zoom feature, f.evaluate zoom feature = f'.evaluate zoom feature
  /-- The source functions of one are like those of the other. -/
  sources : List.Forall₂ SourceFunction.Alike f.sources f'.sources

theorem alike_constant (v : Value α) : (constant v).Alike (constant v) :=
  ⟨rfl, rfl, rfl, fun _ _ ↦ rfl, .nil⟩

theorem alike_camera (h : lookup.SameButDefault lookup') (zooms : List α) :
    (camera ⟨lookup, fallback⟩ zooms).Alike (camera ⟨lookup', fallback⟩ zooms) where
  dependence := rfl
  interpolation := by cases h <;> rfl
  breakpoints := rfl
  evaluate _ _ := InputFunction.evaluate_congr_lookup h _
  sources := .nil

theorem alike_source {g g' : SourceFunction α} (h : g.Alike g') : (source g).Alike (source g') :=
  ⟨rfl, rfl, rfl, fun _ feature ↦ h.evaluate feature, .cons h .nil⟩

/-- Two levels at one zoom with source functions that are alike. -/
def SameLevel (level level' : α × SourceFunction α) : Prop :=
  level.1 = level'.1 ∧ level.2.Alike level'.2

/-- Levels that are alike one by one make functions that are alike. -/
theorem alike_composite {levels levels' : List (α × SourceFunction α)}
    (h : List.Forall₂ SameLevel levels levels') (base : α) (rule : OutputRule) :
    (composite (.ofList levels) base rule).Alike (composite (.ofList levels') base rule) := by
  have hkeys : levels.map Prod.fst = levels'.map Prod.fst :=
    List.forall₂_eq_eq_eq ▸ List.forall₂_map_left_iff.2
      (List.forall₂_map_right_iff.2 (h.imp fun _ _ hlevel ↦ hlevel.1))
  have hsources : List.Forall₂ SourceFunction.Alike (levels.map Prod.snd) (levels'.map Prod.snd) :=
    List.forall₂_map_left_iff.2 (List.forall₂_map_right_iff.2 (h.imp fun _ _ hlevel ↦ hlevel.2))
  refine ⟨rfl, rfl, ?_, fun zoom feature ↦ ?_, hsources⟩
  · rw [breakpoints, breakpoints, Ramp.keys_ofList, Ramp.keys_ofList, hkeys]
  · refine evaluateLevels_congr (by rw [Ramp.keys_ofList, Ramp.keys_ofList, hkeys]) ?_
    intro _ i _ _
    rw [Ramp.output?_ofList, Ramp.output?_ofList]
    rcases hi : (levels'.map Prod.snd)[i]? with - | g'
    · -- There are as many levels in the one as in the other.
      rw [List.getElem?_eq_none_iff, ← hsources.length_eq, ← List.getElem?_eq_none_iff] at hi
      rw [hi]
    · obtain ⟨g, hg, halike⟩ := exists_getElem?_of_forall₂ hsources hi
      rw [hg]
      exact halike.evaluate feature

end StyleFunction

/-! ### Compilation -/

namespace FunctionDefinition

variable {d : FunctionDefinition α}

theorem strategyFor_congr (h : p.SameButDefault p') (d : FunctionDefinition α) :
    d.strategyFor p = d.strategyFor p' := by
  rw [strategyFor, strategyFor, h.interpolated]

/-- **The default of a function hides that of the property.** -/
theorem fallback_congr (h : p.SameButDefault p') (hdefault : d.default.isSome) :
    d.fallback p = d.fallback p' := by
  obtain ⟨j, hj⟩ := Option.isSome_iff_exists.1 hdefault
  rw [FunctionDefinition.fallback, FunctionDefinition.fallback, hj]
  exact congrArg (Except.map some) (h.coerce_eq _ _)

variable {strategy : Strategy} {rule : OutputRule}

theorem compileSingle_alike (h : p.SameButDefault p') :
    FailAlike StyleFunction.Alike (d.compileSingle p strategy rule fallback)
      (d.compileSingle p' strategy rule fallback) := by
  rw [compileSingle, compileSingle]
  refine (Lookup.ofStops_sameButDefault h _ _ _ _).bind fun lookup lookup' hlookup ↦ ?_
  rcases d.property with - | name
  · exact .ok (StyleFunction.alike_camera hlookup _)
  · exact .ok (StyleFunction.alike_source (SourceFunction.alike_of_lookup hlookup name))

theorem compileLevels_alike (h : p.SameButDefault p') :
    FailAlike StyleFunction.Alike (d.compileLevels p strategy rule fallback)
      (d.compileLevels p' strategy rule fallback) := by
  rw [compileLevels, compileLevels]
  rcases d.property with - | name
  · exact .error _
  · refine (FailAlike.of_eq rfl).bind fun groups _ hgroups ↦ ?_
    subst hgroups
    refine FailAlike.bind (R := List.Forall₂ StyleFunction.SameLevel)
      (.mapM (R := Eq) (List.forall₂_refl groups) ?_) fun _ _ hlevels ↦
        .ok (StyleFunction.alike_composite hlevels _ _)
    intro group _ hgroup
    subst hgroup
    refine (Lookup.ofStops_sameButDefault h _ _ _ _).bind fun lookup lookup' hlookup ↦ ?_
    exact .ok ⟨rfl, SourceFunction.alike_of_lookup hlookup name⟩

/-- **A function with a default compiles alike for properties that differ in theirs**: with the same
error, or to functions that report the same and have the same value at every zoom level for every
feature, and so has each of the source functions that they are made of. -/
theorem compile_hidden_default (hdefault : d.default.isSome) (h : p.SameButDefault p') :
    FailAlike StyleFunction.Alike (d.compile p) (d.compile p') := by
  rw [compile, compile]
  refine (FailAlike.of_eq (strategyFor_congr h d)).bind fun strategy _ hstrategy ↦ ?_
  refine (FailAlike.of_eq rfl).bind fun space _ hspace ↦ ?_
  refine (FailAlike.of_eq (fallback_congr h hdefault)).bind fun fallback _ hfallback ↦ ?_
  subst hstrategy hspace hfallback
  rw [h.type]
  split
  · rcases fallback with - | v
    · exact .error _
    · exact .ok (StyleFunction.alike_constant v)
  · split
    · exact compileLevels_alike h
    · exact compileSingle_alike h

/-- The tint of a feature at two zoom levels, with a default of its own. -/
def ownTint : FunctionDefinition Float where
  strategyName := some "identity"
  property := some "tint"
  base := some 1.5
  default := some (.str "#336699")
  colorSpaceName := some "hcl"
  stops := some [⟨.zoomed 0.0 (.ofInt 0), .null⟩, ⟨.zoomed 10.0 (.ofInt 0), .null⟩]

/-- A default that names no color is not noticed behind one that does, although the identity rules
at both levels keep it. -/
theorem compile_hidden_default_ownTint :
    ownTint.default.isSome = true ∧
      Property.SameButDefault ⟨.color, some (.string "#tint"), [], false⟩
        (.ofType .color : Property Float) ∧
      (Color.ofText? "#tint" : Option (Color Float)) = none ∧
      ∃ f f', ownTint.compile ⟨.color, some (.string "#tint"), [], false⟩ = .ok f ∧
        ownTint.compile (.ofType .color) = .ok f' ∧ f.Alike f' ∧ f.sources.length = 2 := by
  have hsame : Property.SameButDefault ⟨.color, some (.string "#tint"), [], false⟩
      (.ofType .color : Property Float) := ⟨rfl, rfl, rfl⟩
  have halike := compile_hidden_default (d := ownTint) rfl hsame
  obtain ⟨f', hf', hff'⟩ := halike.exists_of_ok rfl
  exact ⟨rfl, hsame, rfl, _, f', rfl, hf', hff', rfl⟩

end FunctionDefinition

end MapStyle
