import MapStyle.Proofs.Compilation.Rules
import MapStyle.Proofs.Ramp.Reach
import MapStyle.Scalar.Binary64

/-!
# What values depend on

A renderer keeps a value for as long as nothing that it depends on changes, and what that is it
takes from `dependence`. Too little reported there paints stale values, so the report is proved
sound here, as a statement about two evaluations of one function:

* at **two zoom levels**, if the function does not depend on zoom;
* for **two features**, if it does not depend on the feature;
* for **two features that agree on one property**, the one that the definition names, if it does.

The zoom level is an argument of the evaluation and the claim about it is immediate. A feature is
handed down to every source function that a function is made of (`sources`), so the argument goes
through them: a function has one value for two features if each of its source functions has
(`evaluate_congr`), and all of them were compiled for one property (`Compiles.source_of_mem`).

The main statement is `FunctionDefinition.compile_dependence_sound`.
-/

namespace MapStyle

variable {α : Type} [Scalar α]

/-! ### Features that agree -/

/-- **Two optional features agree on a property**: they have the same value for it or none. Where
there is no feature there is no property. -/
def Feature.AgreeOn (name : String) (feature feature' : Option (Feature α)) : Prop :=
  (feature.bind fun g ↦ g.get? name) = feature'.bind fun g ↦ g.get? name

/-- A source function looks at one property and at nothing else. -/
theorem SourceFunction.evaluate_congr {g : SourceFunction α} {feature feature' : Option (Feature α)}
    (h : Feature.AgreeOn g.property feature feature') :
    g.evaluate feature = g.evaluate feature' := by
  have hread : (feature.bind fun f ↦ f.get? g.property) =
      feature'.bind fun f ↦ f.get? g.property := h
  rw [SourceFunction.evaluate, SourceFunction.evaluate, hread]

namespace StyleFunction

/-- **The source functions that a function is made of**: itself, or one at each zoom level. -/
def sources : StyleFunction α → List (SourceFunction α)
  | source g => [g]
  | composite levels _ _ => levels.stops.toList.map Prod.snd
  | _ => []

variable {f : StyleFunction α} {levels : Ramp α (SourceFunction α)} {base zoom : α}
  {rule : OutputRule} {feature feature' : Option (Feature α)}

omit [Scalar α] in
theorem mem_sources_of_output? {i : Nat} {g : SourceFunction α} (h : levels.output? i = some g) :
    g ∈ (composite levels base rule).sources :=
  Ramp.mem_of_output? h

/-- **Levels at the same zooms make the same value if those that are looked at have the same
values**. Neither the levels nor the features need be the same. -/
theorem evaluateLevels_congr {levels' : Ramp α (SourceFunction α)}
    (hkeys : levels.keys = levels'.keys)
    (h : ∀ place i, levels.place? zoom = some place → place.Uses i →
      ((levels.output? i).bind fun g ↦ g.evaluate feature) =
        (levels'.output? i).bind fun g ↦ g.evaluate feature') :
    evaluateLevels levels base rule zoom feature =
      evaluateLevels levels' base rule zoom feature' := by
  have hkey : ∀ i, levels.key? i = levels'.key? i := by
    intro i
    rw [← Ramp.getElem?_keys, ← Ramp.getElem?_keys, hkeys]
  have hplace : levels.place? zoom = levels'.place? zoom := by
    rw [Ramp.place?, Ramp.place?, ← Ramp.size_keys, ← Ramp.size_keys, hkeys]
  rw [evaluateLevels, evaluateLevels, ← hplace]
  rcases hzoom : levels.place? zoom with - | i | i
  · rfl
  · exact h _ i hzoom (.at i)
  · have hlower := h _ i hzoom (.lower i)
    have hupper := h _ (i + 1) hzoom (.upper i)
    -- the value of a level is bound before the next level is asked
    simp only [Option.bind_eq_bind, Option.bind_some, ← Option.bind_assoc, hkey, hlower, hupper]

/-- **A function has one value for two features if each of its source functions has.** -/
theorem evaluate_congr (h : ∀ g ∈ f.sources, g.evaluate feature = g.evaluate feature') :
    f.evaluate zoom feature = f.evaluate zoom feature' := by
  cases f with
  | constant v => rfl
  | camera f zooms => rfl
  | source g => exact h g (List.mem_singleton_self g)
  | composite levels base rule =>
    refine evaluateLevels_congr rfl fun _ i _ _ ↦ ?_
    rcases hg : levels.output? i with - | g
    · rfl
    · exact h g (mem_sources_of_output? hg)

omit [Scalar α] in
/-- A function that does not report the feature is made of no source functions. -/
theorem sources_eq_nil (h : f.dependence.onFeature = false) : f.sources = [] := by
  cases f with
  | constant v => rfl
  | camera f zooms => rfl
  | source g => exact absurd h.symm Bool.false_ne_true
  | composite levels base rule => exact absurd h.symm Bool.false_ne_true

/-- A function that does not report the zoom level has nothing along it and ignores it. -/
theorem ignores_zoom (h : f.dependence.onZoom = false) :
    f.breakpoints = [] ∧ f.interpolation = none ∧
      ∀ zoom zoom' feature, f.evaluate zoom feature = f.evaluate zoom' feature := by
  cases f with
  | constant v => exact ⟨rfl, rfl, fun _ _ _ ↦ rfl⟩
  | source g => exact ⟨rfl, rfl, fun _ _ _ ↦ rfl⟩
  | camera f zooms => exact absurd h.symm Bool.false_ne_true
  | composite levels base rule => exact absurd h.symm Bool.false_ne_true

end StyleFunction

/-! ### Compiled functions -/

namespace FunctionDefinition

variable {d : FunctionDefinition α} {p : Property α} {f : StyleFunction α}

/-- **Every source function that a compiled function is made of** reads the property of the
definition, arranges some stops by its strategy, and falls back to its default. -/
theorem Compiles.source_of_mem (h : d.Compiles p f) {g : SourceFunction α} (hg : g ∈ f.sources) :
    d.property = some g.property ∧ ∃ strategy rule base stops,
      d.Resolves p strategy rule g.ofValue.fallback ∧
        Lookup.OfStops p base rule stops strategy g.ofValue.lookup := by
  cases h with
  | constant => exact absurd hg List.not_mem_nil
  | camera => exact absurd hg List.not_mem_nil
  | source hres _ _ hname hlookup =>
    obtain rfl := List.mem_singleton.1 hg
    exact ⟨hname, _, _, _, _, hres, hlookup⟩
  | composite hres _ hname _ hlevels =>
    obtain ⟨level, hlevel, rfl⟩ := List.mem_map.1 hg
    have hgroup := exists_forall₂_iff.1 ⟨_, hlevels.flip⟩ level hlevel
    obtain ⟨_, ⟨hlookup⟩⟩ := hgroup
    exact ⟨hname, _, _, _, _, hres, hlookup⟩

/-- A compiled function that depends on the feature was given a property to read. -/
theorem Compiles.isSome_property (h : d.Compiles p f) (hfeature : f.dependence.onFeature = true) :
    ∃ name, d.property = some name := by
  cases h with
  | constant => exact absurd hfeature Bool.false_ne_true
  | camera => exact absurd hfeature Bool.false_ne_true
  | source _ _ _ hname => exact ⟨_, hname⟩
  | composite _ _ hname => exact ⟨_, hname⟩

/-- **What a compiled function depends on is what it reports.** Where it does not report the zoom
level it has one value at all of them, and neither breakpoints nor an interpolation along zoom.
Where it does not report the feature it has one value for all of them. And where it does, it has one
value for any two features that agree on the property of the definition. -/
theorem compile_dependence_sound (hf : d.compile p = .ok f) :
    (f.dependence.onZoom = false → f.breakpoints = [] ∧ f.interpolation = none ∧
      ∀ zoom zoom' feature, f.evaluate zoom feature = f.evaluate zoom' feature) ∧
    (f.dependence.onFeature = false →
      ∀ zoom feature feature', f.evaluate zoom feature = f.evaluate zoom feature') ∧
    (f.dependence.onFeature = true → ∃ name, d.property = some name ∧
      ∀ zoom feature feature', Feature.AgreeOn name feature feature' →
        f.evaluate zoom feature = f.evaluate zoom feature') := by
  have hcompiles := compile_eq_ok_iff.1 hf
  refine ⟨StyleFunction.ignores_zoom, fun hfeature zoom feature feature' ↦ ?_, fun hfeature ↦ ?_⟩
  · refine StyleFunction.evaluate_congr fun g hg ↦ ?_
    rw [StyleFunction.sources_eq_nil hfeature] at hg
    exact absurd hg List.not_mem_nil
  · obtain ⟨name, hname⟩ := hcompiles.isSome_property hfeature
    refine ⟨name, hname, fun zoom feature feature' hagree ↦ ?_⟩
    refine StyleFunction.evaluate_congr fun g hg ↦ SourceFunction.evaluate_congr ?_
    have hproperty : some g.property = some name := (hcompiles.source_of_mem hg).1.symm.trans hname
    rw [Option.some.injEq] at hproperty
    rw [hproperty]
    exact hagree

/-- A width that depends on the zoom level and on the rank of a road. -/
def rankedWidth : FunctionDefinition Float where
  strategyName := some "interval"
  property := some "rank"
  base := none
  default := none
  colorSpaceName := none
  stops := some [⟨.zoomed 0.0 (.ofInt 1), .ofInt 2⟩, ⟨.zoomed 0.0 (.ofInt 5), .ofInt 3⟩,
    ⟨.zoomed 10.0 (.ofInt 1), .ofInt 6⟩]

/-- The same width by rank alone. -/
def widthByRank : FunctionDefinition Float :=
  { rankedWidth with stops := some [⟨.plain (.ofInt 1), .ofInt 2⟩, ⟨.plain (.ofInt 5), .ofInt 3⟩] }

/-- The same width by zoom level alone. -/
def widthByZoom : FunctionDefinition Float := { widthByRank with property := none }

/-- A road with a name and a rank. -/
def road (rank : Float) (name : String) : Option (Feature Float) :=
  some ⟨[("name", .string name), ("rank", .number rank)]⟩

/-- A width by rank alone is the same at all zoom levels, one by zoom alone is the same for all
roads, and one by both is the same for roads of one rank, whatever their names. -/
theorem compile_dependence_sound_rankedWidth :
    (∃ f, widthByRank.compile (.ofType .number) = .ok f ∧ f.dependence.onZoom = false ∧
      f.evaluate 3.0 (road 5.0 "A1") = f.evaluate 14.0 (road 5.0 "A1")) ∧
    (∃ f, widthByZoom.compile (.ofType .number) = .ok f ∧ f.dependence.onFeature = false ∧
      f.evaluate 3.0 (road 5.0 "A1") = f.evaluate 3.0 none) ∧
    ∃ f, rankedWidth.compile (.ofType .number) = .ok f ∧ f.dependence.onFeature = true ∧
      f.evaluate 3.0 (road 5.0 "A1") = f.evaluate 3.0 (road 5.0 "B7") := by
  refine ⟨⟨_, rfl, rfl, ?_⟩, ⟨_, rfl, rfl, ?_⟩, ⟨_, rfl, rfl, ?_⟩⟩
  · have hsound := compile_dependence_sound (d := widthByRank) (p := .ofType .number) rfl
    exact (hsound.1 rfl).2.2 3.0 14.0 _
  · have hsound := compile_dependence_sound (d := widthByZoom) (p := .ofType .number) rfl
    exact hsound.2.1 rfl 3.0 _ _
  · have hsound := compile_dependence_sound (d := rankedWidth) (p := .ofType .number) rfl
    obtain ⟨name, hname, hsame⟩ := hsound.2.2 rfl
    obtain rfl : "rank" = name := Option.some.inj hname
    have hagree : Feature.AgreeOn "rank" (road 5.0 "A1") (road 5.0 "B7") := rfl
    exact hsame 3.0 _ _ hagree

end FunctionDefinition

end MapStyle
