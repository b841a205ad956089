import MapStyle.Proofs.Check.WellFormed
import MapStyle.Proofs.Compilation.Failure
import MapStyle.Proofs.Composite.TwoAxis

/-!
# Compiling checked definitions

The check and the compilation read the same definition by different means: one goes over the stops
with a trail, the other resolves names through the property and groups the stops. Here they are
shown to agree (`structuralCheck_compile`).

* **What passes the check compiles**, but for two things that the check does not look at: a default
  that names no color where it has to, and a zoom that is not a number.
* **What it compiles to can be searched.** Every table of keys in the compiled function ascends and
  holds numbers only, in levels too, so that no evaluation searches out of order.

Both statements are proved of `Checked` definitions, which is what a well-formed definition is apart
from its base and the sorts of its categorical keys.
-/

namespace MapStyle

open Scalar (Lawful isNaN)

variable {α : Type} [Scalar α]

/-! ### Tables of keys -/

/-- The tables of keys that a lookup rule searches. -/
def Lookup.keyTables : Lookup α → List (Array α)
  | exponential ramp _ _ => [ramp.keys]
  | interval ramp _ => [ramp.keys]
  | categorical _ _ => []
  | identity _ => []

/-- **The tables of keys that an evaluation may search**: the zooms of the levels first, if there
are levels, then those of the lookup rules. -/
def StyleFunction.keyTables : StyleFunction α → List (Array α)
  | constant _ => []
  | camera f _ => f.lookup.keyTables
  | source f => f.ofValue.lookup.keyTables
  | composite levels _ _ =>
    levels.keys :: levels.stops.toList.flatMap fun level ↦ level.2.ofValue.lookup.keyTables

/-- Stops whose numbers ascend make tables that ascend. -/
theorem Lookup.OfStops.ascending [Lawful α] {p : Property α} {base : α} {rule : OutputRule}
    {stops : List (Stop α)} {strategy : Strategy} {lookup : Lookup α}
    (h : Lookup.OfStops p base rule stops strategy lookup)
    (hnumbers : strategy = .exponential ∨ strategy = .interval →
      (stops.filterMap Stop.number?).Pairwise (· ≤ ·)) :
    ∀ keys ∈ lookup.keyTables, Ramp.Ascending keys := by
  have hramp : ∀ {entries : List (α × Value α)}, List.Forall₂ (ScalarEntry p) stops entries →
      (stops.filterMap Stop.number?).Pairwise (· ≤ ·) →
      Ramp.Ascending (Ramp.ofList entries).keys := by
    intro entries hentries hpairs
    rw [Ramp.keys_ofList, map_fst_of_scalarEntries hentries]
    refine ⟨fun k hk ↦ ?_, hpairs⟩
    obtain ⟨s, _, hs⟩ := List.mem_filterMap.1 (List.mem_toArray.1 hk)
    obtain ⟨key, _, hkey⟩ := Option.bind_eq_some_iff.1 hs
    exact isNaN_of_number? hkey
  intro keys hkeys
  cases h with
  | exponential hentries =>
    rw [List.mem_singleton.1 hkeys]
    exact hramp hentries (hnumbers (.inl rfl))
  | interval hentries =>
    rw [List.mem_singleton.1 hkeys]
    exact hramp hentries (hnumbers (.inr rfl))
  | categorical _ => exact absurd hkeys List.not_mem_nil
  | identity => exact absurd hkeys List.not_mem_nil

namespace FunctionDefinition

variable {d : FunctionDefinition α} {p : Property α}

/-- **A definition that passes the check is a checked one.** -/
theorem checked_of_structuralCheck {name : String} (h : d.structuralCheck name = []) :
    d.Checked := by
  rw [structuralCheck, List.map_eq_nil_iff] at h
  exact (problems_eq_nil_iff.1 h).toChecked

/-! ### Checked definitions compile -/

/-- The strategy is the named one, or without a name one of the two with numeric keys. -/
theorem strategyFor_cases {strategy : Strategy} (h : d.strategyFor p = .ok strategy) :
    d.namedStrategy? = some strategy ∨
      (d.namedStrategy? = none ∧ (strategy = .exponential ∨ strategy = .interval)) := by
  rw [namedStrategy?]
  obtain hname | ⟨hname, -⟩ | ⟨hname, -⟩ := strategyFor_eq_ok_iff.1 h
  · rw [hname]
    exact .inl (Strategy.ofName?_name _)
  · rw [hname]
    exact .inr ⟨rfl, .inl rfl⟩
  · rw [hname]
    exact .inr ⟨rfl, .inr rfl⟩

theorem numericKeys_of_strategyFor {strategy : Strategy} (h : d.strategyFor p = .ok strategy)
    (hs : strategy = .exponential ∨ strategy = .interval) : NumericKeys d.namedStrategy? := by
  rcases strategyFor_cases h with hnamed | ⟨hnamed, -⟩
  · rw [hnamed]
    rcases hs with rfl | rfl
    · exact ⟨by simp, by simp⟩
    · exact ⟨by simp, by simp⟩
  · rw [hnamed]
    exact ⟨by simp, by simp⟩

/-- The strategy of a checked definition accepts its stops, once they have no zoom. -/
theorem Checked.accepts (h : d.Checked) {strategy : Strategy}
    (hstrategy : d.strategyFor p = .ok strategy) {s : Stop α} (hs : s ∈ d.stopList) :
    strategy.Accepts s.withoutZoom :=
  Strategy.accepts_withoutZoom_iff.2 fun hscalar ↦
    (h.keys (numericKeys_of_strategyFor hstrategy hscalar)).1 s hs

/-- The stops of a checked definition of one input are those without zoom that they are. -/
theorem Checked.map_withoutZoom (h : d.Checked) (hsingle : d.isComposite = false) :
    d.stopList.map Stop.withoutZoom = d.stopList := by
  refine List.map_congr_left (fun s hs ↦ ?_) |>.trans (List.map_id _)
  exact Stop.withoutZoom_of_isZoomed_eq_false ((h.forms s hs).trans hsingle)

/-- Without stops a checked definition is the identity or has a fallback. -/
theorem Checked.eq_identity_or (h : d.Checked) {strategy : Strategy} {rule : OutputRule}
    {fallback : Option (Value α)} (hres : d.Resolves p strategy rule fallback)
    (hnil : d.stopList = []) : strategy = .identity ∨ fallback.isSome := by
  rcases h.default hnil with hidentity | hdefault
  · refine .inl ?_
    rcases strategyFor_cases hres.strategy_eq with hnamed | ⟨hnamed, -⟩
    · exact Option.some.inj (hnamed.symm.trans hidentity)
    · exact absurd (hnamed.symm.trans hidentity) (by simp)
  · refine .inr ?_
    obtain ⟨j, hj⟩ := Option.isSome_iff_exists.1 hdefault
    rw [hres.isSome_fallback, effectiveDefault, hj]
    rfl

/-- **A checked definition compiles** if its default can be read and its zooms are numbers. -/
theorem Checked.exists_compile_iff (h : d.Checked) :
    (∃ f, d.compile p = .ok f) ↔
      (∃ fallback, d.fallback p = .ok fallback) ∧
        (d.isComposite = true → ∀ s ∈ d.stopList, s.HasZoom) := by
  constructor
  · rintro ⟨f, hf⟩
    obtain ⟨_, _, fallback, hres⟩ := exists_resolves_of_compile hf
    have hstops := (hres.exists_compile_iff.1 ⟨f, hf⟩).2.1
    exact ⟨⟨fallback, hres.fallback_eq⟩, fun hd s hs ↦ ((hstops hd).2 s hs).1⟩
  · rintro ⟨⟨fallback, hfallback⟩, hzooms⟩
    -- the names are known, so that everything resolves, and then the stops decide
    obtain ⟨strategy, hstrategy⟩ := exists_strategyFor_iff (p := p).2 h.strategyName
    obtain ⟨space, hspace⟩ := exists_colorSpace_iff.2 h.colorSpaceName
    have hres : d.Resolves p strategy (.ofType space p.type) fallback :=
      ⟨hstrategy, ⟨space, hspace, rfl⟩, hfallback⟩
    refine hres.exists_compile_iff.2 ⟨h.eq_identity_or hres, fun hd ↦ ⟨h.property hd, ?_⟩,
      fun hd s hs ↦ ?_⟩
    · exact fun s hs ↦ ⟨hzooms hd s hs, h.accepts hstrategy hs⟩
    · rw [← Stop.withoutZoom_of_isZoomed_eq_false ((h.forms s hs).trans hd)]
      exact h.accepts hstrategy hs

/-- A checked composite definition has zooms everywhere, so the only thing amiss with one is that it
is not a number. -/
theorem Checked.not_hasZoom_iff (h : d.Checked) (hd : d.isComposite = true) :
    (¬∀ s ∈ d.stopList, s.HasZoom) ↔
      ∃ s ∈ d.stopList, ∃ zoom, s.zoom? = some zoom ∧ isNaN zoom = true := by
  simp only [not_forall, exists_prop]
  refine exists_congr fun s ↦ and_congr_right fun hs ↦ ?_
  rcases hkey : s.key with key | ⟨zoom, value⟩
  · have hform := (h.forms s hs).trans hd
    rw [hkey] at hform
    exact absurd hform Bool.false_ne_true
  · rw [Stop.hasZoom_zoomed hkey, Stop.zoom?, hkey]
    simp

/-! ### What they compile to can be searched -/

variable [Lawful α]

/-- The stops of a checked definition with numeric keys are in order. -/
theorem Checked.pairwise_precedes (h : d.Checked)
    (hzooms : d.isComposite = true → ∀ s ∈ d.stopList, s.HasZoom)
    (hnumeric : NumericKeys d.namedStrategy?) : d.stopList.Pairwise Stop.Precedes :=
  MapStyle.pairwise_precedes (pairwise_zoomPrecedes h.forms hzooms h.zooms) (h.keys hnumeric).1
    (h.keys hnumeric).2

/-- The one input of a checked definition has ascending keys. -/
theorem Checked.ascending_single (h : d.Checked) {strategy : Strategy} {base : α}
    {rule : OutputRule} {lookup : Lookup α} (hstrategy : d.strategyFor p = .ok strategy)
    (hsingle : d.isComposite = false)
    (hlookup : Lookup.OfStops p base rule d.stopList strategy lookup) :
    ∀ keys ∈ lookup.keyTables, Ramp.Ascending keys := by
  refine hlookup.ascending fun hs ↦ ?_
  have hprecedes := h.pairwise_precedes (fun hd ↦ absurd (hd.symm.trans hsingle) (by simp))
    (numericKeys_of_strategyFor hstrategy hs)
  rw [← h.map_withoutZoom hsingle]
  refine pairwise_numbers hprecedes fun s hs t ht ↦ ?_
  rw [Stop.zoom?_of_isZoomed_eq_false ((h.forms s hs).trans hsingle),
    Stop.zoom?_of_isZoomed_eq_false ((h.forms t ht).trans hsingle)]
  rfl

/-- Every level of a checked definition has ascending keys. -/
theorem Checked.ascending_level (h : d.Checked) {name : String} {strategy : Strategy}
    {rule : OutputRule} {fallback : Option (Value α)} {levels : List (α × SourceFunction α)}
    (hstrategy : d.strategyFor p = .ok strategy)
    (hzooms : d.isComposite = true → ∀ s ∈ d.stopList, s.HasZoom)
    (hlevels : List.Forall₂ (Level p name strategy rule fallback) (zoomGroups d.stopList) levels) :
    ∀ level ∈ levels, ∀ keys ∈ level.2.ofValue.lookup.keyTables, Ramp.Ascending keys := by
  intro level hlevel
  rw [zoomGroups, List.forall₂_map_left_iff] at hlevels
  obtain ⟨zoom, hgroup⟩ := exists_forall₂_iff.1 ⟨_, hlevels.flip⟩ level hlevel
  obtain ⟨hlookup⟩ := hgroup
  refine hlookup.ascending fun hs ↦ ?_
  exact pairwise_levelStops
    (h.pairwise_precedes hzooms (numericKeys_of_strategyFor hstrategy hs)) zoom

/-- **What a checked definition compiles to can be searched**: its tables of keys ascend, and that
of its zoom levels does so strictly. -/
theorem Checked.searchable (h : d.Checked) {f : StyleFunction α} (hf : d.compile p = .ok f) :
    (∀ keys ∈ f.keyTables, Ramp.Ascending keys) ∧
      (f.dependence = .composite → f.breakpoints.Pairwise (· < ·)) := by
  cases compile_eq_ok_iff.1 hf with
  | constant => exact ⟨List.forall_mem_nil _, fun hkind ↦ by cases hkind⟩
  | camera hres hsingle _ _ hlookup =>
    exact ⟨h.ascending_single hres.strategy_eq hsingle hlookup, fun hkind ↦ by cases hkind⟩
  | source hres hsingle _ _ hlookup =>
    exact ⟨h.ascending_single hres.strategy_eq hsingle hlookup, fun hkind ↦ by cases hkind⟩
  | @composite strategy rule fallback name groups levels hres _ _ hgroups hlevels =>
    obtain ⟨hzooms, rfl⟩ := groupByZoom_eq_ok_iff.1 hgroups
    have hle : (zoomLevels d.stopList).Pairwise (· ≤ ·) :=
      pairwise_zoomLevels (pairwise_zoomPrecedes h.forms (fun _ ↦ hzooms) h.zooms)
    have hkeys : (Ramp.ofList levels).keys = (zoomLevels d.stopList).toArray := by
      rw [Ramp.keys_ofList, Level.map_fst_zoomGroups hlevels]
    refine ⟨?_, fun _ ↦ ?_⟩
    · rw [StyleFunction.keyTables, List.forall_mem_cons, hkeys]
      refine ⟨⟨fun k hk ↦ ?_, hle⟩, fun keys hkeys ↦ ?_⟩
      · exact isNaN_of_mem_zooms hzooms ((eraseDups_sublist _).mem (List.mem_toArray.1 hk))
      · obtain ⟨level, hlevel, hkeys⟩ := List.mem_flatMap.1 hkeys
        exact h.ascending_level hres.strategy_eq (fun _ ↦ hzooms) hlevels level hlevel keys hkeys
    · rw [StyleFunction.breakpoints, hkeys]
      exact zoomLevels_strict hle

/-- **The check and the compilation agree.** A definition that passes the check fails to compile
only for a default that names no color where it has to, or for a zoom that is not a number; and what
it compiles to has only tables of keys that ascend, strictly for the zooms of a composite
function. -/
theorem structuralCheck_compile {name : String} (h : d.structuralCheck name = [])
    (p : Property α) :
    ((∃ e, d.compile p = .error e) ↔
      (p.type = .color ∧ ∃ v, d.effectiveDefault p = some v ∧ v.readColor? = none) ∨
        (d.isComposite = true ∧ ∃ s ∈ d.stopList, ∃ zoom, s.zoom? = some zoom ∧
          isNaN zoom = true)) ∧
      ∀ f, d.compile p = .ok f → (∀ keys ∈ f.keyTables, Ramp.Ascending keys) ∧
        (f.dependence = .composite → f.breakpoints.Pairwise (· < ·)) := by
  have hchecked := checked_of_structuralCheck h
  refine ⟨?_, fun f hf ↦ hchecked.searchable hf⟩
  -- Of the two conditions to compile, the first fails for a default, the second for a zoom.
  rw [not_error_iff, hchecked.exists_compile_iff, exists_fallback_iff, not_and_or, not_not]
  refine or_congr_right ⟨fun hzooms ↦ ?_, ?_⟩
  · obtain ⟨hd, hzooms⟩ := Classical.not_imp.1 hzooms
    exact ⟨hd, (hchecked.not_hasZoom_iff hd).1 hzooms⟩
  · rintro ⟨hd, hnan⟩ hzooms
    exact (hchecked.not_hasZoom_iff hd).2 hnan (hzooms hd)

/-- A composite function with numeric keys, which start afresh at each of its two levels. -/
def sizes : FunctionDefinition Float where
  strategyName := some "interval"
  property := some "rank"
  base := none
  default := none
  colorSpaceName := none
  stops := some [⟨.zoomed 0.0 (.ofInt 3), .ofInt 1⟩,
    ⟨.zoomed (-0.0) (.ofInt 7), .ofInt 2⟩,
    ⟨.zoomed 10.0 (.ofInt 5), .ofInt 4⟩]

/-- The function passes the check and compiles with ascending tables, and fails to compile for a
color property whose default is no color. -/
theorem structuralCheck_compile_sizes :
    sizes.structuralCheck "size" = [] ∧
      (∃ f, sizes.compile (.ofType .number) = .ok f ∧ f.breakpoints = [0.0, 10.0] ∧
        (∀ keys ∈ f.keyTables, Ramp.Ascending keys) ∧ f.breakpoints.Pairwise (· < ·)) ∧
      ∃ e, sizes.compile ⟨.color, some (.bool true), [], false⟩ = .error e := by
  have hcheck : sizes.structuralCheck "size" = [] := rfl
  obtain ⟨hkeys, hzooms⟩ := (structuralCheck_compile hcheck (.ofType .number)).2 _ rfl
  refine ⟨hcheck, ⟨_, rfl, ?_, hkeys, hzooms rfl⟩, ?_⟩
  · rw [StyleFunction.breakpoints, Ramp.keys_ofList]
    rfl
  · exact (structuralCheck_compile hcheck _).1.2 (.inl ⟨rfl, _, rfl, rfl⟩)

end FunctionDefinition

end MapStyle
