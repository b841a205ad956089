import MapStyle.Proofs.Compilation.ZoomLevels
import MapStyle.Proofs.Ramp.Placement
import MapStyle.Proofs.Scalar.Binary64

/-!
# Composite functions along two axes

A zoom-and-property function has a direct definition that speaks neither of grouping nor of
searching: take the distinct zooms, compile the stops of each **by themselves**, and blend the
values of the two levels around the zoom (`TwoAxis`). The compiled composite function is that
definition (`compile_composite_eq_twoAxis`).

## Layout

* `TwoAxis` states the direct definition and `evaluateLevels_twoAxis` proves it of any levels with
  ascending zooms;
* `FunctionDefinition.level` is the definition of one level, and `compile_level` compiles it.
-/

namespace MapStyle

open Scalar (Lawful isNaN)

/-- In a list of several entries in order, the first is related to the last. -/
theorem rel_head_getLast {β : Type} {R : β → β → Prop} {xs : List β} {lo hi : β} (h : xs.Pairwise R)
    (hlen : xs.length ≠ 1) (hlo : xs.head? = some lo) (hhi : xs.getLast? = some hi) : R lo hi := by
  rw [List.head?_eq_getElem?] at hlo
  rw [List.getLast?_eq_getElem?] at hhi
  have hpos := (List.getElem?_eq_some_iff.1 hlo).1
  exact rel_of_pairwise h (by omega) hlo hhi

variable {α : Type} [Scalar α]

/-! ### The direct definition -/

/-- **The value along two axes**: what source functions at some zooms, in ascending order, make of a
zoom level and a feature. -/
structure TwoAxis (zooms : List α) (levels : List (SourceFunction α)) (base : α) (rule : OutputRule)
    (zoom : α) (feature : Option (Feature α)) (value : Option (Value α)) : Prop where
  /-- A lone level answers at every zoom, number or not. -/
  lone : ∀ g, levels = [g] → value = g.evaluate feature
  /-- Several levels have no answer for what is not a number. -/
  not_number : 1 < levels.length → isNaN zoom = true → value = none
  /-- Up to the first zoom the first level answers. -/
  first : ∀ lo g, zooms.head? = some lo → levels.head? = some g → zoom ≤ lo →
    value = g.evaluate feature
  /-- From the last zoom on the last level answers. -/
  last : ∀ hi g, zooms.getLast? = some hi → levels.getLast? = some g → hi ≤ zoom →
    value = g.evaluate feature
  /-- Everywhere else exactly one pair of neighbours encloses the zoom. -/
  existsUnique : 1 < levels.length → isNaN zoom = false →
    (∀ lo, zooms.head? = some lo → ¬zoom ≤ lo) → (∀ hi, zooms.getLast? = some hi → ¬hi ≤ zoom) →
    ∃! i, Ramp.Encloses zooms.toArray zoom i
  /-- Between two neighbours their values are blended, if both have one. -/
  between : ∀ i lo hi g h, zooms[i]? = some lo → zooms[i + 1]? = some hi → levels[i]? = some g →
    levels[i + 1]? = some h → (∀ first, zooms.head? = some first → ¬zoom ≤ first) →
    lo ≤ zoom → zoom < hi →
    value = do
      let lower ← g.evaluate feature
      let upper ← h.evaluate feature
      rule.blend? lower upper (exponentialFactor zoom base lo hi)

/-! ### Levels as a ramp -/

namespace StyleFunction

variable {levels : List (α × SourceFunction α)} {base : α} {rule : OutputRule} {zoom : α}
  {feature : Option (Feature α)} {i : Nat}

theorem evaluateLevels_eq_none (hnan : isNaN zoom = true) (h : 1 < levels.length) :
    evaluateLevels (.ofList levels) base rule zoom feature = none := by
  have hplace : (Ramp.ofList levels).place? zoom = none := Ramp.place?_eq_none hnan h
  rw [evaluateLevels, hplace]
  rfl

theorem evaluateLevels_of_at {g : SourceFunction α}
    (hplace : (Ramp.ofList levels).place? zoom = some (.at i))
    (hg : (levels.map Prod.snd)[i]? = some g) :
    evaluateLevels (.ofList levels) base rule zoom feature = g.evaluate feature := by
  rw [evaluateLevels, hplace]
  simp only [Option.bind_eq_bind, Option.bind_some, Ramp.output?_ofList, hg]

theorem evaluateLevels_of_between {g h : SourceFunction α} {lo hi : α}
    (hplace : (Ramp.ofList levels).place? zoom = some (.between i))
    (hlo : (levels.map Prod.fst)[i]? = some lo) (hhi : (levels.map Prod.fst)[i + 1]? = some hi)
    (hg : (levels.map Prod.snd)[i]? = some g) (hh : (levels.map Prod.snd)[i + 1]? = some h) :
    evaluateLevels (.ofList levels) base rule zoom feature = (do
      let lower ← g.evaluate feature
      let upper ← h.evaluate feature
      rule.blend? lower upper (exponentialFactor zoom base lo hi)) := by
  rw [evaluateLevels, hplace]
  simp only [Option.bind_eq_bind, Option.bind_some, Ramp.key?_ofList, Ramp.output?_ofList, hlo,
    hhi, hg, hh]

variable [Lawful α]

/-- **Levels with ascending zooms have the value along two axes.** -/
theorem evaluateLevels_twoAxis (hne : levels ≠ [])
    (asc : Ramp.Ascending (levels.map Prod.fst).toArray)
    (hstrict : (levels.map Prod.fst).Pairwise (· < ·)) :
    TwoAxis (levels.map Prod.fst) (levels.map Prod.snd) base rule zoom feature
      (evaluateLevels (.ofList levels) base rule zoom feature) where
  lone g hg := by
    have hlen : levels.length = 1 := by rw [← List.length_map Prod.snd, hg, List.length_singleton]
    exact evaluateLevels_of_at (Ramp.place?_of_length_eq_one hlen) (by rw [hg]; rfl)
  not_number hlen hnan := by
    rw [List.length_map] at hlen
    exact evaluateLevels_eq_none hnan hlen
  first lo g hlo hg hle := by
    rw [List.head?_eq_getElem?] at hg
    exact evaluateLevels_of_at (Ramp.place?_of_le_head hlo hle) hg
  last hi g hhi hg hle := by
    rw [List.getLast?_eq_getElem?, List.length_map] at hg
    by_cases hlen : levels.length = 1
    · rw [hlen] at hg
      exact evaluateLevels_of_at (Ramp.place?_of_length_eq_one hlen) hg
    · have hfirst : ∀ lo, (levels.map Prod.fst).head? = some lo → ¬zoom ≤ lo := fun lo hlo hle' ↦
        Scalar.not_le_of_lt (rel_head_getLast hstrict (by rwa [List.length_map]) hlo hhi)
          (Scalar.le_trans hle hle')
      exact evaluateLevels_of_at (Ramp.place?_of_getLast_le hhi hle hfirst) hg
  existsUnique _ hnan hfirst hlast := Ramp.existsUnique_encloses asc hne hnan hfirst hlast
  between i lo hi g h hlo hhi hg hh hfirst hle hlt := by
    have hplace := Ramp.place?_of_encloses asc (x := zoom) (i := i)
      ⟨lo, hi, by rwa [List.getElem?_toArray], by rwa [List.getElem?_toArray], hle, hlt⟩ hfirst
    exact evaluateLevels_of_between hplace hlo hhi hg hh

end StyleFunction

/-! ### The definition of a level -/

namespace FunctionDefinition

/-- **The definition of one zoom level**: the stops of the level with their values for keys, and
everything else as in the whole but the base. -/
def level (d : FunctionDefinition α) (zoom : α) : FunctionDefinition α :=
  { d with base := none, stops := some (levelStops d.stopList zoom) }

variable {d : FunctionDefinition α} {p : Property α} {zoom : α}

theorem stopList_level (d : FunctionDefinition α) (zoom : α) :
    (d.level zoom).stopList = levelStops d.stopList zoom :=
  rfl

theorem isZoomed_withoutZoom (s : Stop α) : s.withoutZoom.key.isZoomed = false := by
  rw [Stop.withoutZoom]
  rcases hkey : s.key with key | ⟨zoom, value⟩
  · simp only [hkey, Stop.Key.isZoomed]
  · rfl

/-- A level reads the property alone. -/
theorem isComposite_level (d : FunctionDefinition α) (zoom : α) :
    (d.level zoom).isComposite = false := by
  rw [isComposite, stopList_level, levelStops, List.head?_map, Option.any_map]
  rcases (d.stopList.filter (Stop.isAt zoom)).head? with - | s
  · rfl
  · exact isZoomed_withoutZoom s

/-- A zoom level that is a number has a stop: the one that brought it up. -/
theorem levelStops_ne_nil {stops : List (Stop α)} (hzoom : zoom ∈ zoomLevels stops)
    (hnum : isNaN zoom = false) : levelStops stops zoom ≠ [] := by
  obtain ⟨s, hs, hz⟩ := List.mem_filterMap.1 ((eraseDups_sublist _).mem hzoom)
  have hat : s.isAt zoom = true := by
    rw [Stop.isAt, hz]
    exact Scalar.isNaN_eq_false_iff.1 hnum
  rw [levelStops, ne_eq, List.map_eq_nil_iff]
  exact List.ne_nil_of_mem (List.mem_filter.2 ⟨hs, hat⟩)

/-- The names and the default of a level resolve as those of the whole. -/
theorem Resolves.level {strategy : Strategy} {rule : OutputRule} {fallback : Option (Value α)}
    (h : d.Resolves p strategy rule fallback) (zoom : α) :
    (d.level zoom).Resolves p strategy rule fallback :=
  ⟨h.strategy_eq, h.rule_eq, h.fallback_eq⟩

/-- **A level compiles by itself** to the source function that stands at its zoom. -/
theorem compile_level {strategy : Strategy} {rule : OutputRule} {fallback : Option (Value α)}
    {name : String} {entry : α × SourceFunction α} (hres : d.Resolves p strategy rule fallback)
    (hname : d.property = some name) (hzoom : zoom ∈ zoomLevels d.stopList)
    (hnum : isNaN zoom = false)
    (h : Level p name strategy rule fallback (zoom, levelStops d.stopList zoom) entry) :
    (d.level zoom).compile p = .ok (.source entry.2) := by
  obtain ⟨hlookup⟩ := h
  exact compile_eq_ok_iff.2 (.source (hres.level zoom) (isComposite_level d zoom)
    (fun hnil ↦ absurd hnil (levelStops_ne_nil hzoom hnum)) hname hlookup)

/-! ### The whole -/

theorem zoomLevels_ne_nil (hd : d.isComposite = true) : zoomLevels d.stopList ≠ [] := by
  rw [isComposite] at hd
  obtain ⟨s, hs, hkey⟩ := (Option.any_eq_true _ _).1 hd
  obtain ⟨stops, hstops⟩ := List.head?_eq_some_iff.1 hs
  rcases hk : s.key with key | ⟨zoom, value⟩
  · rw [hk] at hkey
    exact absurd hkey Bool.false_ne_true
  · have hz : s.zoom? = some zoom := by rw [Stop.zoom?, hk]
    rw [hstops, zoomLevels, List.filterMap_cons_some hz, List.eraseDups_cons]
    exact List.cons_ne_nil _ _

theorem Level.map_fst {name : String} {strategy : Strategy} {rule : OutputRule}
    {fallback : Option (Value α)} {groups : List (α × List (Stop α))}
    {levels : List (α × SourceFunction α)}
    (h : List.Forall₂ (Level p name strategy rule fallback) groups levels) :
    levels.map Prod.fst = groups.map Prod.fst := by
  induction h with
  | nil => rfl
  | cons hlevel _ ih =>
    obtain ⟨_⟩ := hlevel
    rw [List.map_cons, List.map_cons, ih]

/-- The levels of a composite function stand at the distinct zooms of the stops. -/
theorem Level.map_fst_zoomGroups {name : String} {strategy : Strategy} {rule : OutputRule}
    {fallback : Option (Value α)} {stops : List (Stop α)} {levels : List (α × SourceFunction α)}
    (h : List.Forall₂ (Level p name strategy rule fallback) (zoomGroups stops) levels) :
    levels.map Prod.fst = zoomLevels stops := by
  rw [Level.map_fst h, zoomGroups, List.map_map]
  exact List.map_id _

variable [Lawful α]

/-- Distinct zooms in weak order are in strict order. -/
theorem zoomLevels_strict {stops : List (Stop α)} (h : (zoomLevels stops).Pairwise (· ≤ ·)) :
    (zoomLevels stops).Pairwise (· < ·) := by
  refine (h.and (pairwise_eraseDups _)).imp fun {x y} hxy ↦ ?_
  rw [Scalar.beq_comm y x] at hxy
  exact Scalar.lt_of_le_of_beq_false hxy.1 hxy.2

/-- **A composite function is the direct definition.** Its breakpoints are the distinct zooms of the
stops, in order of first appearance; the stops of each compile by themselves to a source function;
and where the zooms ascend, the value at a zoom level for a feature is that of these source
functions along two axes. -/
theorem compile_composite_eq_twoAxis {f : StyleFunction α} (hd : d.isComposite = true)
    (hf : d.compile p = .ok f) :
    f.dependence = .composite ∧ f.breakpoints = zoomLevels d.stopList ∧
      ∃ space levels, d.colorSpace = .ok space ∧
        List.Forall₂ (fun zoom g ↦ (d.level zoom).compile p = .ok (.source g))
          (zoomLevels d.stopList) levels ∧
        ((zoomLevels d.stopList).Pairwise (· ≤ ·) → ∀ zoom feature,
          TwoAxis (zoomLevels d.stopList) levels (d.base.getD 1.0) (.ofType space p.type) zoom
            feature (f.evaluate zoom feature)) := by
  cases compile_eq_ok_iff.1 hf with
  | constant _ hstops =>
    rw [isComposite_of_stopList_eq_nil hstops] at hd
    exact absurd hd Bool.false_ne_true
  | camera _ hsingle =>
    rw [hsingle] at hd
    exact absurd hd Bool.false_ne_true
  | source _ hsingle =>
    rw [hsingle] at hd
    exact absurd hd Bool.false_ne_true
  | @composite strategy rule fallback name groups levels hres _ hname hgroups hlevels =>
    obtain ⟨hzooms, rfl⟩ := groupByZoom_eq_ok_iff.1 hgroups
    obtain ⟨space, hspace, rfl⟩ := hres.rule_eq
    have hnum : ∀ z ∈ zoomLevels d.stopList, isNaN z = false := fun z hz ↦
      isNaN_of_mem_zooms hzooms ((eraseDups_sublist _).mem hz)
    have hkeys := Level.map_fst_zoomGroups hlevels
    -- Each level compiles by itself to what stands at its zoom.
    have hcompiled : List.Forall₂ (fun zoom g ↦ (d.level zoom).compile p = .ok (.source g))
        (zoomLevels d.stopList) (levels.map Prod.snd) := by
      rw [List.forall₂_map_right_iff]
      rw [zoomGroups, List.forall₂_map_left_iff] at hlevels
      refine ((List.forall₂_and_left _ _).2 ⟨fun z hz ↦ hz, hlevels⟩).imp ?_
      rintro z entry ⟨hz, hlevel⟩
      exact compile_level hres hname hz (hnum z hz) hlevel
    refine ⟨rfl, ?_, space, levels.map Prod.snd, hspace, hcompiled, fun hle zoom feature ↦ ?_⟩
    · rw [StyleFunction.breakpoints, Ramp.keys_ofList, hkeys]
    · -- The order of the zooms is all that the direct definition needs of the levels.
      have hne : levels ≠ [] := fun hnil ↦ zoomLevels_ne_nil hd (by rw [← hkeys, hnil]; rfl)
      have hasc : Ramp.Ascending (levels.map Prod.fst).toArray := by
        rw [hkeys]
        exact ⟨fun k hk ↦ hnum k (List.mem_toArray.1 hk), hle⟩
      have hstrict : (levels.map Prod.fst).Pairwise (· < ·) := by
        rw [hkeys]
        exact zoomLevels_strict hle
      rw [← hkeys]
      exact StyleFunction.evaluateLevels_twoAxis hne hasc hstrict

/-- A composite function whose zooms take turns, with both zeros among them. -/
def interleaved : FunctionDefinition Float where
  strategyName := some "categorical"
  property := some "kind"
  base := none
  default := none
  colorSpaceName := none
  stops := some [⟨.zoomed 0.0 (.str "road"), .ofInt 1⟩,
    ⟨.zoomed 10.0 (.str "road"), .ofInt 5⟩,
    ⟨.zoomed (-0.0) (.str "path"), .ofInt 2⟩,
    ⟨.zoomed 10.0 (.str "path"), .ofInt 4⟩]

/-- Both zeros are one level, which the first of them represents; between the levels the values of
each are blended. -/
theorem compile_composite_eq_twoAxis_interleaved :
    interleaved.isComposite = true ∧ ∃ f, interleaved.compile (.ofType .number) = .ok f ∧
      f.breakpoints = [0.0, 10.0] ∧ (zoomLevels interleaved.stopList).Pairwise (· ≤ ·) ∧
      f.evaluate 2.5 (some ⟨[("kind", .string "path")]⟩) = some (.number 2.5) := by
  have hascending : (zoomLevels interleaved.stopList).Pairwise (· ≤ ·) := by
    show [(0.0 : Float), 10.0].Pairwise (· ≤ ·)
    decide
  refine ⟨rfl, _, rfl, ?_⟩
  obtain ⟨-, hbreakpoints, space, levels, hspace, hlevels, hvalue⟩ :=
    compile_composite_eq_twoAxis (d := interleaved) (p := .ofType .number) rfl rfl
  obtain ⟨g, _, hg, hrest, rfl⟩ := List.forall₂_cons_left_iff.1 hlevels
  obtain ⟨h, _, hh, hrest, rfl⟩ := List.forall₂_cons_left_iff.1 hrest
  cases hrest
  cases hspace
  cases hg
  cases hh
  exact ⟨hbreakpoints, hascending,
    (hvalue hascending 2.5 _).between 0 0.0 10.0 _ _ rfl rfl rfl rfl
      (by rintro _ ⟨⟩; decide) (by decide) (by decide)⟩

end FunctionDefinition

end MapStyle
