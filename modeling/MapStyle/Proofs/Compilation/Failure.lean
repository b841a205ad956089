import MapStyle.Proofs.Check.Stops

/-!
# When compilation fails

`Fault` lists what can be wrong with a definition for a property, each reason in terms of the
definition as it is written. **A definition does not compile exactly if it has a fault**
(`compile_error_iff`): no combination of stops, names and defaults is let through that has one, and
nothing else is ever refused.

The levels of a zoom-and-property function are where this could fail, as each is arranged by itself.
But grouping neither loses nor adds a stop (`groupByZoom_perm`), so that the levels are refused for
a stop of the definition or not at all.
-/

namespace MapStyle

open Scalar (isNaN)

variable {α : Type} [Scalar α]

/-! ### Names -/

theorem Strategy.isSome_ofName?_iff {name : String} :
    (ofName? name).isSome ↔ ∃ s : Strategy, s.name = name := by
  constructor
  · intro h
    rw [ofName?.eq_def] at h
    split at h
    · exact ⟨.exponential, rfl⟩
    · exact ⟨.interval, rfl⟩
    · exact ⟨.categorical, rfl⟩
    · exact ⟨.identity, rfl⟩
    · exact absurd h Bool.false_ne_true
  · rintro ⟨s, rfl⟩
    rw [ofName?_name, Option.isSome_some]

theorem ColorSpace.isSome_ofName?_iff {name : String} :
    (ofName? name).isSome ↔ ∃ s : ColorSpace, s.name = name := by
  constructor
  · intro h
    rw [ofName?.eq_def] at h
    split at h
    · exact ⟨.rgb, rfl⟩
    · exact ⟨.lab, rfl⟩
    · exact ⟨.hcl, rfl⟩
    · exact absurd h Bool.false_ne_true
  · rintro ⟨s, rfl⟩
    rw [ofName?_name, Option.isSome_some]

/-! ### Stops that a strategy accepts -/

namespace Strategy

/-- Whether a strategy places its input among the keys. -/
def IsScalar (strategy : Strategy) : Prop := strategy = exponential ∨ strategy = interval

variable {strategy : Strategy} {s : Stop α}

/-- **A stop without its zoom is accepted** unless its key has to be a number and is not. -/
theorem accepts_withoutZoom_iff :
    strategy.Accepts s.withoutZoom ↔ (strategy.IsScalar → s.keyNumber?.isSome) := by
  rw [← Stop.number?_withoutZoom]
  cases strategy with
  | exponential => exact ⟨fun h _ ↦ h, fun h ↦ h (.inl rfl)⟩
  | interval => exact ⟨fun h _ ↦ h, fun h ↦ h (.inr rfl)⟩
  | categorical =>
    exact iff_of_true (Stop.isSome_plain?_withoutZoom s) (by rintro (h | h) <;> cases h)
  | identity => exact iff_of_true trivial (by rintro (h | h) <;> cases h)

/-- **A stop is accepted** unless it has a zoom, or its key has to be a number and is not. The
identity accepts everything. -/
theorem accepts_iff :
    strategy.Accepts s ↔ (strategy ≠ .identity → s.key.isZoomed = false) ∧
      (strategy.IsScalar → s.keyNumber?.isSome) := by
  rcases hzoomed : s.key.isZoomed with - | -
  · rw [← accepts_withoutZoom_iff, Stop.withoutZoom_of_isZoomed_eq_false hzoomed]
    simp
  · have hplain : s.plain? = none := by
      rw [Stop.plain?]
      rcases hkey : s.key with key | ⟨zoom, value⟩
      · rw [hkey] at hzoomed
        exact absurd hzoomed Bool.false_ne_true
      · rfl
    have hnumber : s.number? = none := by rw [Stop.number?, hplain, Option.bind_none]
    cases strategy with
    | identity => exact iff_of_true trivial ⟨fun h ↦ absurd rfl h, by rintro (h | h) <;> cases h⟩
    | _ => simp [Accepts, hplain, hnumber]

end Strategy

namespace FunctionDefinition

variable {d : FunctionDefinition α} {p : Property α} {strategy : Strategy} {rule : OutputRule}
  {fallback : Option (Value α)}

/-! ### What resolves -/

/-- **The strategy of a definition**: the one it names, or the one that suits the property. -/
inductive HasStrategy (d : FunctionDefinition α) (p : Property α) : Strategy → Prop where
  /-- It is named. -/
  | named {s : Strategy} (h : d.strategyName = some s.name) : HasStrategy d p s
  /-- Without a name, properties that are interpolated blend. -/
  | blending (h : d.strategyName = none) (hp : p.interpolated = true) :
    HasStrategy d p .exponential
  /-- All others step. -/
  | stepping (h : d.strategyName = none) (hp : p.interpolated = false) : HasStrategy d p .interval

theorem strategyFor_eq_ok_iff : d.strategyFor p = .ok strategy ↔ d.HasStrategy p strategy := by
  constructor
  · rw [strategyFor]
    rcases hname : d.strategyName with - | name
    · rcases hp : p.interpolated with - | -
      · rintro ⟨⟩
        exact .stepping hname hp
      · rintro ⟨⟩
        exact .blending hname hp
    · intro h
      have hsome : (Strategy.ofName? name).isSome := by
        rcases hs : Strategy.ofName? name with - | s
        · simp [hs] at h
        · rfl
      obtain ⟨s, rfl⟩ := Strategy.isSome_ofName?_iff.1 hsome
      simp only [Strategy.ofName?_name, Except.ok.injEq] at h
      exact .named (h ▸ hname)
  · rintro (hname | ⟨hname, hp⟩ | ⟨hname, hp⟩)
    · rw [strategyFor, hname]
      simp
    · rw [strategyFor, hname, hp]
      rfl
    · rw [strategyFor, hname, hp]
      rfl

/-- A fallback is there if there is a default. -/
theorem Resolves.isSome_fallback (hres : d.Resolves p strategy rule fallback) :
    fallback.isSome = (d.effectiveDefault p).isSome := by
  have hrel := fallback_eq_ok_iff.1 hres.fallback_eq
  revert hrel
  generalize d.effectiveDefault p = default?
  rintro (h | -)
  · rfl
  · rfl

/-- The levels of a definition can be arranged if its strategy accepts every stop without its
zoom. -/
theorem exists_levels_iff {name : String} {groups : List (α × List (Stop α))}
    (hgroups : groupByZoom 0 [] d.stopList = .ok groups) :
    (∃ levels, List.Forall₂ (Level p name strategy rule fallback) groups levels) ↔
      ∀ s ∈ d.stopList, strategy.Accepts s.withoutZoom := by
  have hlevel : ∀ group : α × List (Stop α),
      (∃ level, Level p name strategy rule fallback group level) ↔
        ∀ s ∈ group.2, strategy.Accepts s := by
    intro group
    rw [← @Lookup.exists_ofStops_iff _ _ p strategy 1.0 rule]
    simp only [Lookup.ofStops_eq_ok_iff]
    constructor
    · rintro ⟨_, ⟨h⟩⟩
      exact ⟨_, h⟩
    · rintro ⟨lookup, h⟩
      exact ⟨_, .intro h⟩
  -- the stops of all groups together are those of the definition, without their zooms
  have hperm := groupByZoom_perm hgroups
  rw [exists_forall₂_iff]
  simp only [hlevel]
  rw [← List.forall_mem_flatMap]
  exact (forall_congr' fun s ↦ imp_congr_left hperm.mem_iff).trans List.forall_mem_map

/-- **Once everything resolves, the stops decide**: without stops there must be something to answer
with, with zoomed keys a property and zooms that are numbers, and the strategy must accept each
stop. -/
theorem Resolves.exists_compile_iff (hres : d.Resolves p strategy rule fallback) :
    (∃ f, d.compile p = .ok f) ↔
      (d.stopList = [] → strategy = .identity ∨ fallback.isSome) ∧
      (d.isComposite = true → d.property.isSome ∧
        ∀ s ∈ d.stopList, s.HasZoom ∧ strategy.Accepts s.withoutZoom) ∧
      (d.isComposite = false → ∀ s ∈ d.stopList, strategy.Accepts s) := by
  constructor
  · rintro ⟨f, hf⟩
    -- the form that was compiled to has what it asks for; the other two forms are excluded
    obtain ⟨hnil, -, v, rfl, -⟩ | ⟨hcomposite, h⟩ | ⟨hsingle, hnil, h⟩ := hres.compile_iff.1 hf
    · rw [hnil]
      exact ⟨fun _ ↦ .inr rfl, fun hd ↦ absurd (isComposite_of_stopList_eq_nil hnil) (by simp [hd]),
        fun _ ↦ List.forall_mem_nil _⟩
    · obtain ⟨name, groups, levels, hname, hgroups, hlevels, -⟩ := compileLevels_eq_ok_iff.1 h
      have haccepts := (exists_levels_iff hgroups).1 ⟨levels, hlevels⟩
      have hzooms := exists_groupByZoom_iff.1 ⟨groups, hgroups⟩
      refine ⟨fun hnil ↦ absurd (isComposite_of_stopList_eq_nil hnil) (by simp [hcomposite]),
        fun _ ↦ ⟨hname ▸ rfl, fun s hs ↦ ⟨hzooms s hs, haccepts s hs⟩⟩,
        fun hd ↦ absurd hd (by simp [hcomposite])⟩
    · obtain ⟨lookup, hlookup, -⟩ := compileSingle_eq_ok_iff.1 h
      refine ⟨fun hd ↦ .inl (hnil hd), fun hd ↦ absurd hd (by simp [hsingle]), fun _ ↦ ?_⟩
      exact Lookup.exists_ofStops_iff.1 ⟨lookup, Lookup.ofStops_eq_ok_iff.2 hlookup⟩
  · rintro ⟨hempty, hcomposite, hsingle⟩
    by_cases hconstant : d.stopList = [] ∧ strategy ≠ .identity
    · obtain ⟨hnil, hne⟩ := hconstant
      obtain ⟨v, hv⟩ := Option.isSome_iff_exists.1 ((hempty hnil).resolve_left hne)
      exact ⟨.constant v, hres.compile_iff.2 (.inl ⟨hnil, hne, v, hv, rfl⟩)⟩
    · rcases hd : d.isComposite with - | -
      · obtain ⟨lookup, hlookup⟩ :=
          (@Lookup.exists_ofStops_iff _ _ p strategy (d.base.getD 1.0) rule _).2 (hsingle hd)
        have hlookup := Lookup.ofStops_eq_ok_iff.1 hlookup
        have hcompile : ∃ f, d.compileSingle p strategy rule fallback = .ok f := by
          simp only [compileSingle_eq_ok_iff]
          rcases hname : d.property with - | name
          · exact ⟨_, lookup, hlookup, .inl ⟨rfl, rfl⟩⟩
          · exact ⟨_, lookup, hlookup, .inr ⟨name, rfl, rfl⟩⟩
        obtain ⟨f, hf⟩ := hcompile
        exact ⟨f, hres.compile_iff.2 (.inr (.inr ⟨hd, by tauto, hf⟩))⟩
      · obtain ⟨hproperty, hstops⟩ := hcomposite hd
        obtain ⟨name, hname⟩ := Option.isSome_iff_exists.1 hproperty
        obtain ⟨groups, hgroups⟩ := exists_groupByZoom_iff.2 fun s hs ↦ (hstops s hs).1
        obtain ⟨levels, hlevels⟩ := (exists_levels_iff hgroups).2 fun s hs ↦ (hstops s hs).2
        exact ⟨_, hres.compile_iff.2 (.inr (.inl ⟨hd, compileLevels_eq_ok_iff.2
          ⟨name, groups, levels, hname, hgroups, hlevels, rfl⟩⟩))⟩

/-! ### Faults -/

/-- **What can be wrong with a definition** for a property. -/
inductive Fault (d : FunctionDefinition α) (p : Property α) : Prop where
  /-- No strategy has the name. -/
  | strategyName {name : String} (h : d.strategyName = some name)
    (hname : ∀ s : Strategy, s.name ≠ name)
  /-- No color space has the name. -/
  | colorSpaceName {name : String} (h : d.colorSpaceName = some name)
    (hname : ∀ s : ColorSpace, s.name ≠ name)
  /-- The property is a color and the default that counts is none and names none. -/
  | default {v : Value α} (hp : p.type = .color) (h : d.effectiveDefault p = some v)
    (hv : v.readColor? = none)
  /-- There is nothing to answer with. -/
  | nothingGiven {strategy : Strategy} (hstops : d.stopList = [])
    (hstrategy : d.HasStrategy p strategy) (hne : strategy ≠ .identity)
    (h : d.effectiveDefault p = none)
  /-- Zoomed keys without a property. -/
  | property (hd : d.isComposite = true) (h : d.property = none)
  /-- A plain key where the first one is zoomed. -/
  | plainKey {s : Stop α} (hd : d.isComposite = true) (hs : s ∈ d.stopList)
    (h : s.key.isZoomed = false)
  /-- A zoom that is not a number. -/
  | zoom {s : Stop α} {zoom : α} (hd : d.isComposite = true) (hs : s ∈ d.stopList)
    (h : s.zoom? = some zoom) (hzoom : isNaN zoom = true)
  /-- A zoomed key where the first one is plain, and the strategy looks at keys. -/
  | zoomedKey {s : Stop α} {strategy : Strategy} (hd : d.isComposite = false)
    (hs : s ∈ d.stopList) (hstrategy : d.HasStrategy p strategy) (hne : strategy ≠ .identity)
    (h : s.key.isZoomed = true)
  /-- A key that is no number, or whose value is none, where the strategy needs one. -/
  | number {s : Stop α} {strategy : Strategy} (hs : s ∈ d.stopList)
    (hstrategy : d.HasStrategy p strategy) (hscalar : strategy.IsScalar) (h : s.keyNumber? = none)

/-- **A definition with a fault does not compile.** -/
theorem Fault.not_exists_compile (h : d.Fault p) : ¬∃ f, d.compile p = .ok f := by
  rintro ⟨f, hf⟩
  obtain ⟨strategy, rule, fallback, hres⟩ := exists_resolves_of_compile hf
  obtain ⟨hempty, hcomposite, hsingle⟩ := hres.exists_compile_iff.1 ⟨f, hf⟩
  have hunique : ∀ {other : Strategy}, d.HasStrategy p other → other = strategy := fun h ↦ by
    simpa using (strategyFor_eq_ok_iff.2 h).symm.trans hres.strategy_eq
  cases h with
  | strategyName h hname =>
    obtain ⟨s, hs⟩ := Strategy.isSome_ofName?_iff.1
      (exists_strategyFor_iff.1 ⟨strategy, hres.strategy_eq⟩ _ h)
    exact hname s hs
  | colorSpaceName h hname =>
    obtain ⟨space, hspace, -⟩ := hres.rule_eq
    obtain ⟨s, hs⟩ := ColorSpace.isSome_ofName?_iff.1 (exists_colorSpace_iff.1 ⟨space, hspace⟩ _ h)
    exact hname s hs
  | default hp h hv => exact exists_fallback_iff.1 ⟨fallback, hres.fallback_eq⟩ ⟨hp, _, h, hv⟩
  | nothingGiven hstops hstrategy hne h =>
    obtain rfl := hunique hstrategy
    have hfallback := (hempty hstops).resolve_left hne
    rw [hres.isSome_fallback, h] at hfallback
    exact Bool.false_ne_true hfallback
  | property hd h =>
    have hproperty := (hcomposite hd).1
    rw [h] at hproperty
    exact Bool.false_ne_true hproperty
  | plainKey hd hs h =>
    obtain ⟨zoom, hzoom, -⟩ := ((hcomposite hd).2 _ hs).1
    rw [Stop.zoom?_of_isZoomed_eq_false h] at hzoom
    exact absurd hzoom (by simp)
  | zoom hd hs h hnan =>
    obtain ⟨zoom, hzoom, hnum⟩ := ((hcomposite hd).2 _ hs).1
    obtain rfl := Option.some.inj (hzoom.symm.trans h)
    exact absurd hnan (by simp [hnum])
  | zoomedKey hd hs hstrategy hne h =>
    obtain rfl := hunique hstrategy
    have hplain := (Strategy.accepts_iff.1 (hsingle hd _ hs)).1 hne
    exact absurd h (by simp [hplain])
  | @number s _ hs hstrategy hscalar h =>
    obtain rfl := hunique hstrategy
    -- keys with zoom are looked at in their level, where the zoom is gone
    have hnumber : s.keyNumber?.isSome := by
      rcases hd : d.isComposite with - | -
      · exact (Strategy.accepts_iff.1 (hsingle hd _ hs)).2 hscalar
      · exact Strategy.accepts_withoutZoom_iff.1 ((hcomposite hd).2 _ hs).2 hscalar
    rw [h] at hnumber
    exact Bool.false_ne_true hnumber

/-- A definition without a fault resolves. -/
theorem exists_resolves_of_not_fault (h : ¬d.Fault p) :
    ∃ strategy rule fallback, d.Resolves p strategy rule fallback := by
  have hstrategy : ∀ name, d.strategyName = some name → (Strategy.ofName? name).isSome := by
    intro name hname
    by_contra hnone
    rw [Strategy.isSome_ofName?_iff, not_exists] at hnone
    exact h (.strategyName hname hnone)
  have hspace : ∀ name, d.colorSpaceName = some name → (ColorSpace.ofName? name).isSome := by
    intro name hname
    by_contra hnone
    rw [ColorSpace.isSome_ofName?_iff, not_exists] at hnone
    exact h (.colorSpaceName hname hnone)
  obtain ⟨strategy, hstrategy⟩ := exists_strategyFor_iff (p := p).2 hstrategy
  obtain ⟨space, hspace⟩ := exists_colorSpace_iff.2 hspace
  obtain ⟨fallback, hfallback⟩ := exists_fallback_iff (d := d) (p := p).2
    fun ⟨hp, v, hv, hread⟩ ↦ h (.default hp hv hread)
  exact ⟨strategy, .ofType space p.type, fallback, hstrategy, ⟨space, hspace, rfl⟩, hfallback⟩

/-- **A definition without a fault compiles.** -/
theorem exists_compile_of_not_fault (h : ¬d.Fault p) : ∃ f, d.compile p = .ok f := by
  obtain ⟨strategy, rule, fallback, hres⟩ := exists_resolves_of_not_fault h
  have hstrategy := strategyFor_eq_ok_iff.1 hres.strategy_eq
  have hnumber : ∀ s ∈ d.stopList, strategy.IsScalar → s.keyNumber?.isSome := by
    intro s hs hscalar
    rw [Option.isSome_iff_ne_none]
    exact fun hnone ↦ h (.number hs hstrategy hscalar hnone)
  refine hres.exists_compile_iff.2 ⟨fun hnil ↦ ?_, fun hd ↦ ⟨?_, fun s hs ↦ ⟨?_, ?_⟩⟩,
    fun hd s hs ↦ ?_⟩
  · by_contra hnothing
    rw [not_or, hres.isSome_fallback, Option.not_isSome_iff_eq_none] at hnothing
    exact h (.nothingGiven hnil hstrategy hnothing.1 hnothing.2)
  · rw [Option.isSome_iff_ne_none]
    exact fun hnone ↦ h (.property hd hnone)
  · rcases hkey : s.key with key | ⟨zoom, value⟩
    · exact absurd (.plainKey hd hs (by rw [hkey]; rfl)) h
    · rw [Stop.hasZoom_zoomed hkey, Bool.eq_false_iff]
      exact fun hnan ↦ h (.zoom hd hs (by rw [Stop.zoom?, hkey]) hnan)
  · exact Strategy.accepts_withoutZoom_iff.2 (hnumber s hs)
  · refine Strategy.accepts_iff.2 ⟨fun hne ↦ ?_, hnumber s hs⟩
    rw [Bool.eq_false_iff]
    exact fun hzoomed ↦ h (.zoomedKey hd hs hstrategy hne hzoomed)

/-- **Compilation fails exactly if the definition has a fault.** -/
theorem compile_error_iff (d : FunctionDefinition α) (p : Property α) :
    (∃ e, d.compile p = .error e) ↔ d.Fault p := by
  rw [not_error_iff]
  constructor
  · intro h
    by_contra hfault
    exact h (exists_compile_of_not_fault hfault)
  · exact Fault.not_exists_compile

end FunctionDefinition

end MapStyle
