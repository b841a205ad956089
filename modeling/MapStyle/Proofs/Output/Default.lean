import MapStyle.Proofs.Composite.TwoAxis
import MapStyle.Proofs.Output.Shape
import MapStyle.Proofs.Scalar.Binary64

/-!
# Reaching the default

A function with a default, its own or that of the property, answers every input of one of its lookup
rules, since each miss falls through to the default. A composite function blends the answers of two
levels, and that blend has no default behind it. So there are exactly two ways to get no value from
a function with a default, both of them between levels, and `Unblended` lists them.

The main statement is `FunctionDefinition.evaluate_eq_none_iff`.
-/

namespace MapStyle

open Scalar (Lawful isNaN)

variable {α : Type} [Scalar α]

/-! ### Functions of one input -/

theorem InputFunction.isSome_evaluate {f : InputFunction α} (h : f.fallback.isSome)
    (input : Value α) : (f.evaluate input).isSome := by
  rw [InputFunction.evaluate, Option.isSome_or, h, Bool.or_true]

/-- **A source function with a fallback has a value for every feature**, and without one. -/
theorem SourceFunction.isSome_evaluate {g : SourceFunction α} (h : g.ofValue.fallback.isSome)
    (feature : Option (Feature α)) : (g.evaluate feature).isSome := by
  rw [SourceFunction.evaluate]
  split
  · split
    · exact InputFunction.isSome_evaluate h _
    · exact h
  · exact h

/-! ### Levels -/

namespace StyleFunction

/-- **Where a composite function has no value though all its levels have one.** -/
inductive Unblended (zoom : α) (feature : Option (Feature α)) : StyleFunction α → Prop where
  /-- What is not a number has no place among several levels. -/
  | not_number {levels : Ramp α (SourceFunction α)} {base : α} {rule : OutputRule}
    (hnan : isNaN zoom = true) (hsize : 1 < levels.size) :
    Unblended zoom feature (.composite levels base rule)
  /-- The values of the levels on either side do not blend. -/
  | between {levels : Ramp α (SourceFunction α)} {base : α} {rule : OutputRule} {i : Nat}
    {g h : SourceFunction α} {lower upper : Value α}
    (hplace : levels.place? zoom = some (.between i)) (hg : levels.output? i = some g)
    (hh : levels.output? (i + 1) = some h) (hlower : g.evaluate feature = some lower)
    (hupper : h.evaluate feature = some upper) (hblend : ¬rule.Blendable lower upper) :
    Unblended zoom feature (.composite levels base rule)

variable {levels : List (α × SourceFunction α)} {base : α} {rule : OutputRule} {zoom : α}
  {feature : Option (Feature α)}

/-- At a level there is nothing to blend. -/
theorem not_unblended_of_at {levels : Ramp α (SourceFunction α)} {i : Nat}
    (hplace : levels.place? zoom = some (.at i)) :
    ¬Unblended zoom feature (.composite levels base rule) := by
  intro h
  cases h with
  | not_number hnan hsize =>
    rw [Ramp.place?_eq_none hnan hsize] at hplace
    exact absurd hplace (by simp)
  | between hplace' =>
    rw [hplace] at hplace'
    exact absurd hplace' (by simp)

/-- Between two levels it is for their values to blend. -/
theorem unblended_iff_of_between {levels : Ramp α (SourceFunction α)} {i : Nat}
    {g h : SourceFunction α} {lower upper : Value α}
    (hplace : levels.place? zoom = some (.between i)) (hg : levels.output? i = some g)
    (hh : levels.output? (i + 1) = some h) (hlower : g.evaluate feature = some lower)
    (hupper : h.evaluate feature = some upper) :
    Unblended zoom feature (.composite levels base rule) ↔ ¬rule.Blendable lower upper := by
  constructor
  · intro hunblended
    cases hunblended with
    | not_number hnan hsize =>
      rw [Ramp.place?_eq_none hnan hsize] at hplace
      exact absurd hplace (by simp)
    | between hplace' hg' hh' hlower' hupper' hblend =>
      cases hplace.symm.trans hplace'
      cases hg.symm.trans hg'
      cases hh.symm.trans hh'
      cases hlower.symm.trans hlower'
      cases hupper.symm.trans hupper'
      exact hblend
  · exact fun hblend ↦ .between hplace hg hh hlower hupper hblend

/-- **Levels that all have a value give none exactly where there is nothing to blend.** -/
theorem evaluateLevels_eq_none_iff (hne : levels ≠ [])
    (hvalue : ∀ level ∈ levels, (level.2.evaluate feature).isSome) :
    evaluateLevels (.ofList levels) base rule zoom feature = none ↔
      Unblended zoom feature (.composite (.ofList levels) base rule) := by
  have hlevel : ∀ i (hi : i < levels.length), ∃ v, levels[i].2.evaluate feature = some v :=
    fun i hi ↦ Option.isSome_iff_exists.1 (hvalue _ (List.getElem_mem hi))
  have hkey : ∀ i (hi : i < levels.length), (levels.map Prod.fst)[i]? = some levels[i].1 :=
    fun i hi ↦ by rw [List.getElem?_map, List.getElem?_eq_getElem hi]; rfl
  have houtput : ∀ i (hi : i < levels.length), (levels.map Prod.snd)[i]? = some levels[i].2 :=
    fun i hi ↦ by rw [List.getElem?_map, List.getElem?_eq_getElem hi]; rfl
  -- The place of the zoom decides which form of `Unblended` is possible.
  rcases hplace : (Ramp.ofList levels).place? zoom with - | i | i
  · obtain ⟨hnan, hlen⟩ := (Ramp.place?_eq_none_iff hne).1 hplace
    exact ⟨fun _ ↦ .not_number hnan hlen, fun _ ↦ evaluateLevels_eq_none hnan hlen⟩
  · have hi : i < levels.length := Ramp.lt_size_of_place? hplace
    obtain ⟨v, hv⟩ := hlevel i hi
    rw [evaluateLevels_of_at hplace (houtput i hi), hv]
    exact iff_of_false (by simp) (not_unblended_of_at hplace)
  · have hi : i + 1 < levels.length := Ramp.succ_lt_size_of_place? hplace
    obtain ⟨lower, hlower⟩ := hlevel i (by omega)
    obtain ⟨upper, hupper⟩ := hlevel (i + 1) hi
    have hg := houtput i (by omega)
    have hh := houtput (i + 1) hi
    rw [evaluateLevels_of_between hplace (hkey i (by omega)) (hkey (i + 1) hi) hg hh, hlower,
      hupper]
    rw [← Ramp.output?_ofList] at hg hh
    rw [unblended_iff_of_between hplace hg hh hlower hupper, ← OutputRule.isSome_blend?_iff,
      Option.not_isSome_iff_eq_none]
    rfl

end StyleFunction

/-! ### Compiled functions -/

namespace FunctionDefinition

variable {d : FunctionDefinition α} {p : Property α} {f : StyleFunction α} {zoom : α}
  {feature : Option (Feature α)}

/-- A default that counts leaves a fallback. -/
theorem isSome_fallback {fallback : Option (Value α)} (hdefault : (d.effectiveDefault p).isSome)
    (h : d.fallback p = .ok fallback) : fallback.isSome := by
  have hrel := fallback_eq_ok_iff.1 h
  revert hdefault hrel
  generalize d.effectiveDefault p = default?
  intro hdefault hrel
  cases hrel with
  | some _ => rfl
  | none => exact hdefault

theorem Level.fallback_eq {name : String} {strategy : Strategy} {rule : OutputRule}
    {fallback : Option (Value α)} {group : α × List (Stop α)} {level : α × SourceFunction α}
    (h : Level p name strategy rule fallback group level) :
    level.2.ofValue.fallback = fallback := by
  obtain ⟨_⟩ := h
  rfl

variable [Lawful α]

/-- **A function with a default has a value wherever its levels blend.** Every miss of a lookup rule
gives the default, at a level too; what is not covered is the step from the levels to the whole. -/
theorem evaluate_eq_none_iff (hf : d.compile p = .ok f)
    (hdefault : (d.effectiveDefault p).isSome) (zoom : α) (feature : Option (Feature α)) :
    f.evaluate zoom feature = none ↔ f.Unblended zoom feature := by
  have hnone : ∀ {v : Option (Value α)} {P : Prop}, v.isSome → ¬P → (v = none ↔ P) :=
    fun hv hp ↦ iff_of_false (Option.isSome_iff_ne_none.1 hv) hp
  cases compile_eq_ok_iff.1 hf with
  | constant => exact hnone rfl fun h ↦ by cases h
  | camera hres =>
    have hfallback := isSome_fallback hdefault hres.fallback_eq
    exact hnone (InputFunction.isSome_evaluate hfallback _) fun h ↦ by cases h
  | source hres =>
    have hfallback := isSome_fallback hdefault hres.fallback_eq
    exact hnone (SourceFunction.isSome_evaluate hfallback feature) fun h ↦ by cases h
  | @composite strategy rule fallback name groups levels hres hcomposite _ hgroups hlevels =>
    obtain ⟨-, rfl⟩ := groupByZoom_eq_ok_iff.1 hgroups
    have hne : levels ≠ [] := fun hnil ↦ zoomLevels_ne_nil hcomposite <| by
      rw [← Level.map_fst_zoomGroups hlevels, hnil]
      rfl
    -- Every level has the fallback of the whole, hence a value.
    refine StyleFunction.evaluateLevels_eq_none_iff hne fun level hlevel ↦ ?_
    obtain ⟨group, hgroup⟩ := exists_forall₂_iff.1 ⟨_, hlevels.flip⟩ level hlevel
    refine SourceFunction.isSome_evaluate ?_ feature
    rw [Level.fallback_eq hgroup]
    exact isSome_fallback hdefault hres.fallback_eq

/-- A composite function whose levels have lists of different lengths. -/
def unequal : FunctionDefinition Float where
  strategyName := some "categorical"
  property := some "kind"
  base := none
  default := none
  colorSpaceName := none
  stops := some [
    ⟨.zoomed 0.0 (.str "road"), .arr [.ofInt 1, .ofInt 2]⟩,
    ⟨.zoomed 10.0 (.str "road"), .arr [.ofInt 1]⟩]

/-- A property of lists of numbers that has a default. -/
def pair : Property Float :=
  ⟨.array .number none, some (.array [.number 0.0, .number 0.0]), [], false⟩

/-- Between two lists of different lengths there is no value, for all that there is a default. -/
theorem evaluate_unequal_eq_none :
    (unequal.effectiveDefault pair).isSome ∧ ∃ f, unequal.compile pair = .ok f ∧
      f.evaluate 5.0 (some ⟨[("kind", .string "road")]⟩) = none := by
  refine ⟨rfl, _, rfl, ?_⟩
  refine (StyleFunction.evaluateLevels_of_between (i := 0)
    (Ramp.place?_of_encloses ?_ ?_ ?_) rfl rfl rfl rfl).trans rfl
  · show Ramp.Ascending #[(0.0 : Float), 10.0]
    exact ⟨by decide, by decide⟩
  · exact ⟨0.0, 10.0, rfl, rfl, by decide, by decide⟩
  · rintro _ ⟨⟩
    decide

/-- Nor is there one at a zoom level that is not a number. -/
theorem evaluate_eq_none_iff_unequal :
    ∃ f, unequal.compile pair = .ok f ∧ (unequal.effectiveDefault pair).isSome ∧
      f.evaluate (0.0 / 0.0) none = none := by
  refine ⟨_, rfl, rfl, ?_⟩
  exact (evaluate_eq_none_iff (d := unequal) (p := pair) rfl rfl (0.0 / 0.0) none).2
    (.not_number (by decide) (by decide))

end FunctionDefinition

end MapStyle
