import MapStyle.Proofs.Compilation.Nesting
import MapStyle.Proofs.Ramp.Reads
import MapStyle.Scalar.Binary64

/-!
# Evaluation reads what is there

`readEvaluate` evaluates a style function with reads that fail where a ramp has no such stop. It
never fails and gives the value of `evaluate` (`StyleFunction.readEvaluate_eq`). Nothing is asked
of the function for that: its ramps may be empty, their keys in any order, repeated or not numbers.

The functions that a definition compiles to have ramps with stops throughout
(`Compiles.filled`), so the guard against empty ramps never decides there.
-/

namespace MapStyle

variable {α : Type} [Scalar α]

/-! ### Lookups -/

namespace Lookup

/-- Whether the ramp of a lookup rule, if it has one, can be read. -/
def Filled : Lookup α → Prop
  | exponential ramp _ _ => ramp.Filled
  | interval ramp _ => ramp.Filled
  | categorical _ _ => True
  | identity _ => True

/-- The answer along a curve. -/
def readExponential (ramp : Ramp α (Value α)) (base : α) (rule : OutputRule) (input : Value α) :
    Except MissingEntry (Option (Value α)) :=
  match input.number? with
  | none => return none
  | some x => do
    match ← ramp.readPlace x with
    | none => return none
    | some (.at i) =>
      let v ← readEntry ramp.outputs i
      return rule.keep? v
    | some (.between i) =>
      let lo ← readEntry ramp.keys i
      let hi ← readEntry ramp.keys (i + 1)
      let lower ← readEntry ramp.outputs i
      let upper ← readEntry ramp.outputs (i + 1)
      return rule.blend? lower upper (exponentialFactor x base lo hi)

/-- The output of the stop at or below the input, or of the first stop below all. -/
def readInterval (ramp : Ramp α (Value α)) (rule : OutputRule) (input : Value α) :
    Except MissingEntry (Option (Value α)) :=
  match input.number? with
  | none => return none
  | some x => do
    match ← ramp.readPlace x with
    | none => return none
    | some place =>
      let v ← readEntry ramp.outputs place.floor
      return rule.keep? v

/-- The answer of a lookup rule. Only ramps are read by index. -/
def readAnswer : Lookup α → Value α → Except MissingEntry (Option (Value α))
  | exponential ramp base rule, input => readExponential ramp base rule input
  | interval ramp rule, input => readInterval ramp rule input
  | lookup, input => return lookup.answer? input

theorem readExponential_eq (ramp : Ramp α (Value α)) (base : α) (rule : OutputRule)
    (input : Value α) :
    readExponential ramp base rule input = .ok (exponential? ramp base rule input) := by
  rw [readExponential, exponential?]
  rcases input.number? with - | x
  · rfl
  · simp only [Ramp.readPlace_eq, ok_bind, Option.bind_eq_bind, Option.bind_some]
    rcases hplace : ramp.place? x with - | i | i
    · rfl
    · obtain ⟨v, hv⟩ := Ramp.exists_output_of_at hplace
      simp only [Ramp.readEntry_outputs hv, ok_bind, Option.bind_some, hv]
      rfl
    · obtain ⟨lo, hi, v, w, hlo, hhi, hv, hw⟩ := Ramp.exists_stops_of_between hplace
      simp only [Ramp.readEntry_keys hlo, Ramp.readEntry_keys hhi, Ramp.readEntry_outputs hv,
        Ramp.readEntry_outputs hw, ok_bind, Option.bind_some, hlo, hhi, hv, hw]
      rfl

theorem readInterval_eq (ramp : Ramp α (Value α)) (rule : OutputRule) (input : Value α) :
    readInterval ramp rule input = .ok (interval? ramp rule input) := by
  rw [readInterval, interval?]
  rcases input.number? with - | x
  · rfl
  · simp only [Ramp.readPlace_eq, ok_bind, Option.bind_eq_bind, Option.bind_some]
    rcases hplace : ramp.place? x with - | place
    · rfl
    · obtain ⟨-, v, -, hv⟩ := ramp.exists_stop (Ramp.floor_lt_size hplace)
      simp only [Ramp.readEntry_outputs hv, ok_bind, Option.bind_some, hv]
      rfl

theorem readAnswer_eq (lookup : Lookup α) (input : Value α) :
    lookup.readAnswer input = .ok (lookup.answer? input) := by
  cases lookup with
  | exponential ramp base rule => exact readExponential_eq ramp base rule input
  | interval ramp rule => exact readInterval_eq ramp rule input
  | categorical categories rule => rfl
  | identity property => rfl

end Lookup

/-! ### Functions -/

/-- The value for an input. -/
def InputFunction.readEvaluate (f : InputFunction α) (input : Value α) :
    Except MissingEntry (Option (Value α)) := do
  let answer ← f.lookup.readAnswer input
  return answer.or f.fallback

theorem InputFunction.readEvaluate_eq (f : InputFunction α) (input : Value α) :
    f.readEvaluate input = .ok (f.evaluate input) := by
  rw [readEvaluate, Lookup.readAnswer_eq]
  rfl

/-- The value for an optional feature. -/
def SourceFunction.readEvaluate (f : SourceFunction α) (feature : Option (Feature α)) :
    Except MissingEntry (Option (Value α)) :=
  match feature.bind fun g ↦ g.get? f.property with
  | some v => if v.isConcrete then f.ofValue.readEvaluate v else return f.ofValue.fallback
  | none => return f.ofValue.fallback

theorem SourceFunction.readEvaluate_eq (f : SourceFunction α) (feature : Option (Feature α)) :
    f.readEvaluate feature = .ok (f.evaluate feature) := by
  rw [readEvaluate, evaluate]
  rcases feature.bind fun g ↦ g.get? f.property with - | v
  · rfl
  · simp only [InputFunction.readEvaluate_eq]
    split <;> rfl

namespace StyleFunction

/-- The value of the levels of a composite function. The level above is evaluated only if the one
below has a value. -/
def readLevels (levels : Ramp α (SourceFunction α)) (base : α) (rule : OutputRule) (zoom : α)
    (feature : Option (Feature α)) : Except MissingEntry (Option (Value α)) := do
  match ← levels.readPlace zoom with
  | none => return none
  | some (.at i) =>
    let g ← readEntry levels.outputs i
    g.readEvaluate feature
  | some (.between i) =>
    let lo ← readEntry levels.keys i
    let hi ← readEntry levels.keys (i + 1)
    let g ← readEntry levels.outputs i
    let h ← readEntry levels.outputs (i + 1)
    match ← g.readEvaluate feature with
    | none => return none
    | some lower =>
      match ← h.readEvaluate feature with
      | none => return none
      | some upper => return rule.blend? lower upper (exponentialFactor zoom base lo hi)

/-- **The value of a function at a zoom level for an optional feature**, or the read that failed. -/
def readEvaluate (zoom : α) (feature : Option (Feature α)) :
    StyleFunction α → Except MissingEntry (Option (Value α))
  | constant v => return some v
  | camera f _ => f.readEvaluate (.number zoom)
  | source f => f.readEvaluate feature
  | composite levels base rule => readLevels levels base rule zoom feature

theorem readLevels_eq (levels : Ramp α (SourceFunction α)) (base : α) (rule : OutputRule) (zoom : α)
    (feature : Option (Feature α)) :
    readLevels levels base rule zoom feature =
      .ok (evaluateLevels levels base rule zoom feature) := by
  rw [readLevels, evaluateLevels]
  simp only [Ramp.readPlace_eq, ok_bind, Option.bind_eq_bind]
  rcases hplace : levels.place? zoom with - | i | i
  · rfl
  · obtain ⟨g, hg⟩ := Ramp.exists_output_of_at hplace
    simp only [Ramp.readEntry_outputs hg, ok_bind, Option.bind_some, hg,
      SourceFunction.readEvaluate_eq]
  · obtain ⟨lo, hi, g, h, hlo, hhi, hg, hh⟩ := Ramp.exists_stops_of_between hplace
    simp only [Ramp.readEntry_keys hlo, Ramp.readEntry_keys hhi, Ramp.readEntry_outputs hg,
      Ramp.readEntry_outputs hh, ok_bind, Option.bind_some, hlo, hhi, hg, hh,
      SourceFunction.readEvaluate_eq]
    -- All reads have succeeded. What is left is which of the two levels has a value.
    rcases g.evaluate feature with - | lower
    · rfl
    · rcases h.evaluate feature with - | upper <;> rfl

/-- **Evaluation reads only what is there**, whatever the stops of the function. -/
theorem readEvaluate_eq (f : StyleFunction α) (zoom : α) (feature : Option (Feature α)) :
    f.readEvaluate zoom feature = .ok (f.evaluate zoom feature) := by
  cases f with
  | constant v => rfl
  | camera f zooms => exact f.readEvaluate_eq (.number zoom)
  | source f => exact f.readEvaluate_eq feature
  | composite levels base rule => exact readLevels_eq levels base rule zoom feature

/-- **Whether all ramps of a function can be read.** -/
def Filled : StyleFunction α → Prop
  | constant _ => True
  | camera f _ => f.lookup.Filled
  | source f => f.ofValue.lookup.Filled
  | composite levels _ _ => levels.Filled ∧ ∀ level ∈ levels.stops, level.2.ofValue.lookup.Filled

end StyleFunction

/-! ### Compiled functions -/

/-- Stops make a lookup rule that can be read; without stops there must be no ramp. -/
theorem Lookup.OfStops.filled {p : Property α} {base : α} {rule : OutputRule}
    {stops : List (Stop α)} {strategy : Strategy} {lookup : Lookup α}
    (h : OfStops p base rule stops strategy lookup) (hstops : stops = [] → strategy = .identity) :
    lookup.Filled := by
  have hfilled : ∀ {entries : List (α × Value α)}, strategy ≠ .identity →
      List.Forall₂ (ScalarEntry p) stops entries → (Ramp.ofList entries).Filled := by
    intro entries hne hentries
    rw [Ramp.filled_iff, Ramp.size_ofList, ← hentries.length_eq, List.length_pos_iff]
    exact fun hnil ↦ hne (hstops hnil)
  cases h with
  | exponential hentries => exact hfilled (by simp) hentries
  | interval hentries => exact hfilled (by simp) hentries
  | categorical _ => trivial
  | identity => trivial

namespace FunctionDefinition

variable {d : FunctionDefinition α} {p : Property α} {f : StyleFunction α}

theorem stopList_ne_nil (hcomposite : d.isComposite = true) : d.stopList ≠ [] := fun hnil ↦ by
  rw [isComposite_of_stopList_eq_nil hnil] at hcomposite
  exact absurd hcomposite Bool.false_ne_true

/-- Groups make levels that can be read. -/
theorem Level.filled {name : String} {strategy : Strategy} {rule : OutputRule}
    {fallback : Option (Value α)} {groups : List (α × List (Stop α))}
    {levels : List (α × SourceFunction α)} (hgroups : ∀ g ∈ groups, IsGroup g.2)
    (h : List.Forall₂ (Level p name strategy rule fallback) groups levels) :
    ∀ level ∈ levels, level.2.ofValue.lookup.Filled := by
  induction h with
  | nil => exact List.forall_mem_nil _
  | cons hlevel _ ih =>
    rw [List.forall_mem_cons] at hgroups
    obtain ⟨hgroup, hgroups⟩ := hgroups
    obtain ⟨hlookup⟩ := hlevel
    have hhead := hlookup.filled fun hnil ↦ absurd hnil hgroup.ne_nil
    exact List.forall_mem_cons.2 ⟨hhead, ih hgroups⟩

/-- **The ramps of a compiled function have stops**, those of its levels too. -/
theorem Compiles.filled (h : d.Compiles p f) : f.Filled := by
  cases h with
  | constant => trivial
  | camera _ _ hstops _ hlookup => exact hlookup.filled hstops
  | source _ _ hstops _ hlookup => exact hlookup.filled hstops
  | @composite strategy _ _ _ groups levels _ hcomposite _ hgroups hlevels =>
    have hgroup := groupByZoom_isGroup (List.forall_mem_nil _) hgroups
    refine ⟨?_, fun level hlevel ↦ ?_⟩
    · rw [Ramp.filled_iff, Ramp.size_ofList, ← hlevels.length_eq, List.length_pos_iff]
      exact groupByZoom_ne_nil (.inr (stopList_ne_nil hcomposite)) hgroups
    · exact Level.filled hgroup hlevels level (List.mem_toArray.1 hlevel)

/-- **Compilation and evaluation end, and read only what is there.** For any definition and any
property:

* definitions nest one level deep: compiling the levels of a definition as definitions of their own
  needs no greater depth, and gives what `compile` gives, errors included;
* the levels of the result are source functions;
* every ramp of a compiled function has stops, and as many outputs as keys;
* evaluation with reads that fail where there is no entry does not fail, at any zoom level and for
  any feature;
* a place among keys, in order or not, names keys that exist, and no ramp is asked for a key that it
  does not have. -/
theorem compile_reads_existing (d : FunctionDefinition α) (p : Property α) :
    (∀ depth, compileNested p (depth + 1) d = .lift (NestedFunction.ofFunction <$> d.compile p)) ∧
      (∀ depth f, compileNested p (depth + 1) d = .lift (.ok f) →
        ∀ g ∈ f.levels, g.dependence = .source) ∧
      (∀ f, d.compile p = .ok f → f.Filled ∧
        ∀ zoom feature, f.readEvaluate zoom feature = .ok (f.evaluate zoom feature)) ∧
      (∀ (keys : Array α) (x : α), 0 < keys.size →
        (∀ i, Ramp.placeAmong keys x = .at i → i < keys.size) ∧
          ∀ i, Ramp.placeAmong keys x = .between i → i + 1 < keys.size) ∧
      ∀ (ramp : Ramp α (Value α)) (x : α), ramp.readPlace x = .ok (ramp.place? x) := by
  refine ⟨fun depth ↦ compileNested_eq p depth d, ?_, fun f hf ↦ ⟨?_, ?_⟩, ?_, ?_⟩
  · intro depth f hf g hg
    exact dependence_of_mem_levels_compileNested hf hg
  · exact (compile_eq_ok_iff.1 hf).filled
  · exact fun zoom feature ↦ f.readEvaluate_eq zoom feature
  · exact fun keys x hkeys ↦ Ramp.placeAmong_in_range hkeys x
  · exact fun ramp x ↦ ramp.readPlace_eq x

/-- A composite function whose zooms descend, repeat and are out of range; a value of a stop looks
like a zoomed key itself. -/
def disordered : FunctionDefinition Float where
  strategyName := some "categorical"
  property := some "kind"
  base := some 2.0
  default := some (.ofInt 0)
  colorSpaceName := none
  stops := some [⟨.zoomed (1.0 / 0.0) (.str "road"), .ofInt 1⟩,
    ⟨.zoomed 10.0 (.obj [("zoom", .ofInt 1), ("value", .ofInt 2)]), .ofInt 5⟩,
    ⟨.zoomed (-3.0) (.str "road"), .ofInt 2⟩,
    ⟨.zoomed 10.0 (.str "road"), .ofInt 4⟩]

/-- It nests one level deep, its levels are source functions at three zooms, and no read fails at a
zoom level among these, above them all or nowhere. -/
theorem compile_reads_existing_disordered :
    ∃ f, disordered.compile (.ofType .number) = .ok f ∧
      compileNested (.ofType .number) 1 disordered = .lift (.ok (.ofFunction f)) ∧
      (∀ g ∈ (NestedFunction.ofFunction f).levels, g.dependence = .source) ∧
      f.breakpoints.length = 3 ∧ f.Filled ∧
      ∀ zoom ∈ [4.0, 1.0 / 0.0, 0.0 / 0.0], ∀ feature,
        f.readEvaluate zoom feature = .ok (f.evaluate zoom feature) := by
  obtain ⟨hnested, hlevels, hcompiled, -, -⟩ := compile_reads_existing disordered (.ofType .number)
  obtain ⟨hfilled, hreads⟩ := hcompiled _ rfl
  refine ⟨_, rfl, hnested 0, hlevels 0 _ (hnested 0), ?_, hfilled, fun zoom _ ↦ hreads zoom⟩
  rw [StyleFunction.breakpoints, Ramp.keys_ofList]
  rfl

end FunctionDefinition

end MapStyle
