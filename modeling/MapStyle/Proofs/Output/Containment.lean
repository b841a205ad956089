import MapStyle.Proofs.Check.Compilation
import MapStyle.Proofs.Compilation.Outputs
import MapStyle.Proofs.Lookup.Places
import MapStyle.Proofs.Output.Dependence
import MapStyle.Proofs.Output.Provenance
import MapStyle.Proofs.Ramp.Reach

/-!
# A bad output is contained

What happens to a function if the output of one stop is replaced by anything else, as data that is
malformed, of another type, or merely wrong? Here are two runs of compilation and evaluation, before
and after.

* **Compilation** does not notice: it fails with the same error or not at all
  (`SameButOutputs.compile_failAlike`).
* **A function of one input** on keys in strict order changes only in the reach of the stop
  (`Ramp.InReach`): from the key before it on and below the key after it.
* **A composite function** has the stop in one of its levels, which may change for every feature. It
  changes only in the reach of that level along zoom.

In each case the reason is that no other input looks at the stop (`Ramp.inReach_of_uses`), and that
answers depend on what is looked at and on nothing else.

The main statement is `FunctionDefinition.evaluate_withOutput`.
-/

namespace MapStyle

open Scalar (Lawful)

variable {α : Type} [Scalar α]

/-! ### Ramps that agree where an input looks -/

/-- **Two ramps have the same for an input**: the same keys, and the same at the stops that the
input looks at. -/
structure Ramp.SameFor {β : Type} (x : α) (r r' : Ramp α β) : Prop where
  /-- They have the same keys. -/
  keys_eq : r.keys = r'.keys
  /-- The same stands at the stops that are looked at. -/
  output?_eq : ∀ place i, r.place? x = some place → place.Uses i → r.output? i = r'.output? i

namespace Ramp.SameFor

variable {β : Type} {x : α} {r r' : Ramp α β}

theorem key?_eq (h : r.SameFor x r') (i : Nat) : r.key? i = r'.key? i := by
  rw [← Ramp.getElem?_keys, ← Ramp.getElem?_keys, h.keys_eq]

theorem place?_eq (h : r.SameFor x r') : r.place? x = r'.place? x := by
  rw [Ramp.place?, Ramp.place?, ← Ramp.size_keys, ← Ramp.size_keys, h.keys_eq]

end Ramp.SameFor

namespace Lookup

variable {x base : α} {rule : OutputRule} {ramp ramp' : Ramp α (Value α)}

theorem exponential?_congr (h : ramp.SameFor x ramp') :
    exponential? ramp base rule (.number x) = exponential? ramp' base rule (.number x) := by
  simp only [exponential?, Value.number?, Option.bind_eq_bind, Option.bind_some, ← h.place?_eq]
  rcases hplace : ramp.place? x with - | i | i
  · rfl
  · simp only [Option.bind_some, h.output?_eq _ i hplace (.at i)]
  · simp only [Option.bind_some, h.key?_eq, h.output?_eq _ i hplace (.lower i),
      h.output?_eq _ (i + 1) hplace (.upper i)]

theorem interval?_congr (h : ramp.SameFor x ramp') :
    interval? ramp rule (.number x) = interval? ramp' rule (.number x) := by
  simp only [interval?, Value.number?, Option.bind_eq_bind, Option.bind_some, ← h.place?_eq]
  rcases hplace : ramp.place? x with - | place
  · rfl
  · simp only [Option.bind_some, h.output?_eq place _ hplace place.uses_floor]

end Lookup

/-! ### Stops with one output replaced -/

/-- The stop with another output. -/
def Stop.withOutput (json : Json α) (s : Stop α) : Stop α := ⟨s.key, json⟩

variable {stops : List (Stop α)} {j : Nat} {json : Json α} {p : Property α}

theorem forall₂_sameKey_modify (stops : List (Stop α)) (j : Nat) (json : Json α) :
    List.Forall₂ Stop.SameKey stops (stops.modify j (Stop.withOutput json)) := by
  induction stops generalizing j with
  | nil =>
    rw [List.modify_nil]
    exact .nil
  | cons s stops ih =>
    cases j with
    | zero =>
      rw [List.modify_zero_cons]
      exact .cons rfl (List.forall₂_same.2 fun _ _ ↦ rfl)
    | succ j =>
      rw [List.modify_succ_cons]
      exact .cons rfl (ih j)

/-- What is read off the keys of some stops does not change with their outputs. -/
theorem filterMap_modify_withOutput {β : Type} {read : Stop α → Option β}
    (hread : ∀ s t : Stop α, s.SameKey t → read s = read t) (stops : List (Stop α)) (j : Nat)
    (json : Json α) :
    (stops.modify j (Stop.withOutput json)).filterMap read = stops.filterMap read := by
  have hstops := forall₂_sameKey_modify stops j json
  generalize stops.modify j (Stop.withOutput json) = stops' at hstops
  induction hstops with
  | nil => rfl
  | cons hst _ ih => rw [List.filterMap_cons, List.filterMap_cons, hread _ _ hst, ih]

theorem number?_eq_of_sameKey (s t : Stop α) (h : s.SameKey t) : s.number? = t.number? := by
  rw [Stop.number?, Stop.number?, Stop.plain?, Stop.plain?, show s.key = t.key from h]

theorem zoom?_eq_of_sameKey (s t : Stop α) (h : s.SameKey t) : s.zoom? = t.zoom? := by
  rw [Stop.zoom?, Stop.zoom?, show s.key = t.key from h]

/-- The outputs of all other stops stay. -/
theorem getElem?_modify_withOutput {i : Nat} (h : i ≠ j) :
    (stops.modify j (Stop.withOutput json))[i]? = stops[i]? :=
  List.getElem?_modify_ne _ _ (Ne.symm h)

/-! ### One input -/

section Single

variable [Lawful α] {entries entries' : List (α × Value α)} {x : α}

/-- **Outside the reach of a stop the ramp has the same** whatever the output of the stop is. -/
theorem Ramp.sameFor_of_not_inReach (h : List.Forall₂ (ScalarEntry p) stops entries)
    (h' : List.Forall₂ (ScalarEntry p) (stops.modify j (Stop.withOutput json)) entries')
    (hkeys : (stops.filterMap Stop.number?).Pairwise (· < ·)) (hlen : 2 ≤ stops.length)
    (hx : ¬Ramp.InReach (stops.filterMap Stop.number?) j x) :
    (Ramp.ofList entries).SameFor x (.ofList entries') := by
  have hfst := map_fst_of_scalarEntries h
  have hfst' := map_fst_of_scalarEntries h'
  rw [filterMap_modify_withOutput number?_eq_of_sameKey] at hfst'
  refine ⟨by rw [Ramp.keys_ofList, Ramp.keys_ofList, hfst, hfst'], fun place i hplace huses ↦ ?_⟩
  -- were stop `j` looked at, the input would be in its reach
  have hij : i ≠ j := by
    rintro rfl
    refine hx ?_
    rw [← hfst] at hkeys ⊢
    exact Ramp.inReach_of_uses hkeys (by rwa [← h.length_eq]) hplace huses
  rw [Ramp.output?_ofList, Ramp.output?_ofList, map_snd_of_scalarEntries h,
    map_snd_of_scalarEntries h', List.getElem?_map, List.getElem?_map,
    getElem?_modify_withOutput hij]

variable {strategy : Strategy} {base : α} {rule : OutputRule} {lookup lookup' : Lookup α}

/-- **A lookup rule that places its input answers the same outside the reach of the stop.** -/
theorem Lookup.answer?_of_not_inReach (hstrategy : strategy.IsScalar)
    (h : Lookup.OfStops p base rule stops strategy lookup)
    (h' : Lookup.OfStops p base rule (stops.modify j (Stop.withOutput json)) strategy lookup')
    (hkeys : (stops.filterMap Stop.number?).Pairwise (· < ·)) (hlen : 2 ≤ stops.length)
    {input : Value α}
    (hinput : ∀ x, input = .number x → ¬Ramp.InReach (stops.filterMap Stop.number?) j x) :
    lookup.answer? input = lookup'.answer? input := by
  rcases hnumber : input.number? with - | x
  · cases h with
    | exponential h =>
      obtain ⟨h'⟩ := h'
      show exponential? _ _ _ _ = exponential? _ _ _ _
      rw [exponential?, exponential?, hnumber]
      rfl
    | interval h =>
      obtain - | ⟨h'⟩ := h'
      show interval? _ _ _ = interval? _ _ _
      rw [interval?, interval?, hnumber]
      rfl
    | categorical => rcases hstrategy with h | h <;> cases h
    | identity => rcases hstrategy with h | h <;> cases h
  · obtain rfl := Value.number?_eq_some_iff.1 hnumber
    have hx := hinput x rfl
    cases h with
    | exponential h =>
      obtain ⟨h'⟩ := h'
      exact exponential?_congr (Ramp.sameFor_of_not_inReach h h' hkeys hlen hx)
    | interval h =>
      obtain - | ⟨h'⟩ := h'
      exact interval?_congr (Ramp.sameFor_of_not_inReach h h' hkeys hlen hx)
    | categorical => rcases hstrategy with h | h <;> cases h
    | identity => rcases hstrategy with h | h <;> cases h

end Single

/-! ### Levels -/

section Levels

/-- The stops of a level that the stop does not stand at stay. -/
theorem levelStops_modify {s : Stop α} {zoom : α} (hs : stops[j]? = some s)
    (hzoom : s.isAt zoom = false) :
    levelStops (stops.modify j (Stop.withOutput json)) zoom = levelStops stops zoom := by
  obtain ⟨before, t, after, rfl, rfl, hmodify⟩ :=
    List.exists_of_modify (Stop.withOutput json) (List.getElem?_eq_some_iff.1 hs).1
  obtain rfl : t = s := by simpa using hs
  have hnew : (t.withOutput json).isAt zoom = false := hzoom
  rw [hmodify, levelStops, levelStops, List.filter_append, List.filter_append,
    List.filter_cons_of_neg (by simp [hnew]), List.filter_cons_of_neg (by simp [hzoom])]

/-- The levels stand at the same zooms. -/
theorem zoomLevels_modify (stops : List (Stop α)) (j : Nat) (json : Json α) :
    zoomLevels (stops.modify j (Stop.withOutput json)) = zoomLevels stops := by
  rw [zoomLevels, zoomLevels, filterMap_modify_withOutput zoom?_eq_of_sameKey]

namespace FunctionDefinition

variable {s : Stop α} {k : Nat} {name : String} {strategy : Strategy} {rule : OutputRule}
  {fallback : Option (Value α)} {levels levels' : List (α × SourceFunction α)} {zoom level : α}

/-- A group of stops makes one level. -/
theorem Level.unique {group : α × List (Stop α)} {a b : α × SourceFunction α}
    (ha : Level p name strategy rule fallback group a)
    (hb : Level p name strategy rule fallback group b) : a = b := by
  obtain ⟨hlookup⟩ := ha
  obtain ⟨hlookup'⟩ := hb
  have hsame := Except.ok.inj
    ((Lookup.ofStops_eq_ok_iff.2 hlookup).symm.trans (Lookup.ofStops_eq_ok_iff.2 hlookup'))
  rw [hsame]

/-- Where two lists of groups are the same, so are their levels. -/
theorem Level.getElem?_eq {groups groups' : List (α × List (Stop α))} {i : Nat}
    (h : List.Forall₂ (Level p name strategy rule fallback) groups levels)
    (h' : List.Forall₂ (Level p name strategy rule fallback) groups' levels')
    (hi : groups[i]? = groups'[i]?) : levels[i]? = levels'[i]? := by
  have hone : ∀ {groups groups' : List (α × List (Stop α))}
      {levels levels' : List (α × SourceFunction α)},
      List.Forall₂ (Level p name strategy rule fallback) groups levels →
      List.Forall₂ (Level p name strategy rule fallback) groups' levels' →
      groups[i]? = groups'[i]? → ∀ level, levels[i]? = some level → levels'[i]? = some level := by
    intro groups groups' levels levels' h h' hi level hlevel
    obtain ⟨group, hgroup, hmakes⟩ := exists_getElem?_of_forall₂ h hlevel
    obtain ⟨level', hlevel', hmakes'⟩ := exists_getElem?_of_forall₂ h'.flip (hi ▸ hgroup)
    rw [hlevel', hmakes'.unique hmakes]
  exact Option.ext fun level ↦ ⟨hone h h' hi level, hone h' h hi.symm level⟩

variable [Lawful α]

/-- A stop stands at one level only. -/
theorem eq_of_isAt {i : Nat} {other : α} (hk : (zoomLevels stops)[k]? = some level)
    (hi : (zoomLevels stops)[i]? = some other) (hlevel : s.isAt level = true)
    (hother : s.isAt other = true) : i = k := by
  obtain ⟨x, hx, hxlevel⟩ := (Option.any_eq_true _ _).1 hlevel
  obtain ⟨y, hy, hyother⟩ := (Option.any_eq_true _ _).1 hother
  obtain rfl : x = y := Option.some.inj (hx.symm.trans hy)
  have hsame : (level == other) = true := Scalar.beq_trans (Scalar.beq_symm hxlevel) hyother
  have hdistinct : (zoomLevels stops).Pairwise fun x y ↦ (y == x) = false := pairwise_eraseDups _
  rcases Nat.lt_trichotomy i k with hlt | heq | hgt
  · have hne := rel_of_pairwise hdistinct hlt hi hk
    exact absurd hsame (by simp [hne])
  · exact heq
  · have hne := rel_of_pairwise hdistinct hgt hk hi
    exact absurd (Scalar.beq_symm hsame) (by simp [hne])

/-- **Outside the reach of the level of a stop the levels have the same.** -/
theorem levels_sameFor (hs : stops[j]? = some s) (hk : (zoomLevels stops)[k]? = some level)
    (hlevel : s.isAt level = true) (hle : (zoomLevels stops).Pairwise (· ≤ ·))
    (hlen : 2 ≤ (zoomLevels stops).length)
    (h : List.Forall₂ (Level p name strategy rule fallback) (zoomGroups stops) levels)
    (h' : List.Forall₂ (Level p name strategy rule fallback)
      (zoomGroups (stops.modify j (Stop.withOutput json))) levels')
    (hzoom : ¬Ramp.InReach (zoomLevels stops) k zoom) :
    (Ramp.ofList levels).SameFor zoom (.ofList levels') := by
  have hfst := Level.map_fst_zoomGroups h
  have hfst' := Level.map_fst_zoomGroups h'
  rw [zoomLevels_modify] at hfst'
  refine ⟨by rw [Ramp.keys_ofList, Ramp.keys_ofList, hfst, hfst'], fun place i hplace huses ↦ ?_⟩
  have hik : i ≠ k := by
    rintro rfl
    refine hzoom ?_
    have hstrict := zoomLevels_strict hle
    rw [← hfst] at hstrict ⊢
    rw [← hfst, List.length_map] at hlen
    exact Ramp.inReach_of_uses hstrict hlen hplace huses
  -- so the level that is looked at has the stops that it had
  have hgroup : (zoomGroups stops)[i]? =
      (zoomGroups (stops.modify j (Stop.withOutput json)))[i]? := by
    rw [zoomGroups, zoomGroups, zoomLevels_modify, List.getElem?_map, List.getElem?_map]
    rcases hi : (zoomLevels stops)[i]? with - | other
    · rfl
    · have hother : s.isAt other = false := by
        rw [Bool.eq_false_iff]
        exact fun hother ↦ hik (eq_of_isAt hk hi hlevel hother)
      rw [Option.map_some, Option.map_some, levelStops_modify hs hother]
  rw [Ramp.output?_ofList, Ramp.output?_ofList, List.getElem?_map, List.getElem?_map,
    Level.getElem?_eq h h' hgroup]

end FunctionDefinition

end Levels

/-! ### Definitions with one output replaced -/

namespace FunctionDefinition

variable {d : FunctionDefinition α} {f g : StyleFunction α} {strategy : Strategy}
  {rule : OutputRule} {fallback : Option (Value α)}

/-- **The definition with another output for stop `j`**, if it has such a stop. -/
def withOutput (d : FunctionDefinition α) (j : Nat) (json : Json α) : FunctionDefinition α :=
  { d with stops := d.stops.map fun stops ↦ stops.modify j (Stop.withOutput json) }

theorem stopList_withOutput (d : FunctionDefinition α) (j : Nat) (json : Json α) :
    (d.withOutput j json).stopList = d.stopList.modify j (Stop.withOutput json) := by
  rw [stopList, stopList, withOutput]
  rcases d.stops with - | stops
  · exact (List.modify_nil _ _).symm
  · rfl

theorem sameButOutputs_withOutput (d : FunctionDefinition α) (j : Nat) (json : Json α) :
    d.SameButOutputs (d.withOutput j json) := by
  refine ⟨rfl, rfl, rfl, rfl, rfl, ?_⟩
  rw [stopList_withOutput]
  exact forall₂_sameKey_modify d.stopList j json

/-- A source function whose lookup rule answers what it is asked for alike has the same value. -/
theorem evaluate_source_congr {name : String} {zoom : α} {feature : Option (Feature α)}
    {lookup lookup' : Lookup α} (hname : d.property = some name)
    (h : ∀ input, d.Asks zoom feature input → lookup.answer? input = lookup'.answer? input) :
    SourceFunction.evaluate ⟨name, ⟨lookup, fallback⟩⟩ feature =
      SourceFunction.evaluate ⟨name, ⟨lookup', fallback⟩⟩ feature := by
  rw [SourceFunction.evaluate, SourceFunction.evaluate]
  rcases hinput : feature.bind fun g ↦ g.get? name with - | input
  · rfl
  · obtain ⟨g, hfeature, hget⟩ := Option.bind_eq_some_iff.1 hinput
    show (if input.isConcrete then _ else _) = if input.isConcrete then _ else _
    split
    · rename_i hconcrete
      rw [InputFunction.evaluate, InputFunction.evaluate,
        h input (.property hname hfeature hget hconcrete)]
    · rfl

variable [Lawful α] {zoom : α} {feature : Option (Feature α)}

/-- **A function of one input changes in the reach of the stop alone.** -/
theorem Resolves.evaluate_single_eq (hres : d.Resolves p strategy rule fallback)
    (hstrategy : strategy.IsScalar) (hd : d.isComposite = false) (hlen : 2 ≤ d.stopList.length)
    (hkeys : d.plainNumbers.Pairwise (· < ·)) (hf : d.compile p = .ok f)
    (hg : (d.withOutput j json).compile p = .ok g)
    (hinput : ∀ x, d.Asks zoom feature (.number x) → ¬Ramp.InReach d.plainNumbers j x) :
    f.evaluate zoom feature = g.evaluate zoom feature := by
  have hsame := d.sameButOutputs_withOutput j json
  have hne : d.stopList ≠ [] := by
    intro hnil
    rw [hnil] at hlen
    exact absurd hlen (by simp)
  have hne' : (d.withOutput j json).stopList ≠ [] := by
    rwa [← List.isEmpty_eq_false_iff, ← hsame.isEmpty_eq, List.isEmpty_eq_false_iff]
  rw [hres.compile_eq_single hd hne] at hf
  rw [(hsame.resolves hres).compile_eq_single (hsame.isComposite_eq ▸ hd) hne'] at hg
  obtain ⟨lookup, hlookup, hf⟩ := compileSingle_eq_ok_iff.1 hf
  obtain ⟨lookup', hlookup', hg⟩ := compileSingle_eq_ok_iff.1 hg
  rw [stopList_withOutput] at hlookup'
  rw [plainNumbers_eq] at hkeys hinput
  -- an input that is asked for and is no number has the same answer anyway
  have hanswer : ∀ input, d.Asks zoom feature input →
      lookup.answer? input = lookup'.answer? input := fun input hasks ↦
    Lookup.answer?_of_not_inReach hstrategy hlookup hlookup' hkeys hlen fun x hx ↦
      hinput x (hx ▸ hasks)
  obtain ⟨hname, rfl⟩ | ⟨name, hname, rfl⟩ := hf
  · obtain ⟨-, rfl⟩ | ⟨name, hname', -⟩ := hg
    · show (lookup.answer? (.number zoom)).or fallback =
        (lookup'.answer? (.number zoom)).or fallback
      rw [hanswer _ (.zoom hname)]
    · exact absurd (hname.symm.trans hname') (by simp)
  · obtain ⟨hname', -⟩ | ⟨name', hname', rfl⟩ := hg
    · exact absurd (hname.symm.trans hname') (by simp)
    · obtain rfl : name = name' := Option.some.inj (hname.symm.trans hname')
      exact evaluate_source_congr hname hanswer

/-- **A composite function changes in the reach of the level of the stop alone.** -/
theorem Resolves.evaluate_levels_eq (hres : d.Resolves p strategy rule fallback)
    (hd : d.isComposite = true) (hlen : 2 ≤ (zoomLevels d.stopList).length)
    (hle : (zoomLevels d.stopList).Pairwise (· ≤ ·)) (hf : d.compile p = .ok f)
    (hg : (d.withOutput j json).compile p = .ok g) {s : Stop α} {k : Nat} {level : α}
    (hs : d.stopList[j]? = some s) (hk : (zoomLevels d.stopList)[k]? = some level)
    (hlevel : s.isAt level = true) (hzoom : ¬Ramp.InReach (zoomLevels d.stopList) k zoom) :
    f.evaluate zoom feature = g.evaluate zoom feature := by
  have hsame := d.sameButOutputs_withOutput j json
  rw [hres.compile_eq_levels hd] at hf
  rw [(hsame.resolves hres).compile_eq_levels (hsame.isComposite_eq ▸ hd)] at hg
  obtain ⟨name, groups, levels, hname, hgroups, hlevels, rfl⟩ := compileLevels_eq_ok_iff.1 hf
  obtain ⟨name', groups', levels', hname', hgroups', hlevels', rfl⟩ := compileLevels_eq_ok_iff.1 hg
  obtain rfl : name = name' := Option.some.inj (hname.symm.trans hname')
  obtain ⟨-, rfl⟩ := groupByZoom_eq_ok_iff.1 hgroups
  obtain ⟨-, rfl⟩ := groupByZoom_eq_ok_iff.1 hgroups'
  rw [stopList_withOutput] at hlevels'
  have hramps := levels_sameFor hs hk hlevel hle hlen hlevels hlevels' hzoom
  refine StyleFunction.evaluateLevels_congr hramps.keys_eq fun place i hplace huses ↦ ?_
  rw [hramps.output?_eq place i hplace huses]

/-- **A bad output is contained.** If the output of stop `j` is replaced by anything else, a
definition fails to compile with the same error or compiles as before. On two or more keys in strict
order a function of one input that blends or steps keeps its value unless the input is a number in
the reach of the stop. On two or more zoom levels in order a composite function keeps its value, for
every feature, unless the zoom is in the reach of the level that the stop stands at. -/
theorem evaluate_withOutput (d : FunctionDefinition α) (p : Property α) (j : Nat) (json : Json α) :
    (∀ e, d.compile p = .error e ↔ (d.withOutput j json).compile p = .error e) ∧
    ∀ f g, d.compile p = .ok f → (d.withOutput j json).compile p = .ok g →
      (d.isComposite = false → (∃ strategy, d.HasStrategy p strategy ∧ strategy.IsScalar) →
        2 ≤ d.stopList.length → d.plainNumbers.Pairwise (· < ·) →
        ∀ zoom feature,
          (∀ x, d.Asks zoom feature (.number x) → ¬Ramp.InReach d.plainNumbers j x) →
          f.evaluate zoom feature = g.evaluate zoom feature) ∧
      (d.isComposite = true → 2 ≤ (zoomLevels d.stopList).length →
        (zoomLevels d.stopList).Pairwise (· ≤ ·) →
        ∀ s k level, d.stopList[j]? = some s → (zoomLevels d.stopList)[k]? = some level →
          s.isAt level = true →
          ∀ zoom feature, ¬Ramp.InReach (zoomLevels d.stopList) k zoom →
            f.evaluate zoom feature = g.evaluate zoom feature) := by
  refine ⟨((d.sameButOutputs_withOutput j json).compile_failAlike p).error_iff,
    fun f g hf hg ↦ ?_⟩
  obtain ⟨strategy, rule, fallback, hres⟩ := exists_resolves_of_compile hf
  refine ⟨fun hd hscalar hlen hkeys zoom feature hinput ↦ ?_,
    fun hd hlen hle s k level hs hk hlevel zoom feature hzoom ↦ ?_⟩
  · obtain ⟨other, hother, hscalar⟩ := hscalar
    obtain rfl := hres.strategy_unique (strategyFor_eq_ok_iff.2 hother)
    exact hres.evaluate_single_eq hscalar hd hlen hkeys hf hg hinput
  · exact hres.evaluate_levels_eq hd hlen hle hf hg hs hk hlevel hzoom

/-- Widths at three zoom levels. -/
def graded : FunctionDefinition Float where
  strategyName := some "exponential"
  property := none
  base := none
  default := none
  colorSpaceName := none
  stops := some [⟨.plain (.ofInt 0), .ofInt 1⟩, ⟨.plain (.ofInt 10), .ofInt 2⟩,
    ⟨.plain (.ofInt 20), .ofInt 3⟩]

/-- Widths at three zoom levels, by the number of lanes. -/
def gradedByLanes : FunctionDefinition Float where
  strategyName := none
  property := some "lanes"
  base := none
  default := none
  colorSpaceName := none
  stops := some [⟨.zoomed 0.0 (.ofInt 1), .ofInt 1⟩, ⟨.zoomed 0.0 (.ofInt 2), .ofInt 2⟩,
    ⟨.zoomed 10.0 (.ofInt 1), .ofInt 3⟩, ⟨.zoomed 20.0 (.ofInt 1), .ofInt 4⟩]

/-- A word in place of the first width, or of a width at the first level, is of no consequence from
the next zoom level on. -/
theorem evaluate_withOutput_graded :
    (∃ f g, graded.compile (.ofType .number) = .ok f ∧
      (graded.withOutput 0 (.str "wide")).compile (.ofType .number) = .ok g ∧
      f.dependence = .camera ∧ f.evaluate 15.0 none = g.evaluate 15.0 none) ∧
    ∃ f g, gradedByLanes.compile (.ofType .number) = .ok f ∧
      (gradedByLanes.withOutput 1 (.str "wide")).compile (.ofType .number) = .ok g ∧
      f.dependence = .composite ∧ ∀ feature, f.evaluate 15.0 feature = g.evaluate 15.0 feature := by
  constructor
  · obtain ⟨-, hcontained⟩ := evaluate_withOutput graded (.ofType .number) 0 (.str "wide")
    obtain ⟨hsingle, -⟩ := hcontained _ _ rfl rfl
    have hkeys : graded.plainNumbers.Pairwise (· < ·) := by
      show [(0.0 : Float), 10.0, 20.0].Pairwise (· < ·)
      decide
    refine ⟨_, _, rfl, rfl, rfl, ?_⟩
    refine hsingle rfl ⟨.exponential, .named rfl, .inl rfl⟩ (by decide) hkeys _ _ ?_
    intro x hasks hreach
    cases hasks with
    | zoom => exact absurd (hreach.after 10.0 rfl) (by decide)
    | property hname => cases hname
  · obtain ⟨-, hcontained⟩ := evaluate_withOutput gradedByLanes (.ofType .number) 1 (.str "wide")
    obtain ⟨-, hlevels⟩ := hcontained _ _ rfl rfl
    have hzooms : (zoomLevels gradedByLanes.stopList).Pairwise (· ≤ ·) := by
      show [(0.0 : Float), 10.0, 20.0].Pairwise (· ≤ ·)
      decide
    refine ⟨_, _, rfl, rfl, rfl, fun feature ↦ ?_⟩
    refine hlevels rfl (by decide) hzooms _ 0 0.0 rfl rfl rfl _ _ fun hreach ↦ ?_
    exact absurd (hreach.after 10.0 rfl) (by decide)

end FunctionDefinition

end MapStyle
