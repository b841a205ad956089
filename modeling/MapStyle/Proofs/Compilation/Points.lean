import MapStyle.Proofs.Compilation.Rules
import MapStyle.Proofs.Output.Shape

/-!
# Stops that are points

A stop with a number for its key and a number for its output is a point. Where all stops of a
definition are points there is little left of compilation: the function has one input
(`isComposite_eq_false_of_points`), its ramp holds the points (`entries_eq_numberStops`), and its
breakpoints are their keys (`plainNumbers_eq_keys`), whatever property it is compiled for.
-/

namespace MapStyle

variable {α : Type} [Scalar α]

/-- **A stop is a point**: key and output are its two numbers. -/
def Stop.IsPoint (s : Stop α) (a : α × α) : Prop :=
  s.number? = some a.1 ∧ s.output.number? = some a.2

variable {p : Property α} {stops : List (Stop α)} {points : List (α × α)}

/-- A number is an output of every property as it is. -/
theorem Property.output_eq_number (p : Property α) {j : Json α} {y : α}
    (h : j.number? = some y) : p.output j = .number y := by
  have hvalue : Value.ofJson j = .number y := by
    rw [← Value.number?_eq_some_iff, Value.number?_ofJson, h]
  rw [Property.output, hvalue]
  split
  · rename_i hstring
    exact absurd hstring (by simp)
  · rfl

/-- The stops of a ramp that points are: numbers at their keys. -/
def numberStops (points : List (α × α)) : List (α × Value α) :=
  points.map fun a ↦ (a.1, .number a.2)

omit [Scalar α] in
theorem map_fst_numberStops (points : List (α × α)) :
    (numberStops points).map Prod.fst = points.map Prod.fst := by
  rw [numberStops, List.map_map]
  rfl

omit [Scalar α] in
theorem getElem?_snd_numberStops {i : Nat} {a : α × α} (ha : points[i]? = some a) :
    ((numberStops points).map Prod.snd)[i]? = some (.number a.2) := by
  rw [numberStops, List.map_map, List.getElem?_map, ha]
  rfl

/-- **The ramp of stops that are points holds the points.** -/
theorem entries_eq_numberStops {entries : List (α × Value α)}
    (h : List.Forall₂ (ScalarEntry p) stops entries)
    (hpoints : List.Forall₂ Stop.IsPoint stops points) : entries = numberStops points := by
  induction h generalizing points with
  | nil =>
    cases hpoints
    rfl
  | @cons s entry _ _ hentry _ ih =>
    obtain ⟨a, rest, ⟨hkey, houtput⟩, hrest, rfl⟩ := List.forall₂_cons_left_iff.1 hpoints
    have hfst : entry.1 = a.1 := Option.some.inj (hentry.1.symm.trans hkey)
    have hsnd : entry.2 = .number a.2 := hentry.2.trans (p.output_eq_number houtput)
    show _ = (a.1, Value.number a.2) :: numberStops rest
    rw [← ih hrest, ← hfst, ← hsnd]

/-- An answer is the value. -/
theorem InputFunction.evaluate_of_answer? {g : InputFunction α} {input v : Value α}
    (h : g.lookup.answer? input = some v) : g.evaluate input = some v := by
  rw [InputFunction.evaluate, h, Option.some_or]

/-- A number of a feature is read like any other input. -/
theorem SourceFunction.evaluate_of_get? {g : SourceFunction α} {feature : Feature α} {x : α}
    (h : feature.get? g.property = some (.number x)) :
    g.evaluate (some feature) = g.ofValue.evaluate (.number x) := by
  rw [SourceFunction.evaluate, Option.bind_some, h]
  exact if_pos rfl

/-! ### Definitions by points -/

namespace FunctionDefinition

variable {d : FunctionDefinition α} {strategy : Strategy} {rule : OutputRule}
  {fallback : Option (Value α)} {lookup : Lookup α} {base : α}

/-- For a property of numbers outputs are numbers. -/
theorem Resolves.rule_eq_number (hres : d.Resolves p strategy rule fallback)
    (hnumber : p.type = .number) : rule = .number := by
  obtain ⟨space, -, rfl⟩ := hres.rule_eq
  rw [hnumber]
  rfl

variable (hpoints : List.Forall₂ Stop.IsPoint d.stopList points)
include hpoints

/-- Points have no zoom in their keys. -/
theorem isComposite_eq_false_of_points : d.isComposite = false := by
  rw [isComposite]
  rcases hstops : d.stopList with - | ⟨s, stops⟩
  · rfl
  · rw [hstops] at hpoints
    obtain ⟨a, -, ⟨hkey, -⟩, -, -⟩ := List.forall₂_cons_left_iff.1 hpoints
    show s.key.isZoomed = false
    rcases hs : s.key with key | ⟨zoom, value⟩
    · rfl
    · rw [Stop.number?, Stop.plain?, hs] at hkey
      exact absurd hkey (by simp)

/-- **A function of numbers that blends points** does so along its base. -/
theorem Resolves.lookup_eq_exponential (hres : d.Resolves p strategy rule fallback)
    (hlookup : Lookup.OfStops p base rule d.stopList strategy lookup) (hnumber : p.type = .number)
    (hstrategy : d.strategyFor p = .ok .exponential) :
    lookup = .exponential (.ofList (numberStops points)) base .number := by
  obtain rfl := hres.rule_eq_number hnumber
  obtain rfl := hres.strategy_unique hstrategy
  cases hlookup with
  | exponential hentries => rw [entries_eq_numberStops hentries hpoints]

end FunctionDefinition

end MapStyle
