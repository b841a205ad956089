import MapStyle.Proofs.Output.Dependence
import MapStyle.Proofs.Output.Evaluation

/-!
# Concrete values in and out

Features come from outside and may hold anything, also values that are still deferred, at any depth.
None of them has a part in an evaluation, and none comes out of one:

* **in** — a feature whose value of the property is not concrete counts as no feature;
* **out** — whatever a compiled function gives is concrete, provided that the default of its
  property is.

`Value.isConcrete` goes down a value and `Value.Occurs` names a place in it; `isConcrete_iff` says
that they mean the same, by induction over values for one direction and over places for the other.

Of what a value may come from (`FunctionDefinition.Arises.holds`) data is concrete by itself, a
blend is what its two sides are, and only concrete inputs are asked for. That leaves the default of
the property, which nothing checks; the condition on it is there for that.

Nor does anything deferred stand in the tables of a compiled function: their outputs are data, read
once (`FunctionDefinition.Compiles.isConcrete_outputs`).

The main statement is `FunctionDefinition.evaluate_concrete`.
-/

namespace MapStyle

variable {α : Type}

/-! ### Values that occur in a value -/

namespace Value

/-- **A value occurs in another** if it is that value, or occurs in an element of the list or in an
entry of the object that it is. What a deferred value may come to does not occur in it. -/
inductive Occurs (w : Value α) : Value α → Prop where
  /-- In itself. -/
  | here : Occurs w w
  /-- In an element of a list. -/
  | item {v : Value α} {items : List (Value α)} (hv : v ∈ items) (h : Occurs w v) :
    Occurs w (.array items)
  /-- In the value of an entry of an object. -/
  | entry {key : String} {v : Value α} {entries : List (String × Value α)}
    (hv : (key, v) ∈ entries) (h : Occurs w v) : Occurs w (.object entries)

theorem allConcrete_iff {items : List (Value α)} :
    allConcrete items = true ↔ ∀ v ∈ items, v.isConcrete = true := by
  induction items with
  | nil => exact iff_of_true rfl (List.forall_mem_nil _)
  | cons v items ih => rw [allConcrete, Bool.and_eq_true, ih, List.forall_mem_cons]

theorem allEntriesConcrete_iff {entries : List (String × Value α)} :
    allEntriesConcrete entries = true ↔ ∀ e ∈ entries, e.2.isConcrete = true := by
  induction entries with
  | nil => exact iff_of_true rfl (List.forall_mem_nil _)
  | cons e entries ih => rw [allEntriesConcrete, Bool.and_eq_true, ih, List.forall_mem_cons]

/-- What occurs in a concrete value is concrete. -/
theorem Occurs.isConcrete {v w : Value α} (h : Occurs w v) (hv : v.isConcrete = true) :
    w.isConcrete = true := by
  induction h with
  | here => exact hv
  | item hmem _ ih => exact ih (allConcrete_iff.1 hv _ hmem)
  | entry hmem _ ih => exact ih (allEntriesConcrete_iff.1 hv _ hmem)

mutual

/-- A value in which nothing deferred occurs is concrete. -/
theorem isConcrete_of_forall_occurs : (v : Value α) →
    (∀ identity rule, ¬Occurs (.deferred identity rule) v) → v.isConcrete = true
  | .null, _ => rfl
  | .bool _, _ => rfl
  | .number _, _ => rfl
  | .string _, _ => rfl
  | .color _, _ => rfl
  | .collator _, _ => rfl
  | .formatted _, _ => rfl
  | .image _, _ => rfl
  | .array items, h =>
    allConcrete_of_forall_occurs items fun _ hv i r hocc ↦ h i r (.item hv hocc)
  | .object entries, h =>
    allEntriesConcrete_of_forall_occurs entries fun _ he i r hocc ↦ h i r (.entry he hocc)
  | .deferred identity rule, h => absurd .here (h identity rule)

theorem allConcrete_of_forall_occurs : (items : List (Value α)) →
    (∀ v ∈ items, ∀ identity rule, ¬Occurs (.deferred identity rule) v) → allConcrete items = true
  | [], _ => rfl
  | v :: items, h => by
    have hv := isConcrete_of_forall_occurs v (h v List.mem_cons_self)
    have hitems := allConcrete_of_forall_occurs items fun w hw ↦ h w (List.mem_cons_of_mem v hw)
    rw [allConcrete, hv, hitems, Bool.and_self]

theorem allEntriesConcrete_of_forall_occurs : (entries : List (String × Value α)) →
    (∀ e ∈ entries, ∀ identity rule, ¬Occurs (.deferred identity rule) e.2) →
      allEntriesConcrete entries = true
  | [], _ => rfl
  | (key, v) :: entries, h => by
    have hv := isConcrete_of_forall_occurs v (h (key, v) List.mem_cons_self)
    have hentries := allEntriesConcrete_of_forall_occurs entries fun e he ↦
      h e (List.mem_cons_of_mem (key, v) he)
    rw [allEntriesConcrete, hv, hentries, Bool.and_self]

end

/-- **A value is concrete exactly if nothing deferred occurs in it**, at any depth. -/
theorem isConcrete_iff {v : Value α} :
    v.isConcrete = true ↔ ∀ identity rule, ¬Occurs (.deferred identity rule) v := by
  constructor
  · intro hv identity rule hocc
    exact Bool.false_ne_true (hocc.isConcrete hv)
  · exact isConcrete_of_forall_occurs v

theorem isConcrete_numbers (xs : List α) : (array (xs.map number)).isConcrete = true := by
  refine allConcrete_iff.2 fun v hv ↦ ?_
  obtain ⟨x, -, rfl⟩ := List.mem_map.1 hv
  rfl

end Value

variable [Scalar α]

/-! ### Tables -/

/-- The outputs that stand in the table of a lookup rule. -/
def Lookup.outputs : Lookup α → List (Value α)
  | exponential ramp _ _ => ramp.stops.toList.map Prod.snd
  | interval ramp _ => ramp.stops.toList.map Prod.snd
  | categorical categories _ => categories.entries.map Prod.snd
  | identity _ => []

/-- **The functions of one input that a function is made of**: that of the zoom level, or those of
its source functions. -/
def StyleFunction.inputs : StyleFunction α → List (InputFunction α)
  | camera f _ => [f]
  | f => f.sources.map SourceFunction.ofValue

/-- Outputs are data, and colors that texts in it name. -/
theorem Property.isConcrete_output (p : Property α) (j : Json α) :
    (p.output j).isConcrete = true :=
  Value.holdsOfData_isConcrete.output p j

/-- **The table of some stops holds concrete outputs**, whatever the strategy. -/
theorem Lookup.OfStops.isConcrete_outputs {p : Property α} {base : α} {rule : OutputRule}
    {stops : List (Stop α)} {strategy : Strategy} {lookup : Lookup α}
    (h : Lookup.OfStops p base rule stops strategy lookup) :
    ∀ v ∈ lookup.outputs, v.isConcrete = true := by
  have hramp : ∀ {entries : List (α × Value α)}, List.Forall₂ (ScalarEntry p) stops entries →
      ∀ v ∈ entries.map Prod.snd, v.isConcrete = true := by
    intro entries hentries v hv
    rw [map_snd_of_scalarEntries hentries] at hv
    obtain ⟨s, -, rfl⟩ := List.mem_map.1 hv
    exact p.isConcrete_output s.output
  cases h with
  | exponential hentries => exact hramp hentries
  | interval hentries => exact hramp hentries
  | categorical hentries =>
    refine List.forall_mem_map.2 <|
      Categories.forall_ofStops (P := fun v ↦ v.isConcrete = true) fun entry hentry ↦ ?_
    obtain ⟨s, hs⟩ := exists_forall₂_iff.1 ⟨_, hentries.flip⟩ entry hentry
    rw [hs.2]
    exact p.isConcrete_output s.output
  | identity => exact fun v hv ↦ absurd hv List.not_mem_nil

/-! ### Blends and inputs -/

/-- **A blend of concrete values is concrete.** Only the rule that holds a value hands one on. -/
theorem OutputRule.isConcrete_blend? {rule : OutputRule} {lower upper v : Value α} {t : α}
    (hlower : lower.isConcrete = true) (h : rule.blend? lower upper t = some v) :
    v.isConcrete = true := by
  cases blend?_eq_some_iff.1 h with
  | number => rfl
  | color => rfl
  | numbers => exact Value.isConcrete_numbers _
  | hold => exact hlower

/-- **A source function gives its fallback where the property is not concrete**, as it does without
a feature. -/
theorem SourceFunction.evaluate_of_not_concrete {g : SourceFunction α} {feature : Feature α}
    {w : Value α} (hw : feature.get? g.property = some w) (hconcrete : w.isConcrete = false) :
    g.evaluate (some feature) = g.evaluate none := by
  have hfallback : g.evaluate (some feature) = g.ofValue.fallback := by
    rw [SourceFunction.evaluate, Option.bind_some, hw]
    simp only [hconcrete, Bool.false_eq_true, if_false]
  exact hfallback

/-! ### Compiled functions -/

namespace FunctionDefinition

variable {d : FunctionDefinition α} {p : Property α} {f : StyleFunction α}

/-- Every function of one input that a compiled function is made of arranges some stops. -/
theorem Compiles.ofStops_of_mem (h : d.Compiles p f) {g : InputFunction α} (hg : g ∈ f.inputs) :
    ∃ strategy rule base stops, Lookup.OfStops p base rule stops strategy g.lookup := by
  have hsource : g ∈ f.sources.map SourceFunction.ofValue →
      ∃ strategy rule base stops, Lookup.OfStops p base rule stops strategy g.lookup := by
    intro hg
    obtain ⟨source, hmem, rfl⟩ := List.mem_map.1 hg
    obtain ⟨-, strategy, rule, base, stops, -, hlookup⟩ := h.source_of_mem hmem
    exact ⟨strategy, rule, base, stops, hlookup⟩
  cases f with
  | camera f zooms =>
    obtain rfl := List.mem_singleton.1 hg
    cases h with
    | camera _ _ _ _ hlookup => exact ⟨_, _, _, _, hlookup⟩
  | constant v => exact hsource hg
  | source f => exact hsource hg
  | composite levels base rule => exact hsource hg

/-- **No table of a compiled function holds anything deferred**, at any of its levels. -/
theorem Compiles.isConcrete_outputs (h : d.Compiles p f) {g : InputFunction α}
    (hg : g ∈ f.inputs) : ∀ v ∈ g.lookup.outputs, v.isConcrete = true := by
  obtain ⟨_, _, _, _, hlookup⟩ := h.ofStops_of_mem hg
  exact hlookup.isConcrete_outputs

/-- What a definition asks for is concrete. -/
theorem Asks.isConcrete {zoom : α} {feature : Option (Feature α)} {input : Value α}
    (h : d.Asks zoom feature input) : input.isConcrete = true := by
  cases h with
  | zoom => rfl
  | property _ _ _ hconcrete => exact hconcrete

/-- **Every value that a compiled function gives is concrete.** -/
theorem Compiles.isConcrete_evaluate (h : d.Compiles p f)
    (hdefault : ∀ v, p.default = some v → v.isConcrete = true) (zoom : α)
    (feature : Option (Feature α)) (v : Value α) (hv : f.evaluate zoom feature = some v) :
    v.isConcrete = true := by
  obtain ⟨_, _, _, _, harises⟩ := h.arises hv
  refine harises.holds Value.holdsOfData_isConcrete hdefault (fun _ ↦ Asks.isConcrete) ?_
  exact fun _ _ _ _ _ hlower _ ↦ OutputRule.isConcrete_blend? hlower

/-- **Nothing deferred gets in or out.** If the default of the property is concrete or absent, every
value that a compiled function gives is concrete, whatever the feature holds. And a feature with a
value of the property in which something deferred occurs has the value that no feature has. -/
theorem evaluate_concrete (hdefault : ∀ v, p.default = some v → v.isConcrete = true)
    (hf : d.compile p = .ok f) (zoom : α) :
    (∀ feature v, f.evaluate zoom feature = some v → v.isConcrete = true) ∧
      ∀ (feature : Feature α) (name : String) (w : Value α) (identity : Nat)
        (rule : DeferredRule (Value α)), d.property = some name → feature.get? name = some w →
        Value.Occurs (.deferred identity rule) w →
        f.evaluate zoom (some feature) = f.evaluate zoom none := by
  have hcompiles := compile_eq_ok_iff.1 hf
  refine ⟨hcompiles.isConcrete_evaluate hdefault zoom, ?_⟩
  intro feature name w identity rule hname hw hoccurs
  have hconcrete : w.isConcrete = false := by
    rw [Bool.eq_false_iff]
    exact fun hw ↦ Value.isConcrete_iff.1 hw identity rule hoccurs
  refine StyleFunction.evaluate_congr fun g hg ↦ ?_
  have hproperty : some g.property = some name := (hcompiles.source_of_mem hg).1.symm.trans hname
  rw [← Option.some.inj hproperty] at hw
  exact SourceFunction.evaluate_of_not_concrete hw hconcrete

/-- The tags of a feature, as they are. -/
def tags : FunctionDefinition Float where
  strategyName := some "identity"
  property := some "tags"
  base := none
  default := none
  colorSpaceName := none
  stops := none

/-- A property of lists of strings with a default. -/
def untagged : Property Float :=
  ⟨.array .string none, some (.array [.string "untagged"]), [], false⟩

/-- Tags with a deferred value in an object in a list. -/
def deferredTags : Value Float :=
  .array [.string "road", .object [("since", .deferred 0 .zoom)]]

/-- Tags that are concrete come out as they are, and tags with something deferred deep inside give
the default, which is what comes out without a feature. -/
theorem evaluate_concrete_tags :
    (∀ v, untagged.default = some v → v.isConcrete = true) ∧
      Value.Occurs (.deferred 0 .zoom) deferredTags ∧
      ∃ f, tags.compile untagged = .ok f ∧
        (∃ v, f.evaluate 3.0 (some ⟨[("tags", .array [.string "road"])]⟩) = some v ∧
          v.isConcrete = true) ∧
        f.evaluate 3.0 (some ⟨[("tags", deferredTags)]⟩) = f.evaluate 3.0 none := by
  have hdefault : ∀ v, untagged.default = some v → v.isConcrete = true := by
    intro v hv
    cases hv
    rfl
  have hentry : Value.Occurs (.deferred 0 .zoom)
      (.object [("since", .deferred 0 .zoom)] : Value Float) :=
    .entry (List.mem_singleton_self _) .here
  have hoccurs : Value.Occurs (.deferred 0 .zoom) deferredTags :=
    .item (List.mem_cons_of_mem _ (List.mem_singleton_self _)) hentry
  obtain ⟨hout, hin⟩ := evaluate_concrete hdefault (d := tags) rfl 3.0
  exact ⟨hdefault, hoccurs, _, rfl,
    ⟨_, rfl, hout (some ⟨[("tags", .array [.string "road"])]⟩) _ rfl⟩,
    hin ⟨[("tags", deferredTags)]⟩ "tags" deferredTags 0 .zoom rfl rfl hoccurs⟩

end FunctionDefinition

end MapStyle
