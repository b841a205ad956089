import MapStyle.Proofs.Check.Compilation
import MapStyle.Proofs.Output.Shape

/-!
# Where values come from

An evaluation makes no value out of nothing. What a compiled function gives (`Arises`) is its
fallback, an output of the definition that may be handed out, its input coerced, or a blend: of two
outputs, or in a composite function of two values that have arisen in turn. What it blends by is
always the share of the way between two neighbours in one of its tables of keys (`BlendsBy`).

* **There are no other origins** (`FunctionDefinition.Compiles.arises`): an evaluation is followed
  through its lookup rules and its levels once and for all.
* **What holds of the origins and is kept by blending holds of every value**
  (`FunctionDefinition.Arises.holds`). Definitions are JSON data and name colors by texts, so of
  what they contribute it is enough to look at those (`Value.HoldsOfData`).
-/

namespace MapStyle

variable {α : Type} [Scalar α]

/-! ### Origins -/

/-- **A factor by which a function blends**: the share of the way of an input between two neighbours
in a table of keys, on the curve of a base or on a straight line. -/
inductive StyleFunction.BlendsBy (f : StyleFunction α) (base : α) : α → Prop where
  /-- The table, the neighbours, and the curve between them. -/
  | intro {keys : Array α} {i : Nat} {x lo hi curve : α} (hkeys : keys ∈ f.keyTables)
    (hplace : Ramp.placeAmong keys x = .between i) (hlo : keys[i]? = some lo)
    (hhi : keys[i + 1]? = some hi) (hcurve : curve = base ∨ curve = 1.0) :
    BlendsBy f base (exponentialFactor x curve lo hi)

namespace FunctionDefinition

/-- **An input that a definition asks for**: the zoom level if it names no property, else the value
of the property that it names, which has to be concrete. -/
inductive Asks (d : FunctionDefinition α) (zoom : α) (feature : Option (Feature α)) :
    Value α → Prop where
  /-- The zoom level. -/
  | zoom (hname : d.property = none) : Asks d zoom feature (.number zoom)
  /-- The value of the property. -/
  | property {name : String} {g : Feature α} {input : Value α} (hname : d.property = some name)
    (hfeature : feature = some g) (hget : g.get? name = some input)
    (hconcrete : input.isConcrete = true) : Asks d zoom feature input

/-- **A value arises in an evaluation** of a compiled function. -/
inductive Arises (d : FunctionDefinition α) (p : Property α) (f : StyleFunction α)
    (rule : OutputRule) (zoom : α) (feature : Option (Feature α)) : Value α → Prop where
  /-- It is the fallback. -/
  | fallback {v : Value α} (h : d.fallback p = .ok (some v)) : Arises d p f rule zoom feature v
  /-- It is an output that may be handed out. -/
  | output {j : Json α} (h : rule.allows (p.output j) = true) :
    Arises d p f rule zoom feature (p.output j)
  /-- It is the input, coerced. -/
  | coerced {input v : Value α} (hstrategy : d.strategyFor p = .ok .identity)
    (hinput : d.Asks zoom feature input) (h : Lookup.identity? p input = some v) :
    Arises d p f rule zoom feature v
  /-- It is the blend of two outputs, whether or not they may be handed out themselves. -/
  | blend {j k : Json α} {t : α} {v : Value α} (ht : f.BlendsBy (d.base.getD 1.0) t)
    (h : rule.blend? (p.output j) (p.output k) t = some v) : Arises d p f rule zoom feature v
  /-- It is the blend of the values of two levels. -/
  | levels {lower upper : Value α} {t : α} {v : Value α} (ht : f.BlendsBy (d.base.getD 1.0) t)
    (hlower : Arises d p f rule zoom feature lower) (hupper : Arises d p f rule zoom feature upper)
    (h : rule.blend? lower upper t = some v) : Arises d p f rule zoom feature v

end FunctionDefinition

theorem Ramp.blendsBy {β : Type} {r : Ramp α β} {f : StyleFunction α} {base curve x lo hi : α}
    {i : Nat} (hkeys : r.keys ∈ f.keyTables) (hcurve : curve = base ∨ curve = 1.0)
    (hplace : r.place? x = some (.between i)) (hlo : r.key? i = some lo)
    (hhi : r.key? (i + 1) = some hi) : f.BlendsBy base (exponentialFactor x curve lo hi) :=
  .intro hkeys (Ramp.placeAmong_of_place? hplace).2 ((r.getElem?_keys i).trans hlo)
    ((r.getElem?_keys (i + 1)).trans hhi) hcurve

/-! ### Outputs of tables -/

section Outputs

variable {p : Property α} {stops : List (Stop α)}

/-- What stands in the table of some stops is an output. -/
theorem ScalarEntry.exists_output {entries : List (α × Value α)}
    (h : List.Forall₂ (ScalarEntry p) stops entries) {i : Nat} {v : Value α}
    (hv : (Ramp.ofList entries).output? i = some v) : ∃ j, v = p.output j := by
  obtain ⟨entry, hentry, rfl⟩ := Option.map_eq_some_iff.1 hv
  have hmem : entry ∈ entries := List.mem_of_getElem? (List.getElem?_toArray.symm.trans hentry)
  obtain ⟨s, -, hs⟩ := exists_forall₂_iff.1 ⟨_, h.flip⟩ entry hmem
  exact ⟨s.output, hs⟩

namespace Categories

variable {P : Value α → Prop} {entries : List (Category α × Value α)}

/-- What holds of the outputs so far and of the new one holds after it is set. -/
theorem forall_insert {key : Category α} {output : Value α} (houtput : P output)
    (h : ∀ e ∈ entries, P e.2) : ∀ e ∈ insert key output entries, P e.2 := by
  induction entries with
  | nil =>
    rw [insert, List.forall_mem_singleton]
    exact houtput
  | cons e entries ih =>
    obtain ⟨he, hentries⟩ := List.forall_mem_cons.1 h
    rw [insert]
    split
    · exact List.forall_mem_cons.2 ⟨houtput, hentries⟩
    · exact List.forall_mem_cons.2 ⟨he, ih hentries⟩

theorem forall_addStop {stop : Value α × Value α} (hstop : P stop.2) (h : ∀ e ∈ entries, P e.2) :
    ∀ e ∈ addStop entries stop, P e.2 := by
  rw [addStop]
  split
  · exact forall_insert hstop h
  · exact h

/-- **What holds of the outputs of all stops holds of those of their table.** -/
theorem forall_ofStops {stops : List (Value α × Value α)} (h : ∀ stop ∈ stops, P stop.2) :
    ∀ e ∈ (ofStops stops).entries, P e.2 := by
  suffices hrun : ∀ entries : List (Category α × Value α), (∀ e ∈ entries, P e.2) →
      ∀ e ∈ stops.foldl addStop entries, P e.2 from hrun [] (List.forall_mem_nil _)
  induction stops with
  | nil => exact fun entries hentries ↦ hentries
  | cons stop stops ih =>
    obtain ⟨hstop, hstops⟩ := List.forall_mem_cons.1 h
    exact fun entries hentries ↦ ih hstops _ (forall_addStop hstop hentries)

theorem exists_of_lookup? {t : Categories α} {input v : Value α} (h : t.lookup? input = some v) :
    ∃ e ∈ t.entries, e.2 = v := by
  rw [lookup?] at h
  split at h
  · obtain ⟨key, -, hfind⟩ := Option.bind_eq_some_iff.1 h
    obtain ⟨e, he, rfl⟩ := Option.map_eq_some_iff.1 hfind
    exact ⟨e, List.mem_of_find?_eq_some he, rfl⟩
  · exact absurd h (by simp)

end Categories

/-- What a table of categories answers is an output. -/
theorem CategoryEntry.exists_output {entries : List (Value α × Value α)}
    (h : List.Forall₂ (CategoryEntry p) stops entries) {input v : Value α}
    (hv : (Categories.ofStops entries).lookup? input = some v) : ∃ j, v = p.output j := by
  obtain ⟨e, he, rfl⟩ := Categories.exists_of_lookup? hv
  refine Categories.forall_ofStops (P := fun v ↦ ∃ j, v = p.output j) (fun entry hentry ↦ ?_) e he
  obtain ⟨s, -, hs⟩ := exists_forall₂_iff.1 ⟨_, h.flip⟩ entry hentry
  exact ⟨s.output, hs⟩

end Outputs

/-! ### Answers and values -/

theorem InputFunction.evaluate_cases {f : InputFunction α} {input v : Value α}
    (h : f.evaluate input = some v) : f.lookup.answer? input = some v ∨ f.fallback = some v := by
  rw [InputFunction.evaluate, Option.or_eq_some_iff] at h
  exact h.imp_right And.right

/-- A source function gives the value for the concrete value of its property or its fallback. -/
theorem SourceFunction.evaluate_cases {g : SourceFunction α} {feature : Option (Feature α)}
    {v : Value α} (h : g.evaluate feature = some v) :
    (∃ h' input, feature = some h' ∧ h'.get? g.property = some input ∧ input.isConcrete = true ∧
      g.ofValue.evaluate input = some v) ∨ g.ofValue.fallback = some v := by
  rw [SourceFunction.evaluate] at h
  split at h
  · rename_i input hget
    split at h
    · obtain ⟨h', rfl, hget⟩ := Option.bind_eq_some_iff.1 hget
      exact .inl ⟨h', input, rfl, hget, ‹_›, h⟩
    · exact .inr h
  · exact .inr h

namespace FunctionDefinition

variable {d : FunctionDefinition α} {p : Property α} {f : StyleFunction α} {rule : OutputRule}
  {strategy : Strategy} {fallback : Option (Value α)} {zoom base : α}
  {feature : Option (Feature α)} {lookup : Lookup α} {stops : List (Stop α)} {input v : Value α}

/-- What blends on a ramp hands out an output or a blend of two. -/
theorem arises_exponential? {entries : List (α × Value α)}
    (hentries : List.Forall₂ (ScalarEntry p) stops entries)
    (hkeys : (Ramp.ofList entries).keys ∈ f.keyTables)
    (hbase : base = d.base.getD 1.0 ∨ base = 1.0)
    (hv : Lookup.exponential? (.ofList entries) base rule input = some v) :
    d.Arises p f rule zoom feature v := by
  obtain ⟨x, -, hv⟩ := Option.bind_eq_some_iff.1 hv
  obtain ⟨place, hplace, hv⟩ := Option.bind_eq_some_iff.1 hv
  cases place with
  | «at» i =>
    obtain ⟨w, hw, hkeep⟩ := Option.bind_eq_some_iff.1 hv
    obtain ⟨rfl, hallows⟩ := OutputRule.keep?_eq_some_iff.1 hkeep
    obtain ⟨j, rfl⟩ := ScalarEntry.exists_output hentries hw
    exact .output hallows
  | between i =>
    obtain ⟨lo, hlo, hv⟩ := Option.bind_eq_some_iff.1 hv
    obtain ⟨hi, hhi, hv⟩ := Option.bind_eq_some_iff.1 hv
    obtain ⟨lower, hlower, hv⟩ := Option.bind_eq_some_iff.1 hv
    obtain ⟨upper, hupper, hblend⟩ := Option.bind_eq_some_iff.1 hv
    obtain ⟨j, rfl⟩ := ScalarEntry.exists_output hentries hlower
    obtain ⟨k, rfl⟩ := ScalarEntry.exists_output hentries hupper
    exact .blend (Ramp.blendsBy hkeys hbase hplace hlo hhi) hblend

/-- **What a lookup rule answers arises**, if its tables are searched by the function and its input
is asked for. -/
theorem arises_answer? (hlookup : Lookup.OfStops p base rule stops strategy lookup)
    (hstrategy : d.strategyFor p = .ok strategy) (hbase : base = d.base.getD 1.0 ∨ base = 1.0)
    (hkeys : ∀ keys ∈ lookup.keyTables, keys ∈ f.keyTables) (hinput : d.Asks zoom feature input)
    (hv : lookup.answer? input = some v) : d.Arises p f rule zoom feature v := by
  cases hlookup with
  | exponential hentries =>
    exact arises_exponential? hentries (hkeys _ (List.mem_singleton_self _)) hbase hv
  | interval hentries =>
    obtain ⟨x, -, hv⟩ := Option.bind_eq_some_iff.1 hv
    obtain ⟨place, -, hv⟩ := Option.bind_eq_some_iff.1 hv
    obtain ⟨w, hw, hkeep⟩ := Option.bind_eq_some_iff.1 hv
    obtain ⟨rfl, hallows⟩ := OutputRule.keep?_eq_some_iff.1 hkeep
    obtain ⟨j, rfl⟩ := ScalarEntry.exists_output hentries hw
    exact .output hallows
  | categorical hentries =>
    obtain ⟨w, hw, hkeep⟩ := Option.bind_eq_some_iff.1 hv
    obtain ⟨rfl, hallows⟩ := OutputRule.keep?_eq_some_iff.1 hkeep
    obtain ⟨j, rfl⟩ := CategoryEntry.exists_output hentries hw
    exact .output hallows
  | identity => exact .coerced hstrategy hinput hv

theorem Resolves.arises_input (hres : d.Resolves p strategy rule fallback)
    (hlookup : Lookup.OfStops p base rule stops strategy lookup)
    (hbase : base = d.base.getD 1.0 ∨ base = 1.0)
    (hkeys : ∀ keys ∈ lookup.keyTables, keys ∈ f.keyTables) (hinput : d.Asks zoom feature input)
    (hv : InputFunction.evaluate ⟨lookup, fallback⟩ input = some v) :
    d.Arises p f rule zoom feature v := by
  rcases InputFunction.evaluate_cases hv with hanswer | rfl
  · exact arises_answer? hlookup hres.strategy_eq hbase hkeys hinput hanswer
  · exact .fallback hres.fallback_eq

theorem Resolves.arises_source (hres : d.Resolves p strategy rule fallback)
    (hlookup : Lookup.OfStops p base rule stops strategy lookup)
    (hbase : base = d.base.getD 1.0 ∨ base = 1.0)
    (hkeys : ∀ keys ∈ lookup.keyTables, keys ∈ f.keyTables) {name : String}
    (hname : d.property = some name)
    (hv : SourceFunction.evaluate ⟨name, ⟨lookup, fallback⟩⟩ feature = some v) :
    d.Arises p f rule zoom feature v := by
  rcases SourceFunction.evaluate_cases hv with ⟨g, input, hfeature, hget, hconcrete, hv⟩ | rfl
  · exact hres.arises_input hlookup hbase hkeys (.property hname hfeature hget hconcrete) hv
  · exact .fallback hres.fallback_eq

/-- Levels whose values arise give values that arise. -/
theorem arises_evaluateLevels {levels : Ramp α (SourceFunction α)}
    (hkeys : levels.keys ∈ f.keyTables)
    (hlevel : ∀ i g v, levels.output? i = some g → g.evaluate feature = some v →
      d.Arises p f rule zoom feature v)
    (hv : StyleFunction.evaluateLevels levels (d.base.getD 1.0) rule zoom feature = some v) :
    d.Arises p f rule zoom feature v := by
  obtain ⟨place, hplace, hv⟩ := Option.bind_eq_some_iff.1 hv
  cases place with
  | «at» i =>
    obtain ⟨g, hg, hv⟩ := Option.bind_eq_some_iff.1 hv
    exact hlevel i g v hg hv
  | between i =>
    obtain ⟨lo, hlo, hv⟩ := Option.bind_eq_some_iff.1 hv
    obtain ⟨hi, hhi, hv⟩ := Option.bind_eq_some_iff.1 hv
    obtain ⟨g, hg, hv⟩ := Option.bind_eq_some_iff.1 hv
    obtain ⟨lower, hlower, hv⟩ := Option.bind_eq_some_iff.1 hv
    obtain ⟨g', hg', hv⟩ := Option.bind_eq_some_iff.1 hv
    obtain ⟨upper, hupper, hblend⟩ := Option.bind_eq_some_iff.1 hv
    exact .levels (Ramp.blendsBy hkeys (.inl rfl) hplace hlo hhi) (hlevel i g lower hg hlower)
      (hlevel (i + 1) g' upper hg' hupper) hblend

/-- **Every value that a compiled function gives arises.** -/
theorem Compiles.arises (h : d.Compiles p f) (hv : f.evaluate zoom feature = some v) :
    ∃ strategy rule fallback, d.Resolves p strategy rule fallback ∧
      d.Arises p f rule zoom feature v := by
  cases h with
  | constant hres =>
    rw [StyleFunction.evaluate] at hv
    exact ⟨_, _, _, hres, .fallback (hv ▸ hres.fallback_eq)⟩
  | camera hres _ _ hname hlookup =>
    exact ⟨_, _, _, hres, hres.arises_input hlookup (.inl rfl) (fun _ ↦ id) (.zoom hname) hv⟩
  | source hres _ _ hname hlookup =>
    exact ⟨_, _, _, hres, hres.arises_source hlookup (.inl rfl) (fun _ ↦ id) hname hv⟩
  | @composite strategy rule fallback name groups levels hres _ hname _ hlevels =>
    refine ⟨_, _, _, hres, arises_evaluateLevels List.mem_cons_self (fun i g w hg hw ↦ ?_) hv⟩
    obtain ⟨level, hlevel, rfl⟩ := Option.map_eq_some_iff.1 hg
    have hmem : level ∈ levels := List.mem_of_getElem? (List.getElem?_toArray.symm.trans hlevel)
    obtain ⟨_, hgroup⟩ := exists_forall₂_iff.1 ⟨_, hlevels.flip⟩ level hmem
    cases hgroup with
    | intro hlookup =>
      refine hres.arises_source hlookup (.inr rfl) (fun keys hkeys ↦ ?_) hname hw
      exact List.mem_cons_of_mem _ (List.mem_flatMap.2 ⟨_, hmem, hkeys⟩)

end FunctionDefinition

/-! ### What holds of all values -/

/-- **A property of values that holds of data**: of JSON data and of all that is made of texts. -/
structure Value.HoldsOfData (P : Value α → Prop) : Prop where
  /-- It holds of JSON data. -/
  json : ∀ j, P (.ofJson j)
  /-- It holds of the colors that texts name. -/
  color : ∀ (s : String) (c : Color α), Color.ofText? s = some c → P (.color c)
  /-- It holds of rich texts. -/
  formatted : ∀ f, P (.formatted f)
  /-- It holds of image references. -/
  image : ∀ i, P (.image i)

namespace Value.HoldsOfData

variable {P : Value α → Prop} {p : Property α} {v w : Value α}

/-- It holds of the outputs of a property. -/
theorem output (h : HoldsOfData P) (p : Property α) (j : Json α) : P (p.output j) := by
  rw [Property.output]
  split
  · rename_i s _ _
    rcases hcolor : Color.ofText? (α := α) s with - | c
    · exact h.json (.str s)
    · exact h.color s c hcolor
  · exact h.json j

/-- It holds of a coerced input if it does of the input. -/
theorem identity? (h : HoldsOfData P) (hv : P v) (hw : Lookup.identity? p v = some w) : P w := by
  revert hw
  fun_cases Lookup.identity? p v with
  | case1 | case4 | case6 =>
    -- the input has the type already
    intro hw
    exact Option.some.inj hw ▸ hv
  | case2 s =>
    intro hw
    obtain ⟨c, hc, rfl⟩ := Option.map_eq_some_iff.1 hw
    exact h.color _ c hc
  | case3 | case9 =>
    intro hw
    exact absurd hw (by simp)
  | case5 =>
    intro hw
    exact Option.some.inj hw ▸ h.formatted _
  | case7 =>
    intro hw
    obtain ⟨i, -, rfl⟩ := Option.map_eq_some_iff.1 hw
    exact h.image i
  | case8 =>
    -- it suits the property as it is
    intro hw
    exact Option.some.inj hw ▸ hv

/-- It holds of a coerced default if it does of the default. -/
theorem coerced? (h : HoldsOfData P) (hv : P v) (hw : p.coerced? v = some w) : P w := by
  rw [Property.coerced?] at hw
  split at hw
  · obtain ⟨c, hc, rfl⟩ := Option.map_eq_some_iff.1 hw
    cases v with
    | color c' => exact Option.some.inj hc ▸ hv
    | string s => exact h.color s c hc
    | _ => cases hc
  · exact Option.some.inj hw ▸ hv

end Value.HoldsOfData

namespace FunctionDefinition

variable {d : FunctionDefinition α} {p : Property α} {f : StyleFunction α} {rule : OutputRule}
  {zoom : α} {feature : Option (Feature α)} {v : Value α}

/-- **What holds of data, of the default of the property and of the inputs, and is kept by blending,
holds of every value that arises.** -/
theorem Arises.holds {P : Value α → Prop} (hdata : Value.HoldsOfData P)
    (hdefault : ∀ v, p.default = some v → P v)
    (hinput : ∀ input, d.Asks zoom feature input → P input)
    (hblend : ∀ lower upper t v, f.BlendsBy (d.base.getD 1.0) t → P lower → P upper →
      rule.blend? lower upper t = some v → P v)
    (h : d.Arises p f rule zoom feature v) : P v := by
  induction h with
  | fallback hfallback =>
    obtain ⟨w, heffective, hcoerced⟩ := exists_of_fallback hfallback
    refine hdata.coerced? ?_ hcoerced
    rcases effectiveDefault_cases heffective with ⟨j, rfl⟩ | hproperty
    · exact hdata.json j
    · exact hdefault w hproperty
  | output => exact hdata.output p _
  | coerced _ hasked hcoerced => exact hdata.identity? (hinput _ hasked) hcoerced
  | blend ht h => exact hblend _ _ _ _ ht (hdata.output p _) (hdata.output p _) h
  | levels ht _ _ h ihlower ihupper => exact hblend _ _ _ _ ht ihlower ihupper h

end FunctionDefinition

end MapStyle
