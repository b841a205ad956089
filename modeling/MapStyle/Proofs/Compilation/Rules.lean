import Mathlib.Data.List.Forall2
import MapStyle.StyleFunction.Compilation

/-!
# The rules of compilation

Compilation may fail at each of its steps. Here it is read as a relation between definitions and
functions instead: every step has a lemma that says on which inputs it succeeds and with what, and
`Compiles` has one rule for each form that a compiled function can take.

## Main statements

* `Lookup.ofStops_eq_ok_iff`, `Lookup.exists_ofStops_iff` — the lookup rule of some stops, and when
  there is one;
* `compile_eq_ok_iff` — a definition compiles to exactly the functions that the rules give.
-/

namespace MapStyle

/-! ### Computations that may fail -/

section Except

variable {ε β γ : Type}

theorem bind_eq_ok_iff {x : Except ε β} {f : β → Except ε γ} {c : γ} :
    x >>= f = .ok c ↔ ∃ b, x = .ok b ∧ f b = .ok c := by
  rcases x with e | b
  · show Except.error e = .ok c ↔ _
    simp
  · refine ⟨fun h ↦ ⟨b, rfl, h⟩, ?_⟩
    rintro ⟨_, ⟨⟩, h⟩
    exact h

theorem map_eq_ok_iff {x : Except ε β} {f : β → γ} {c : γ} :
    x.map f = .ok c ↔ ∃ b, x = .ok b ∧ f b = c := by
  rcases x with e | b
  · show Except.error e = .ok c ↔ _
    simp
  · simp only [Except.map, Except.ok.injEq, exists_eq_left']

theorem pure_eq_ok_iff {b c : β} : (pure b : Except ε β) = .ok c ↔ b = c := by
  show Except.ok b = .ok c ↔ b = c
  rw [Except.ok.injEq]

/-- A list is traversed with success exactly if each element is. -/
theorem mapM_eq_ok_iff {f : β → Except ε γ} {xs : List β} {ys : List γ} :
    xs.mapM f = .ok ys ↔ List.Forall₂ (fun x y ↦ f x = .ok y) xs ys := by
  induction xs generalizing ys with
  | nil => rw [List.mapM_nil, pure_eq_ok_iff, List.forall₂_nil_left_iff, eq_comm]
  | cons x xs ih =>
    rw [List.mapM_cons, bind_eq_ok_iff, List.forall₂_cons_left_iff]
    simp only [bind_eq_ok_iff, pure_eq_ok_iff, ih]
    constructor
    · rintro ⟨y, hy, ys, hys, rfl⟩
      exact ⟨y, ys, hy, hys, rfl⟩
    · rintro ⟨y, ys, hy, hys, rfl⟩
      exact ⟨y, hy, ys, hys, rfl⟩

theorem not_error_iff {x : Except ε β} : (∃ e, x = .error e) ↔ ¬∃ b, x = .ok b := by
  rcases x with e | b <;> simp

end Except

variable {α : Type} [Scalar α]

/-! ### Names and defaults -/

/-- The color that a value is or names. -/
def Value.readColor? : Value α → Option (Color α)
  | color c => some c
  | string s => Color.ofText? s
  | _ => none

theorem Value.asColor_eq_ok_iff {role : ColorRole} {v w : Value α} :
    v.asColor role = .ok w ↔ v.readColor?.map .color = some w := by
  cases v with
  | color c => simp [asColor, readColor?]
  | string s =>
    rcases h : Color.ofText? (α := α) s with - | c <;> simp [asColor, readColor?, h]
  | _ => simp [asColor, readColor?]

/-- What the property needs of a value: the color it names for color properties, else itself. -/
def Property.coerced? (p : Property α) (v : Value α) : Option (Value α) :=
  if p.type = .color then v.readColor?.map .color else some v

theorem Property.coerce_eq_ok_iff {p : Property α} {role : ColorRole} {v w : Value α} :
    p.coerce role v = .ok w ↔ p.coerced? v = some w := by
  rw [coerce, coerced?]
  split
  · exact Value.asColor_eq_ok_iff
  · rw [Except.ok.injEq, Option.some.injEq]

namespace FunctionDefinition

/-- **The default that counts**: that of the definition, or else that of the property. -/
def effectiveDefault (d : FunctionDefinition α) (p : Property α) : Option (Value α) :=
  (d.default.map Value.ofJson).or p.default

/-- **The fallback is the default that counts**, as the property needs it. -/
theorem fallback_eq_ok_iff {d : FunctionDefinition α} {p : Property α}
    {fallback : Option (Value α)} :
    d.fallback p = .ok fallback ↔
      Option.Rel (fun v w ↦ p.coerced? v = some w) (d.effectiveDefault p) fallback := by
  have hmap : ∀ (role : ColorRole) (v : Value α), (p.coerce role v).map some = .ok fallback ↔
      Option.Rel (fun v w ↦ p.coerced? v = some w) (some v) fallback := by
    intro role v
    rw [map_eq_ok_iff]
    simp only [Property.coerce_eq_ok_iff]
    constructor
    · rintro ⟨w, hw, rfl⟩
      exact .some hw
    · rintro ⟨hw⟩
      exact ⟨_, hw, rfl⟩
  rw [FunctionDefinition.fallback, effectiveDefault]
  rcases d.default with - | j
  · rcases p.default with - | v
    · refine ⟨fun h ↦ ?_, fun h ↦ ?_⟩
      · cases h
        exact .none
      · cases h
        rfl
    · exact hmap _ v
  · exact hmap _ (Value.ofJson j)

/-- A fallback is made of a default that counts. -/
theorem exists_of_fallback {d : FunctionDefinition α} {p : Property α} {w : Value α}
    (h : d.fallback p = .ok (some w)) :
    ∃ v, d.effectiveDefault p = some v ∧ p.coerced? v = some w := by
  have hrel := fallback_eq_ok_iff.1 h
  revert hrel
  generalize d.effectiveDefault p = default?
  rintro ⟨hcoerced⟩
  exact ⟨_, rfl, hcoerced⟩

/-- The default that counts is JSON data or the default of the property. -/
theorem effectiveDefault_cases {d : FunctionDefinition α} {p : Property α} {v : Value α}
    (h : d.effectiveDefault p = some v) : (∃ j, v = Value.ofJson j) ∨ p.default = some v := by
  rw [effectiveDefault, Option.or_eq_some_iff] at h
  rcases h with hown | ⟨-, hproperty⟩
  · obtain ⟨j, -, rfl⟩ := Option.map_eq_some_iff.1 hown
    exact .inl ⟨j, rfl⟩
  · exact .inr hproperty

theorem exists_strategyFor_iff {d : FunctionDefinition α} {p : Property α} :
    (∃ s, d.strategyFor p = .ok s) ↔ ∀ name, d.strategyName = some name →
      (Strategy.ofName? name).isSome := by
  rw [strategyFor]
  rcases d.strategyName with - | name
  · simp
  · rcases h : Strategy.ofName? name with - | s <;> simp [h]

theorem exists_colorSpace_iff {d : FunctionDefinition α} :
    (∃ s, d.colorSpace = .ok s) ↔ ∀ name, d.colorSpaceName = some name →
      (ColorSpace.ofName? name).isSome := by
  rw [colorSpace]
  rcases d.colorSpaceName with - | name
  · simp
  · rcases h : ColorSpace.ofName? name with - | s <;> simp [h]

/-- There is a fallback unless the default that counts names no color where it must. -/
theorem exists_fallback_iff {d : FunctionDefinition α} {p : Property α} :
    (∃ fallback, d.fallback p = .ok fallback) ↔
      ¬(p.type = .color ∧ ∃ v, d.effectiveDefault p = some v ∧ v.readColor? = none) := by
  simp only [fallback_eq_ok_iff]
  rcases d.effectiveDefault p with - | v
  · simpa using ⟨none, .none⟩
  · constructor
    · rintro ⟨_, ⟨hw⟩⟩ ⟨hcolor, v', hv, hread⟩
      cases hv
      rw [Property.coerced?, if_pos hcolor, hread] at hw
      exact absurd hw (by simp)
    · intro h
      -- Reading can fail only where a color is needed.
      have hcoerced : ∃ w, p.coerced? v = some w := by
        rw [Property.coerced?]
        split
        · rename_i hcolor
          rw [← Option.isSome_iff_exists, Option.isSome_map, Option.isSome_iff_ne_none]
          exact fun hread ↦ h ⟨hcolor, v, rfl, hread⟩
        · exact ⟨v, rfl⟩
      obtain ⟨w, hw⟩ := hcoerced
      exact ⟨some w, .some hw⟩

end FunctionDefinition

/-! ### Lookup rules -/

theorem Value.number?_ofJson (j : Json α) : (Value.ofJson j).number? = j.number? := by
  cases j <;> rfl

namespace Stop

/-- The data of a plain key. -/
def plain? (s : Stop α) : Option (Json α) :=
  match s.key with
  | .plain key => some key
  | .zoomed _ _ => none

/-- The number that a plain key is. -/
def number? (s : Stop α) : Option α := s.plain?.bind Json.number?

theorem singleKey_eq_ok_iff {i : Nat} {s : Stop α} {v : Value α} :
    s.singleKey i = .ok v ↔ ∃ key, s.plain? = some key ∧ v = Value.ofJson key := by
  rw [singleKey, plain?]
  rcases s.key with key | ⟨zoom, value⟩ <;> simp [eq_comm]

end Stop

/-- An entry of a ramp and the stop it is for. -/
def ScalarEntry (p : Property α) (s : Stop α) (entry : α × Value α) : Prop :=
  s.number? = some entry.1 ∧ entry.2 = p.output s.output

/-- An entry of a category table and the stop it is for. -/
def CategoryEntry (p : Property α) (s : Stop α) (entry : Value α × Value α) : Prop :=
  s.plain?.map Value.ofJson = some entry.1 ∧ entry.2 = p.output s.output

/-- The keys of a ramp are the numbers of its stops. -/
theorem map_fst_of_scalarEntries {p : Property α} {stops : List (Stop α)}
    {entries : List (α × Value α)} (h : List.Forall₂ (ScalarEntry p) stops entries) :
    entries.map Prod.fst = stops.filterMap Stop.number? := by
  induction h with
  | nil => rfl
  | cons hentry _ ih => rw [List.map_cons, ih, List.filterMap_cons_some hentry.1]

/-- What stands at the stops of a ramp are their outputs. -/
theorem map_snd_of_scalarEntries {p : Property α} {stops : List (Stop α)}
    {entries : List (α × Value α)} (h : List.Forall₂ (ScalarEntry p) stops entries) :
    entries.map Prod.snd = stops.map fun s ↦ p.output s.output := by
  induction h with
  | nil => rfl
  | cons hentry _ ih => rw [List.map_cons, List.map_cons, ih, hentry.2]

theorem scalarStops_eq_ok_iff {p : Property α} {strategy : Strategy} {i : Nat}
    {stops : List (Stop α)} {entries : List (α × Value α)} :
    scalarStops p strategy i stops = .ok entries ↔ List.Forall₂ (ScalarEntry p) stops entries := by
  -- The index only names a stop in an error, so the induction leaves it free.
  induction stops generalizing i entries with
  | nil => rw [scalarStops, List.forall₂_nil_left_iff, Except.ok.injEq, eq_comm]
  | cons s stops ih =>
    rw [scalarStops, bind_eq_ok_iff, List.forall₂_cons_left_iff]
    simp only [Stop.singleKey_eq_ok_iff]
    constructor
    · rintro ⟨_, ⟨key, hkey, rfl⟩, h⟩
      rw [Value.number?_ofJson] at h
      rcases hx : key.number? with - | x
      · rw [hx] at h
        exact absurd h (by simp)
      · rw [hx] at h
        dsimp only at h
        obtain ⟨rest, hrest, h⟩ := bind_eq_ok_iff.1 h
        obtain rfl := pure_eq_ok_iff.1 h
        exact ⟨_, rest, ⟨by rw [Stop.number?, hkey, Option.bind_some, hx], rfl⟩, ih.1 hrest, rfl⟩
    · rintro ⟨⟨x, v⟩, rest, ⟨hx, rfl⟩, hrest, rfl⟩
      obtain ⟨key, hkey, hx⟩ := Option.bind_eq_some_iff.1 hx
      refine ⟨_, ⟨key, hkey, rfl⟩, ?_⟩
      rw [Value.number?_ofJson, hx]
      exact bind_eq_ok_iff.2 ⟨rest, ih.2 hrest, rfl⟩

theorem categoryStops_eq_ok_iff {p : Property α} {i : Nat} {stops : List (Stop α)}
    {entries : List (Value α × Value α)} :
    categoryStops p i stops = .ok entries ↔ List.Forall₂ (CategoryEntry p) stops entries := by
  induction stops generalizing i entries with
  | nil => rw [categoryStops, List.forall₂_nil_left_iff, Except.ok.injEq, eq_comm]
  | cons s stops ih =>
    rw [categoryStops, bind_eq_ok_iff, List.forall₂_cons_left_iff]
    simp only [Stop.singleKey_eq_ok_iff, bind_eq_ok_iff, pure_eq_ok_iff, ih]
    constructor
    · rintro ⟨_, ⟨key, hkey, rfl⟩, rest, hrest, rfl⟩
      exact ⟨_, rest, ⟨by rw [hkey, Option.map_some], rfl⟩, hrest, rfl⟩
    · rintro ⟨⟨_, v⟩, rest, ⟨hplain, rfl⟩, hrest, rfl⟩
      obtain ⟨key, hkey, rfl⟩ := Option.map_eq_some_iff.1 hplain
      exact ⟨_, ⟨key, hkey, rfl⟩, rest, hrest, rfl⟩

namespace Lookup

/-- **The lookup rules of some stops**, one for each strategy. -/
inductive OfStops (p : Property α) (base : α) (rule : OutputRule) (stops : List (Stop α)) :
    Strategy → Lookup α → Prop where
  /-- A ramp of numeric keys to blend on. -/
  | exponential {entries : List (α × Value α)} (h : List.Forall₂ (ScalarEntry p) stops entries) :
    OfStops p base rule stops .exponential (.exponential (.ofList entries) base rule)
  /-- A ramp of numeric keys to step on. -/
  | interval {entries : List (α × Value α)} (h : List.Forall₂ (ScalarEntry p) stops entries) :
    OfStops p base rule stops .interval (.interval (.ofList entries) rule)
  /-- A table of plain keys. -/
  | categorical {entries : List (Value α × Value α)}
    (h : List.Forall₂ (CategoryEntry p) stops entries) :
    OfStops p base rule stops .categorical (.categorical (.ofStops entries) rule)
  /-- The coercion of the property, whatever the stops. -/
  | identity : OfStops p base rule stops .identity (.identity p)

variable {p : Property α} {strategy : Strategy} {base : α} {rule : OutputRule}
  {stops : List (Stop α)}

theorem ofStops_eq_ok_iff {lookup : Lookup α} :
    Lookup.ofStops p strategy base rule stops = .ok lookup ↔
      OfStops p base rule stops strategy lookup := by
  cases strategy with
  | exponential =>
    simp only [Lookup.ofStops, bind_eq_ok_iff, pure_eq_ok_iff, scalarStops_eq_ok_iff]
    constructor
    · rintro ⟨entries, h, rfl⟩
      exact .exponential h
    · intro h
      cases h with
      | exponential h => exact ⟨_, h, rfl⟩
  | interval =>
    simp only [Lookup.ofStops, bind_eq_ok_iff, pure_eq_ok_iff, scalarStops_eq_ok_iff]
    constructor
    · rintro ⟨entries, h, rfl⟩
      exact .interval h
    · intro h
      cases h with
      | interval h => exact ⟨_, h, rfl⟩
  | categorical =>
    simp only [Lookup.ofStops, bind_eq_ok_iff, pure_eq_ok_iff, categoryStops_eq_ok_iff]
    constructor
    · rintro ⟨entries, h, rfl⟩
      exact .categorical h
    · intro h
      cases h with
      | categorical h => exact ⟨_, h, rfl⟩
  | identity =>
    rw [Lookup.ofStops, Except.ok.injEq]
    constructor
    · rintro rfl
      exact .identity
    · rintro ⟨⟩
      rfl

end Lookup

/-- What a strategy asks of a stop with a plain key. -/
def Strategy.Accepts (s : Stop α) : Strategy → Prop
  | exponential => s.number?.isSome
  | interval => s.number?.isSome
  | categorical => s.plain?.isSome
  | identity => True

/-- A list is related to some list exactly if each of its elements is related to something. -/
theorem exists_forall₂_iff {β γ : Type} {R : β → γ → Prop} {xs : List β} :
    (∃ ys, List.Forall₂ R xs ys) ↔ ∀ x ∈ xs, ∃ y, R x y := by
  induction xs with
  | nil => simp
  | cons x xs ih =>
    simp only [List.forall₂_cons_left_iff, List.forall_mem_cons, ← ih]
    constructor
    · rintro ⟨_, y, ys, hy, hys, rfl⟩
      exact ⟨⟨y, hy⟩, ys, hys⟩
    · rintro ⟨⟨y, hy⟩, ys, hys⟩
      exact ⟨_, y, ys, hy, hys, rfl⟩

/-- What stands in the same place of a related list is related. -/
theorem exists_getElem?_of_forall₂ {β γ : Type} {R : β → γ → Prop} {xs : List β} {ys : List γ}
    {i : Nat} {y : γ} (h : List.Forall₂ R xs ys) (hy : ys[i]? = some y) :
    ∃ x, xs[i]? = some x ∧ R x y := by
  obtain ⟨hi, rfl⟩ := List.getElem?_eq_some_iff.1 hy
  have hlen : i < xs.length := by rwa [h.length_eq]
  exact ⟨xs[i], List.getElem?_eq_getElem hlen, h.get hlen hi⟩

theorem exists_scalarEntry_iff {p : Property α} {s : Stop α} :
    (∃ entry, ScalarEntry p s entry) ↔ s.number?.isSome := by
  rw [Option.isSome_iff_exists]
  constructor
  · rintro ⟨_, h, -⟩
    exact ⟨_, h⟩
  · rintro ⟨x, h⟩
    exact ⟨(x, p.output s.output), h, rfl⟩

theorem exists_categoryEntry_iff {p : Property α} {s : Stop α} :
    (∃ entry, CategoryEntry p s entry) ↔ s.plain?.isSome := by
  rw [← Option.isSome_map (f := Value.ofJson), Option.isSome_iff_exists]
  constructor
  · rintro ⟨_, h, -⟩
    exact ⟨_, h⟩
  · rintro ⟨v, h⟩
    exact ⟨(v, p.output s.output), h, rfl⟩

/-- **There is a lookup rule if the strategy accepts every stop.** Base, output rule and property
have no say in it. -/
theorem Lookup.exists_ofStops_iff {p : Property α} {strategy : Strategy} {base : α}
    {rule : OutputRule} {stops : List (Stop α)} :
    (∃ lookup, Lookup.ofStops p strategy base rule stops = .ok lookup) ↔
      ∀ s ∈ stops, strategy.Accepts s := by
  simp only [Lookup.ofStops_eq_ok_iff]
  constructor
  · rintro ⟨lookup, h⟩ s hs
    cases h with
    | exponential h =>
      exact exists_scalarEntry_iff.1 (exists_forall₂_iff.1 ⟨_, h⟩ s hs)
    | interval h =>
      exact exists_scalarEntry_iff.1 (exists_forall₂_iff.1 ⟨_, h⟩ s hs)
    | categorical h =>
      exact exists_categoryEntry_iff.1 (exists_forall₂_iff.1 ⟨_, h⟩ s hs)
    | identity => trivial
  · intro h
    cases strategy with
    | exponential =>
      obtain ⟨entries, he⟩ := exists_forall₂_iff.2 fun s hs ↦
        exists_scalarEntry_iff (p := p).2 (h s hs)
      exact ⟨_, .exponential he⟩
    | interval =>
      obtain ⟨entries, he⟩ := exists_forall₂_iff.2 fun s hs ↦
        exists_scalarEntry_iff (p := p).2 (h s hs)
      exact ⟨_, .interval he⟩
    | categorical =>
      obtain ⟨entries, he⟩ := exists_forall₂_iff.2 fun s hs ↦
        exists_categoryEntry_iff (p := p).2 (h s hs)
      exact ⟨_, .categorical he⟩
    | identity => exact ⟨_, .identity⟩

/-! ### Functions -/

namespace FunctionDefinition

variable (d : FunctionDefinition α) (p : Property α)

/-- **What the names and the default of a definition resolve to** for a property. -/
structure Resolves (strategy : Strategy) (rule : OutputRule) (fallback : Option (Value α)) :
    Prop where
  /-- The strategy is the one named, or the one that suits the property. -/
  strategy_eq : d.strategyFor p = .ok strategy
  /-- The output rule is that of the property in the color space of the definition. -/
  rule_eq : ∃ space, d.colorSpace = .ok space ∧ rule = OutputRule.ofType space p.type
  /-- The fallback is the default that counts. -/
  fallback_eq : d.fallback p = .ok fallback

/-- A group of stops and the level that its source function makes of it. -/
inductive Level (name : String) (strategy : Strategy) (rule : OutputRule)
    (fallback : Option (Value α)) : α × List (Stop α) → α × SourceFunction α → Prop where
  /-- The stops are arranged by the strategy, on a straight line if it blends. -/
  | intro {zoom : α} {stops : List (Stop α)} {lookup : Lookup α}
    (h : Lookup.OfStops p 1.0 rule stops strategy lookup) :
    Level name strategy rule fallback (zoom, stops) (zoom, ⟨name, ⟨lookup, fallback⟩⟩)

/-- **The functions that a definition compiles to**, by the form they take. -/
inductive Compiles : StyleFunction α → Prop where
  /-- Without stops there is only the fallback. -/
  | constant {strategy : Strategy} {rule : OutputRule} {v : Value α}
    (hres : d.Resolves p strategy rule (some v)) (hstops : d.stopList = [])
    (hstrategy : strategy ≠ .identity) : Compiles (.constant v)
  /-- Without a property the input is the zoom level. -/
  | camera {strategy : Strategy} {rule : OutputRule} {fallback : Option (Value α)}
    {lookup : Lookup α} (hres : d.Resolves p strategy rule fallback)
    (hsingle : d.isComposite = false) (hstops : d.stopList = [] → strategy = .identity)
    (hname : d.property = none)
    (hlookup : Lookup.OfStops p (d.base.getD 1.0) rule d.stopList strategy lookup) :
    Compiles (.camera ⟨lookup, fallback⟩ d.plainNumbers)
  /-- With a property and plain keys the input is the value of the property. -/
  | source {strategy : Strategy} {rule : OutputRule} {fallback : Option (Value α)}
    {lookup : Lookup α} {name : String} (hres : d.Resolves p strategy rule fallback)
    (hsingle : d.isComposite = false) (hstops : d.stopList = [] → strategy = .identity)
    (hname : d.property = some name)
    (hlookup : Lookup.OfStops p (d.base.getD 1.0) rule d.stopList strategy lookup) :
    Compiles (.source ⟨name, ⟨lookup, fallback⟩⟩)
  /-- With zoomed keys there is a source function for each group of stops. -/
  | composite {strategy : Strategy} {rule : OutputRule} {fallback : Option (Value α)}
    {name : String} {groups : List (α × List (Stop α))} {levels : List (α × SourceFunction α)}
    (hres : d.Resolves p strategy rule fallback) (hcomposite : d.isComposite = true)
    (hname : d.property = some name) (hgroups : groupByZoom 0 [] d.stopList = .ok groups)
    (hlevels : List.Forall₂ (Level p name strategy rule fallback) groups levels) :
    Compiles (.composite (.ofList levels) (d.base.getD 1.0) rule)

variable {d p} {f : StyleFunction α} {strategy : Strategy} {rule : OutputRule}
  {fallback : Option (Value α)}

/-- A function has one strategy. -/
theorem Resolves.strategy_unique {strategy' : Strategy} (hres : d.Resolves p strategy rule fallback)
    (h : d.strategyFor p = .ok strategy') : strategy = strategy' :=
  Except.ok.inj (hres.strategy_eq.symm.trans h)

/-- The plain numeric keys are the numbers of the stops. -/
theorem plainNumbers_eq (d : FunctionDefinition α) :
    d.plainNumbers = d.stopList.filterMap Stop.number? := by
  rw [plainNumbers]
  refine List.filterMap_congr fun s _ ↦ ?_
  rw [Stop.number?, Stop.plain?]
  rcases s.key with key | ⟨zoom, value⟩ <;> rfl

theorem isComposite_of_stopList_eq_nil (h : d.stopList = []) : d.isComposite = false := by
  rw [isComposite, h]
  rfl

theorem compileSingle_eq_ok_iff :
    d.compileSingle p strategy rule fallback = .ok f ↔
      ∃ lookup, Lookup.OfStops p (d.base.getD 1.0) rule d.stopList strategy lookup ∧
        ((d.property = none ∧ .camera ⟨lookup, fallback⟩ d.plainNumbers = f) ∨
          ∃ name, d.property = some name ∧ .source ⟨name, ⟨lookup, fallback⟩⟩ = f) := by
  simp only [compileSingle, bind_eq_ok_iff, Lookup.ofStops_eq_ok_iff]
  rcases d.property with - | name <;> simp [pure_eq_ok_iff]

theorem compileLevels_eq_ok_iff :
    d.compileLevels p strategy rule fallback = .ok f ↔
      ∃ name groups levels, d.property = some name ∧ groupByZoom 0 [] d.stopList = .ok groups ∧
        List.Forall₂ (Level p name strategy rule fallback) groups levels ∧
        f = .composite (.ofList levels) (d.base.getD 1.0) rule := by
  have hlevel : ∀ (name : String) (group : α × List (Stop α)) (level : α × SourceFunction α),
      (do
        let lookup ← Lookup.ofStops p strategy 1.0 rule group.2
        return (group.1, (⟨name, ⟨lookup, fallback⟩⟩ : SourceFunction α)) :
          Except DefinitionError _) = .ok level ↔
      Level p name strategy rule fallback group level := by
    intro name group level
    simp only [bind_eq_ok_iff, pure_eq_ok_iff, Lookup.ofStops_eq_ok_iff]
    constructor
    · rintro ⟨lookup, h, rfl⟩
      exact .intro h
    · rintro ⟨h⟩
      exact ⟨_, h, rfl⟩
  rw [compileLevels]
  rcases d.property with - | name
  · simp
  · simp only [bind_eq_ok_iff, pure_eq_ok_iff, mapM_eq_ok_iff, hlevel]
    constructor
    · rintro ⟨groups, hgroups, levels, hlevels, rfl⟩
      exact ⟨name, groups, levels, rfl, hgroups, hlevels, rfl⟩
    · rintro ⟨_, groups, levels, ⟨⟩, hgroups, hlevels, rfl⟩
      exact ⟨groups, hgroups, levels, hlevels, rfl⟩

/-- A definition with neither stops nor the identity strategy is its fallback. -/
theorem constant_case_iff :
    (d.stopList.isEmpty && strategy != .identity) = true ↔
      d.stopList = [] ∧ strategy ≠ .identity := by
  rw [Bool.and_eq_true, List.isEmpty_iff, bne_iff_ne]

/-- **Compilation with its names resolved**: to the fallback, by levels, or as a single function. -/
theorem Resolves.compile_eq (hres : d.Resolves p strategy rule fallback) :
    d.compile p =
      if d.stopList.isEmpty && strategy != .identity then
        fallback.elim (.error (.noStops strategy)) fun v ↦ .ok (.constant v)
      else if d.isComposite then d.compileLevels p strategy rule fallback
      else d.compileSingle p strategy rule fallback := by
  obtain ⟨space, hspace, rfl⟩ := hres.rule_eq
  rw [compile, hres.strategy_eq, hspace, hres.fallback_eq]
  rcases fallback with - | v <;> rfl

/-- With stops and plain keys a definition compiles to a single function. -/
theorem Resolves.compile_eq_single (hres : d.Resolves p strategy rule fallback)
    (hd : d.isComposite = false) (hstops : d.stopList ≠ []) :
    d.compile p = d.compileSingle p strategy rule fallback := by
  have hempty : d.stopList.isEmpty = false := by rwa [List.isEmpty_eq_false_iff]
  rw [hres.compile_eq, hempty, hd]
  rfl

/-- With zoomed keys a definition compiles to levels. -/
theorem Resolves.compile_eq_levels (hres : d.Resolves p strategy rule fallback)
    (hd : d.isComposite = true) :
    d.compile p = d.compileLevels p strategy rule fallback := by
  have hempty : d.stopList.isEmpty = false := by
    rw [List.isEmpty_eq_false_iff]
    intro hnil
    rw [isComposite_of_stopList_eq_nil hnil] at hd
    exact Bool.false_ne_true hd
  rw [hres.compile_eq, hempty, hd]
  rfl

/-- **What a definition compiles to once its names are resolved**: its fallback, levels, or a single
function. -/
theorem Resolves.compile_iff (hres : d.Resolves p strategy rule fallback) :
    d.compile p = .ok f ↔
      (d.stopList = [] ∧ strategy ≠ .identity ∧ ∃ v, fallback = some v ∧ .constant v = f) ∨
        (d.isComposite = true ∧ d.compileLevels p strategy rule fallback = .ok f) ∨
        (d.isComposite = false ∧ (d.stopList = [] → strategy = .identity) ∧
          d.compileSingle p strategy rule fallback = .ok f) := by
  rw [hres.compile_eq]
  -- Without stops no key has a zoom, so the first form excludes the second.
  by_cases hconstant : d.stopList = [] ∧ strategy ≠ .identity
  · rw [if_pos (constant_case_iff.2 hconstant)]
    obtain ⟨hnil, hne⟩ := hconstant
    rw [isComposite_of_stopList_eq_nil hnil]
    rcases fallback with - | v <;> simp [hnil, hne]
  · have hnil : d.stopList = [] → strategy = .identity := fun hnil ↦
      not_not.1 fun hne ↦ hconstant ⟨hnil, hne⟩
    rw [if_neg (mt constant_case_iff.1 hconstant), or_iff_right fun h ↦ hconstant ⟨h.1, h.2.1⟩]
    rcases d.isComposite with - | -
    · simp [and_iff_right hnil]
    · simp

/-- What compiles has its names resolved. -/
theorem exists_resolves_of_compile (h : d.compile p = .ok f) :
    ∃ strategy rule fallback, d.Resolves p strategy rule fallback := by
  rw [compile] at h
  obtain ⟨strategy, hstrategy, h⟩ := bind_eq_ok_iff.1 h
  obtain ⟨space, hspace, h⟩ := bind_eq_ok_iff.1 h
  obtain ⟨fallback, hfallback, -⟩ := bind_eq_ok_iff.1 h
  exact ⟨strategy, _, fallback, hstrategy, ⟨space, hspace, rfl⟩, hfallback⟩

/-- **A definition compiles to exactly the functions that the rules give.** -/
theorem compile_eq_ok_iff : d.compile p = .ok f ↔ d.Compiles p f := by
  constructor
  · intro h
    obtain ⟨strategy, rule, fallback, hres⟩ := exists_resolves_of_compile h
    obtain ⟨hstops, hne, v, rfl, rfl⟩ | ⟨hcomposite, h⟩ | ⟨hsingle, hstops, h⟩ :=
      hres.compile_iff.1 h
    · exact .constant hres hstops hne
    · obtain ⟨name, groups, levels, hname, hgroups, hlevels, rfl⟩ := compileLevels_eq_ok_iff.1 h
      exact .composite hres hcomposite hname hgroups hlevels
    · obtain ⟨lookup, hlookup, ⟨hname, rfl⟩ | ⟨name, hname, rfl⟩⟩ := compileSingle_eq_ok_iff.1 h
      · exact .camera hres hsingle hstops hname hlookup
      · exact .source hres hsingle hstops hname hlookup
  · intro h
    cases h with
    | constant hres hstops hne => exact hres.compile_iff.2 (.inl ⟨hstops, hne, _, rfl, rfl⟩)
    | camera hres hsingle hstops hname hlookup =>
      exact hres.compile_iff.2 (.inr (.inr ⟨hsingle, hstops,
        compileSingle_eq_ok_iff.2 ⟨_, hlookup, .inl ⟨hname, rfl⟩⟩⟩))
    | source hres hsingle hstops hname hlookup =>
      exact hres.compile_iff.2 (.inr (.inr ⟨hsingle, hstops,
        compileSingle_eq_ok_iff.2 ⟨_, hlookup, .inr ⟨_, hname, rfl⟩⟩⟩))
    | composite hres hcomposite hname hgroups hlevels =>
      exact hres.compile_iff.2 (.inr (.inl ⟨hcomposite,
        compileLevels_eq_ok_iff.2 ⟨_, _, _, hname, hgroups, hlevels, rfl⟩⟩))

end FunctionDefinition

end MapStyle
