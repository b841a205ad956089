import MapStyle.Proofs.Lookup.Places
import MapStyle.Proofs.Output.Dependence
import MapStyle.Scalar.Binary64

/-!
# Strategies that agree

A definition may name any strategy, and two of them may come to the same thing. If they make lookup
rules with the same answers of the same stops (`Strategy.Agrees`), a definition that names one of
them compiles exactly if it does with the other, and the two functions agree: they depend on the
same and have the same values (`Compiles.exists_agreeing`). Everything else that a definition says
is read in one way by both.

Blending and stepping agree wherever values have no blend of their own, since then the lower output
holds (`exponential_agrees_interval`). That is all there is to
`compile_exponential_agrees_interval`, the main statement: stops may be in any order, malformed or
keyed by zoom, and inputs need not be numbers.
-/

namespace MapStyle

variable {α : Type} [Scalar α]

/-! ### Types without a blend -/

/-- **Whether the values of a type have a blend of their own.** -/
def PropertyType.blends : PropertyType → Bool
  | number => true
  | color => true
  | array element _ => decide (element = number)
  | _ => false

/-- The values that have no blend are those that hold. -/
theorem OutputRule.ofType_eq_hold_iff {type : PropertyType} {space : ColorSpace} :
    ofType space type = hold ↔ type.blends = false := by
  cases type with
  | array element length => cases element <;> simp [ofType, PropertyType.blends]
  | _ => simp [ofType, PropertyType.blends]

/-! ### Functions that agree -/

/-- **Two functions agree**: they depend on the same and have the same values. -/
structure StyleFunction.Agree (f g : StyleFunction α) : Prop where
  /-- They depend on the same. -/
  dependence_eq : f.dependence = g.dependence
  /-- They have the same value at every zoom level, for every feature and without one. -/
  evaluate_eq : ∀ zoom feature, f.evaluate zoom feature = g.evaluate zoom feature

/-- Two lookup rules have the same answers. -/
def Lookup.Agree (lookup lookup' : Lookup α) : Prop :=
  ∀ input, lookup.answer? input = lookup'.answer? input

theorem InputFunction.evaluate_of_agree {lookup lookup' : Lookup α} (h : lookup.Agree lookup')
    (fallback : Option (Value α)) (input : Value α) :
    evaluate ⟨lookup, fallback⟩ input = evaluate ⟨lookup', fallback⟩ input := by
  rw [evaluate, evaluate, h input]

/-- A source function is as good as another whose lookup rule has the same answers. -/
theorem SourceFunction.evaluate_of_agree {lookup lookup' : Lookup α} (h : lookup.Agree lookup')
    (name : String) (fallback : Option (Value α)) :
    evaluate ⟨name, ⟨lookup, fallback⟩⟩ = evaluate ⟨name, ⟨lookup', fallback⟩⟩ := by
  funext feature
  simp only [evaluate, InputFunction.evaluate_of_agree h]

namespace StyleFunction

/-- The levels of a composite function, each with its zoom, as what they make of a feature. -/
def levelValues (levels : List (α × SourceFunction α)) :
    List (α × (Option (Feature α) → Option (Value α))) :=
  levels.map fun level ↦ (level.1, level.2.evaluate)

theorem map_fst_levelValues (levels : List (α × SourceFunction α)) :
    (levelValues levels).map Prod.fst = levels.map Prod.fst := by
  rw [levelValues, List.map_map]
  rfl

theorem getElem?_levelValues (levels : List (α × SourceFunction α)) (i : Nat)
    (feature : Option (Feature α)) :
    ((levelValues levels)[i]?).bind (fun level ↦ level.2 feature) =
      ((Ramp.ofList levels).output? i).bind fun g ↦ g.evaluate feature := by
  rw [levelValues, Ramp.output?_ofList, List.getElem?_map, List.getElem?_map]
  rcases levels[i]? with - | level <;> rfl

/-- **What levels make of features is all that counts of them.** -/
theorem evaluateLevels_of_levelValues_eq {levels levels' : List (α × SourceFunction α)}
    (h : levelValues levels = levelValues levels') (base : α) (rule : OutputRule) (zoom : α)
    (feature : Option (Feature α)) :
    evaluateLevels (.ofList levels) base rule zoom feature =
      evaluateLevels (.ofList levels') base rule zoom feature := by
  refine evaluateLevels_congr ?_ fun _ i _ _ ↦ ?_
  · rw [Ramp.keys_ofList, Ramp.keys_ofList, ← map_fst_levelValues, h, map_fst_levelValues]
  · rw [← getElem?_levelValues, h, getElem?_levelValues]

end StyleFunction

/-! ### Strategies that agree -/

/-- **A strategy agrees with another** under an output rule: of whatever stops it makes a lookup
rule, the other makes one with the same answers. -/
def Strategy.Agrees (p : Property α) (rule : OutputRule) (s t : Strategy) : Prop :=
  ∀ base stops lookup, Lookup.OfStops p base rule stops s lookup →
    ∃ lookup', Lookup.OfStops p base rule stops t lookup' ∧ lookup.Agree lookup'

theorem exponential_agrees_interval (p : Property α) :
    Strategy.Agrees p .hold .exponential .interval := by
  intro base stops lookup h
  cases h with
  | @exponential entries hentries =>
    exact ⟨_, .interval hentries, Lookup.exponential?_hold (.ofList entries) base⟩

theorem interval_agrees_exponential (p : Property α) :
    Strategy.Agrees p .hold .interval .exponential := by
  intro base stops lookup h
  cases h with
  | @interval entries hentries =>
    exact ⟨_, .exponential hentries, fun input ↦
      (Lookup.exponential?_hold (.ofList entries) base input).symm⟩

/-! ### Compiled functions -/

namespace FunctionDefinition

/-- The definition with a strategy of our choice. -/
def withStrategy (d : FunctionDefinition α) (s : Strategy) : FunctionDefinition α :=
  { d with strategyName := some s.name }

variable {d : FunctionDefinition α} {p : Property α} {f : StyleFunction α} {s t : Strategy}
  {rule : OutputRule} {fallback : Option (Value α)}

@[simp] theorem strategyFor_withStrategy (d : FunctionDefinition α) (p : Property α)
    (s : Strategy) : (d.withStrategy s).strategyFor p = .ok s := by
  simp only [strategyFor, withStrategy, Strategy.ofName?_name]

/-- The strategy is the one chosen, and all else resolves as it does for any other choice. -/
theorem Resolves.withStrategy {strategy : Strategy}
    (h : (d.withStrategy s).Resolves p strategy rule fallback) (t : Strategy) :
    strategy = s ∧ (d.withStrategy t).Resolves p t rule fallback := by
  have hstrategy := h.strategy_eq
  rw [strategyFor_withStrategy, Except.ok.injEq] at hstrategy
  exact ⟨hstrategy.symm, strategyFor_withStrategy d p t, h.rule_eq, h.fallback_eq⟩

/-- Strategies that agree make levels of the same groups that make the same of features. -/
theorem Level.exists_agreeing (hst : s.Agrees p rule t) {name : String}
    {groups : List (α × List (Stop α))} {levels : List (α × SourceFunction α)}
    (h : List.Forall₂ (Level p name s rule fallback) groups levels) :
    ∃ levels', List.Forall₂ (Level p name t rule fallback) groups levels' ∧
      StyleFunction.levelValues levels = StyleFunction.levelValues levels' := by
  induction h with
  | nil => exact ⟨[], .nil, rfl⟩
  | @cons group _ groups levels hlevel _ ih =>
    obtain ⟨hlookup⟩ := hlevel
    obtain ⟨lookup', hlookup', hagree⟩ := hst _ _ _ hlookup
    obtain ⟨levels', hlevels', hvalues⟩ := ih
    refine ⟨_, .cons (.intro hlookup') hlevels', ?_⟩
    show (_, _) :: StyleFunction.levelValues levels = (_, _) :: StyleFunction.levelValues levels'
    rw [hvalues, SourceFunction.evaluate_of_agree hagree]

/-- **Strategies that agree make functions that agree**, of any definition that one of them can
make a function of. The identity, which asks for no stops, is none of them. -/
theorem Compiles.exists_agreeing (hs : s ≠ .identity) (ht : t ≠ .identity)
    (hst : ∀ space, s.Agrees p (.ofType space p.type) t) (h : (d.withStrategy s).Compiles p f) :
    ∃ g, (d.withStrategy t).Compiles p g ∧ f.Agree g := by
  -- In each form only the lookup rules are exchanged, and the rest of it is handed on.
  cases h with
  | constant hres hstops =>
    obtain ⟨rfl, hres'⟩ := hres.withStrategy t
    exact ⟨_, .constant hres' hstops ht, rfl, fun _ _ ↦ rfl⟩
  | camera hres hsingle hstops hname hlookup =>
    obtain ⟨rfl, hres'⟩ := hres.withStrategy t
    obtain ⟨space, -, rfl⟩ := hres.rule_eq
    obtain ⟨lookup', hlookup', hagree⟩ := hst space _ _ _ hlookup
    exact ⟨_, .camera hres' hsingle (fun hnil ↦ absurd (hstops hnil) hs) hname hlookup', rfl,
      fun zoom _ ↦ InputFunction.evaluate_of_agree hagree _ (.number zoom)⟩
  | source hres hsingle hstops hname hlookup =>
    obtain ⟨rfl, hres'⟩ := hres.withStrategy t
    obtain ⟨space, -, rfl⟩ := hres.rule_eq
    obtain ⟨lookup', hlookup', hagree⟩ := hst space _ _ _ hlookup
    exact ⟨_, .source hres' hsingle (fun hnil ↦ absurd (hstops hnil) hs) hname hlookup', rfl,
      fun _ feature ↦ congrFun (SourceFunction.evaluate_of_agree hagree _ _) feature⟩
  | composite hres hcomposite hname hgroups hlevels =>
    obtain ⟨rfl, hres'⟩ := hres.withStrategy t
    obtain ⟨space, -, rfl⟩ := hres.rule_eq
    obtain ⟨levels', hlevels', hvalues⟩ := Level.exists_agreeing (hst space) hlevels
    exact ⟨_, .composite hres' hcomposite hname hgroups hlevels', rfl,
      StyleFunction.evaluateLevels_of_levelValues_eq hvalues _ _⟩

/-- **Where values have no blend, blending is stepping.** For a property of strings, truth values,
enumerated strings, rich text, images, or lists of anything but numbers, a definition compiles with
the one strategy exactly if it does with the other; the two functions then depend on the same and
have the same value at every zoom level, numbers or not, for every feature and without one. -/
theorem compile_exponential_agrees_interval (hp : p.type.blends = false)
    (d : FunctionDefinition α) :
    ((∃ f, (d.withStrategy .exponential).compile p = .ok f) ↔
      ∃ g, (d.withStrategy .interval).compile p = .ok g) ∧
    ∀ f g, (d.withStrategy .exponential).compile p = .ok f →
      (d.withStrategy .interval).compile p = .ok g →
      f.dependence = g.dependence ∧
        ∀ zoom feature, f.evaluate zoom feature = g.evaluate zoom feature := by
  have hrule : ∀ space, OutputRule.ofType space p.type = .hold := fun _ ↦
    OutputRule.ofType_eq_hold_iff.2 hp
  have hblend : ∀ {f}, (d.withStrategy .exponential).compile p = .ok f →
      ∃ g, (d.withStrategy .interval).compile p = .ok g ∧ f.Agree g := by
    intro f hf
    obtain ⟨g, hg, hagree⟩ := (compile_eq_ok_iff.1 hf).exists_agreeing (t := .interval) (by simp)
      (by simp) fun space ↦ hrule space ▸ exponential_agrees_interval p
    exact ⟨g, compile_eq_ok_iff.2 hg, hagree⟩
  have hstep : ∀ {g}, (d.withStrategy .interval).compile p = .ok g →
      ∃ f, (d.withStrategy .exponential).compile p = .ok f := by
    intro g hg
    obtain ⟨f, hf, -⟩ := (compile_eq_ok_iff.1 hg).exists_agreeing (t := .exponential) (by simp)
      (by simp) fun space ↦ hrule space ▸ interval_agrees_exponential p
    exact ⟨f, compile_eq_ok_iff.2 hf⟩
  constructor
  · constructor
    · rintro ⟨f, hf⟩
      obtain ⟨g, hg, -⟩ := hblend hf
      exact ⟨g, hg⟩
    · rintro ⟨g, hg⟩
      exact hstep hg
  · intro f g hf hg
    obtain ⟨g', hg', hagree⟩ := hblend hf
    obtain rfl : g' = g := Except.ok.inj (hg'.symm.trans hg)
    exact ⟨hagree.dependence_eq, hagree.evaluate_eq⟩

/-- Where a label stands, by zoom level and rank. Neither the zooms nor the ranks are in order. -/
def anchors : FunctionDefinition Float where
  strategyName := none
  property := some "rank"
  base := some 2.0
  default := none
  colorSpaceName := none
  stops := some [⟨.zoomed 10.0 (.ofInt 5), .str "left"⟩, ⟨.zoomed 10.0 (.ofInt 1), .str "right"⟩,
    ⟨.zoomed 2.0 (.ofInt 3), .str "top"⟩]

/-- Anchors are blended as they are stepped: between the zooms, beyond them, and nowhere. -/
theorem compile_exponential_agrees_interval_anchors :
    PropertyType.enumeration.blends = false ∧
      ∃ f g, (anchors.withStrategy .exponential).compile (.ofType .enumeration) = .ok f ∧
        (anchors.withStrategy .interval).compile (.ofType .enumeration) = .ok g ∧
        f.dependence = .composite ∧ f.dependence = g.dependence ∧
        ∀ zoom ∈ [4.0, 1.0 / 0.0, 0.0 / 0.0], ∀ feature,
          f.evaluate zoom feature = g.evaluate zoom feature := by
  obtain ⟨-, hagree⟩ :=
    compile_exponential_agrees_interval (p := (.ofType .enumeration : Property Float)) rfl anchors
  obtain ⟨hdependence, hvalue⟩ := hagree _ _ rfl rfl
  exact ⟨rfl, _, _, rfl, rfl, rfl, hdependence, fun zoom _ ↦ hvalue zoom⟩

end FunctionDefinition

end MapStyle
