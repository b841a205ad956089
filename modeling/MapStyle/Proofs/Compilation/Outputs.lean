import MapStyle.Proofs.Compilation.Rules

/-!
# Compilation does not look at outputs

The output of a stop may be anything: if it does not suit the property it becomes a miss, and only
where an evaluation reaches it. So two definitions that differ in the outputs of their stops at most
(`SameButOutputs`) compile alike, with **the same error or with none** (`compile_failAlike`).

The proof goes along the steps of compilation, in two runs at once: as long as both runs have come
to data that differs in outputs only, the next step fails in both or in neither.
-/

namespace MapStyle

/-! ### Two runs -/

/-- **Two computations fail alike**: with the same error, or neither of them fails and what they
come to is related. -/
inductive FailAlike {ε β γ : Type} (R : β → γ → Prop) : Except ε β → Except ε γ → Prop where
  /-- Both fail for the same reason. -/
  | error (e : ε) : FailAlike R (.error e) (.error e)
  /-- Both come to something. -/
  | ok {b : β} {c : γ} (h : R b c) : FailAlike R (.ok b) (.ok c)

namespace FailAlike

variable {ε β γ β' γ' : Type} {R : β → γ → Prop} {S : β' → γ' → Prop} {x : Except ε β}
  {y : Except ε γ}

theorem error_iff (h : FailAlike R x y) (e : ε) : x = .error e ↔ y = .error e := by
  cases h with
  | error e' => rw [Except.error.injEq, Except.error.injEq]
  | ok => simp

/-- If one of them comes to something, so does the other. -/
theorem exists_of_ok {b : β} (h : FailAlike R x y) (hx : x = .ok b) : ∃ c, y = .ok c ∧ R b c := by
  cases h with
  | error => exact absurd hx (by simp)
  | ok hbc => exact ⟨_, rfl, Except.ok.inj hx ▸ hbc⟩

/-- Equal computations fail alike. -/
theorem of_eq {x' : Except ε β} (h : x = x') : FailAlike Eq x x' := by
  subst h
  rcases x with e | b
  · exact .error e
  · exact .ok rfl

/-- **Steps that fail alike from related data on are joined to runs that fail alike.** -/
theorem bind (h : FailAlike R x y) {f : β → Except ε β'} {g : γ → Except ε γ'}
    (hstep : ∀ b c, R b c → FailAlike S (f b) (g c)) : FailAlike S (x >>= f) (y >>= g) := by
  cases h with
  | error e => exact .error e
  | ok hbc => exact hstep _ _ hbc

/-- Two lists that are related element by element are traversed alike. -/
theorem mapM {xs : List β} {ys : List γ} (h : List.Forall₂ R xs ys) {f : β → Except ε β'}
    {g : γ → Except ε γ'} (hstep : ∀ b c, R b c → FailAlike S (f b) (g c)) :
    FailAlike (List.Forall₂ S) (xs.mapM f) (ys.mapM g) := by
  induction h with
  | nil => exact .ok .nil
  | cons hxy _ ih =>
    rw [List.mapM_cons, List.mapM_cons]
    refine (hstep _ _ hxy).bind fun b c hbc ↦ ih.bind fun bs cs hbcs ↦ ?_
    exact .ok (.cons hbc hbcs)

end FailAlike

variable {α : Type} [Scalar α]

/-! ### Stops with the same keys -/

/-- Two stops with the same key. -/
def Stop.SameKey (s t : Stop α) : Prop := s.key = t.key

/-- Two groups of stops with the same zoom and the same keys. -/
def SameGroup (group group' : α × List (Stop α)) : Prop :=
  group.1 = group'.1 ∧ List.Forall₂ Stop.SameKey group.2 group'.2

variable {p : Property α} {strategy : Strategy} {i : Nat} {stops stops' : List (Stop α)}

theorem Stop.SameKey.singleKey_eq {s t : Stop α} (h : s.SameKey t) (i : Nat) :
    s.singleKey i = t.singleKey i := by
  rw [Stop.singleKey, Stop.singleKey, show s.key = t.key from h]

theorem scalarStops_failAlike (h : List.Forall₂ Stop.SameKey stops stops') :
    FailAlike (fun _ _ ↦ True) (scalarStops p strategy i stops)
      (scalarStops p strategy i stops') := by
  induction h generalizing i with
  | nil => exact .ok trivial
  | @cons s t stops stops' hst _ ih =>
    rw [scalarStops, scalarStops, hst.singleKey_eq i]
    -- from here on both runs have the same key, and an output comes in only where nothing can fail
    refine (FailAlike.of_eq rfl).bind fun key _ hkey ↦ ?_
    subst hkey
    rcases key.number? with - | x
    · exact .error _
    · exact ih.bind fun _ _ _ ↦ .ok trivial

theorem categoryStops_failAlike (h : List.Forall₂ Stop.SameKey stops stops') :
    FailAlike (fun _ _ ↦ True) (categoryStops p i stops) (categoryStops p i stops') := by
  induction h generalizing i with
  | nil => exact .ok trivial
  | @cons s t stops stops' hst _ ih =>
    rw [categoryStops, categoryStops, hst.singleKey_eq i]
    refine (FailAlike.of_eq rfl).bind fun _ _ _ ↦ ih.bind fun _ _ _ ↦ .ok trivial

/-- **The lookup rule of some stops** is there or not whatever their outputs are. -/
theorem Lookup.ofStops_failAlike {base : α} {rule : OutputRule}
    (h : List.Forall₂ Stop.SameKey stops stops') :
    FailAlike (fun _ _ ↦ True) (Lookup.ofStops p strategy base rule stops)
      (Lookup.ofStops p strategy base rule stops') := by
  cases strategy with
  | exponential => exact (scalarStops_failAlike h).bind fun _ _ _ ↦ .ok trivial
  | interval => exact (scalarStops_failAlike h).bind fun _ _ _ ↦ .ok trivial
  | categorical => exact (categoryStops_failAlike h).bind fun _ _ _ ↦ .ok trivial
  | identity => exact .ok trivial

theorem addToLevel_sameGroup {levels levels' : List (α × List (Stop α))} {s t : Stop α}
    (h : List.Forall₂ SameGroup levels levels') (zoom : α) (hst : s.SameKey t) :
    List.Forall₂ SameGroup (addToLevel zoom s levels) (addToLevel zoom t levels') := by
  induction h with
  | nil => exact .cons ⟨rfl, .cons hst .nil⟩ .nil
  | @cons level level' levels levels' hlevel hlevels ih =>
    obtain ⟨z, stops⟩ := level
    obtain ⟨z', stops'⟩ := level'
    obtain ⟨hz, hstops⟩ := hlevel
    obtain rfl : z = z' := hz
    rw [addToLevel, addToLevel]
    split
    · exact .cons ⟨rfl, List.rel_append hstops (.cons hst .nil)⟩ hlevels
    · exact .cons ⟨rfl, hstops⟩ ih

/-- **Grouping fails alike**, and the groups differ in outputs at most. -/
theorem groupByZoom_failAlike {levels levels' : List (α × List (Stop α))}
    (hlevels : List.Forall₂ SameGroup levels levels')
    (h : List.Forall₂ Stop.SameKey stops stops') :
    FailAlike (List.Forall₂ SameGroup) (groupByZoom i levels stops)
      (groupByZoom i levels' stops') := by
  induction h generalizing i levels levels' with
  | nil => exact .ok hlevels
  | @cons s t stops stops' hst _ ih =>
    have hkey : s.key = t.key := hst
    rw [groupByZoom, groupByZoom, ← hkey]
    rcases s.key with key | ⟨zoom, value⟩
    · exact .error _
    · show FailAlike _ (if Scalar.isNaN zoom then _ else _) (if Scalar.isNaN zoom then _ else _)
      split
      · exact .error _
      · exact ih (addToLevel_sameGroup hlevels zoom rfl)

/-! ### Definitions -/

namespace FunctionDefinition

/-- **Two definitions that differ in the outputs of their stops at most.** -/
structure SameButOutputs (d d' : FunctionDefinition α) : Prop where
  /-- They name the same strategy or none. -/
  strategyName : d.strategyName = d'.strategyName
  /-- They read the same property or none. -/
  property : d.property = d'.property
  /-- They have the same base or none. -/
  base : d.base = d'.base
  /-- They have the same default or none. -/
  default : d.default = d'.default
  /-- They name the same color space or none. -/
  colorSpaceName : d.colorSpaceName = d'.colorSpaceName
  /-- Their stops have the same keys. -/
  stops : List.Forall₂ Stop.SameKey d.stopList d'.stopList

namespace SameButOutputs

variable {d d' : FunctionDefinition α} {rule : OutputRule} {fallback : Option (Value α)}

theorem strategyFor_eq (h : d.SameButOutputs d') (p : Property α) :
    d.strategyFor p = d'.strategyFor p := by
  rw [strategyFor, strategyFor, h.strategyName]

theorem colorSpace_eq (h : d.SameButOutputs d') : d.colorSpace = d'.colorSpace := by
  rw [colorSpace, colorSpace, h.colorSpaceName]

theorem fallback_eq (h : d.SameButOutputs d') (p : Property α) : d.fallback p = d'.fallback p := by
  rw [FunctionDefinition.fallback, FunctionDefinition.fallback, h.default]

theorem isEmpty_eq (h : d.SameButOutputs d') : d.stopList.isEmpty = d'.stopList.isEmpty := by
  rw [Bool.eq_iff_iff, List.isEmpty_iff_length_eq_zero, List.isEmpty_iff_length_eq_zero,
    h.stops.length_eq]

theorem isComposite_eq (h : d.SameButOutputs d') : d.isComposite = d'.isComposite := by
  have hstops := h.stops
  rw [isComposite, isComposite]
  revert hstops
  generalize d.stopList = stops
  generalize d'.stopList = stops'
  rintro (- | ⟨hkey, -⟩)
  · rfl
  · exact congrArg Stop.Key.isZoomed hkey

/-- What one of them resolves to, the other does. -/
theorem resolves (h : d.SameButOutputs d') (hres : d.Resolves p strategy rule fallback) :
    d'.Resolves p strategy rule fallback :=
  ⟨h.strategyFor_eq p ▸ hres.strategy_eq, h.colorSpace_eq ▸ hres.rule_eq,
    h.fallback_eq p ▸ hres.fallback_eq⟩

theorem compileSingle_failAlike (h : d.SameButOutputs d') :
    FailAlike (fun _ _ ↦ True) (d.compileSingle p strategy rule fallback)
      (d'.compileSingle p strategy rule fallback) := by
  rw [compileSingle, compileSingle, ← h.base, ← h.property]
  refine (Lookup.ofStops_failAlike h.stops).bind fun _ _ _ ↦ ?_
  rcases d.property with - | name
  · exact .ok trivial
  · exact .ok trivial

theorem compileLevels_failAlike (h : d.SameButOutputs d') :
    FailAlike (fun _ _ ↦ True) (d.compileLevels p strategy rule fallback)
      (d'.compileLevels p strategy rule fallback) := by
  rw [compileLevels, compileLevels, ← h.property]
  rcases d.property with - | name
  · exact .error _
  · refine (groupByZoom_failAlike .nil h.stops).bind fun groups groups' hgroups ↦ ?_
    refine FailAlike.bind (R := List.Forall₂ fun _ _ ↦ True) (.mapM hgroups ?_)
      fun _ _ _ ↦ .ok trivial
    intro group group' hgroup
    exact (Lookup.ofStops_failAlike hgroup.2).bind fun _ _ _ ↦ .ok trivial

/-- **Definitions that differ in outputs at most compile alike.** -/
theorem compile_failAlike (h : d.SameButOutputs d') (p : Property α) :
    FailAlike (fun _ _ ↦ True) (d.compile p) (d'.compile p) := by
  rw [compile, compile]
  refine (FailAlike.of_eq (h.strategyFor_eq p)).bind fun strategy _ hstrategy ↦ ?_
  refine (FailAlike.of_eq h.colorSpace_eq).bind fun space _ hspace ↦ ?_
  refine (FailAlike.of_eq (h.fallback_eq p)).bind fun fallback _ hfallback ↦ ?_
  subst hstrategy hspace hfallback
  rw [← h.isEmpty_eq, ← h.isComposite_eq]
  split
  · rcases fallback with - | v
    · exact .error _
    · exact .ok trivial
  · split
    · exact h.compileLevels_failAlike
    · exact h.compileSingle_failAlike

end SameButOutputs

end FunctionDefinition

end MapStyle
