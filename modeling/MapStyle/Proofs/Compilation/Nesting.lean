import MapStyle.Proofs.Compilation.Rules

/-!
# Definitions within definitions

The stops of a zoom level make a definition of their own, and a level may be compiled by compiling
that definition. This is how `compileNested` does it. It calls itself on definitions put together
from whatever the document holds, so nothing in its text says that it ends, or that a level is not a
function of zoom again. Hence it is given a bound on how deep definitions may nest, has no answer
when the bound does not suffice, and gives functions whose levels are of any kind.

**Definitions nest one level deep**: with that bound the answer is always there, it is that of
`compile`, errors included, and its levels are source functions (`compileNested_eq`).

The reason is what grouping does to the stops (`groupByZoom_isGroup`): no group is empty, and no
stop in it keeps its zoom. It does not matter how the zooms compare.
-/

namespace MapStyle

variable {α : Type} [Scalar α]

/-! ### Bounded computations -/

/-- A computation with a bound on its depth: nothing where the bound does not suffice. -/
abbrev Bounded := ExceptT DefinitionError Option

namespace Bounded

variable {β γ δ : Type}

/-- A computation that stays within every bound. -/
def lift (x : Except DefinitionError β) : Bounded β := ExceptT.mk (some x)

/-- Steps that stay within every bound are joined to one that does. -/
theorem lift_bind_eq {x : Except DefinitionError β} {f : β → Bounded δ}
    {g : β → Except DefinitionError γ} {h : γ → δ}
    (hstep : ∀ b, x = .ok b → f b = lift (h <$> g b)) : lift x >>= f = lift (h <$> (x >>= g)) := by
  rcases x with e | b
  · rfl
  · exact hstep b rfl

/-- **A traversal stays within every bound if each step does**. -/
theorem mapM_eq_lift {xs : List β} {f : β → Bounded δ} {g : β → Except DefinitionError γ}
    {h : γ → δ} (hstep : ∀ x ∈ xs, f x = lift (h <$> g x)) :
    xs.mapM f = lift (List.map h <$> xs.mapM g) := by
  induction xs with
  | nil => rfl
  | cons x xs ih =>
    rw [List.forall_mem_cons] at hstep
    rw [List.mapM_cons, List.mapM_cons, hstep.1, ih hstep.2]
    rcases g x with e | y
    · rfl
    · rcases xs.mapM g with e | ys <;> rfl

end Bounded

/-! ### Functions within functions -/

/-- **A style function whose levels are style functions again**, of any kind and to any depth. -/
inductive NestedFunction (α : Type) where
  /-- Always the same value. -/
  | constant (v : Value α)
  /-- A function of the zoom level, with its zoom breakpoints. -/
  | camera (f : InputFunction α) (zooms : List α)
  /-- A function of a feature property. -/
  | source (f : SourceFunction α)
  /-- A function at each zoom level, blended along zoom on a curve of the given base. -/
  | composite (levels : List (α × NestedFunction α)) (base : α) (rule : OutputRule)

namespace NestedFunction

/-- The functions at the zoom levels of a function. -/
def levels : NestedFunction α → List (NestedFunction α)
  | composite levels _ _ => levels.map Prod.snd
  | _ => []

/-- What a function depends on. -/
def dependence : NestedFunction α → Dependence
  | constant _ => .constant
  | camera _ _ => .camera
  | source _ => .source
  | composite _ _ _ => .composite

/-- A style function, with source functions for levels. -/
def ofFunction : StyleFunction α → NestedFunction α
  | .constant v => constant v
  | .camera f zooms => camera f zooms
  | .source f => source f
  | .composite levels base rule =>
    composite (levels.stops.toList.map fun level ↦ (level.1, source level.2)) base rule

omit [Scalar α] in
/-- **The levels of a style function are source functions.** -/
theorem dependence_of_mem_levels {f : StyleFunction α} {g : NestedFunction α}
    (hg : g ∈ (ofFunction f).levels) : g.dependence = .source := by
  cases f with
  | composite levels base rule =>
    rw [ofFunction, NestedFunction.levels, List.map_map, List.mem_map] at hg
    obtain ⟨level, -, rfl⟩ := hg
    rfl
  | _ => exact absurd hg List.not_mem_nil

end NestedFunction

/-! ### Groups of stops -/

/-- **A group of stops**: there is one, and none of them has a zoom. -/
structure IsGroup (stops : List (Stop α)) : Prop where
  /-- There is a stop. -/
  ne_nil : stops ≠ []
  /-- No stop has a zoom. -/
  isZoomed_eq_false : ∀ s ∈ stops, s.key.isZoomed = false

/-- One more stop without a zoom extends a group or makes a new one. -/
theorem addToLevel_isGroup {groups : List (α × List (Stop α))} (h : ∀ g ∈ groups, IsGroup g.2)
    (zoom : α) {s : Stop α} (hs : s.key.isZoomed = false) :
    ∀ g ∈ addToLevel zoom s groups, IsGroup g.2 := by
  induction groups with
  | nil =>
    rw [addToLevel, List.forall_mem_singleton]
    exact ⟨List.cons_ne_nil _ _, List.forall_mem_singleton.2 hs⟩
  | cons group groups ih =>
    obtain ⟨z, stops⟩ := group
    rw [List.forall_mem_cons] at h
    obtain ⟨hgroup, hgroups⟩ := h
    rw [addToLevel]
    split
    · have hne := List.append_ne_nil_of_left_ne_nil hgroup.ne_nil [s]
      refine List.forall_mem_cons.2 ⟨⟨hne, ?_⟩, hgroups⟩
      exact List.forall_mem_append.2 ⟨hgroup.isZoomed_eq_false, List.forall_mem_singleton.2 hs⟩
    · exact List.forall_mem_cons.2 ⟨hgroup, ih hgroups⟩

/-- **Grouping makes groups.** -/
theorem groupByZoom_isGroup {i : Nat} {stops : List (Stop α)}
    {seen groups : List (α × List (Stop α))} (hseen : ∀ g ∈ seen, IsGroup g.2)
    (h : groupByZoom i seen stops = .ok groups) : ∀ g ∈ groups, IsGroup g.2 := by
  induction stops generalizing i seen with
  | nil =>
    rw [groupByZoom, Except.ok.injEq] at h
    rwa [← h]
  | cons s stops ih =>
    rw [groupByZoom] at h
    split at h
    · exact absurd h (by simp)
    · split at h
      · exact absurd h (by simp)
      · exact ih (addToLevel_isGroup hseen _ rfl) h

theorem addToLevel_ne_nil (zoom : α) (s : Stop α) (groups : List (α × List (Stop α))) :
    addToLevel zoom s groups ≠ [] := by
  rcases groups with - | ⟨⟨z, stops⟩, groups⟩
  · exact List.cons_ne_nil _ _
  · rw [addToLevel]
    split <;> exact List.cons_ne_nil _ _

/-- Where there are stops there are groups. -/
theorem groupByZoom_ne_nil {i : Nat} {stops : List (Stop α)}
    {seen groups : List (α × List (Stop α))} (hne : seen ≠ [] ∨ stops ≠ [])
    (h : groupByZoom i seen stops = .ok groups) : groups ≠ [] := by
  induction stops generalizing i seen with
  | nil =>
    rw [groupByZoom, Except.ok.injEq] at h
    rw [← h]
    exact hne.resolve_right fun hnil ↦ hnil rfl
  | cons s stops ih =>
    rw [groupByZoom] at h
    split at h
    · exact absurd h (by simp)
    · split at h
      · exact absurd h (by simp)
      · exact ih (.inl (addToLevel_ne_nil _ _ _)) h

/-! ### Compilation as it nests -/

namespace FunctionDefinition

/-- The definition that a group of stops makes: everything else is as in the whole, but for the
base. -/
def ofGroup (d : FunctionDefinition α) (stops : List (Stop α)) : FunctionDefinition α :=
  { d with base := none, stops := some stops }

/-- Compiles a definition, with `compileLevel` for the definitions of its groups. -/
def compileWith (compileLevel : FunctionDefinition α → Bounded (NestedFunction α)) (p : Property α)
    (d : FunctionDefinition α) : Bounded (NestedFunction α) := do
  let strategy ← .lift (d.strategyFor p)
  let space ← .lift d.colorSpace
  let rule := OutputRule.ofType space p.type
  let fallback ← .lift (d.fallback p)
  if d.stopList.isEmpty && strategy != .identity then
    match fallback with
    | none => .lift (.error (.noStops strategy))
    | some v => return .constant v
  else if d.isComposite then
    match d.property with
    | none => .lift (.error .missingProperty)
    | some _ =>
      let groups ← .lift (groupByZoom 0 [] d.stopList)
      let levels ← groups.mapM fun (zoom, stops) ↦ do
        let level ← compileLevel (d.ofGroup stops)
        return (zoom, level)
      return .composite levels (d.base.getD 1.0) rule
  else .lift (NestedFunction.ofFunction <$> d.compileSingle p strategy rule fallback)

/-- **Compiles a definition and the definitions within it**, down to a depth. A definition that
nests deeper has no result. -/
def compileNested (p : Property α) : Nat → FunctionDefinition α → Bounded (NestedFunction α)
  | 0 => compileWith (fun _ ↦ ExceptT.mk none) p
  | depth + 1 => compileWith (compileNested p depth) p

variable {d : FunctionDefinition α} {p : Property α} {stops : List (Stop α)}

/-- A definition of one input holds no definitions. -/
theorem compileWith_of_single (compileLevel : FunctionDefinition α → Bounded (NestedFunction α))
    (hsingle : d.isComposite = false) :
    d.compileWith compileLevel p = .lift (NestedFunction.ofFunction <$> d.compile p) := by
  refine Bounded.lift_bind_eq fun strategy _ ↦ Bounded.lift_bind_eq fun space _ ↦
    Bounded.lift_bind_eq fun fallback _ ↦ ?_
  simp only [hsingle, Bool.false_eq_true, if_false]
  split
  · rcases fallback with - | v <;> rfl
  · rfl

theorem compileNested_of_single (depth : Nat) (hsingle : d.isComposite = false) :
    compileNested p depth d = .lift (NestedFunction.ofFunction <$> d.compile p) := by
  cases depth with
  | zero => exact compileWith_of_single _ hsingle
  | succ depth => exact compileWith_of_single _ hsingle

theorem isComposite_ofGroup (h : IsGroup stops) (d : FunctionDefinition α) :
    (d.ofGroup stops).isComposite = false := by
  show (stops.head?.any fun s ↦ s.key.isZoomed) = false
  rcases stops with - | ⟨s, stops⟩
  · rfl
  · exact h.isZoomed_eq_false s List.mem_cons_self

/-- **The definition of a group is a source function**, with the strategy, the rule and the fallback
of the whole, on a straight line. -/
theorem compile_ofGroup {strategy : Strategy} {rule : OutputRule} {fallback : Option (Value α)}
    {name : String} (h : IsGroup stops) (hres : d.Resolves p strategy rule fallback)
    (hname : d.property = some name) :
    (d.ofGroup stops).compile p = (do
      let lookup ← Lookup.ofStops p strategy 1.0 rule stops
      return .source ⟨name, ⟨lookup, fallback⟩⟩) := by
  obtain ⟨space, hspace, rfl⟩ := hres.rule_eq
  have hstrategy : (d.ofGroup stops).strategyFor p = .ok strategy := hres.strategy_eq
  have hspace' : (d.ofGroup stops).colorSpace = .ok space := hspace
  have hfallback : (d.ofGroup stops).fallback p = .ok fallback := hres.fallback_eq
  have hname' : (d.ofGroup stops).property = some name := hname
  have hstops : (stops.isEmpty && strategy != .identity) = false := by
    rw [List.isEmpty_eq_false_iff.2 h.ne_nil, Bool.false_and]
  rw [compile, hstrategy, hspace', hfallback]
  show (if stops.isEmpty && strategy != .identity then _ else _) = _
  rw [hstops, isComposite_ofGroup h]
  show compileSingle (d.ofGroup stops) p strategy _ fallback = _
  simp only [compileSingle, hname']
  rfl

/-- What the levels of a definition are compiled to, from their groups. -/
theorem compileNested_levels (depth : Nat) {strategy : Strategy} {rule : OutputRule}
    {fallback : Option (Value α)} {name : String} (hres : d.Resolves p strategy rule fallback)
    (hname : d.property = some name) {groups : List (α × List (Stop α))}
    (hgroups : ∀ g ∈ groups, IsGroup g.2) :
    (groups.mapM fun (zoom, stops) ↦ do
        let level ← compileNested p depth (d.ofGroup stops)
        return (zoom, level) : Bounded (List (α × NestedFunction α))) =
      .lift (List.map (fun level ↦ (level.1, .source level.2)) <$>
        groups.mapM fun (zoom, stops) ↦ do
        let lookup ← Lookup.ofStops p strategy 1.0 rule stops
        return (zoom, (⟨name, ⟨lookup, fallback⟩⟩ : SourceFunction α))) := by
  refine Bounded.mapM_eq_lift fun g hg ↦ ?_
  have hgroup := hgroups g hg
  simp only [compileNested_of_single depth (isComposite_ofGroup hgroup d),
    compile_ofGroup hgroup hres hname]
  rcases Lookup.ofStops p strategy 1.0 rule g.2 with e | lookup <;> rfl

/-- **Definitions nest one level deep**, and compiling the levels as definitions of their own gives
what compiling them together does. -/
theorem compileNested_eq (p : Property α) (depth : Nat) (d : FunctionDefinition α) :
    compileNested p (depth + 1) d = .lift (NestedFunction.ofFunction <$> d.compile p) := by
  rcases hcomposite : d.isComposite with - | -
  · exact compileNested_of_single _ hcomposite
  · refine Bounded.lift_bind_eq fun strategy hstrategy ↦ Bounded.lift_bind_eq fun space hspace ↦
      Bounded.lift_bind_eq fun fallback hfallback ↦ ?_
    have hres : d.Resolves p strategy (.ofType space p.type) fallback :=
      ⟨hstrategy, ⟨space, hspace, rfl⟩, hfallback⟩
    simp only [hcomposite, if_true]
    split
    · rcases fallback with - | v <;> rfl
    · rw [compileLevels]
      rcases hname : d.property with - | name
      · rfl
      · -- No group keeps a zoom, so one level of depth is enough for the definitions of all.
        refine Bounded.lift_bind_eq fun groups hgroups ↦ ?_
        have hisGroup := groupByZoom_isGroup (List.forall_mem_nil _) hgroups
        rw [compileNested_levels depth hres hname hisGroup]
        rcases List.mapM _ groups with e | levels
        · rfl
        · rfl

/-- **The levels of what a definition compiles to are source functions.** -/
theorem dependence_of_mem_levels_compileNested {depth : Nat} {f g : NestedFunction α}
    (hf : compileNested p (depth + 1) d = .lift (.ok f)) (hg : g ∈ f.levels) :
    g.dependence = .source := by
  rw [compileNested_eq] at hf
  have hok : NestedFunction.ofFunction <$> d.compile p = .ok f := Option.some.inj hf
  obtain ⟨f', -, rfl⟩ := map_eq_ok_iff.1 hok
  exact NestedFunction.dependence_of_mem_levels hg

end FunctionDefinition

end MapStyle
