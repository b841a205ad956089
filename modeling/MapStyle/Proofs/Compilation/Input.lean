import MapStyle.Proofs.Compilation.Points
import MapStyle.Scalar.Binary64

/-!
# Zoom level or property

A function with plain keys has one input, and whether that is the zoom level or the value of a
property is said by the name of a property alone. Nothing else of a definition is read differently:
`reading` gives a definition a property to read and gives a compiled function the same property, and
**compilation commutes with it** (`compile_reading`), errors included. What the two functions make
of a number is then up to one lookup rule.

The main statement is `FunctionDefinition.compile_reading_agrees`.
-/

namespace MapStyle

variable {α : Type} [Scalar α]

/-- A function of the zoom level as a function of a property. Other functions stay as they are. -/
def StyleFunction.reading (name : String) : StyleFunction α → StyleFunction α
  | camera f _ => source ⟨name, f⟩
  | f => f

/-- **The value at a zoom level is the value for a feature with that number**, whatever else the
feature has and whatever zoom level it is asked for. -/
theorem StyleFunction.evaluate_reading_camera (f : InputFunction α) (zooms : List α)
    {name : String} {x : α} {g : Feature α} (hg : g.get? name = some (.number x)) (zoom : α)
    (feature : Option (Feature α)) :
    ((camera f zooms).reading name).evaluate zoom (some g) =
      (camera f zooms).evaluate x feature := by
  show SourceFunction.evaluate ⟨name, f⟩ (some g) = f.evaluate (.number x)
  exact SourceFunction.evaluate_of_get? hg

namespace FunctionDefinition

/-- The definition with a property to read. -/
def reading (d : FunctionDefinition α) (name : String) : FunctionDefinition α :=
  { d with property := some name }

variable {d : FunctionDefinition α} {p : Property α} {f : StyleFunction α}

theorem compileSingle_reading (hname : d.property = none) (name : String) (strategy : Strategy)
    (rule : OutputRule) (fallback : Option (Value α)) :
    (d.reading name).compileSingle p strategy rule fallback =
      StyleFunction.reading name <$> d.compileSingle p strategy rule fallback := by
  rw [compileSingle, compileSingle, hname, map_bind]
  rfl

/-- **Compilation commutes with the choice of the input**, errors included. -/
theorem compile_reading (hname : d.property = none) (hsingle : d.isComposite = false)
    (name : String) :
    (d.reading name).compile p = StyleFunction.reading name <$> d.compile p := by
  have hsingle' : (d.reading name).isComposite = false := hsingle
  simp only [compile, map_bind, hsingle, hsingle', compileSingle_reading hname]
  -- names, default and stops are those of `d`, so only the form of the result is left to compare
  refine bind_congr fun strategy ↦ bind_congr fun space ↦ bind_congr fun fallback ↦ ?_
  show (if d.stopList.isEmpty && strategy != .identity then _ else _) = _
  split
  · rcases fallback with - | v
    · rfl
    · rfl
  · rfl

/-- Without a property a function depends on the zoom level at most. -/
theorem Compiles.constant_or_camera (h : d.Compiles p f) (hname : d.property = none) :
    (∃ v, f = .constant v) ∨ ∃ g zooms, f = .camera g zooms := by
  cases h with
  | constant => exact .inl ⟨_, rfl⟩
  | camera => exact .inr ⟨_, _, rfl⟩
  | source _ _ _ hname' => exact absurd (hname.symm.trans hname') (by simp)
  | composite _ _ hname' => exact absurd (hname.symm.trans hname') (by simp)

/-- **Camera and source functions are one function of their input.** A definition with plain keys
compiles for the zoom level exactly if it compiles for a property, and else with the same error. The
function of the property has for a feature with a number, at whatever zoom level, the value that the
function of the zoom level has at that number, whatever feature it is given. -/
theorem compile_reading_agrees (hname : d.property = none) (hsingle : d.isComposite = false)
    (name : String) (p : Property α) :
    (∀ e, (d.reading name).compile p = .error e ↔ d.compile p = .error e) ∧
      ∀ f, d.compile p = .ok f → ∃ g, (d.reading name).compile p = .ok g ∧
        ((f.dependence = .constant ∧ g.dependence = .constant) ∨
          (f.dependence = .camera ∧ g.dependence = .source)) ∧
        ∀ (x zoom : α) (feature : Option (Feature α)) (road : Feature α),
          road.get? name = some (.number x) →
          g.evaluate zoom (some road) = f.evaluate x feature := by
  rw [compile_reading hname hsingle]
  constructor
  · intro e
    rcases d.compile p with e' | f
    · rfl
    · exact iff_of_false (by rintro ⟨⟩) (by rintro ⟨⟩)
  · intro f hf
    refine ⟨f.reading name, by rw [hf]; rfl, ?_⟩
    obtain ⟨v, rfl⟩ | ⟨g, zooms, rfl⟩ := (compile_eq_ok_iff.1 hf).constant_or_camera hname
    · exact ⟨.inl ⟨rfl, rfl⟩, fun _ _ _ _ _ ↦ rfl⟩
    · refine ⟨.inr ⟨rfl, rfl⟩, fun x zoom feature road hroad ↦ ?_⟩
      exact StyleFunction.evaluate_reading_camera g zooms hroad zoom feature

/-- A width that grows on a curve. -/
def growing : FunctionDefinition Float where
  strategyName := some "exponential"
  property := none
  base := some 1.5
  default := some (.ofInt 1)
  colorSpaceName := none
  stops := some [⟨.plain (.ofInt 0), .ofInt 2⟩, ⟨.plain (.ofInt 10), .ofInt 6⟩]

/-- The same width with a key that is no number. -/
def growingFrom (key : String) : FunctionDefinition Float :=
  { growing with stops := some [⟨.plain (.str key), .ofInt 2⟩] }

/-- The width at a zoom level is the width for a size, also beyond all stops and for a size that is
not a number; a key that is no number is one error for both. -/
theorem compile_reading_agrees_growing :
    growing.property = none ∧ growing.isComposite = false ∧
      (∃ f g, growing.compile (.ofType .number) = .ok f ∧
        (growing.reading "size").compile (.ofType .number) = .ok g ∧
        ∀ x ∈ [4.0, 1.0 / 0.0, 0.0 / 0.0],
          g.evaluate 3.0 (some ⟨[("size", .number x)]⟩) = f.evaluate x none) ∧
      ((growingFrom "low").reading "size").compile (.ofType .number) =
        .error (.nonNumericKey 0 .exponential) := by
  obtain ⟨g, hg, -, hvalue⟩ :=
    (compile_reading_agrees (d := growing) rfl rfl "size" (.ofType .number)).2 _ rfl
  refine ⟨rfl, rfl, ⟨_, g, rfl, hg, fun x _ ↦ hvalue x 3.0 none _ rfl⟩, ?_⟩
  obtain ⟨herror, -⟩ :=
    compile_reading_agrees (d := growingFrom "low") rfl rfl "size" (.ofType .number)
  exact (herror _).2 rfl

end FunctionDefinition

end MapStyle
