import MapStyle.Value.Basic

/-!
# Features

A feature, as far as styles are concerned, is its properties. Deferred values are resolved against a
zoom level and an optional feature.
-/

namespace MapStyle

variable {α : Type}

/-- **A feature of a map**: named properties in the order they were given. -/
structure Feature (α : Type) where
  /-- The properties. -/
  properties : Entries (Value α)

namespace Feature

/-- The feature without properties. -/
def empty : Feature α := ⟨[]⟩

/-- Sets a property, in place if it is there already. -/
def set (f : Feature α) (name : String) (v : Value α) : Feature α :=
  ⟨Entries.insert name v f.properties⟩

/-- The value of a property. -/
def get? (f : Feature α) (name : String) : Option (Value α) := Entries.get? f.properties name

/-- **Setting a property changes the value of that property alone.** -/
theorem get?_set (f : Feature α) (name other : String) (v : Value α) :
    (f.set name v).get? other = if other = name then some v else f.get? other :=
  Entries.get?_insert name other v f.properties

/-- **The feature written as JSON**: a record whose only field, `properties`, is an object if it is
there at all. -/
def ofJson? [Scalar α] (j : Json α) : Option (Feature α) := do
  let fields ← j.record? ["properties"]
  match Entries.get? fields "properties" with
  | none => some empty
  | some (.obj entries) => some ⟨Value.ofEntries entries⟩
  | some _ => none

end Feature

/-- The answer of a deferred value for a zoom level and an optional feature. -/
def DeferredRule.evaluate (zoom : α) (feature : Option (Feature α)) :
    DeferredRule (Value α) → Option (Value α)
  | property name => feature.bind fun f ↦ f.get? name
  | .zoom => some (.number zoom)
  | fixed answer => answer

end MapStyle
