import MapStyle.FunctionDefinition.Basic
import MapStyle.Proofs.Scalar.Finite

/-!
# Reading back what was written

Reading a definition forgets how it was written: fields may come by name or by position, absent or
`null`, integers become scalars, and a zoomed key drops what else its object holds. So writing is no
inverse of reading. It is one **on what reading gives**, which `Canonical` describes: bases and
zooms are finite, a default is not `null`, and no plain key looks like a zoomed one.

## Main statements

* `ofJson?_canonical` — reading gives canonical definitions;
* `ofJson?_toJson` — a canonical definition is read back from what it is written as;
* `ofJson?_toJson_ofJson?` — the two together, for any data.
-/

namespace MapStyle

variable {α : Type} [Scalar α]

/-! ### Fields -/

namespace Entries

variable {β γ : Type}

theorem get?_append (es fs : Entries γ) (key : String) :
    get? (es ++ fs) key = (get? es key).or (get? fs key) :=
  List.lookup_append

/-- A field that is written if there is a value for it. -/
def optional (field : String) (f : β → γ) (o : Option β) : Entries γ :=
  (o.map fun x ↦ (field, f x)).toList

theorem get?_optional (field : String) (f : β → γ) (o : Option β) (key : String) :
    get? (optional field f o) key = if key = field then o.map f else none := by
  rcases o with - | x
  · simp [optional, get?]
  · by_cases h : key = field
    · simp [optional, get?, h]
    · have h' : (key == field) = false := beq_eq_false_iff_ne.2 h
      simp [optional, get?, List.lookup_cons, h, h']

end Entries

namespace Json

variable {β : Type} {fields : Entries (Json α)} {name : String} {decode : Json α → Option β}

/-- A field is read back if each of its values is. -/
theorem optional?_eq_some {o : Option β} {f : β → Json α}
    (hget : Entries.get? fields name = o.map f)
    (hdecode : ∀ x, o = some x → f x ≠ null ∧ decode (f x) = some x) :
    optional? fields name decode = some o := by
  rw [optional?, hget]
  rcases o with - | x
  · rfl
  · obtain ⟨hne, hx⟩ := hdecode x rfl
    rw [Option.map_some]
    split
    · contradiction
    · rename_i hnull
      exact absurd (Option.some.inj hnull) hne
    · rename_i hj
      rw [← Option.some.inj hj, hx, Option.map_some]

/-- The value of a field was read from something. -/
theorem exists_of_optional? {x : β} (h : optional? fields name decode = some (some x)) :
    ∃ j, j ≠ null ∧ decode j = some x := by
  rw [optional?] at h
  split at h
  · exact absurd h (by simp)
  · exact absurd h (by simp)
  · rename_i j hne _
    obtain ⟨y, hy, hyx⟩ := Option.map_eq_some_iff.1 h
    exact ⟨j, hne, by rw [hy, hyx]⟩

theorem number?_ofScalar {x : α} (h : Scalar.isFinite x = true) :
    (ofScalar x).number? = some x := by
  rw [ofScalar, dif_pos h]
  rfl

theorem ofScalar_ne_null {x : α} (h : Scalar.isFinite x = true) : ofScalar x ≠ null := by
  rw [ofScalar, dif_pos h]
  simp

/-- **Documents hold finite numbers only.** -/
theorem isFinite_of_number? [Scalar.FiniteIntegers α] {j : Json α} {x : α}
    (h : j.number? = some x) : Scalar.isFinite x = true := by
  cases j with
  | int n =>
    obtain rfl : Scalar.ofInt n.val = x := Option.some.inj h
    exact Scalar.FiniteIntegers.isFinite_ofInt n
  | num y =>
    obtain rfl : y.val = x := Option.some.inj h
    exact y.property
  | _ => exact absurd h (by simp [number?])

end Json

/-! ### Stops -/

namespace Stop.Key

/-- **A key as reading gives it.** -/
def Canonical : Stop.Key α → Prop
  | plain key => ofJson key = plain key
  | zoomed zoom _ => Scalar.isFinite zoom = true

/-- A key is plain only as the data it was read from. -/
theorem eq_of_ofJson_eq_plain {j key : Json α} (h : ofJson j = plain key) : j = key := by
  unfold ofJson at h
  split at h
  · split at h
    · exact absurd h (by simp)
    · exact plain.inj h
  · exact plain.inj h

/-- The zoom of a key was read from a number. -/
theorem exists_of_ofJson_eq_zoomed {j value : Json α} {zoom : α}
    (h : ofJson j = zoomed zoom value) : ∃ z : Json α, z.number? = some zoom := by
  unfold ofJson at h
  split at h
  · split at h
    · rename_i hzoom _
      obtain ⟨rfl, -⟩ := zoomed.inj h
      obtain ⟨z, -, hz⟩ := Option.bind_eq_some_iff.1 hzoom
      exact ⟨z, hz⟩
    · exact absurd h (by simp)
  · exact absurd h (by simp)

/-- **Reading gives canonical keys.** -/
theorem ofJson_canonical [Scalar.FiniteIntegers α] (j : Json α) : (ofJson j).Canonical := by
  rcases h : ofJson j with key | ⟨zoom, value⟩
  · show ofJson key = plain key
    rw [← eq_of_ofJson_eq_plain h, h, ← eq_of_ofJson_eq_plain h]
  · obtain ⟨z, hz⟩ := exists_of_ofJson_eq_zoomed h
    exact Json.isFinite_of_number? hz

/-- **Canonical keys are read back**, each as the kind of key it is. -/
theorem ofJson_toJson {k : Stop.Key α} (h : k.Canonical) : ofJson k.toJson = k := by
  cases k with
  | plain key => exact h
  | zoomed zoom value =>
    have hzoom : (Entries.get? [("zoom", Json.ofScalar zoom), ("value", value)] "zoom").bind
        Json.number? = some zoom := Json.number?_ofScalar h
    have hvalue : Entries.get? [("zoom", Json.ofScalar zoom), ("value", value)] "value" =
        some value := rfl
    show ofJson (.obj [("zoom", Json.ofScalar zoom), ("value", value)]) = _
    rw [ofJson, hzoom, hvalue]

end Stop.Key

namespace Stop

theorem key_eq_of_ofJson? {j : Json α} {s : Stop α} (h : ofJson? j = some s) :
    ∃ key, s.key = Stop.Key.ofJson key := by
  unfold ofJson? at h
  split at h
  · obtain rfl := Option.some.inj h
    exact ⟨_, rfl⟩
  · exact absurd h (by simp)

/-- Stops are read with canonical keys. -/
theorem canonical_of_mapM [Scalar.FiniteIntegers α] {items : List (Json α)} {stops : List (Stop α)}
    (h : items.mapM ofJson? = some stops) : ∀ s ∈ stops, s.key.Canonical := by
  induction items generalizing stops with
  | nil =>
    obtain rfl : [] = stops := Option.some.inj h
    exact List.forall_mem_nil _
  | cons item items ih =>
    rw [List.mapM_cons] at h
    obtain ⟨s, hs, h⟩ := Option.bind_eq_some_iff.1 h
    obtain ⟨rest, hrest, h⟩ := Option.bind_eq_some_iff.1 h
    obtain rfl : s :: rest = stops := Option.some.inj h
    obtain ⟨key, hkey⟩ := key_eq_of_ofJson? hs
    exact List.forall_mem_cons.2 ⟨hkey ▸ Stop.Key.ofJson_canonical key, ih hrest⟩

/-- Stops with canonical keys are read back, in their order and with their outputs. -/
theorem mapM_ofJson?_toJson {stops : List (Stop α)} (h : ∀ s ∈ stops, s.key.Canonical) :
    (stops.map toJson).mapM ofJson? = some stops := by
  induction stops with
  | nil => rfl
  | cons s stops ih =>
    rw [List.forall_mem_cons] at h
    have hs : ofJson? s.toJson = some s := by
      show some (⟨Stop.Key.ofJson s.key.toJson, s.output⟩ : Stop α) = some s
      rw [Stop.Key.ofJson_toJson h.1]
    rw [List.map_cons, List.mapM_cons, hs, ih h.2]
    rfl

end Stop

/-! ### Definitions -/

namespace FunctionDefinition

/-- **A definition as reading gives it.** -/
structure Canonical (d : FunctionDefinition α) : Prop where
  /-- The base is finite. -/
  base : ∀ x, d.base = some x → Scalar.isFinite x = true
  /-- The default is not `null`, which stands for its absence. -/
  default : ∀ j, d.default = some j → j ≠ .null
  /-- The keys are those that their data is read as. -/
  stops : ∀ stops, d.stops = some stops → ∀ s ∈ stops, s.key.Canonical

variable {d : FunctionDefinition α} {j : Json α}

/-- **Reading gives canonical definitions.** -/
theorem ofJson?_canonical [Scalar.FiniteIntegers α] (h : ofJson? j = some d) : d.Canonical := by
  simp only [ofJson?, Option.bind_eq_bind, Option.bind_eq_some_iff, Option.pure_def,
    Option.some.injEq] at h
  obtain ⟨fields, -, strategyName, -, property, -, base, hbase, default, hdefault, colorSpaceName,
    -, stops, hstops, rfl⟩ := h
  refine ⟨?_, ?_, ?_⟩
  · rintro x rfl
    obtain ⟨j, -, hj⟩ := Json.exists_of_optional? hbase
    exact Json.isFinite_of_number? hj
  · rintro j rfl
    obtain ⟨j', hne, hj⟩ := Json.exists_of_optional? hdefault
    rwa [← Option.some.inj hj]
  · rintro stops rfl
    obtain ⟨j, -, hj⟩ := Json.exists_of_optional? hstops
    obtain ⟨items, -, hitems⟩ := Option.bind_eq_some_iff.1 hj
    exact Stop.canonical_of_mapM hitems

/-- The entries that a definition is written as. -/
def entries (d : FunctionDefinition α) : Entries (Json α) :=
  .optional "type" .str d.strategyName ++ .optional "property" .str d.property ++
    .optional "base" .ofScalar d.base ++ .optional "default" id d.default ++
    .optional "colorSpace" .str d.colorSpaceName ++
    .optional "stops" (fun stops ↦ .arr (stops.map Stop.toJson)) d.stops

theorem toJson_eq_obj (d : FunctionDefinition α) : d.toJson = .obj d.entries := rfl

/-- Each field is found under its own name alone. -/
theorem get?_entries (d : FunctionDefinition α) :
    d.entries.get? "type" = d.strategyName.map .str ∧
      d.entries.get? "property" = d.property.map .str ∧
      d.entries.get? "base" = d.base.map .ofScalar ∧
      d.entries.get? "default" = d.default.map id ∧
      d.entries.get? "colorSpace" = d.colorSpaceName.map .str ∧
      d.entries.get? "stops" = d.stops.map fun stops ↦ .arr (stops.map Stop.toJson) := by
  simp only [entries, Entries.get?_append, Entries.get?_optional]
  refine ⟨?_, ?_, ?_, ?_, ?_, ?_⟩ <;> simp

/-- **A canonical definition is read back** from what it is written as. -/
theorem ofJson?_toJson (h : d.Canonical) : ofJson? d.toJson = some d := by
  obtain ⟨htype, hproperty, hbase, hdefault, hcolorSpace, hstops⟩ := d.get?_entries
  have hstring : ∀ (o : Option String) (s : String), o = some s →
      Json.str s ≠ (.null : Json α) ∧ (Json.str s : Json α).string? = some s :=
    fun _ s _ ↦ ⟨by simp, rfl⟩
  have hstops' : Json.optional? d.entries "stops" (fun s ↦ s.items?.bind fun items ↦
      items.mapM Stop.ofJson?) = some d.stops :=
    Json.optional?_eq_some hstops fun stops hd ↦
      ⟨by simp, Stop.mapM_ofJson?_toJson (h.stops stops hd)⟩
  -- What is written is an object, so that its fields are found by name and not by position.
  have hrecord : d.toJson.record? fieldNames = some d.entries := by
    rw [toJson_eq_obj]
    rfl
  simp only [ofJson?, hrecord, hstops', Option.bind_eq_bind, Option.bind_some,
    Json.optional?_eq_some htype (hstring d.strategyName),
    Json.optional?_eq_some hproperty (hstring d.property),
    Json.optional?_eq_some hcolorSpace (hstring d.colorSpaceName),
    Json.optional?_eq_some hbase fun x hx ↦
      ⟨Json.ofScalar_ne_null (h.base x hx), Json.number?_ofScalar (h.base x hx)⟩,
    Json.optional?_eq_some hdefault fun j hj ↦ ⟨h.default j hj, rfl⟩]
  rfl

/-- **Nothing is lost by writing a definition that was read.** Whatever data it was read from, the
data that it is written as is read as the same definition: the same names, base and default, a list
of stops if there was one, and the same stops in order, each with the same kind of key. -/
theorem toJson_lossless [Scalar.FiniteIntegers α] (h : ofJson? j = some d) :
    ofJson? d.toJson = some d :=
  ofJson?_toJson (ofJson?_canonical h)

/-- A definition given by position, with a field that is `null` and an integer for a base. One key
is zoomed and holds more than its zoom and its value, the others are plain: an object without a
zoom, one whose zoom is no number, and a list. -/
def positional : Json Float :=
  .arr [.str "categorical", .str "kind", .ofInt 2, .null, .str "lab",
    .arr [.arr [.obj [("note", .null), ("value", .str "road"), ("zoom", .ofInt 10)], .ofInt 1],
      .arr [.obj [("value", .ofInt 1)], .arr [.bool true, .null]],
      .arr [.obj [("zoom", .str "10"), ("value", .ofInt 1)], .null],
      .arr [.arr [.ofInt 10, .str "road"], .obj [("zoom", .ofInt 1), ("value", .ofInt 2)]]]]

/-- It is written by name, without what it did not say, and read back. -/
theorem toJson_lossless_positional :
    ∃ d, ofJson? positional = some d ∧ ofJson? d.toJson = some d ∧
      d.entries.keys = ["type", "property", "base", "colorSpace", "stops"] ∧
      d.stopList.map (fun s ↦ s.key.isZoomed) = [true, false, false, false] := by
  obtain ⟨d, hd⟩ : ∃ d, ofJson? positional = some d := ⟨_, rfl⟩
  refine ⟨d, hd, toJson_lossless hd, ?_⟩
  obtain rfl := Option.some.inj hd
  exact ⟨rfl, rfl⟩

end FunctionDefinition

end MapStyle
