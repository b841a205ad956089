import MapStyle.Proofs.Output.Concrete

/-!
# Levels as deferred outputs

The levels of a composite function can be stored in a ramp like any other, with one output at each
zoom, and be found by one exponential lookup. Only what stands there is of another sort: a source
function is kept as a **deferred output**, to be asked once the zoom level and the feature are at
hand. Two deferred outputs blend into a third one, and what the lookup hands out is asked last.

`StyleFunction.evaluateLevels` asks the levels on the way instead, and `Lookup.exponential?` knows
of no deferred outputs at all. Here the lookup is stated once over outputs of both sorts
(`Output.exponential`), and each of the two is that lookup where it applies:

* **on levels** — stored as deferred outputs, looked up without a fallback and then asked, they have
  the value that `evaluateLevels` gives them (`StyleFunction.evaluateDeferred_eq`), in whatever
  order their zooms are;
* **on values** — a ramp of concrete outputs has no use for the deferred case
  (`Output.exponential_ofValue`), and the ramps of compiled functions hold nothing else
  (`FunctionDefinition.Compiles.exponential_ofValue`).
-/

namespace MapStyle

/-! ### Ramps with the same keys -/

namespace Ramp

variable {α β γ : Type}

/-- The ramp with the same keys and the image of what stands at each. -/
def map (f : β → γ) (r : Ramp α β) : Ramp α γ := ⟨r.stops.map fun stop ↦ (stop.1, f stop.2)⟩

@[simp] theorem size_map (f : β → γ) (r : Ramp α β) : (r.map f).size = r.size := Array.size_map

@[simp] theorem keys_map (f : β → γ) (r : Ramp α β) : (r.map f).keys = r.keys := Array.map_map

@[simp] theorem key?_map (f : β → γ) (r : Ramp α β) (i : Nat) : (r.map f).key? i = r.key? i := by
  rw [← getElem?_keys, ← getElem?_keys, keys_map]

@[simp] theorem output?_map (f : β → γ) (r : Ramp α β) (i : Nat) :
    (r.map f).output? i = (r.output? i).map f := by
  rw [output?, map, Array.getElem?_map, output?, Option.map_map, Option.map_map]
  rfl

@[simp] theorem place?_map [Scalar α] (f : β → γ) (r : Ramp α β) (x : α) :
    (r.map f).place? x = r.place? x := by
  rw [place?, place?, size_map, keys_map]

end Ramp

/-! ### Outputs -/

/-- **An output as it is stored.** -/
inductive Output (α : Type) where
  /-- A value at hand. -/
  | value (v : Value α)
  /-- A value, or none, for each zoom level and optional feature. -/
  | deferred (ask : α → Option (Feature α) → Option (Value α))

namespace Output

variable {α : Type}

/-- A value as an output, which is deferred if the value is. -/
def ofValue : Value α → Output α
  | .deferred _ rule => deferred fun zoom feature ↦ rule.evaluate zoom feature
  | v => value v

/-- What an output is for a zoom level and a feature. -/
def resolve (zoom : α) (feature : Option (Feature α)) : Output α → Option (Value α)
  | value v => some v
  | deferred ask => ask zoom feature

/-- The output itself, if it may be handed out. Deferred outputs always may. -/
def keep? (rule : OutputRule) : Output α → Option (Output α)
  | value v => (rule.keep? v).map value
  | deferred ask => some (deferred ask)

variable [Scalar α]

/-- A function as an output that has its value. -/
def ofFunction (f : StyleFunction α) : Output α :=
  deferred fun zoom feature ↦ f.evaluate zoom feature

/-- **The blend of two outputs.** If both are deferred it is deferred, and what they are asked for
later is blended then, where both have a value. Next to a value a deferred output has no blend of
its own, but the lower output holds if the rule says so. -/
def blend? (rule : OutputRule) (t : α) : Output α → Output α → Option (Output α)
  | value lower, value upper => (rule.blend? lower upper t).map value
  | deferred lower, deferred upper => some <| deferred fun zoom feature ↦ do
    rule.blend? (← lower zoom feature) (← upper zoom feature) t
  | lower, _ => if rule = .hold then some lower else none

/-- The answer of a ramp of outputs along a curve. -/
def exponential? (ramp : Ramp α (Output α)) (base : α) (rule : OutputRule) (input : Value α) :
    Option (Output α) := do
  let x ← input.number?
  match ← ramp.place? x with
  | .at i => (← ramp.output? i).keep? rule
  | .between i =>
    let t := exponentialFactor x base (← ramp.key? i) (← ramp.key? (i + 1))
    blend? rule t (← ramp.output? i) (← ramp.output? (i + 1))

/-- **The output of a ramp of outputs**, with a fallback for every miss. -/
def exponential (ramp : Ramp α (Output α)) (base : α) (rule : OutputRule)
    (fallback : Option (Output α)) (input : Value α) : Option (Output α) :=
  (exponential? ramp base rule input).or fallback

end Output

variable {α : Type} [Scalar α]

/-! ### Levels -/

namespace StyleFunction

/-- **The value of levels that are stored as deferred outputs**: a lookup without a fallback, and
what it gives is asked for the same zoom level and feature. -/
def evaluateDeferred (levels : Ramp α (SourceFunction α)) (base : α) (rule : OutputRule) (zoom : α)
    (feature : Option (Feature α)) : Option (Value α) := do
  let stored := levels.map fun g ↦ Output.ofFunction (.source g)
  (← Output.exponential stored base rule none (.number zoom)).resolve zoom feature

/-- **Storing levels as deferred outputs does not change their value.** -/
theorem evaluateDeferred_eq (levels : Ramp α (SourceFunction α)) (base : α) (rule : OutputRule)
    (zoom : α) (feature : Option (Feature α)) :
    evaluateDeferred levels base rule zoom feature =
      evaluateLevels levels base rule zoom feature := by
  rw [evaluateDeferred, evaluateLevels, Output.exponential, Option.or_none]
  simp only [Output.exponential?, Value.number?, Ramp.place?_map, Ramp.key?_map, Ramp.output?_map,
    Option.bind_eq_bind, Option.bind_some]
  rcases hplace : levels.place? zoom with - | i | i
  · rfl
  · obtain ⟨g, hg⟩ := Ramp.exists_output_of_at hplace
    simp only [hg, Option.bind_some, Option.map_some]
    rfl
  · -- Whether the level above is looked up before the one below is asked makes no difference, since
    -- both of them are there.
    obtain ⟨lo, hi, g, h, hlo, hhi, hg, hh⟩ := Ramp.exists_stops_of_between hplace
    simp only [hlo, hhi, hg, hh, Option.bind_some, Option.map_some]
    rfl

end StyleFunction

/-! ### Values -/

namespace Output

variable {rule : OutputRule} {v w : Value α}

omit [Scalar α] in
theorem ofValue_of_isConcrete (h : v.isConcrete = true) : ofValue v = value v := by
  cases v with
  | deferred => exact absurd h Bool.false_ne_true
  | _ => rfl

omit [Scalar α] in
/-- A value may be handed out as an output if it may be handed out. -/
theorem keep?_ofValue (rule : OutputRule) (v : Value α) :
    (ofValue v).keep? rule = (rule.keep? v).map ofValue := by
  cases v with
  | deferred => cases rule <;> rfl
  | _ =>
    show (rule.keep? _).map value = _
    rw [OutputRule.keep?]
    split <;> rfl

/-- **Concrete values blend as outputs as they do as values.** -/
theorem blend?_ofValue (hv : v.isConcrete = true) (hw : w.isConcrete = true) (t : α) :
    blend? rule t (ofValue v) (ofValue w) = (rule.blend? v w t).map ofValue := by
  rw [ofValue_of_isConcrete hv, ofValue_of_isConcrete hw, blend?]
  rcases hblend : rule.blend? v w t with - | u
  · rfl
  · rw [Option.map_some, Option.map_some,
      ofValue_of_isConcrete (OutputRule.isConcrete_blend? hv hblend)]

variable {ramp : Ramp α (Value α)}

theorem exponential?_ofValue (h : ∀ i v, ramp.output? i = some v → v.isConcrete = true) (base : α)
    (rule : OutputRule) (input : Value α) :
    exponential? (ramp.map ofValue) base rule input =
      (Lookup.exponential? ramp base rule input).map ofValue := by
  simp only [exponential?, Lookup.exponential?, Ramp.place?_map, Ramp.key?_map, Ramp.output?_map,
    Option.bind_eq_bind]
  rcases input.number? with - | x
  · rfl
  · simp only [Option.bind_some]
    rcases hplace : ramp.place? x with - | i | i
    · rfl
    · obtain ⟨v, hv⟩ := Ramp.exists_output_of_at hplace
      simp only [hv, Option.bind_some, Option.map_some]
      exact keep?_ofValue rule v
    · obtain ⟨lo, hi, v, w, hlo, hhi, hv, hw⟩ := Ramp.exists_stops_of_between hplace
      simp only [hlo, hhi, hv, hw, Option.bind_some, Option.map_some]
      exact blend?_ofValue (h i v hv) (h (i + 1) w hw) _

/-- **A ramp of concrete outputs has the value of the function of one input that it is for**, by the
lookup that serves outputs of both sorts. The fallback may be anything. -/
theorem exponential_ofValue (h : ∀ i v, ramp.output? i = some v → v.isConcrete = true) (base : α)
    (rule : OutputRule) (fallback : Option (Value α)) (input : Value α) :
    exponential (ramp.map ofValue) base rule (fallback.map ofValue) input =
      (InputFunction.evaluate ⟨.exponential ramp base rule, fallback⟩ input).map ofValue := by
  rw [exponential, exponential?_ofValue h, ← Option.map_or]
  rfl

end Output

/-- **Every ramp that a compiled function blends values on** is looked up as its levels would be. -/
theorem FunctionDefinition.Compiles.exponential_ofValue {d : FunctionDefinition α} {p : Property α}
    {f : StyleFunction α} (h : d.Compiles p f) {ramp : Ramp α (Value α)} {base : α}
    {rule : OutputRule} {fallback : Option (Value α)}
    (hg : ⟨.exponential ramp base rule, fallback⟩ ∈ f.inputs) (input : Value α) :
    Output.exponential (ramp.map .ofValue) base rule (fallback.map .ofValue) input =
      (InputFunction.evaluate ⟨.exponential ramp base rule, fallback⟩ input).map .ofValue := by
  refine Output.exponential_ofValue (fun i v hv ↦ ?_) base rule fallback input
  exact h.isConcrete_outputs hg v (Ramp.mem_of_output? hv)

end MapStyle
