import MapStyle.Ramp.FloorSearch

/-!
# Ramps

A ramp has something at each of its stops, which are scalar keys in ascending order when the ramp is
well formed. An input is placed with respect to the keys: at an end of the ramp, or between two
neighbouring stops of it.
-/

namespace MapStyle

/-- **A ramp**: stops along an axis. -/
structure Ramp (α β : Type) where
  /-- The stops: a key and what stands there. -/
  stops : Array (α × β)

namespace Ramp

variable {α β : Type}

/-- The ramp of a list of stops. -/
def ofList (stops : List (α × β)) : Ramp α β := ⟨stops.toArray⟩

/-- The number of stops. -/
def size (r : Ramp α β) : Nat := r.stops.size

/-- The keys in order. -/
def keys (r : Ramp α β) : Array α := r.stops.map Prod.fst

/-- The key of a stop. -/
def key? (r : Ramp α β) (i : Nat) : Option α := (r.stops[i]?).map Prod.fst

/-- What stands at a stop. -/
def output? (r : Ramp α β) (i : Nat) : Option β := (r.stops[i]?).map Prod.snd

/-- **A place with respect to the stops of a ramp.** -/
inductive Place where
  /-- At or beyond the end of the ramp that stop `i` is. -/
  | at (i : Nat)
  /-- Within the ramp, not below stop `i` but below the next one. -/
  | between (i : Nat)
  deriving DecidableEq, Repr

/-- The stop that a place belongs to when stops are not blended. -/
def Place.floor : Place → Nat
  | .at i => i
  | .between i => i

variable [Scalar α]

/-- The place of `x` among some keys. The ends are tried first. -/
def placeAmong (keys : Array α) (x : α) : Place :=
  if keys.size = 1 ∨ (keys[0]?).any (fun k ↦ decide (x ≤ k)) then .at 0
  else if (keys[keys.size - 1]?).any (fun k ↦ decide (k ≤ x)) then .at (keys.size - 1)
  else
    let i := FloorSearch.floorIndex keys x
    if i + 1 < keys.size then .between i else .at i

/-- **The place of an input on a ramp.** What is not a number has no place among several stops, but
a lone stop still answers it; an empty ramp has no places. -/
def place? (r : Ramp α β) (x : α) : Option Place :=
  if r.size = 0 ∨ (Scalar.isNaN x ∧ 1 < r.size) then none
  else some (placeAmong r.keys x)

end Ramp

end MapStyle
