import MapStyle.Scalar

/-!
# Floor search

Finding the stop an input belongs to: the last one whose key is not above it. Short lists of keys
are scanned, long ones are halved. On ascending keys both find the same stop; on others the halving
search stops somewhere in range.
-/

namespace MapStyle

namespace FloorSearch

variable {β : Type}

/-- Whether the entry at an index exists and satisfies `p`. -/
def satisfies (p : β → Bool) (xs : Array β) (i : Nat) : Bool := (xs[i]?).any p

/-- The last index whose entry satisfies `p`. -/
def lastIndex? (p : β → Bool) (xs : Array β) : Option Nat :=
  (List.range xs.size).reverse.find? (satisfies p xs)

/-- **The halving search.** The window of `size` entries from `base` on holds the boundary; its
middle entry decides which half to keep, until one entry is left. -/
@[semireducible] def boundaryFrom (p : β → Bool) (xs : Array β) (base size : Nat) : Nat :=
  if 1 < size then
    let half := size / 2
    let base := if satisfies p xs (base + half) then base + half else base
    boundaryFrom p xs base (size - half)
  else if satisfies p xs base then base + 1
  else base
termination_by size
decreasing_by omega

/-- The number of entries before the first that does not satisfy `p`, where none after it does. -/
def boundary (p : β → Bool) (xs : Array β) : Nat :=
  if xs.isEmpty then 0 else boundaryFrom p xs 0 xs.size

/-- The largest number of keys that are scanned one by one. -/
def scanLimit : Nat := 8

variable {α : Type} [Scalar α]

/-- **The index of the last key not above `x`**, or zero if every key is above it. -/
def floorIndex (keys : Array α) (x : α) : Nat :=
  if keys.size ≤ scanLimit then (lastIndex? (fun k ↦ decide (k ≤ x)) keys).getD 0
  else boundary (fun k ↦ decide (k ≤ x)) keys - 1

end FloorSearch

end MapStyle
