import MapStyle.Proofs.Ramp.Placement

/-!
# Reads on a ramp

The searches and lookups of the library read by `xs[i]?`, which has an answer for every index. A
read beyond the end of an array would go unnoticed: it would be one more way to find nothing. Here
they are written once more with reads that **fail** where there is no entry (`readEntry`), in the
same order and behind the same guards. That the two agree says that no read is ever beyond the end.

The scan starts from the last entry, so it stays in range by itself. The halving search does as long
as its window does, whatever it finds there: **the keys need not be in order**, nor be numbers.
-/

namespace MapStyle

/-- A read of an entry that is not there. -/
structure MissingEntry where
  /-- The index that was read. -/
  index : Nat
  /-- The number of entries there are. -/
  size : Nat
  deriving DecidableEq, Repr

section

variable {β : Type}

/-- An entry of an array, which has to be there. -/
def readEntry (xs : Array β) (i : Nat) : Except MissingEntry β :=
  match xs[i]? with
  | some x => .ok x
  | none => .error ⟨i, xs.size⟩

theorem ok_bind {ε γ : Type} (x : β) (f : β → Except ε γ) : Except.ok x >>= f = f x := rfl

theorem readEntry_of_eq_some {xs : Array β} {i : Nat} {x : β} (h : xs[i]? = some x) :
    readEntry xs i = .ok x := by
  rw [readEntry, h]

theorem readEntry_of_lt {xs : Array β} {i : Nat} (h : i < xs.size) :
    readEntry xs i = .ok xs[i] :=
  readEntry_of_eq_some (Array.getElem?_eq_getElem h)

end

namespace FloorSearch

variable {β : Type} {p : β → Bool} {xs : Array β}

/-- The last index below `n` whose entry satisfies `p`. -/
def readLastBelow (p : β → Bool) (xs : Array β) : Nat → Except MissingEntry (Option Nat)
  | 0 => return none
  | n + 1 => do
    let x ← readEntry xs n
    if p x then return some n else readLastBelow p xs n

/-- The halving search. -/
def readBoundaryFrom (p : β → Bool) (xs : Array β) (base size : Nat) : Except MissingEntry Nat := do
  if 1 < size then
    let x ← readEntry xs (base + size / 2)
    readBoundaryFrom p xs (if p x then base + size / 2 else base) (size - size / 2)
  else
    let x ← readEntry xs base
    return if p x then base + 1 else base
termination_by size
decreasing_by omega

theorem readLastBelow_eq {n : Nat} (h : n ≤ xs.size) :
    readLastBelow p xs n = .ok ((List.range n).reverse.find? (satisfies p xs)) := by
  induction n with
  | zero => rfl
  | succ n ih =>
    rw [readLastBelow, readEntry_of_lt h, List.range_succ, List.reverse_append,
      List.reverse_singleton, List.singleton_append, List.find?_cons, satisfies_eq h]
    show (if p xs[n] then _ else _) = _
    rcases p xs[n] with - | -
    · exact ih (Nat.le_of_succ_le h)
    · rfl

/-- **Halving stays in its window**: the entries that it reads are there if those of the window
are. -/
theorem readBoundaryFrom_eq (base size : Nat) (h : base + max size 1 ≤ xs.size) :
    readBoundaryFrom p xs base size = .ok (boundaryFrom p xs base size) := by
  fun_induction boundaryFrom p xs base size with
  | case1 base size hsize half base' ih =>
    -- The middle of a window is inside it, and so are both of its halves.
    have hmiddle : base + size / 2 < xs.size := by omega
    have hbase' : base' = if p xs[base + size / 2] then base + size / 2 else base := by
      rw [← satisfies_eq (p := p) hmiddle]
      rfl
    rw [readBoundaryFrom, if_pos hsize, readEntry_of_lt hmiddle]
    show readBoundaryFrom p xs (if p xs[base + size / 2] then _ else _) _ = _
    rw [← hbase']
    refine ih ?_
    split at hbase'
    · omega
    · omega
  | case2 base size hsize hsat =>
    have hbase : base < xs.size := by omega
    rw [satisfies_eq hbase] at hsat
    rw [readBoundaryFrom, if_neg hsize, readEntry_of_lt hbase]
    show Except.ok (if p xs[base] then _ else _) = _
    rw [if_pos hsat]
  | case3 base size hsize hsat =>
    have hbase : base < xs.size := by omega
    rw [satisfies_eq hbase] at hsat
    rw [readBoundaryFrom, if_neg hsize, readEntry_of_lt hbase]
    show Except.ok (if p xs[base] then _ else _) = _
    rw [if_neg hsat]

variable {α : Type} [Scalar α]

/-- The index of the last key not above `x`, or zero. -/
def readFloorIndex (keys : Array α) (x : α) : Except MissingEntry Nat := do
  if keys.size ≤ scanLimit then
    let last ← readLastBelow (fun k ↦ decide (k ≤ x)) keys keys.size
    return last.getD 0
  else if keys.isEmpty then return 0
  else
    let boundary ← readBoundaryFrom (fun k ↦ decide (k ≤ x)) keys 0 keys.size
    return boundary - 1

theorem readFloorIndex_eq (keys : Array α) (x : α) :
    readFloorIndex keys x = .ok (floorIndex keys x) := by
  rw [readFloorIndex, floorIndex]
  split
  · rw [readLastBelow_eq (Nat.le_refl _)]
    rfl
  · rw [boundary]
    split
    · rfl
    · rename_i hempty
      rw [Array.isEmpty_iff_size_eq_zero] at hempty
      rw [readBoundaryFrom_eq 0 keys.size (by omega)]
      rfl

end FloorSearch

namespace Ramp

variable {α β : Type}

/-- The outputs in order. -/
def outputs (r : Ramp α β) : Array β := r.stops.map Prod.snd

/-- **A ramp that can be read**: it has a stop, and an output for each key. -/
structure Filled (r : Ramp α β) : Prop where
  /-- There is a stop. -/
  keys_pos : 0 < r.keys.size
  /-- There are as many outputs as keys. -/
  outputs_size : r.outputs.size = r.keys.size

theorem size_outputs (r : Ramp α β) : r.outputs.size = r.size := Array.size_map

theorem filled_iff {r : Ramp α β} : r.Filled ↔ 0 < r.size := by
  constructor
  · intro h
    exact r.size_keys ▸ h.keys_pos
  · intro h
    exact ⟨r.size_keys.symm ▸ h, r.size_outputs.trans r.size_keys.symm⟩

/-- The key of a stop is there to be read. -/
theorem readEntry_keys {r : Ramp α β} {i : Nat} {k : α} (h : r.key? i = some k) :
    readEntry r.keys i = .ok k :=
  readEntry_of_eq_some ((r.getElem?_keys i).trans h)

/-- The output of a stop is there to be read. -/
theorem readEntry_outputs {r : Ramp α β} {i : Nat} {v : β} (h : r.output? i = some v) :
    readEntry r.outputs i = .ok v :=
  readEntry_of_eq_some (Array.getElem?_map.trans h)

variable [Scalar α]

/-- The place of `x` among some keys. The first key is read unless it is the only one, the last key
only after the first. -/
def readPlaceAmong (keys : Array α) (x : α) : Except MissingEntry Place := do
  if keys.size = 1 then return .at 0
  else
    let first ← readEntry keys 0
    if x ≤ first then return .at 0
    else
      let last ← readEntry keys (keys.size - 1)
      if last ≤ x then return .at (keys.size - 1)
      else
        let i ← FloorSearch.readFloorIndex keys x
        return if i + 1 < keys.size then .between i else .at i

/-- The place of an input on a ramp. No key is read if there is none, and none is compared with what
is not a number if there are several. -/
def readPlace (r : Ramp α β) (x : α) : Except MissingEntry (Option Place) :=
  if r.size = 0 ∨ (Scalar.isNaN x ∧ 1 < r.size) then return none
  else some <$> readPlaceAmong r.keys x

theorem readPlaceAmong_eq {keys : Array α} (h : 0 < keys.size) (x : α) :
    readPlaceAmong keys x = .ok (placeAmong keys x) := by
  have hlast : keys.size - 1 < keys.size := by omega
  rw [readPlaceAmong, placeAmong_eq h, readEntry_of_lt h, readEntry_of_lt hlast,
    FloorSearch.readFloorIndex_eq]
  by_cases hone : keys.size = 1
  · rw [if_pos hone, if_pos (.inl hone)]
    rfl
  · rw [if_neg hone]
    show (if x ≤ keys[0] then _ else _) = _
    by_cases hfirst : x ≤ keys[0]
    · rw [if_pos hfirst, if_pos (.inr hfirst)]
      rfl
    · rw [if_neg hfirst, if_neg (not_or.2 ⟨hone, hfirst⟩)]
      show (if keys[keys.size - 1] ≤ x then _ else _) = _
      split
      · rfl
      · show Except.ok (if _ then _ else _) = _
        rfl

/-- **Placing an input reads no key that is not there**, on any ramp. -/
theorem readPlace_eq (r : Ramp α β) (x : α) : r.readPlace x = .ok (r.place? x) := by
  rw [readPlace, place?]
  split
  · rfl
  · rename_i hsize
    rw [readPlaceAmong_eq (by rw [size_keys]; exact Nat.pos_of_ne_zero (not_or.1 hsize).1)]
    rfl

end Ramp

end MapStyle
