import MapStyle.Proofs.Lookup.Hashed
import MapStyle.StyleFunction.Compilation

/-!
# Zoom levels by keys

Grouping finds the level of a stop by comparing zooms (`addToLevel`). In binary64 the levels can be
kept in a map instead, in order of insertion and keyed by **the bits of their zooms with the zeros
folded** (`Binary64.keyBits?`), so that a level is found by its key and what has no key is an error.

Both ways of grouping give the same levels for all stops, or the same error
(`groupByZoom_eq_groupByBits`). It comes down to zooms being numerically equal exactly if they have
one key, which is used of the zoom of each level: a level carries the proof that its key is that of
its zoom, and since a stop is added to a level without changing either, no invariant is left to
keep.

That keys make a map of the levels is `nodup_bits_groupByBits`.
-/

namespace MapStyle

open Binary64 (keyBits?)

/-! ### Keys of zooms -/

namespace Binary64

/-- What has no key is no number. -/
theorem keyBits?_eq_none_iff {x : Float} : keyBits? x = none ↔ Scalar.isNaN x = true := by
  rw [keyBits?]
  split
  · exact iff_of_true rfl ‹_›
  · rename_i hnum
    split
    · exact iff_of_false (by simp) hnum
    · exact iff_of_false (by simp) hnum

end Binary64

/-- **A zoom level under its key.** -/
structure KeyedLevel where
  /-- The key. -/
  bits : UInt64
  /-- The zoom of the first stop of the level. -/
  zoom : Float
  /-- The stops of the level. -/
  stops : List (Stop Float)
  /-- The key is that of the zoom. -/
  keyed : keyBits? zoom = some bits

namespace KeyedLevel

/-- The level without its key. -/
def withoutKey (l : KeyedLevel) : Float × List (Stop Float) := (l.zoom, l.stops)

/-- The level with one more stop. -/
def addStop (l : KeyedLevel) (stop : Stop Float) : KeyedLevel :=
  { l with stops := l.stops ++ [stop] }

/-- **A level has a key exactly if its zoom equals the one that the key is of.** -/
theorem bits_eq_iff (l : KeyedLevel) {zoom : Float} {bits : UInt64}
    (h : keyBits? zoom = some bits) : l.bits = bits ↔ (l.zoom == zoom) = true := by
  rw [Binary64.beq_iff_keyBits?, l.keyed, h]
  simp [eq_comm]

end KeyedLevel

/-! ### Grouping by keys -/

/-- Adds a stop to the level that has the key of its zoom; a new level comes last. -/
def addByBits {zoom : Float} {bits : UInt64} (h : keyBits? zoom = some bits) (stop : Stop Float) :
    List KeyedLevel → List KeyedLevel
  | [] => [⟨bits, zoom, [stop], h⟩]
  | l :: levels =>
    if l.bits = bits then l.addStop stop :: levels else l :: addByBits h stop levels

/-- **Groups stops by the keys of their zooms**, from index `i` on. -/
def groupByBits (i : Nat) (levels : List KeyedLevel) :
    List (Stop Float) → Except DefinitionError (List KeyedLevel)
  | [] => .ok levels
  | s :: stops =>
    match s.key with
    | .plain _ => .error (.zoomKeyExpected i)
    | .zoomed zoom value =>
      match h : keyBits? zoom with
      | none => .error (.zoomNotANumber i)
      | some _ => groupByBits (i + 1) (addByBits h ⟨.plain value, s.output⟩ levels) stops

variable {zoom : Float} {bits : UInt64}

/-- **One more stop**: the level found by the key is the level found by comparison. -/
theorem map_withoutKey_addByBits (h : keyBits? zoom = some bits) (stop : Stop Float)
    (levels : List KeyedLevel) :
    (addByBits h stop levels).map KeyedLevel.withoutKey =
      addToLevel zoom stop (levels.map KeyedLevel.withoutKey) := by
  induction levels with
  | nil => rfl
  | cons l levels ih =>
    rw [addByBits, List.map_cons, KeyedLevel.withoutKey, addToLevel]
    by_cases hbits : l.bits = bits
    · rw [if_pos hbits, if_pos ((l.bits_eq_iff h).1 hbits)]
      rfl
    · rw [if_neg hbits, if_neg fun hzoom ↦ hbits ((l.bits_eq_iff h).2 hzoom), ← ih]
      rfl

/-- **All stops**: grouping by keys is grouping by comparison, whatever the levels so far. -/
theorem map_groupByBits (i : Nat) (levels : List KeyedLevel) (stops : List (Stop Float)) :
    (groupByBits i levels stops).map (List.map KeyedLevel.withoutKey) =
      groupByZoom i (levels.map KeyedLevel.withoutKey) stops := by
  induction stops generalizing i levels with
  | nil => rfl
  | cons s stops ih =>
    rw [groupByBits, groupByZoom]
    rcases s.key with key | ⟨zoom, value⟩
    · rfl
    · dsimp only
      -- A zoom without a key is no number, which is the error of both.
      split
      · rename_i hnone
        rw [if_pos (Binary64.keyBits?_eq_none_iff.1 hnone)]
        rfl
      · rename_i bits hbits
        have hnum : ¬Scalar.isNaN zoom = true := fun hnan ↦ by
          rw [Binary64.keyBits?_eq_none_iff.2 hnan] at hbits
          exact absurd hbits (by simp)
        rw [if_neg hnum, ih, map_withoutKey_addByBits]

/-- **Zoom levels can be found by the bits of their zooms.** -/
theorem groupByZoom_eq_groupByBits (stops : List (Stop Float)) :
    groupByZoom 0 [] stops = (groupByBits 0 [] stops).map (List.map KeyedLevel.withoutKey) :=
  (map_groupByBits 0 [] stops).symm

/-! ### Each key once -/

theorem map_bits_addByBits (h : keyBits? zoom = some bits) (stop : Stop Float)
    (levels : List KeyedLevel) :
    (addByBits h stop levels).map KeyedLevel.bits =
      if bits ∈ levels.map KeyedLevel.bits then levels.map KeyedLevel.bits
      else levels.map KeyedLevel.bits ++ [bits] := by
  induction levels with
  | nil => rfl
  | cons l levels ih =>
    rw [addByBits, List.map_cons]
    by_cases hbits : l.bits = bits
    · rw [if_pos hbits, if_pos (hbits ▸ List.mem_cons_self)]
      rfl
    · rw [if_neg hbits, List.map_cons, ih]
      simp only [List.mem_cons, Ne.symm hbits, false_or]
      split <;> rfl

theorem nodup_bits_addByBits (h : keyBits? zoom = some bits) (stop : Stop Float)
    {levels : List KeyedLevel} (hlevels : (levels.map KeyedLevel.bits).Nodup) :
    ((addByBits h stop levels).map KeyedLevel.bits).Nodup := by
  rw [map_bits_addByBits]
  split
  · exact hlevels
  · rename_i hnew
    exact List.nodup_append.2 ⟨hlevels, List.nodup_singleton _, by simpa using hnew⟩

/-- **No two levels have one key.** -/
theorem nodup_bits_groupByBits {i : Nat} {levels groups : List KeyedLevel}
    {stops : List (Stop Float)} (hlevels : (levels.map KeyedLevel.bits).Nodup)
    (h : groupByBits i levels stops = .ok groups) : (groups.map KeyedLevel.bits).Nodup := by
  induction stops generalizing i levels with
  | nil =>
    obtain rfl := Except.ok.inj h
    exact hlevels
  | cons s stops ih =>
    rw [groupByBits] at h
    rcases hkey : s.key with key | ⟨zoom, value⟩
    · rw [hkey] at h
      exact absurd h (by simp)
    · rw [hkey] at h
      dsimp only at h
      split at h
      · exact absurd h (by simp)
      · exact ih (nodup_bits_addByBits _ _ hlevels) h

end MapStyle
