import Mathlib.Logic.ExistsUnique
import Mathlib.Tactic.ByContra
import MapStyle.Proofs.Scalar.Lawful
import MapStyle.Ramp.Basic

/-!
# Placement on a ramp

Where an input falls among the keys of a ramp. Two things are proved apart:

* **in range** — whatever the keys are, a place names stops that exist (`placeAmong_in_range`);
  neither search needs the keys to be in order for that;
* **on ascending keys** — an input that is neither at nor beyond an end is between the one pair of
  neighbours that encloses it (`place?_of_encloses`, `existsUnique_encloses`), whichever of the two
  searches the number of keys selects.

The halving search is followed through an arbitrary monotone predicate: the number of entries that
satisfy it stays inside the window (`boundaryFrom_eq`).
-/

namespace MapStyle

open Scalar

namespace FloorSearch

variable {β : Type} {p : β → Bool} {xs : Array β}

theorem satisfies_eq {i : Nat} (h : i < xs.size) : satisfies p xs i = p xs[i] := by
  rw [satisfies, Array.getElem?_eq_getElem h]
  rfl

theorem satisfies_eq_false {i : Nat} (h : xs.size ≤ i) : satisfies p xs i = false := by
  rw [satisfies, Array.getElem?_eq_none h]
  rfl

/-! ### Scanning -/

theorem find?_reverse_range {q : Nat → Bool} {n i : Nat} (hi : i < n) (hq : q i = true)
    (habove : ∀ j, i < j → j < n → q j = false) : (List.range n).reverse.find? q = some i := by
  induction n with
  | zero => omega
  | succ n ih =>
    rw [List.range_succ, List.reverse_append, List.reverse_singleton, List.singleton_append,
      List.find?_cons]
    rcases Nat.lt_or_ge i n with hlt | hge
    · rw [habove n hlt (by omega)]
      exact ih hlt fun j hj hjn ↦ habove j hj (by omega)
    · obtain rfl : i = n := by omega
      rw [hq]

theorem lastIndex?_lt {i : Nat} (h : lastIndex? p xs = some i) : i < xs.size := by
  have hmem := List.mem_of_find?_eq_some h
  rwa [List.mem_reverse, List.mem_range] at hmem

/-- **The scan counts** the entries that satisfy a predicate, where these are the first ones, and
finds the last of them. -/
theorem lastIndex?_of_satisfies {n : Nat} (hn : n ≤ xs.size)
    (h : ∀ j, satisfies p xs j = decide (j < n)) : (lastIndex? p xs).getD 0 = n - 1 := by
  rcases Nat.eq_zero_or_pos n with rfl | hpos
  · rw [lastIndex?, List.find?_eq_none.2 fun j _ ↦ by simp [h]]
    rfl
  · rw [lastIndex?, find?_reverse_range (i := n - 1) (by omega)]
    · rfl
    · rw [h, decide_eq_true_eq]
      omega
    · intro j hj _
      rw [h, decide_eq_false_iff_not]
      omega

/-! ### Halving -/

theorem boundaryFrom_le (p : β → Bool) (xs : Array β) (base size : Nat) :
    boundaryFrom p xs base size ≤ base + max size 1 := by
  fun_induction boundaryFrom p xs base size with
  | case1 base size hsize half base' ih =>
    have hbase : base' ≤ base + half := by
      simp only [base']
      split <;> omega
    have hhalf : half = size / 2 := rfl
    omega
  | case2 => omega
  | case3 => omega

/-- **The halving search finds the boundary** `k` of a predicate that holds exactly below it, once
`k` lies in the window. -/
theorem boundaryFrom_eq {k : Nat} (hk : ∀ i, satisfies p xs i = decide (i < k)) (base size : Nat)
    (hbase : base ≤ k) (hsize : k ≤ base + size) : boundaryFrom p xs base size = k := by
  fun_induction boundaryFrom p xs base size with
  | case1 base size hlt half base' ih =>
    have hhalf : half = size / 2 := rfl
    have hbase' : base' = if base + half < k then base + half else base := by
      simp only [base', hk, decide_eq_true_eq, dite_eq_ite]
    -- the middle entry decides on which side of it the boundary is
    split at hbase'
    · exact ih (by omega) (by omega)
    · exact ih (by omega) (by omega)
  | case2 base size hle hsat =>
    rw [hk, decide_eq_true_eq] at hsat
    omega
  | case3 base size hle hsat =>
    rw [hk, decide_eq_true_eq] at hsat
    omega

theorem boundary_eq {k : Nat} (hk : ∀ i, satisfies p xs i = decide (i < k)) (hsize : k ≤ xs.size) :
    boundary p xs = k := by
  rw [boundary]
  split
  · rename_i hempty
    rw [Array.isEmpty_iff_size_eq_zero] at hempty
    omega
  · exact boundaryFrom_eq hk 0 xs.size (Nat.zero_le k) (by omega)

/-! ### The floor index -/

variable {α : Type} [Scalar α]

/-- The floor index is in range, whatever the order of the keys. -/
theorem floorIndex_lt {keys : Array α} (h : 0 < keys.size) (x : α) :
    floorIndex keys x < keys.size := by
  rw [floorIndex]
  split
  · rcases hlast : lastIndex? (fun k ↦ decide (k ≤ x)) keys with - | i
    · exact h
    · exact lastIndex?_lt hlast
  · have hle := boundaryFrom_le (fun k ↦ decide (k ≤ x)) keys 0 keys.size
    rw [boundary]
    split <;> omega

/-- **Both searches count** the keys that are not above an input, where these are the first ones,
and give the last of them. -/
theorem floorIndex_of_satisfies {keys : Array α} {x : α} {n : Nat} (hn : n ≤ keys.size)
    (h : ∀ j, satisfies (fun k ↦ decide (k ≤ x)) keys j = decide (j < n)) :
    floorIndex keys x = n - 1 := by
  rw [floorIndex]
  split
  · exact lastIndex?_of_satisfies hn h
  · rw [boundary_eq h hn]

end FloorSearch

/-- In a list in order what comes earlier is related to what comes later. -/
theorem rel_of_pairwise {β : Type} {R : β → β → Prop} {xs : List β} (h : xs.Pairwise R) {i j : Nat}
    (hij : i < j) {y z : β} (hy : xs[i]? = some y) (hz : xs[j]? = some z) : R y z := by
  obtain ⟨hi, rfl⟩ := List.getElem?_eq_some_iff.1 hy
  obtain ⟨hj, rfl⟩ := List.getElem?_eq_some_iff.1 hz
  exact List.pairwise_iff_getElem.1 h i j hi hj hij

namespace Ramp

/-! ### Ramps of lists -/

section OfList

variable {α β : Type} {stops : List (α × β)}

@[simp] theorem size_ofList (stops : List (α × β)) : (ofList stops).size = stops.length := rfl

@[simp] theorem keys_ofList (stops : List (α × β)) :
    (ofList stops).keys = (stops.map Prod.fst).toArray := by
  rw [keys, ofList, List.map_toArray]

@[simp] theorem key?_ofList (stops : List (α × β)) (i : Nat) :
    (ofList stops).key? i = (stops.map Prod.fst)[i]? := by
  rw [key?, ofList, List.getElem?_toArray, List.getElem?_map]

@[simp] theorem output?_ofList (stops : List (α × β)) (i : Nat) :
    (ofList stops).output? i = (stops.map Prod.snd)[i]? := by
  rw [output?, ofList, List.getElem?_toArray, List.getElem?_map]

theorem key?_of_stop {i : Nat} {k : α} {v : β} (h : stops[i]? = some (k, v)) :
    (ofList stops).key? i = some k := by
  rw [key?_ofList, List.getElem?_map, h]
  rfl

theorem output?_of_stop {i : Nat} {k : α} {v : β} (h : stops[i]? = some (k, v)) :
    (ofList stops).output? i = some v := by
  rw [output?_ofList, List.getElem?_map, h]
  rfl

end OfList

variable {α : Type} [Scalar α]

/-- **Ascending keys**: numbers in weak order, so that keys may repeat. -/
structure Ascending (keys : Array α) : Prop where
  /-- Every key is a number. -/
  isNaN_eq_false : ∀ k ∈ keys, isNaN k = false
  /-- No key is below one before it. -/
  pairwise : keys.toList.Pairwise (· ≤ ·)

variable {keys : Array α} {x : α}

/-! ### Places are in range -/

/-- **A place names stops that exist**, in order or not. -/
theorem placeAmong_in_range (h : 0 < keys.size) (x : α) :
    (∀ i, placeAmong keys x = .at i → i < keys.size) ∧
      ∀ i, placeAmong keys x = .between i → i + 1 < keys.size := by
  have hfloor := FloorSearch.floorIndex_lt h x
  rw [placeAmong]
  dsimp only
  split
  · exact ⟨fun i hi ↦ (by cases hi; exact h), fun i hi ↦ (by cases hi)⟩
  · split
    · exact ⟨fun i hi ↦ (by cases hi; omega), fun i hi ↦ (by cases hi)⟩
    · split
      · exact ⟨fun i hi ↦ (by cases hi), fun i hi ↦ (by cases hi; assumption)⟩
      · exact ⟨fun i hi ↦ (by cases hi; exact hfloor), fun i hi ↦ (by cases hi)⟩

/-! ### Places at the ends -/

/-- A lone key takes every input, numbers or not. -/
theorem placeAmong_of_size_eq_one (h : keys.size = 1) (x : α) : placeAmong keys x = .at 0 :=
  if_pos (.inl h)

/-- The rule of placement where both end keys exist. -/
theorem placeAmong_eq (h : 0 < keys.size) (x : α) :
    placeAmong keys x =
      if keys.size = 1 ∨ x ≤ keys[0] then .at 0
      else if keys[keys.size - 1] ≤ x then .at (keys.size - 1)
      else if FloorSearch.floorIndex keys x + 1 < keys.size then
        .between (FloorSearch.floorIndex keys x)
      else .at (FloorSearch.floorIndex keys x) := by
  have hlast : keys.size - 1 < keys.size := by omega
  simp only [placeAmong, Array.getElem?_eq_getElem h, Array.getElem?_eq_getElem hlast,
    Option.any_some, decide_eq_true_eq]

theorem placeAmong_of_le_first (h : 0 < keys.size) (hx : x ≤ keys[0]) :
    placeAmong keys x = .at 0 := by
  rw [placeAmong_eq h, if_pos (.inr hx)]

/-- The last key takes what is not below it, unless the first key does. -/
theorem placeAmong_of_last_le (h : 1 < keys.size) (hfirst : ¬x ≤ keys[0])
    (hlast : keys[keys.size - 1] ≤ x) : placeAmong keys x = .at (keys.size - 1) := by
  rw [placeAmong_eq (by omega), if_neg (not_or.2 ⟨by omega, hfirst⟩), if_pos hlast]

/-- Away from both ends the floor index decides. -/
theorem placeAmong_of_not_ends (h : 1 < keys.size) (hfirst : ¬x ≤ keys[0])
    (hlast : ¬keys[keys.size - 1] ≤ x) (hfloor : FloorSearch.floorIndex keys x + 1 < keys.size) :
    placeAmong keys x = .between (FloorSearch.floorIndex keys x) := by
  rw [placeAmong_eq (by omega), if_neg (not_or.2 ⟨by omega, hfirst⟩), if_neg hlast,
    if_pos hfloor]

/-! ### Places between stops -/

/-- Whether an input is not below key `i` but below the next one. -/
def Encloses (keys : Array α) (x : α) (i : Nat) : Prop :=
  ∃ lo hi, keys[i]? = some lo ∧ keys[i + 1]? = some hi ∧ lo ≤ x ∧ x < hi

theorem encloses_iff {i : Nat} (hi : i + 1 < keys.size) :
    Encloses keys x i ↔ keys[i] ≤ x ∧ x < keys[i + 1] := by
  constructor
  · rintro ⟨lo, hi', hlo, hhi, hle, hlt⟩
    rw [Array.getElem?_eq_getElem (by omega), Option.some.injEq] at hlo hhi
    subst hlo hhi
    exact ⟨hle, hlt⟩
  · rintro ⟨hle, hlt⟩
    exact ⟨_, _, Array.getElem?_eq_getElem (by omega), Array.getElem?_eq_getElem hi, hle, hlt⟩

theorem Encloses.lt_size {i : Nat} (h : Encloses keys x i) : i + 1 < keys.size := by
  obtain ⟨_, _, _, hhi, _⟩ := h
  exact (Array.getElem?_eq_some_iff.1 hhi).1

variable [Lawful α]

/-- **Between two ends that do not take it, some neighbours enclose an input.** The keys between
need no order: going up from the first, some key is the last one that is not above the input. -/
theorem exists_encloses (hx : isNaN x = false) (hnum : ∀ k ∈ keys, isNaN k = false)
    (h : 0 < keys.size) (hfirst : ¬x ≤ keys[0]) (hlast : ¬keys[keys.size - 1] ≤ x) :
    ∃ i, Encloses keys x i := by
  have hnum' : ∀ i (hi : i < keys.size), isNaN keys[i] = false :=
    fun i hi ↦ hnum _ (Array.getElem_mem hi)
  -- either a pair of neighbours encloses the input or no key up to `i` is above it
  have hstep : ∀ i (hi : i < keys.size), (∃ j, Encloses keys x j) ∨ keys[i] ≤ x := by
    intro i
    induction i with
    | zero => exact fun hi ↦ .inr (le_of_lt (lt_of_not_le hx (hnum' 0 hi) hfirst))
    | succ i ih =>
      intro hi
      rcases ih (by omega) with hj | hle
      · exact .inl hj
      · by_cases hnext : keys[i + 1] ≤ x
        · exact .inr hnext
        · exact .inl ⟨i, (encloses_iff hi).2 ⟨hle, lt_of_not_le (hnum' _ hi) hx hnext⟩⟩
  exact (hstep (keys.size - 1) (by omega)).resolve_right hlast

theorem Ascending.le (asc : Ascending keys) {i j : Nat} (hij : i ≤ j) (hi : i < keys.size)
    (hj : j < keys.size) : keys[i] ≤ keys[j] := by
  rcases Nat.eq_or_lt_of_le hij with rfl | hlt
  · exact le_refl (asc.isNaN_eq_false _ (Array.getElem_mem hi))
  · exact List.pairwise_iff_getElem.1 asc.pairwise i j hi hj hlt

/-- **The last key that is not above an input.** -/
structure IsFloor (keys : Array α) (x : α) (i : Nat) : Prop where
  /-- There is such a key. -/
  lt_size : i < keys.size
  /-- It is not above the input. -/
  le : keys[i] ≤ x
  /-- All later ones are. -/
  not_le : ∀ j (hj : j < keys.size), i < j → ¬keys[j] ≤ x

/-- On ascending keys the ones that are not above an input are the first ones. -/
theorem Ascending.satisfies_of_isFloor (asc : Ascending keys) {i : Nat} (h : IsFloor keys x i)
    (j : Nat) : FloorSearch.satisfies (fun k ↦ decide (k ≤ x)) keys j = decide (j < i + 1) := by
  have hi := h.lt_size
  rcases Nat.lt_or_ge j keys.size with hj | hj
  · rw [FloorSearch.satisfies_eq hj, decide_eq_decide]
    constructor
    · intro hjx
      by_contra hij
      exact h.not_le j hj (by omega) hjx
    · intro hji
      exact le_trans (asc.le (by omega) hj hi) h.le
  · rw [FloorSearch.satisfies_eq_false hj, eq_comm, decide_eq_false_iff_not]
    omega

/-- **The floor index is that of the last key not above the input**, scanned for or halved for. -/
theorem Ascending.floorIndex_eq_of_isFloor (asc : Ascending keys) {i : Nat}
    (h : IsFloor keys x i) : FloorSearch.floorIndex keys x = i := by
  have hi := h.lt_size
  exact FloorSearch.floorIndex_of_satisfies hi (asc.satisfies_of_isFloor h)

theorem Ascending.isFloor_of_encloses (asc : Ascending keys) {i : Nat} (h : Encloses keys x i) :
    IsFloor keys x i := by
  have hi := h.lt_size
  obtain ⟨hle, hlt⟩ := (encloses_iff hi).1 h
  exact ⟨by omega, hle, fun j hj hij hjx ↦
    not_le_of_lt hlt (le_trans (asc.le (by omega) hi hj) hjx)⟩

theorem Ascending.floorIndex_eq (asc : Ascending keys) {i : Nat} (h : Encloses keys x i) :
    FloorSearch.floorIndex keys x = i :=
  asc.floorIndex_eq_of_isFloor (asc.isFloor_of_encloses h)

theorem Ascending.encloses_unique (asc : Ascending keys) {i j : Nat} (hi : Encloses keys x i)
    (hj : Encloses keys x j) : i = j :=
  (asc.floorIndex_eq hi).symm.trans (asc.floorIndex_eq hj)

/-- **An enclosed input is placed between the neighbours that enclose it**, unless it is at the
first key, which repeats then. -/
theorem Ascending.placeAmong_eq_between (asc : Ascending keys) {i : Nat} (h : Encloses keys x i)
    (hfirst : ∀ k, keys[0]? = some k → ¬x ≤ k) : placeAmong keys x = .between i := by
  have hi := h.lt_size
  obtain ⟨hle, hlt⟩ := (encloses_iff hi).1 h
  have hlast : ¬keys[keys.size - 1] ≤ x := fun hlast ↦
    not_le_of_lt hlt (le_trans (asc.le (by omega) hi (by omega)) hlast)
  have hplace := placeAmong_of_not_ends (by omega)
    (hfirst _ (Array.getElem?_eq_getElem (by omega))) hlast (by rwa [asc.floorIndex_eq h])
  rwa [asc.floorIndex_eq h] at hplace

/-- **An input between two neighbours is enclosed by them.** -/
theorem Ascending.encloses_of_placeAmong (asc : Ascending keys) (h : 0 < keys.size)
    (hx : isNaN x = false) {i : Nat} (hplace : placeAmong keys x = .between i) :
    Encloses keys x i := by
  rw [placeAmong_eq h] at hplace
  split at hplace
  · cases hplace
  · rename_i hfirst
    split at hplace
    · cases hplace
    · rename_i hlast
      obtain ⟨j, hj⟩ := exists_encloses hx asc.isNaN_eq_false h (not_or.1 hfirst).2 hlast
      rw [asc.floorIndex_eq hj] at hplace
      split at hplace
      · cases hplace
        exact hj
      · cases hplace

/-! ### Places on a ramp -/

section Stops

omit [Lawful α]

variable {β : Type} {stops : List (α × β)} {lo hi : α}

omit [Scalar α] in
theorem size_keys (r : Ramp α β) : r.keys.size = r.size := Array.size_map

omit [Scalar α] in
theorem getElem?_keys (r : Ramp α β) (i : Nat) : r.keys[i]? = r.key? i :=
  Array.getElem?_map

omit [Scalar α] in
theorem mem_of_output? {r : Ramp α β} {i : Nat} {v : β} (h : r.output? i = some v) :
    v ∈ r.stops.toList.map Prod.snd := by
  obtain ⟨stop, hstop, rfl⟩ := Option.map_eq_some_iff.1 h
  exact List.mem_map_of_mem (Array.mem_toList_iff.2 (Array.mem_of_getElem? hstop))

omit [Scalar α] in
theorem exists_stop (r : Ramp α β) {i : Nat} (h : i < r.size) :
    ∃ k v, r.key? i = some k ∧ r.output? i = some v := by
  have hstop : r.stops[i]? = some r.stops[i] := Array.getElem?_eq_getElem h
  exact ⟨r.stops[i].1, r.stops[i].2, by rw [key?, hstop]; rfl, by rw [output?, hstop]; rfl⟩

/-- A place on a ramp, which has stops then, is one among its keys. -/
theorem placeAmong_of_place? {r : Ramp α β} {place : Place} (h : r.place? x = some place) :
    0 < r.size ∧ placeAmong r.keys x = place := by
  rw [place?] at h
  split at h
  · cases h
  · rename_i hsize
    exact ⟨Nat.pos_of_ne_zero (not_or.1 hsize).1, Option.some.inj h⟩

/-- The places on a ramp name stops of it. -/
theorem place?_in_range {r : Ramp α β} {place : Place} (h : r.place? x = some place) :
    (∀ i, place = .at i → i < r.size) ∧ ∀ i, place = .between i → i + 1 < r.size := by
  obtain ⟨hpos, rfl⟩ := placeAmong_of_place? h
  rw [← r.size_keys] at hpos ⊢
  exact placeAmong_in_range hpos x

theorem lt_size_of_place? {r : Ramp α β} {i : Nat} (h : r.place? x = some (.at i)) : i < r.size :=
  (place?_in_range h).1 i rfl

theorem succ_lt_size_of_place? {r : Ramp α β} {i : Nat} (h : r.place? x = some (.between i)) :
    i + 1 < r.size :=
  (place?_in_range h).2 i rfl

/-- The floor of a place is a stop. -/
theorem floor_lt_size {r : Ramp α β} {place : Place} (h : r.place? x = some place) :
    place.floor < r.size := by
  rcases place with i | i
  · exact lt_size_of_place? h
  · exact Nat.lt_of_succ_lt (succ_lt_size_of_place? h)

/-- Something stands at the end of a ramp that an input is placed at. -/
theorem exists_output_of_at {r : Ramp α β} {i : Nat} (h : r.place? x = some (.at i)) :
    ∃ v, r.output? i = some v := by
  obtain ⟨-, v, -, hv⟩ := r.exists_stop (lt_size_of_place? h)
  exact ⟨v, hv⟩

/-- Both of the stops that an input is placed between are there. -/
theorem exists_stops_of_between {r : Ramp α β} {i : Nat} (h : r.place? x = some (.between i)) :
    ∃ lo hi v w, r.key? i = some lo ∧ r.key? (i + 1) = some hi ∧ r.output? i = some v ∧
      r.output? (i + 1) = some w := by
  have hlt := succ_lt_size_of_place? h
  obtain ⟨lo, v, hlo, hv⟩ := r.exists_stop (Nat.lt_of_succ_lt hlt)
  obtain ⟨hi, w, hhi, hw⟩ := r.exists_stop hlt
  exact ⟨lo, hi, v, w, hlo, hhi, hv, hw⟩

theorem place?_eq_none {r : Ramp α β} (hnan : isNaN x = true) (h : 1 < r.size) :
    r.place? x = none :=
  if_pos (.inr ⟨hnan, h⟩)

/-- What has a place among several stops is a number. -/
theorem isNaN_eq_false_of_place? {r : Ramp α β} {place : Place} (h : r.place? x = some place)
    (hsize : 1 < r.size) : isNaN x = false := by
  by_contra hnan
  rw [place?_eq_none (Bool.not_eq_false _ ▸ hnan) hsize] at h
  exact absurd h (by simp)

/-- A ramp with stops has a place for every number, and a lone stop for all else too. -/
theorem place?_ofList (hne : stops ≠ []) (h : isNaN x = true → stops.length = 1) :
    (ofList stops).place? x = some (placeAmong (stops.map Prod.fst).toArray x) := by
  have hpos := List.length_pos_iff.2 hne
  rw [place?, if_neg, keys_ofList]
  rw [size_ofList]
  rintro (hzero | ⟨hnan, hlen⟩)
  · omega
  · rw [h hnan] at hlen
    omega

/-- A ramp with stops has no place only for what is not a number, and only if they are several. -/
theorem place?_eq_none_iff (hne : stops ≠ []) :
    (ofList stops).place? x = none ↔ isNaN x = true ∧ 1 < stops.length := by
  have hpos : 0 < stops.length := List.length_pos_iff.2 hne
  constructor
  · intro hplace
    by_contra hnot
    have hlone : isNaN x = true → stops.length = 1 := fun hnan ↦ by
      have hle := not_and.1 hnot hnan
      omega
    rw [place?_ofList hne hlone] at hplace
    exact absurd hplace (by simp)
  · rintro ⟨hnan, hlen⟩
    exact place?_eq_none hnan hlen

theorem place?_of_length_eq_one (h : stops.length = 1) :
    (ofList stops).place? x = some (.at 0) := by
  rw [place?_ofList (List.ne_nil_of_length_eq_add_one h) fun _ ↦ h, placeAmong_of_size_eq_one]
  rwa [List.size_toArray, List.length_map]

variable [Lawful α]

theorem place?_of_le_head (hhead : (stops.map Prod.fst).head? = some lo) (hx : x ≤ lo) :
    (ofList stops).place? x = some (.at 0) := by
  rw [List.head?_eq_getElem?] at hhead
  obtain ⟨hpos, rfl⟩ := List.getElem?_eq_some_iff.1 hhead
  have hne : stops ≠ [] := fun h ↦ by simp [h] at hpos
  rw [place?_ofList hne fun hnan ↦ absurd hx (not_le_of_isNaN_left hnan),
    placeAmong_of_le_first (by simpa using hpos) hx]

/-- From the last key on it is the last stop, unless the first stop takes the input. -/
theorem place?_of_getLast_le (hlast : (stops.map Prod.fst).getLast? = some hi) (hx : hi ≤ x)
    (hhead : ∀ lo, (stops.map Prod.fst).head? = some lo → ¬x ≤ lo) :
    (ofList stops).place? x = some (.at (stops.length - 1)) := by
  rw [List.getLast?_eq_getElem?] at hlast
  obtain ⟨hlt, rfl⟩ := List.getElem?_eq_some_iff.1 hlast
  rw [List.length_map] at hlt
  rcases Nat.lt_or_ge 1 stops.length with hlen | hlen
  · have hpos : 0 < (stops.map Prod.fst).length := by rw [List.length_map]; omega
    have hfirst := hhead _ (List.head?_eq_getElem?.trans (List.getElem?_eq_getElem hpos))
    rw [place?_ofList (List.length_pos_iff.1 (by omega)) fun hnan ↦
      absurd hx (not_le_of_isNaN_right hnan),
      placeAmong_of_last_le (by simpa using hlen) hfirst (by simpa using hx)]
    simp
  · have hone : stops.length = 1 := by omega
    rw [place?_of_length_eq_one hone, hone]

variable (asc : Ascending (stops.map Prod.fst).toArray)
include asc

theorem place?_of_encloses {i : Nat} (h : Encloses (stops.map Prod.fst).toArray x i)
    (hhead : ∀ lo, (stops.map Prod.fst).head? = some lo → ¬x ≤ lo) :
    (ofList stops).place? x = some (.between i) := by
  obtain ⟨lo, _, _, hhi, hle, _⟩ := id h
  have hne : stops ≠ [] := fun hnil ↦ by simp [hnil] at hhi
  rw [place?_ofList hne fun hnan ↦ absurd hle (not_le_of_isNaN_right hnan),
    asc.placeAmong_eq_between h]
  intro k hk
  exact hhead k (List.head?_eq_getElem?.trans ((List.getElem?_toArray).symm.trans hk))

/-- **Away from both ends one pair of neighbours encloses the input**, and no other does. -/
theorem existsUnique_encloses (hne : stops ≠ []) (hx : isNaN x = false)
    (hhead : ∀ lo, (stops.map Prod.fst).head? = some lo → ¬x ≤ lo)
    (hlast : ∀ hi, (stops.map Prod.fst).getLast? = some hi → ¬hi ≤ x) :
    ∃! i, Encloses (stops.map Prod.fst).toArray x i := by
  have hpos : 0 < (stops.map Prod.fst).length := by
    rw [List.length_map]
    exact List.length_pos_iff.2 hne
  obtain ⟨i, hi⟩ := exists_encloses hx asc.isNaN_eq_false hpos
    (hhead _ (List.head?_eq_getElem?.trans (List.getElem?_eq_getElem hpos)))
    (hlast _ (List.getLast?_eq_getElem?.trans (List.getElem?_eq_getElem (by omega))))
  exact ⟨i, hi, fun j hj ↦ asc.encloses_unique hj hi⟩

end Stops

end Ramp

end MapStyle
