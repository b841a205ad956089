import MapStyle.Proofs.Ramp.Floor
import MapStyle.Proofs.Scalar.Binary64

/-!
# Two searches for one index

A floor index is scanned for where the keys are few and halved for where they are many. On ascending
keys, which may repeat, the number of keys decides nothing but the work: **both searches find the
last key that is not above the input**, on any number of keys, or stay at zero where there is none
(`Ascending.floorIndex_cases`, `Ascending.searches_eq`).

What is asked of the index follows from that alone, and needs no search any more: it grows with the
input (`Ascending.floorIndex_mono`), and a key has the last of the keys equal to it for its floor
(`Ascending.endsRun_floorIndex`). The input is arbitrary throughout. A value that is not a number is
not above any key, so that it belongs to none of them.
-/

namespace MapStyle

open Scalar

variable {α : Type} [Scalar α]

namespace FloorSearch

/-- The index that is scanned for, however many keys there are. -/
def scanIndex (keys : Array α) (x : α) : Nat :=
  (lastIndex? (fun k ↦ decide (k ≤ x)) keys).getD 0

/-- The index that is halved for, however few keys there are. -/
def halvingIndex (keys : Array α) (x : α) : Nat := boundary (fun k ↦ decide (k ≤ x)) keys - 1

end FloorSearch

namespace Ramp

open FloorSearch

/-- **The last of a run of equal keys**, of which key `i` is one. -/
structure EndsRun (keys : Array α) (i j : Nat) : Prop where
  /-- There is such a key. -/
  lt_size : j < keys.size
  /-- The run does not end before key `i`. -/
  le : i ≤ j
  /-- From key `i` on it is the keys up to the last one, and no others, that are equal. -/
  beq_iff : ∀ n (hn : n < keys.size), i ≤ n → ((keys[n] == keys[i]) = true ↔ n ≤ j)

variable [Lawful α] {keys : Array α} {x y : α} (asc : Ascending keys)
include asc

/-! ### The last key that is not above the input -/

/-- No key is at or below an input, not even the last of several, unless the first one is. -/
theorem Ascending.not_le_of_first (hx : ∀ h : 0 < keys.size, ¬keys[0] ≤ x) :
    ∀ k ∈ keys, ¬k ≤ x := by
  intro k hk hle
  obtain ⟨j, hj, rfl⟩ := Array.mem_iff_getElem.1 hk
  have h : 0 < keys.size := by omega
  exact hx h (le_trans (asc.le (Nat.zero_le j) h hj) hle)

/-- **The keys that are not above an input are the first ones**, if there are any. -/
theorem Ascending.exists_satisfies (x : α) : ∃ n, n ≤ keys.size ∧
    ∀ j, satisfies (fun k ↦ decide (k ≤ x)) keys j = decide (j < n) := by
  by_cases hx : ∃ h : 0 < keys.size, keys[0] ≤ x
  · obtain ⟨h, hle⟩ := hx
    obtain ⟨i, hi⟩ := exists_isFloor h hle
    exact ⟨i + 1, hi.lt_size, asc.satisfies_of_isFloor hi⟩
  · have hnone := asc.not_le_of_first (not_exists.1 hx)
    refine ⟨0, Nat.zero_le _, fun j ↦ ?_⟩
    rcases Nat.lt_or_ge j keys.size with hj | hj
    · rw [satisfies_eq hj, decide_eq_decide]
      exact iff_of_false (hnone _ (Array.getElem_mem hj)) (Nat.not_lt_zero j)
    · rw [satisfies_eq_false hj, eq_comm, decide_eq_false_iff_not]
      exact Nat.not_lt_zero j

/-- **Scanning and halving agree** on any number of keys. -/
theorem Ascending.searches_eq (x : α) :
    scanIndex keys x = floorIndex keys x ∧ halvingIndex keys x = floorIndex keys x := by
  obtain ⟨n, hn, hsat⟩ := asc.exists_satisfies x
  have hfloor : floorIndex keys x = n - 1 := floorIndex_of_satisfies hn hsat
  refine ⟨(lastIndex?_of_satisfies hn hsat).trans hfloor.symm, ?_⟩
  rw [hfloor, halvingIndex, boundary_eq hsat hn]

/-- **The floor index is that of the last key not above the input**, and zero where every key is
above it or cannot be compared with it. -/
theorem Ascending.floorIndex_cases (x : α) :
    IsFloor keys x (floorIndex keys x) ∨ (∀ k ∈ keys, ¬k ≤ x) ∧ floorIndex keys x = 0 := by
  obtain ⟨n, hn, hsat⟩ := asc.exists_satisfies x
  have hle : ∀ j (hj : j < keys.size), keys[j] ≤ x ↔ j < n := by
    intro j hj
    have hj' := hsat j
    rwa [satisfies_eq hj, decide_eq_decide] at hj'
  rw [floorIndex_of_satisfies hn hsat]
  rcases Nat.eq_zero_or_pos n with rfl | hpos
  · refine .inr ⟨fun k hk hkx ↦ ?_, rfl⟩
    obtain ⟨j, hj, rfl⟩ := Array.mem_iff_getElem.1 hk
    exact Nat.not_lt_zero j ((hle j hj).1 hkx)
  · refine .inl ⟨by omega, (hle _ (by omega)).2 (by omega), fun j hj hlt hjx ↦ ?_⟩
    have hjn := (hle j hj).1 hjx
    omega

/-- Without a key that is not above the input the floor index is zero. -/
theorem Ascending.floorIndex_eq_zero_of_not_le (hx : ∀ k ∈ keys, ¬k ≤ x) :
    floorIndex keys x = 0 := by
  obtain hfloor | ⟨-, hzero⟩ := asc.floorIndex_cases x
  · exact absurd hfloor.le (hx _ (Array.getElem_mem _))
  · exact hzero

/-! ### What follows for the index -/

/-- **The floor index grows with the input.** -/
theorem Ascending.floorIndex_mono (hxy : x ≤ y) : floorIndex keys x ≤ floorIndex keys y := by
  obtain hx | ⟨-, hzero⟩ := asc.floorIndex_cases x
  · have hsize := hx.lt_size
    have hle : keys[floorIndex keys x] ≤ y := le_trans hx.le hxy
    obtain hy | ⟨hnone, -⟩ := asc.floorIndex_cases y
    · by_contra hlt
      exact hy.not_le _ hsize (Nat.not_le.1 hlt) hle
    · exact absurd hle (hnone _ (Array.getElem_mem _))
  · rw [hzero]
    exact Nat.zero_le _

/-- **The floor of a key is the last of the keys equal to it.** -/
theorem Ascending.endsRun_floorIndex {i : Nat} (hi : i < keys.size) :
    EndsRun keys i (floorIndex keys keys[i]) := by
  have hself : keys[i] ≤ keys[i] := le_refl (asc.isNaN_eq_false _ (Array.getElem_mem hi))
  obtain hfloor | ⟨hnone, -⟩ := asc.floorIndex_cases keys[i]
  · have hbelow : ∀ n (hn : n < keys.size), keys[n] ≤ keys[i] → n ≤ floorIndex keys keys[i] := by
      intro n hn hle
      by_contra hlt
      exact hfloor.not_le n hn (Nat.not_le.1 hlt) hle
    refine ⟨hfloor.lt_size, hbelow i hi hself, fun n hn hin ↦ ⟨fun heq ↦ ?_, fun hle ↦ ?_⟩⟩
    · exact hbelow n hn ((beq_iff _ _).1 heq).1
    · have hge : keys[n] ≤ keys[i] := le_trans (asc.le hle hn hfloor.lt_size) hfloor.le
      exact (beq_iff _ _).2 ⟨hge, asc.le hin hi hn⟩
  · exact absurd hself (hnone _ (Array.getElem_mem hi))

/-- **The floor index of ascending keys.** It is that of the last key not above the input, or zero
where there is no such key: so it is for no keys at all, and for what is not a number. Either of the
two searches finds it, on any number of keys. It grows with the input, and takes a key to the last
one of those equal to it. -/
theorem Ascending.searches_find_floor :
    (∀ x, IsFloor keys x (floorIndex keys x) ∨
      (∀ k ∈ keys, ¬k ≤ x) ∧ floorIndex keys x = 0) ∧
    (∀ x, keys = #[] ∨ isNaN x = true → floorIndex keys x = 0) ∧
    (∀ x, scanIndex keys x = floorIndex keys x ∧ halvingIndex keys x = floorIndex keys x) ∧
    (∀ x y, x ≤ y → floorIndex keys x ≤ floorIndex keys y) ∧
    ∀ i (hi : i < keys.size), EndsRun keys i (floorIndex keys keys[i]) := by
  refine ⟨asc.floorIndex_cases, fun x hx ↦ ?_, asc.searches_eq, fun x y hxy ↦ ?_, fun i hi ↦ ?_⟩
  · refine asc.floorIndex_eq_zero_of_not_le fun k hk ↦ ?_
    obtain rfl | hnan := hx
    · exact absurd hk (Array.not_mem_empty k)
    · exact not_le_of_isNaN_right hnan
  · exact asc.floorIndex_mono hxy
  · exact asc.endsRun_floorIndex hi

omit asc [Lawful α] [Scalar α] in
/-- Zoom levels, more than are scanned, with a run at the start, one in the middle and one at the
end. -/
def crowdedZooms : Array Float := #[-0.0, 0.0, 4.0, 7.0, 7.0, 7.0, 9.0, 12.0, 14.0, 20.0, 20.0]

omit asc [Lawful α] [Scalar α] in
/-- Each run resolves to its last key, also the one of both zeros; what is below all keys or is not
a number has the first key, and the value above every number has the last. -/
theorem Ascending.searches_find_floor_crowded :
    Ascending crowdedZooms ∧ scanLimit < crowdedZooms.size ∧
      floorIndex crowdedZooms (-0.0) = 1 ∧ floorIndex crowdedZooms 7.0 = 5 ∧
      floorIndex crowdedZooms 13.0 = 7 ∧ floorIndex crowdedZooms infinity = 10 ∧
      floorIndex crowdedZooms (-3.0) = 0 ∧ floorIndex crowdedZooms nan = 0 := by
  have asc : Ascending crowdedZooms := ⟨by decide, by decide⟩
  obtain ⟨-, hzero, hsearches, -⟩ := asc.searches_find_floor
  refine ⟨asc, by decide, ?_, ?_, ?_, ?_, ?_, hzero nan (.inr (by decide))⟩
  all_goals
    rw [← (hsearches _).1]
    decide

end Ramp

end MapStyle
