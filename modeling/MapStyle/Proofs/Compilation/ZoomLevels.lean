import MapStyle.Proofs.Compilation.Rules
import MapStyle.Proofs.Scalar.Lawful

/-!
# Zoom levels

Grouping goes over the stops once and adds each to the level it finds by numeric equality. The
result is described here without an order of work: the levels are the **distinct zooms in order of
first appearance**, and the stops of a level are all those with its zoom (`groupByZoom_eq_ok_iff`).

The two descriptions are joined by what one more stop does to the levels of those seen so far
(`addToLevel_zoomGroups`). It needs numeric equality to be symmetric and transitive, and no more:
two zooms of one level may still differ, as the zeros do, and the first of them represents it.
-/

namespace MapStyle

open Scalar

variable {α : Type} [Scalar α]

/-! ### Levels -/

namespace Stop

/-- The zoom level of a key, if it has one. -/
def zoom? (s : Stop α) : Option α :=
  match s.key with
  | .plain _ => none
  | .zoomed zoom _ => some zoom

/-- The stop without its zoom level. -/
def withoutZoom (s : Stop α) : Stop α :=
  match s.key with
  | .plain _ => s
  | .zoomed _ value => ⟨.plain value, s.output⟩

/-- Whether a stop stands at a zoom level, by numeric equality. -/
def isAt (zoom : α) (s : Stop α) : Bool := s.zoom?.any fun z ↦ z == zoom

/-- Whether the key has a zoom level that is a number. -/
def HasZoom (s : Stop α) : Prop := ∃ zoom, s.zoom? = some zoom ∧ isNaN zoom = false

theorem hasZoom_plain {s : Stop α} {key : Json α} (h : s.key = .plain key) :
    s.HasZoom ↔ False := by
  rw [HasZoom, zoom?, h]
  simp

theorem hasZoom_zoomed {s : Stop α} {zoom : α} {value : Json α} (h : s.key = .zoomed zoom value) :
    s.HasZoom ↔ isNaN zoom = false := by
  rw [HasZoom, zoom?, h]
  simp

end Stop

/-- **The distinct zooms of some stops**, in order of first appearance. -/
def zoomLevels (stops : List (Stop α)) : List α := (stops.filterMap Stop.zoom?).eraseDups

/-- **The stops of a zoom level**, in their order and without their zoom. -/
def levelStops (stops : List (Stop α)) (zoom : α) : List (Stop α) :=
  (stops.filter (Stop.isAt zoom)).map Stop.withoutZoom

/-- The zoom levels of some stops with the stops of each. -/
def zoomGroups (stops : List (Stop α)) : List (α × List (Stop α)) :=
  (zoomLevels stops).map fun zoom ↦ (zoom, levelStops stops zoom)

theorem isAt_eq {s : Stop α} {zoom : α} {value : Json α} (h : s.key = .zoomed zoom value) (z : α) :
    s.isAt z = (zoom == z) := by
  rw [Stop.isAt, Stop.zoom?, h]
  rfl

theorem zooms_concat {seen : List (Stop α)} {s : Stop α} {zoom : α} {value : Json α}
    (h : s.key = .zoomed zoom value) :
    (seen ++ [s]).filterMap Stop.zoom? = seen.filterMap Stop.zoom? ++ [zoom] := by
  have hs : s.zoom? = some zoom := by rw [Stop.zoom?, h]
  rw [List.filterMap_append, List.filterMap_cons_some hs, List.filterMap_nil]

/-- A zoom that no stop has leaves a level without stops. -/
theorem levelStops_eq_nil {stops : List (Stop α)} {zoom : α}
    (h : (stops.filterMap Stop.zoom?).any (fun z ↦ z == zoom) = false) :
    levelStops stops zoom = [] := by
  rw [levelStops, List.map_eq_nil_iff, List.filter_eq_nil_iff]
  intro s hs hat
  obtain ⟨z, hz, heq⟩ := (Option.any_eq_true _ _).1 hat
  exact List.any_eq_false.1 h z (List.mem_filterMap.2 ⟨s, hs, hz⟩) heq

theorem isNaN_of_mem_zooms {stops : List (Stop α)} (h : ∀ s ∈ stops, s.HasZoom) {zoom : α}
    (hzoom : zoom ∈ stops.filterMap Stop.zoom?) : isNaN zoom = false := by
  obtain ⟨s, hs, hz⟩ := List.mem_filterMap.1 hzoom
  obtain ⟨_, hz', hnum⟩ := h s hs
  rw [hz, Option.some.injEq] at hz'
  rwa [hz']

/-! ### What grouping keeps -/

/-- One more stop is added to the levels, and nothing else is. -/
theorem addToLevel_perm {β : Type} (zoom : α) (stop : β) (levels : List (α × List β)) :
    ((addToLevel zoom stop levels).flatMap Prod.snd).Perm (stop :: levels.flatMap Prod.snd) := by
  induction levels with
  | nil => exact .refl _
  | cons level levels ih =>
    obtain ⟨z, stops⟩ := level
    rw [addToLevel]
    split
    · show ((stops ++ [stop]) ++ levels.flatMap Prod.snd).Perm _
      rw [List.append_assoc]
      exact List.perm_middle
    · show (stops ++ (addToLevel zoom stop levels).flatMap Prod.snd).Perm _
      exact (ih.append_left stops).trans List.perm_middle

/-- **Grouping rearranges the stops** and takes their zooms away. It does not matter how the zooms
compare. -/
theorem groupByZoom_perm {i : Nat} {seen groups : List (α × List (Stop α))} {stops : List (Stop α)}
    (h : groupByZoom i seen stops = .ok groups) :
    (groups.flatMap Prod.snd).Perm (seen.flatMap Prod.snd ++ stops.map Stop.withoutZoom) := by
  induction stops generalizing i seen with
  | nil =>
    rw [groupByZoom, Except.ok.injEq] at h
    rw [h, List.map_nil, List.append_nil]
  | cons s stops ih =>
    rw [groupByZoom] at h
    rcases hkey : s.key with key | ⟨zoom, value⟩
    · rw [hkey] at h
      exact absurd h (by simp)
    · rw [hkey] at h
      have hs : s.withoutZoom = ⟨.plain value, s.output⟩ := by rw [Stop.withoutZoom, hkey]
      have h : (if isNaN zoom then .error (DefinitionError.zoomNotANumber i) else _) =
          Except.ok groups := h
      split at h
      · exact absurd h (by simp)
      · rw [List.map_cons, hs]
        exact (ih h).trans (((addToLevel_perm _ _ _).append_right _).trans List.perm_middle.symm)

/-- **Stops can be grouped exactly if all have a zoom that is a number.** -/
theorem exists_groupByZoom_iff {i : Nat} {seen : List (α × List (Stop α))} {stops : List (Stop α)} :
    (∃ groups, groupByZoom i seen stops = .ok groups) ↔ ∀ s ∈ stops, s.HasZoom := by
  induction stops generalizing i seen with
  | nil => exact iff_of_true ⟨seen, rfl⟩ (List.forall_mem_nil _)
  | cons s stops ih =>
    rw [groupByZoom, List.forall_mem_cons]
    rcases hkey : s.key with key | ⟨zoom, value⟩
    · rw [Stop.hasZoom_plain hkey]
      simp
    · rw [Stop.hasZoom_zoomed hkey]
      rcases hzoom : isNaN zoom with - | -
      · simp [hzoom, ih]
      · simp [hzoom]

/-! ### Distinct scalars -/

/-- Induction along the removal of repeats: the tail is reached without what equals the head. -/
theorem distinct_induction {motive : List α → Prop} (nil : motive [])
    (cons : ∀ x xs, motive (xs.filter fun y ↦ !y == x) → motive (x :: xs)) :
    ∀ xs, motive xs
  | [] => nil
  | x :: xs => cons x xs (distinct_induction nil cons (xs.filter fun y ↦ !y == x))
termination_by xs => xs.length
decreasing_by exact Nat.lt_succ_of_le (List.length_filter_le _ _)

theorem eraseDups_sublist (xs : List α) : xs.eraseDups.Sublist xs := by
  induction xs using distinct_induction with
  | nil => exact .slnil
  | cons x xs ih =>
    rw [List.eraseDups_cons]
    exact (ih.trans List.filter_sublist).cons_cons x

/-- Distinct scalars are numerically different, each from all that stand before it. -/
theorem pairwise_eraseDups (xs : List α) :
    xs.eraseDups.Pairwise fun x y ↦ (y == x) = false := by
  induction xs using distinct_induction with
  | nil => exact .nil
  | cons x xs ih =>
    rw [List.eraseDups_cons, List.pairwise_cons]
    refine ⟨fun y hy ↦ ?_, ih⟩
    have hne := List.of_mem_filter ((eraseDups_sublist _).mem hy)
    rwa [Bool.not_eq_true'] at hne

variable [Lawful α]

/-- What equals a scalar that differs from `y` differs from `y` too. -/
theorem any_filter_of_beq_eq_false {x y : α} (h : (x == y) = false) (xs : List α) :
    (xs.filter fun z ↦ !z == y).any (fun z ↦ z == x) = xs.any fun z ↦ z == x := by
  rw [List.any_filter]
  refine List.any_congr rfl fun z ↦ ?_
  rcases hzx : z == x with - | -
  · exact Bool.and_false _
  · rw [beq_congr_left hzx, h]
    rfl

/-- Removing repeats loses no scalar, up to equality. -/
theorem any_eraseDups (xs : List α) (x : α) :
    xs.eraseDups.any (fun z ↦ z == x) = xs.any fun z ↦ z == x := by
  induction xs using distinct_induction with
  | nil => rfl
  | cons y ys ih =>
    rw [List.eraseDups_cons, List.any_cons, List.any_cons, ih, beq_comm y x]
    rcases hxy : x == y with - | -
    · rw [any_filter_of_beq_eq_false hxy]
    · rfl

/-- One more scalar is distinct from those before it or changes nothing. -/
theorem eraseDups_concat (xs : List α) (x : α) :
    (xs ++ [x]).eraseDups =
      if xs.any (fun y ↦ y == x) then xs.eraseDups else xs.eraseDups ++ [x] := by
  induction xs using distinct_induction with
  | nil => rfl
  | cons y ys ih =>
    rw [List.cons_append, List.eraseDups_cons, List.eraseDups_cons, List.filter_append,
      List.filter_singleton, List.any_cons, beq_comm y x]
    rcases hxy : x == y with - | -
    · rw [Bool.not_false, cond_true, ih, any_filter_of_beq_eq_false hxy, Bool.false_or]
      split <;> rfl
    · rw [Bool.not_true, cond_false, List.append_nil, Bool.true_or, if_pos rfl]

/-! ### One more stop -/

/-- **Adding to levels that are numerically different** extends the one that equals the zoom, or
else appends a new one. -/
theorem addToLevel_map {β : Type} {zooms : List α}
    (hzooms : zooms.Pairwise fun x y ↦ (y == x) = false) (stopsAt : α → List β) (zoom : α)
    (stop : β) :
    addToLevel zoom stop (zooms.map fun z ↦ (z, stopsAt z)) =
      if zooms.any (fun z ↦ z == zoom) then
        zooms.map fun z ↦ (z, if z == zoom then stopsAt z ++ [stop] else stopsAt z)
      else (zooms.map fun z ↦ (z, stopsAt z)) ++ [(zoom, [stop])] := by
  induction zooms with
  | nil => rfl
  | cons z zooms ih =>
    rw [List.pairwise_cons] at hzooms
    obtain ⟨hhead, htail⟩ := hzooms
    rw [List.map_cons, addToLevel, List.any_cons, List.map_cons]
    rcases hz : z == zoom with - | -
    · rw [if_neg Bool.false_ne_true, if_neg Bool.false_ne_true, ih htail, Bool.false_or]
      split <;> rfl
    · -- the levels after this one are not equal to it, hence not to the zoom
      have hrest : ∀ y ∈ zooms, (y == zoom) = false := fun y hy ↦ by
        rw [beq_comm y zoom, ← beq_congr_left hz, beq_comm z y]
        exact hhead y hy
      rw [if_pos rfl, if_pos rfl, Bool.true_or, if_pos rfl]
      refine congrArg _ (List.map_congr_left fun y hy ↦ ?_)
      rw [hrest y hy, if_neg Bool.false_ne_true]

/-- A level takes one more stop exactly if the stop stands at it. -/
theorem levelStops_concat {seen : List (Stop α)} {s : Stop α} {zoom : α} {value : Json α}
    (h : s.key = .zoomed zoom value) (z : α) :
    levelStops (seen ++ [s]) z =
      if z == zoom then levelStops seen z ++ [⟨.plain value, s.output⟩] else levelStops seen z := by
  have hs : s.withoutZoom = ⟨.plain value, s.output⟩ := by rw [Stop.withoutZoom, h]
  rw [levelStops, List.filter_append, List.filter_singleton, isAt_eq h, beq_comm zoom z]
  rcases z == zoom with - | -
  · rw [cond_false, List.append_nil, if_neg Bool.false_ne_true, levelStops]
  · rw [cond_true, List.map_append, List.map_singleton, hs, if_pos rfl, levelStops]

/-- **What one more stop does to the levels** of those before it. -/
theorem addToLevel_zoomGroups (seen : List (Stop α)) {s : Stop α} {zoom : α} {value : Json α}
    (h : s.key = .zoomed zoom value) (hzoom : isNaN zoom = false) :
    addToLevel zoom ⟨.plain value, s.output⟩ (zoomGroups seen) = zoomGroups (seen ++ [s]) := by
  have hdistinct : (zoomLevels seen).Pairwise fun x y ↦ (y == x) = false := pairwise_eraseDups _
  have hlevels : zoomLevels (seen ++ [s]) =
      if (zoomLevels seen).any (fun z ↦ z == zoom) then zoomLevels seen
      else zoomLevels seen ++ [zoom] := by
    rw [zoomLevels, zoomLevels, zooms_concat h, eraseDups_concat, any_eraseDups]
  rw [zoomGroups, zoomGroups, addToLevel_map hdistinct, hlevels]
  simp only [levelStops_concat h]
  rcases hany : (zoomLevels seen).any fun z ↦ z == zoom with - | -
  · -- a new level, which no earlier stop stands at
    have hnone : levelStops seen zoom = [] :=
      levelStops_eq_nil (by rwa [zoomLevels, any_eraseDups] at hany)
    rw [if_neg Bool.false_ne_true, if_neg Bool.false_ne_true, List.map_append, List.map_singleton,
      if_pos (isNaN_eq_false_iff.1 hzoom), hnone, List.nil_append]
    refine congrArg (· ++ _) (List.map_congr_left fun z hz ↦ ?_)
    rw [if_neg (List.any_eq_false.1 hany z hz)]
  · rfl

/-- **Grouping finds the zoom levels**, provided that every stop has a zoom that is a number. -/
theorem groupByZoom_eq_ok_iff {stops : List (Stop α)} {groups : List (α × List (Stop α))} :
    groupByZoom 0 [] stops = .ok groups ↔
      (∀ s ∈ stops, s.HasZoom) ∧ groups = zoomGroups stops := by
  suffices hrun : ∀ (i : Nat) (seen : List (Stop α)),
      groupByZoom i (zoomGroups seen) stops = .ok groups ↔
        (∀ s ∈ stops, s.HasZoom) ∧ groups = zoomGroups (seen ++ stops) from hrun 0 []
  -- The groups so far are those of the stops seen so far.
  induction stops with
  | nil =>
    intro i seen
    rw [groupByZoom, Except.ok.injEq, List.append_nil, eq_comm]
    exact (and_iff_right (List.forall_mem_nil _)).symm
  | cons s stops ih =>
    intro i seen
    rw [groupByZoom, List.forall_mem_cons]
    rcases hkey : s.key with key | ⟨zoom, value⟩
    · rw [Stop.hasZoom_plain hkey]
      simp
    · rw [Stop.hasZoom_zoomed hkey]
      rcases hzoom : isNaN zoom with - | -
      · have hstep := addToLevel_zoomGroups seen hkey hzoom
        simp only [hzoom, Bool.false_eq_true, if_false, hstep, ih, List.append_assoc,
          List.singleton_append, true_and]
      · simp [hzoom]

end MapStyle
