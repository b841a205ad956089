import Mathlib.Data.List.Chain
import MapStyle.FunctionDefinition.Check
import MapStyle.Proofs.Compilation.ZoomLevels

/-!
# Stops without problems

The check goes over the stops once and carries a trail: the zoom and the key of the stop before.
What a stop without problems establishes is said here of it and the stop before it, without the
trail: keys of one form, zooms that do not descend, and, where keys are numeric, keys that do not
descend **within one zoom** (`checkStop_eq_nil`).

Zooms that do not descend keep the stops of one level together, so that order between neighbours
makes the whole ascend by zoom and then by key (`Stop.Precedes`, a transitive relation).
-/

namespace MapStyle

open Scalar (Lawful isNaN)

variable {α : Type} [Scalar α]

/-! ### Neighbouring stops -/

namespace Stop

theorem zoom?_of_isZoomed_eq_false {s : Stop α} (h : s.key.isZoomed = false) : s.zoom? = none := by
  rw [zoom?]
  rcases hkey : s.key with key | ⟨zoom, value⟩
  · rfl
  · rw [hkey] at h
    exact absurd h.symm Bool.false_ne_true

/-- The part of a key that a strategy looks at. -/
def keyData (s : Stop α) : Json α :=
  match s.key with
  | .plain key => key
  | .zoomed _ value => value

/-- The number that this part is. -/
def keyNumber? (s : Stop α) : Option α := s.keyData.number?

theorem number?_withoutZoom (s : Stop α) : s.withoutZoom.number? = s.keyNumber? := by
  rw [withoutZoom, keyNumber?, keyData]
  rcases hkey : s.key with key | ⟨zoom, value⟩
  · simp only [number?, plain?, hkey, Option.bind_some]
  · rfl

theorem isSome_plain?_withoutZoom (s : Stop α) : s.withoutZoom.plain?.isSome = true := by
  rw [withoutZoom]
  rcases hkey : s.key with key | ⟨zoom, value⟩
  · simp only [plain?, hkey, Option.isSome_some]
  · rfl

theorem withoutZoom_of_isZoomed_eq_false {s : Stop α} (h : s.key.isZoomed = false) :
    s.withoutZoom = s := by
  rw [withoutZoom]
  rcases hkey : s.key with key | ⟨zoom, value⟩
  · rfl
  · rw [hkey] at h
    exact absurd h.symm Bool.false_ne_true

/-- The zoom of `t` is not below that of `s`. -/
def ZoomFollows (s t : Stop α) : Prop :=
  ∀ x y, s.zoom? = some x → t.zoom? = some y → ¬y < x

/-- The key of `t` is not below that of `s`, unless a new zoom level begins. -/
def KeyFollows (s t : Stop α) : Prop :=
  (s.zoom? == t.zoom?) = true → ∀ x y, s.keyNumber? = some x → t.keyNumber? = some y → ¬y < x

end Stop

namespace FunctionDefinition

/-- Whether a strategy has numeric keys, as it has where none is named. -/
def NumericKeys (strategy : Option Strategy) : Prop :=
  strategy ≠ some .categorical ∧ strategy ≠ some .identity

variable {strategy : Option Strategy} {zoomed : Bool} {i : Nat} {trail : Trail α} {key : Json α}
  {s : Stop α}

/-! ### One stop -/

theorem checkKey_of_numericKeys (h : NumericKeys strategy) :
    checkKey strategy i trail key = checkNumber i trail key := by
  obtain ⟨hcategorical, hidentity⟩ := h
  rcases strategy with - | strategy
  · rfl
  · cases strategy with
    | exponential => rfl
    | interval => rfl
    | categorical => exact absurd rfl hcategorical
    | identity => exact absurd rfl hidentity

theorem checkNumber_eq_nil (h : (checkNumber i trail key).1 = []) :
    ∃ x, key.number? = some x ∧ (∀ p, trail.key = some p → ¬x < p) ∧
      (checkNumber i trail key).2.key = some x := by
  rw [checkNumber] at h ⊢
  rcases hx : key.number? with - | x
  · rw [hx] at h
    exact absurd h (List.cons_ne_nil _ _)
  · rw [hx] at h
    refine ⟨x, rfl, fun p hp hlt ↦ ?_, rfl⟩
    rw [hp] at h
    simp [hlt] at h

theorem checkNumber_zoom : (checkNumber i trail key).2.zoom = trail.zoom := by
  rw [checkNumber]
  rcases key.number? with - | x <;> rfl

theorem checkCategory_zoom : (checkCategory i trail key).2.zoom = trail.zoom := by
  rw [checkCategory]
  rcases keySort? key with - | found
  · rfl
  · rcases trail.sort with - | first
    · rfl
    · show (ite _ _ _ : List Problem × Trail α).2.zoom = trail.zoom
      split <;> rfl

/-- The key of a stop leaves the zoom on the trail alone. -/
theorem checkKey_zoom : (checkKey strategy i trail key).2.zoom = trail.zoom := by
  rcases strategy with - | strategy
  · exact checkNumber_zoom
  · cases strategy with
    | exponential => exact checkNumber_zoom
    | interval => exact checkNumber_zoom
    | categorical => exact checkCategory_zoom
    | identity => rfl

/-- **What the trail keeps** of the stop before the present one, if there is one. -/
structure Trail.Keeps (strategy : Option Strategy) (trail : Trail α) (before : Option (Stop α)) :
    Prop where
  /-- It keeps the zoom. -/
  zoom_eq : trail.zoom = before.bind Stop.zoom?
  /-- It keeps the number that the key is, where keys are numeric. -/
  key_eq : NumericKeys strategy → trail.key = before.bind Stop.keyNumber?

/-- What a numeric key without problems does. The key on the trail need only be that of the stop
before if the two share their zoom. -/
theorem checkKey_eq_nil (before : Option (Stop α)) (hnumeric : NumericKeys strategy)
    (hnumber : s.keyNumber? = key.number?)
    (htrail : ∀ r, before = some r → (r.zoom? == s.zoom?) = true → trail.key = r.keyNumber?)
    (h : (checkKey strategy i trail key).1 = []) :
    s.keyNumber?.isSome ∧ (∀ r, before = some r → r.KeyFollows s) ∧
      (checkKey strategy i trail key).2.key = s.keyNumber? := by
  rw [checkKey_of_numericKeys hnumeric] at h ⊢
  obtain ⟨x, hx, hle, hkept⟩ := checkNumber_eq_nil h
  rw [hnumber, hx]
  refine ⟨rfl, fun r hr hzoom a b ha hb ↦ ?_, hkept⟩
  rw [hnumber, hx, Option.some.injEq] at hb
  rw [← hb]
  exact hle a ((htrail r hr hzoom).trans ha)

theorem checkStop_plain_eq_nil {before : Option (Stop α)} (hkeeps : trail.Keeps strategy before)
    (hform : ∀ r, before = some r → r.key.isZoomed = false) (hkey : s.key = .plain key)
    (h : (checkKey strategy i trail key).1 = []) :
    (∀ r, before = some r → r.ZoomFollows s) ∧
      (NumericKeys strategy → s.keyNumber?.isSome ∧ ∀ r, before = some r → r.KeyFollows s) ∧
      (checkKey strategy i trail key).2.Keeps strategy (some s) := by
  have hzoom : s.zoom? = none := by rw [Stop.zoom?, hkey]
  have hnumber : s.keyNumber? = key.number? := by rw [Stop.keyNumber?, Stop.keyData, hkey]
  have htrail : trail.zoom = none := by
    rw [hkeeps.zoom_eq]
    rcases before with - | r
    · rfl
    · exact Stop.zoom?_of_isZoomed_eq_false (hform r rfl)
  have hnumeric := fun hn : NumericKeys strategy ↦ checkKey_eq_nil before hn hnumber
    (fun r hr _ ↦ by rw [hkeeps.key_eq hn, hr, Option.bind_some]) h
  refine ⟨fun r _ x y _ hy ↦ ?_, fun hn ↦ ⟨(hnumeric hn).1, (hnumeric hn).2.1⟩, ?_, ?_⟩
  · rw [hzoom] at hy
    exact absurd hy (by simp)
  · rw [checkKey_zoom, htrail, Option.bind_some, hzoom]
  · exact fun hn ↦ (hnumeric hn).2.2

theorem checkStop_zoomed_eq_nil {before : Option (Stop α)} {zoom : α} {value : Json α}
    (hkeeps : trail.Keeps strategy before) (hkey : s.key = .zoomed zoom value)
    (hz : (checkZoom i trail zoom).1 = [])
    (hv : (checkKey strategy i (checkZoom i trail zoom).2 value).1 = []) :
    (∀ r, before = some r → r.ZoomFollows s) ∧
      (NumericKeys strategy → s.keyNumber?.isSome ∧ ∀ r, before = some r → r.KeyFollows s) ∧
      (checkKey strategy i (checkZoom i trail zoom).2 value).2.Keeps strategy (some s) := by
  have hzoom : s.zoom? = some zoom := by rw [Stop.zoom?, hkey]
  have hnumber : s.keyNumber? = value.number? := by rw [Stop.keyNumber?, Stop.keyData, hkey]
  -- A new zoom level empties the key on the trail; within one, it is that of the stop before.
  have hnumeric := fun hn : NumericKeys strategy ↦ checkKey_eq_nil before hn hnumber
    (fun r hr hsame ↦ by
      have hsame' : (trail.zoom == some zoom) = true := by
        rw [hkeeps.zoom_eq, hr, Option.bind_some, ← hzoom]
        exact hsame
      show (if trail.zoom == some zoom then trail.key else none) = _
      rw [if_pos hsame', hkeeps.key_eq hn, hr, Option.bind_some]) hv
  refine ⟨fun r hr x y hx hy hlt ↦ ?_, fun hn ↦ ⟨(hnumeric hn).1, (hnumeric hn).2.1⟩, ?_, ?_⟩
  · rw [hzoom, Option.some.injEq] at hy
    have htrail : trail.zoom = some x := by rw [hkeeps.zoom_eq, hr, Option.bind_some, hx]
    rw [checkZoom, htrail, hy] at hz
    simp [hlt] at hz
  · rw [checkKey_zoom, Option.bind_some, hzoom]
    rfl
  · exact fun hn ↦ (hnumeric hn).2.2

/-- **A stop without problems** has a key of the expected form, follows the stop before it, and is
what the trail keeps from then on. -/
theorem checkStop_eq_nil {before : Option (Stop α)} (hkeeps : trail.Keeps strategy before)
    (hform : ∀ r, before = some r → r.key.isZoomed = zoomed)
    (h : (checkStop strategy zoomed i trail s.key).1 = []) :
    s.key.isZoomed = zoomed ∧ (∀ r, before = some r → r.ZoomFollows s) ∧
      (NumericKeys strategy → s.keyNumber?.isSome ∧ ∀ r, before = some r → r.KeyFollows s) ∧
      (checkStop strategy zoomed i trail s.key).2.Keeps strategy (some s) := by
  rcases hkey : s.key with key | ⟨zoom, value⟩
  · rw [hkey] at h
    cases zoomed with
    | true => exact absurd h (List.cons_ne_nil _ _)
    | false => exact ⟨rfl, checkStop_plain_eq_nil hkeeps hform hkey h⟩
  · rw [hkey] at h
    cases zoomed with
    | false => exact absurd h (List.cons_ne_nil _ _)
    | true =>
      obtain ⟨hz, hv⟩ := List.append_eq_nil_iff.1 h
      exact ⟨rfl, checkStop_zoomed_eq_nil hkeeps hkey hz hv⟩

/-! ### All stops -/

/-- A relation along a list that begins with the stop before. -/
theorem isChain_toList_append_cons {R : Stop α → Stop α → Prop} {before : Option (Stop α)}
    {stops : List (Stop α)} (hbefore : ∀ r, before = some r → R r s)
    (h : (s :: stops).IsChain R) : (before.toList ++ s :: stops).IsChain R := by
  rcases before with - | r
  · exact h
  · exact List.isChain_cons_cons.2 ⟨hbefore r rfl, h⟩

end FunctionDefinition

/-! ### Ascending order -/

section Ascending

/-- The order of stops by zoom, which all of them have or none. -/
def Stop.ZoomPrecedes (s t : Stop α) : Prop := Option.Rel (· ≤ ·) s.zoom? t.zoom?

/-- **The order of stops with numeric keys**: by zoom, and within one zoom by key. -/
def Stop.Precedes (s t : Stop α) : Prop :=
  s.ZoomPrecedes t ∧ ∃ k l, s.keyNumber? = some k ∧ t.keyNumber? = some l ∧
    ((s.zoom? == t.zoom?) = true → k ≤ l)

variable {zoomed : Bool} {stops : List (Stop α)}

/-- The zoom levels of stops in the order of their zooms ascend. -/
theorem pairwise_zoomLevels (h : stops.Pairwise Stop.ZoomPrecedes) :
    (zoomLevels stops).Pairwise (· ≤ ·) := by
  refine List.Pairwise.sublist (eraseDups_sublist _) (List.pairwise_filterMap.2 (h.imp ?_))
  intro s t hst x hx y hy
  rw [Stop.ZoomPrecedes, hx, hy] at hst
  obtain ⟨hxy⟩ := hst
  exact hxy

/-- The numbers of stops in order ascend, where the stops share one zoom or have none. -/
theorem pairwise_numbers (h : stops.Pairwise Stop.Precedes)
    (hsame : ∀ s ∈ stops, ∀ t ∈ stops, (s.zoom? == t.zoom?) = true) :
    ((stops.map Stop.withoutZoom).filterMap Stop.number?).Pairwise (· ≤ ·) := by
  rw [List.filterMap_map, List.pairwise_filterMap]
  refine h.imp_of_mem fun {s t} hs ht hst x hx y hy ↦ ?_
  obtain ⟨-, k, l, hk, hl, hkl⟩ := hst
  rw [Function.comp_apply, Stop.number?_withoutZoom, hk, Option.some.injEq] at hx
  rw [Function.comp_apply, Stop.number?_withoutZoom, hl, Option.some.injEq] at hy
  rw [← hx, ← hy]
  exact hkl (hsame s hs t ht)

variable [Lawful α]

/-- JSON numbers are numbers. -/
theorem isNaN_of_number? {j : Json α} {x : α} (h : j.number? = some x) : isNaN x = false := by
  cases j with
  | int n =>
    cases h
    exact Scalar.isNaN_ofInt n.val
  | num y =>
    cases h
    exact Scalar.isNaN_of_isFinite y.property
  | _ => cases h

theorem Stop.ZoomPrecedes.trans {r s t : Stop α} (hrs : r.ZoomPrecedes s)
    (hst : s.ZoomPrecedes t) : r.ZoomPrecedes t := by
  rw [Stop.ZoomPrecedes] at *
  revert hrs hst
  generalize r.zoom? = x
  generalize s.zoom? = y
  generalize t.zoom? = z
  rintro (hxy | -) (hyz | -)
  · exact .some (Scalar.le_trans hxy hyz)
  · exact .none

/-- What stands between two stops of one zoom has their zoom. -/
theorem Stop.ZoomPrecedes.squeeze {r s t : Stop α} (hrs : r.ZoomPrecedes s)
    (hst : s.ZoomPrecedes t) (h : (r.zoom? == t.zoom?) = true) :
    (r.zoom? == s.zoom?) = true ∧ (s.zoom? == t.zoom?) = true := by
  rw [Stop.ZoomPrecedes] at *
  revert hrs hst h
  generalize r.zoom? = x
  generalize s.zoom? = y
  generalize t.zoom? = z
  rintro (hxy | -) (hyz | -) h
  · rename_i x y z
    obtain ⟨-, hzx⟩ := (Scalar.beq_iff x z).1 h
    exact ⟨(Scalar.beq_iff x y).2 ⟨hxy, Scalar.le_trans hyz hzx⟩,
      (Scalar.beq_iff y z).2 ⟨hyz, Scalar.le_trans hzx hxy⟩⟩
  · exact ⟨rfl, rfl⟩

theorem Stop.Precedes.trans {r s t : Stop α} (hrs : r.Precedes s) (hst : s.Precedes t) :
    r.Precedes t := by
  obtain ⟨hrs, j, k, hj, hk, hjk⟩ := hrs
  obtain ⟨hst, k', l, hk', hl, hkl⟩ := hst
  rw [hk, Option.some.injEq] at hk'
  subst hk'
  refine ⟨hrs.trans hst, j, l, hj, hl, fun h ↦ ?_⟩
  obtain ⟨hrs', hst'⟩ := hrs.squeeze hst h
  exact Scalar.le_trans (hjk hrs') (hkl hst')

/-- Zooms that do not descend from stop to stop ascend throughout. -/
theorem pairwise_zoomPrecedes (hforms : ∀ s ∈ stops, s.key.isZoomed = zoomed)
    (hzooms : zoomed = true → ∀ s ∈ stops, s.HasZoom) (h : stops.IsChain Stop.ZoomFollows) :
    stops.Pairwise Stop.ZoomPrecedes := by
  -- The order is transitive, which not being below is not, so neighbours suffice.
  have : Trans (Stop.ZoomPrecedes (α := α)) Stop.ZoomPrecedes Stop.ZoomPrecedes :=
    ⟨Stop.ZoomPrecedes.trans⟩
  refine List.isChain_iff_pairwise.1 (List.isChain_iff_getElem.2 fun i hi ↦ ?_)
  have hs := List.getElem_mem (Nat.lt_of_succ_lt hi)
  have ht := List.getElem_mem hi
  cases zoomed with
  | false =>
    rw [Stop.ZoomPrecedes, Stop.zoom?_of_isZoomed_eq_false (hforms _ hs),
      Stop.zoom?_of_isZoomed_eq_false (hforms _ ht)]
    exact .none
  | true =>
    obtain ⟨x, hx, hxnum⟩ := hzooms rfl _ hs
    obtain ⟨y, hy, hynum⟩ := hzooms rfl _ ht
    rw [Stop.ZoomPrecedes, hx, hy]
    exact .some <| Scalar.le_of_not_lt hynum hxnum (List.isChain_iff_getElem.1 h i hi x y hx hy)

/-- Keys that do not descend from stop to stop of one zoom ascend within it. -/
theorem pairwise_precedes (hzooms : stops.Pairwise Stop.ZoomPrecedes)
    (hnumbers : ∀ s ∈ stops, s.keyNumber?.isSome) (h : stops.IsChain Stop.KeyFollows) :
    stops.Pairwise Stop.Precedes := by
  have : Trans (Stop.Precedes (α := α)) Stop.Precedes Stop.Precedes := ⟨Stop.Precedes.trans⟩
  refine List.isChain_iff_pairwise.1 (List.isChain_iff_getElem.2 fun i hi ↦ ?_)
  obtain ⟨k, hk⟩ := Option.isSome_iff_exists.1
    (hnumbers _ (List.getElem_mem (Nat.lt_of_succ_lt hi)))
  obtain ⟨l, hl⟩ := Option.isSome_iff_exists.1 (hnumbers _ (List.getElem_mem hi))
  refine ⟨List.pairwise_iff_getElem.1 hzooms i _ _ hi (Nat.lt_succ_self i), k, l, hk, hl,
    fun hsame ↦ ?_⟩
  exact Scalar.le_of_not_lt (isNaN_of_number? hl) (isNaN_of_number? hk)
    (List.isChain_iff_getElem.1 h i hi hsame k l hk hl)

/-- **The keys of a zoom level ascend**: its stops, wherever they stand, are in order by key. -/
theorem pairwise_levelStops (h : stops.Pairwise Stop.Precedes) (zoom : α) :
    ((levelStops stops zoom).filterMap Stop.number?).Pairwise (· ≤ ·) := by
  refine pairwise_numbers (h.filter _) fun s hs t ht ↦ ?_
  have hs : s.isAt zoom = true := List.of_mem_filter hs
  have ht : t.isAt zoom = true := List.of_mem_filter ht
  obtain ⟨x, hx, hxz⟩ := (Option.any_eq_true _ _).1 hs
  obtain ⟨y, hy, hyz⟩ := (Option.any_eq_true _ _).1 ht
  rw [hx, hy]
  exact Scalar.beq_trans hxz (Scalar.beq_symm hyz)

end Ascending

end MapStyle
