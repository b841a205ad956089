import MapStyle.Proofs.Check.Stops

/-!
# Well-formed definitions

`WellFormed` says of a definition as a whole what the check looks for stop by stop. It knows no
trail and no order of work: names are known, the base makes sense, and the stops have keys of one
form and of the sort that the strategy needs, in order. **The check finds a problem exactly where a
definition is not well formed** (`problems_eq_nil_iff`).

What carries the induction is the stop before the present one, as everything on the trail is
something of it as long as there was no problem. So each stop is asked for two things: what it is by
itself (`Stop.Suits`) and how it follows the one before (`Stop.Follows`).

Where there are problems they come in order: first those about the whole, then those about single
stops, stop by stop (`stopProblems_inOrder`).

The main statement is `FunctionDefinition.structuralCheck_eq_nil_iff`.
-/

namespace MapStyle

variable {α : Type} [Scalar α]

namespace Stop

open FunctionDefinition (NumericKeys keySort?)

/-- **What is asked of a stop by itself.** -/
structure Suits (strategy : Option Strategy) (zoomed : Bool) (s : Stop α) : Prop where
  /-- The key has the expected form. -/
  form : s.key.isZoomed = zoomed
  /-- Where keys are numeric it is a number. -/
  number : NumericKeys strategy → s.keyNumber?.isSome
  /-- Where keys are categories it has a sort. -/
  sort : strategy = some .categorical → (keySort? s.keyData).isSome

/-- **How the stop `t` follows the stop `s`.** -/
structure Follows (strategy : Option Strategy) (s t : Stop α) : Prop where
  /-- The zoom does not descend. -/
  zoom : s.ZoomFollows t
  /-- Where keys are numeric, the key does not descend within a zoom. -/
  key : NumericKeys strategy → s.KeyFollows t
  /-- Where keys are categories, they are of one sort. -/
  sort : strategy = some .categorical → keySort? s.keyData = keySort? t.keyData

end Stop

/-- **The text of a problem with a single stop begins with the stop.** -/
theorem Problem.message_of_stop? {q : Problem} {i : Nat} (h : q.stop? = some i) :
    ∃ text, q.message = stopText i ++ text := by
  -- to state the equations of `message` is slow, as they are about long texts
  delta message
  cases q with
  | unknownStrategy | unknownColorSpace | invalidBase | nothingGiven | missingProperty => cases h
  | zoomDescends | unsuitableKey | nonNumericKey | keyDescends =>
    rw [Option.some.inj h]
    exact ⟨_, rfl⟩
  | zoomKeyExpected | zoomKeyUnexpected | mixedKeys =>
    rw [Option.some.inj h]
    simp only [String.append_assoc]
    exact ⟨_, rfl⟩

namespace FunctionDefinition

variable {strategy : Option Strategy} {zoomed : Bool} {i : Nat} {trail : Trail α} {key : Json α}
  {s : Stop α} {before : Option (Stop α)} {stops : List (Stop α)}

/-! ### Keys that pass -/

theorem checkNumber_eq_nil_of {x : α} (hx : key.number? = some x)
    (hle : ∀ p, trail.key = some p → ¬x < p) : (checkNumber i trail key).1 = [] := by
  rw [checkNumber, hx]
  show (if trail.key.any (fun p ↦ decide (x < p)) then _ else _) = _
  refine if_neg fun hany ↦ ?_
  obtain ⟨p, hp, hlt⟩ := (Option.any_eq_true _ _).1 hany
  exact hle p hp (of_decide_eq_true hlt)

/-- A categorical key passes exactly if it has a sort, that of the first key if there was one. -/
theorem checkCategory_eq_nil_iff :
    (checkCategory i trail key).1 = [] ↔
      ∃ found, keySort? key = some found ∧ ∀ first, trail.sort = some first → first = found := by
  rw [checkCategory]
  rcases keySort? key with - | found
  · simp
  · rcases trail.sort with - | first
    · simp
    · show (if found = first then ([], trail)
        else ([Problem.mixedKeys i found first], trail)).1 = [] ↔ _
      by_cases hsame : found = first
      · simp [hsame]
      · simp [hsame, Ne.symm hsame]

/-- A categorical key that passes has its sort on the trail from then on. -/
theorem checkCategory_sort (h : (checkCategory i trail key).1 = []) :
    (checkCategory i trail key).2.sort = keySort? key := by
  obtain ⟨found, hfound, hfirst⟩ := checkCategory_eq_nil_iff.1 h
  rw [checkCategory, hfound]
  rcases hsort : trail.sort with - | first
  · rfl
  · obtain rfl := hfirst first hsort
    show (if first = first then ([], trail)
      else ([Problem.mixedKeys i first first], trail)).2.sort = _
    rw [if_pos rfl, hsort]

theorem identity_of_not_numericKeys (hnumeric : ¬NumericKeys strategy)
    (hcategorical : strategy ≠ some .categorical) : strategy = some .identity := by
  by_contra hne
  exact hnumeric ⟨hcategorical, hne⟩

/-- A key passes if it is what its strategy asks for. -/
theorem checkKey_eq_nil_of
    (hnumber : NumericKeys strategy → ∃ x, key.number? = some x ∧
      ∀ p, trail.key = some p → ¬x < p)
    (hsort : strategy = some .categorical → ∃ found, keySort? key = some found ∧
      ∀ first, trail.sort = some first → first = found) :
    (checkKey strategy i trail key).1 = [] := by
  by_cases hnumeric : NumericKeys strategy
  · rw [checkKey_of_numericKeys hnumeric]
    obtain ⟨x, hx, hle⟩ := hnumber hnumeric
    exact checkNumber_eq_nil_of hx hle
  · by_cases hcategorical : strategy = some .categorical
    · rw [hcategorical]
      exact checkCategory_eq_nil_iff.2 (hsort hcategorical)
    · rw [identity_of_not_numericKeys hnumeric hcategorical]
      rfl

/-! ### Stops that pass -/

/-- The trail that the key of a stop is checked with, once its zoom is checked. -/
def Trail.atKey (i : Nat) (trail : Trail α) (s : Stop α) : Trail α :=
  match s.key with
  | .plain _ => trail
  | .zoomed zoom _ => (checkZoom i trail zoom).2

/-- The problems of the zoom of a stop, if it has one. -/
def zoomProblems (i : Nat) (trail : Trail α) (s : Stop α) : List Problem :=
  s.zoom?.elim [] fun zoom ↦ (checkZoom i trail zoom).1

/-- **A stop of the expected form is checked by its zoom and then by its key.** -/
theorem checkStop_eq (strategy : Option Strategy) (i : Nat) (trail : Trail α)
    (hform : s.key.isZoomed = zoomed) :
    checkStop strategy zoomed i trail s.key =
      (zoomProblems i trail s ++ (checkKey strategy i (trail.atKey i s) s.keyData).1,
        (checkKey strategy i (trail.atKey i s) s.keyData).2) := by
  rw [zoomProblems, Stop.zoom?, Stop.keyData, Trail.atKey, ← hform]
  rcases s.key with key | ⟨zoom, value⟩
  · rfl
  · rfl

theorem atKey_sort (i : Nat) (trail : Trail α) (s : Stop α) :
    (trail.atKey i s).sort = trail.sort := by
  rw [Trail.atKey]
  rcases s.key with key | ⟨zoom, value⟩ <;> rfl

/-- A zoom passes if it is not below the one before it. -/
theorem zoomProblems_eq_nil_of (hzoom : trail.zoom = before.bind Stop.zoom?)
    (hfollows : ∀ r, before = some r → r.ZoomFollows s) : zoomProblems i trail s = [] := by
  rw [zoomProblems]
  rcases hs : s.zoom? with - | zoom
  · rfl
  · show (if trail.zoom.any (fun p ↦ decide (zoom < p)) then _ else _) = _
    refine if_neg fun hany ↦ ?_
    obtain ⟨p, hp, hlt⟩ := (Option.any_eq_true _ _).1 hany
    rw [hzoom] at hp
    obtain ⟨r, hr, hrp⟩ := Option.bind_eq_some_iff.1 hp
    exact hfollows r hr p zoom hrp hs (of_decide_eq_true hlt)

/-- A numeric key is compared with that of the stop before, and only if the two share their zoom. -/
theorem exists_of_atKey (hkeeps : trail.Keeps strategy before) (hnumeric : NumericKeys strategy)
    (hform : ∀ r, before = some r → r.key.isZoomed = s.key.isZoomed) {p : α}
    (hp : (trail.atKey i s).key = some p) :
    ∃ r, before = some r ∧ (r.zoom? == s.zoom?) = true ∧ r.keyNumber? = some p := by
  rw [Trail.atKey] at hp
  rcases hkey : s.key with key | ⟨zoom, value⟩
  · rw [hkey] at hp hform
    have hp : trail.key = some p := hp
    rw [hkeeps.key_eq hnumeric] at hp
    obtain ⟨r, hr, hrp⟩ := Option.bind_eq_some_iff.1 hp
    have hs : s.zoom? = none := by rw [Stop.zoom?, hkey]
    refine ⟨r, hr, ?_, hrp⟩
    rw [Stop.zoom?_of_isZoomed_eq_false (hform r hr), hs]
    rfl
  · rw [hkey] at hp
    have hp : (if trail.zoom == some zoom then trail.key else none) = some p := hp
    rw [Option.ite_none_right_eq_some, hkeeps.zoom_eq, hkeeps.key_eq hnumeric] at hp
    obtain ⟨hsame, hp⟩ := hp
    obtain ⟨r, hr, hrp⟩ := Option.bind_eq_some_iff.1 hp
    have hs : s.zoom? = some zoom := by rw [Stop.zoom?, hkey]
    rw [hr, Option.bind_some, ← hs] at hsame
    exact ⟨r, hr, hsame, hrp⟩

/-- **The sort on the trail** is that of the stop before, where keys are categories. -/
def Trail.KeepsSort (strategy : Option Strategy) (trail : Trail α) (before : Option (Stop α)) :
    Prop :=
  strategy = some .categorical → trail.sort = before.bind fun r ↦ keySort? r.keyData

/-- **A stop passes** if it is what is asked for by itself and follows the one before. -/
theorem checkStop_eq_nil_of (hkeeps : trail.Keeps strategy before)
    (hsort : trail.KeepsSort strategy before)
    (hbefore : ∀ r, before = some r → r.Suits strategy zoomed) (hs : s.Suits strategy zoomed)
    (hfollows : ∀ r, before = some r → r.Follows strategy s) :
    (checkStop strategy zoomed i trail s.key).1 = [] := by
  rw [checkStop_eq strategy i trail hs.form]
  have hzoom : zoomProblems i trail s = [] :=
    zoomProblems_eq_nil_of hkeeps.zoom_eq fun r hr ↦ (hfollows r hr).zoom
  have hkey : (checkKey strategy i (trail.atKey i s) s.keyData).1 = [] := by
    refine checkKey_eq_nil_of (fun hnumeric ↦ ?_) fun hcategorical ↦ ?_
    · obtain ⟨x, hx⟩ := Option.isSome_iff_exists.1 (hs.number hnumeric)
      refine ⟨x, hx, fun p hp ↦ ?_⟩
      -- a key on the trail is that of the stop before, at the same zoom
      obtain ⟨r, hr, hsame, hrp⟩ := exists_of_atKey hkeeps hnumeric
        (fun r hr ↦ (hbefore r hr).form.trans hs.form.symm) hp
      exact (hfollows r hr).key hnumeric hsame p x hrp hx
    · obtain ⟨found, hfound⟩ := Option.isSome_iff_exists.1 (hs.sort hcategorical)
      refine ⟨found, hfound, fun first hfirst ↦ ?_⟩
      rw [atKey_sort, hsort hcategorical] at hfirst
      obtain ⟨r, hr, hrfirst⟩ := Option.bind_eq_some_iff.1 hfirst
      have hsame := (hfollows r hr).sort hcategorical
      rw [hrfirst, hfound, Option.some.injEq] at hsame
      exact hsame
  exact List.append_eq_nil_iff.2 ⟨hzoom, hkey⟩

/-- A stop that passes has a sort, that of the stop before, and leaves it on the trail. -/
theorem checkStop_sort (hsort : trail.KeepsSort strategy before)
    (hbefore : ∀ r, before = some r → r.Suits strategy zoomed) (hform : s.key.isZoomed = zoomed)
    (hcategorical : strategy = some .categorical)
    (h : (checkStop strategy zoomed i trail s.key).1 = []) :
    (keySort? s.keyData).isSome ∧
      (∀ r, before = some r → keySort? r.keyData = keySort? s.keyData) ∧
      (checkStop strategy zoomed i trail s.key).2.sort = keySort? s.keyData := by
  rw [checkStop_eq strategy i trail hform, hcategorical] at h ⊢
  have hkey : (checkCategory i (trail.atKey i s) s.keyData).1 = [] := (List.append_eq_nil_iff.1 h).2
  obtain ⟨found, hfound, hfirst⟩ := checkCategory_eq_nil_iff.1 hkey
  refine ⟨by rw [hfound, Option.isSome_some], fun r hr ↦ ?_, checkCategory_sort hkey⟩
  obtain ⟨first, hr'⟩ := Option.isSome_iff_exists.1 ((hbefore r hr).sort hcategorical)
  have htrail : (trail.atKey i s).sort = some first := by
    rw [atKey_sort, hsort hcategorical, hr, Option.bind_some, hr']
  rw [hr', hfound, hfirst first htrail]

/-- **A stop passes exactly if it is what is asked for and follows the one before.** -/
theorem checkStop_eq_nil_iff (hkeeps : trail.Keeps strategy before)
    (hsort : trail.KeepsSort strategy before)
    (hbefore : ∀ r, before = some r → r.Suits strategy zoomed) :
    (checkStop strategy zoomed i trail s.key).1 = [] ↔
      s.Suits strategy zoomed ∧ ∀ r, before = some r → r.Follows strategy s := by
  refine ⟨fun h ↦ ?_, fun h ↦ checkStop_eq_nil_of hkeeps hsort hbefore h.1 h.2⟩
  obtain ⟨hform, hzoom, hnumber, -⟩ := checkStop_eq_nil hkeeps (fun r hr ↦ (hbefore r hr).form) h
  have hsorted := fun hcategorical ↦ checkStop_sort hsort hbefore hform hcategorical h
  exact ⟨⟨hform, fun hnumeric ↦ (hnumber hnumeric).1, fun hcat ↦ (hsorted hcat).1⟩, fun r hr ↦
    ⟨hzoom r hr, fun hnumeric ↦ (hnumber hnumeric).2 r hr, fun hcat ↦ (hsorted hcat).2.1 r hr⟩⟩

/-! ### All stops -/

/-- **The stops have no problems exactly if each is what is asked for and follows the one before
it**, the first of them the one before all. -/
theorem stopProblems_eq_nil_iff (hkeeps : trail.Keeps strategy before)
    (hsort : trail.KeepsSort strategy before)
    (hbefore : ∀ r, before = some r → r.Suits strategy zoomed) :
    stopProblems strategy zoomed i trail stops = [] ↔
      (∀ s ∈ stops, s.Suits strategy zoomed) ∧
        (before.toList ++ stops).IsChain (Stop.Follows strategy) := by
  induction stops generalizing i trail before with
  | nil =>
    refine iff_of_true rfl ⟨List.forall_mem_nil _, ?_⟩
    rcases before with - | r
    · exact .nil
    · exact .singleton r
  | cons s stops ih =>
    have hstop := checkStop_eq_nil_iff (i := i) (s := s) hkeeps hsort hbefore
    -- a stop that passes is the one before for the rest of them
    have hrest : (checkStop strategy zoomed i trail s.key).1 = [] →
        (stopProblems strategy zoomed (i + 1) (checkStop strategy zoomed i trail s.key).2 stops = []
          ↔ (∀ t ∈ stops, t.Suits strategy zoomed) ∧
            (s :: stops).IsChain (Stop.Follows strategy)) := by
      intro h
      have hs := (hstop.1 h).1
      have hkept := (checkStop_eq_nil hkeeps (fun r hr ↦ (hbefore r hr).form) h).2.2.2
      exact ih hkept
        (fun hcat ↦ (checkStop_sort hsort hbefore hs.form hcat h).2.2)
        fun r hr ↦ Option.some.inj hr ▸ hs
    rw [List.forall_mem_cons]
    constructor
    · intro h
      obtain ⟨hpass, hpasses⟩ := List.append_eq_nil_iff.1 h
      obtain ⟨hs, hfollows⟩ := hstop.1 hpass
      obtain ⟨hsuit, hchain⟩ := (hrest hpass).1 hpasses
      exact ⟨⟨hs, hsuit⟩, isChain_toList_append_cons hfollows hchain⟩
    · rintro ⟨⟨hs, hsuit⟩, hchain⟩
      have hpass := hstop.2 ⟨hs, fun r hr ↦ by
        subst hr
        exact (List.isChain_cons_cons.1 hchain).1⟩
      refine List.append_eq_nil_iff.2 ⟨hpass, (hrest hpass).2 ⟨hsuit, ?_⟩⟩
      exact hchain.right_of_append

/-! ### The order of problems -/

variable {q : Problem}

theorem stop?_of_mem_checkNumber (h : q ∈ (checkNumber i trail key).1) : q.stop? = some i := by
  rw [checkNumber] at h
  split at h
  · rw [List.mem_singleton.1 h]
    rfl
  · rename_i x _
    have h : q ∈ if trail.key.any (fun p ↦ decide (x < p)) then [Problem.keyDescends i] else [] := h
    rw [List.mem_singleton.1 (List.mem_ite_nil_right.1 h).2]
    rfl

theorem stop?_of_mem_checkCategory (h : q ∈ (checkCategory i trail key).1) :
    q.stop? = some i := by
  rw [checkCategory] at h
  split at h
  · rw [List.mem_singleton.1 h]
    rfl
  · exact absurd h List.not_mem_nil
  · split at h
    · exact absurd h List.not_mem_nil
    · rw [List.mem_singleton.1 h]
      rfl

theorem stop?_of_mem_checkKey (h : q ∈ (checkKey strategy i trail key).1) :
    q.stop? = some i := by
  by_cases hnumeric : NumericKeys strategy
  · rw [checkKey_of_numericKeys hnumeric] at h
    exact stop?_of_mem_checkNumber h
  · by_cases hcategorical : strategy = some .categorical
    · rw [hcategorical] at h
      exact stop?_of_mem_checkCategory h
    · rw [identity_of_not_numericKeys hnumeric hcategorical] at h
      exact absurd h List.not_mem_nil

/-- **Every problem that a stop is checked for names the stop.** -/
theorem stop?_of_mem_checkStop {k : Stop.Key α} (h : q ∈ (checkStop strategy zoomed i trail k).1) :
    q.stop? = some i := by
  rcases k with key | ⟨zoom, value⟩
  · cases zoomed with
    | true =>
      rw [List.mem_singleton.1 h]
      rfl
    | false => exact stop?_of_mem_checkKey h
  · cases zoomed with
    | false =>
      rw [List.mem_singleton.1 h]
      rfl
    | true =>
      rcases List.mem_append.1 h with hzoom | hkey
      · have hzoom : q ∈ if trail.zoom.any (fun p ↦ decide (zoom < p)) then [.zoomDescends i]
            else [] := hzoom
        rw [List.mem_singleton.1 (List.mem_ite_nil_right.1 hzoom).2]
        rfl
      · exact stop?_of_mem_checkKey hkey

/-- **Problems come stop by stop**, and each is about one of the stops that were checked. -/
theorem stopProblems_inOrder :
    (∀ q ∈ stopProblems strategy zoomed i trail stops,
      ∃ j, i ≤ j ∧ j < i + stops.length ∧ q.stop? = some j) ∧
      ((stopProblems strategy zoomed i trail stops).filterMap Problem.stop?).Pairwise (· ≤ ·) := by
  induction stops generalizing i trail with
  | nil => exact ⟨List.forall_mem_nil _, .nil⟩
  | cons s stops ih =>
    obtain ⟨hlater, horder⟩ := @ih (i + 1) (checkStop strategy zoomed i trail s.key).2
    have hnow : ∀ q ∈ (checkStop strategy zoomed i trail s.key).1, q.stop? = some i :=
      fun q hq ↦ stop?_of_mem_checkStop hq
    have hnow' : ∀ j ∈ (checkStop strategy zoomed i trail s.key).1.filterMap Problem.stop?,
        j = i := by
      intro j hj
      obtain ⟨q, hq, hqj⟩ := List.mem_filterMap.1 hj
      exact Option.some.inj (hqj.symm.trans (hnow q hq))
    refine ⟨List.forall_mem_append.2 ⟨fun q hq ↦ ?_, fun q hq ↦ ?_⟩, ?_⟩
    · exact ⟨i, Nat.le_refl i, by simp, hnow q hq⟩
    · obtain ⟨j, hij, hj, hq⟩ := hlater q hq
      exact ⟨j, by omega, by rw [List.length_cons]; omega, hq⟩
    · show ((_ ++ _ : List Problem).filterMap Problem.stop?).Pairwise (· ≤ ·)
      rw [List.filterMap_append, List.pairwise_append]
      refine ⟨List.pairwise_of_forall_mem_list fun j hj k hk ↦ ?_, horder, fun j hj k hk ↦ ?_⟩
      · rw [hnow' j hj, hnow' k hk]
      · obtain ⟨q, hq, hqk⟩ := List.mem_filterMap.1 hk
        obtain ⟨k', hik, -, hqk'⟩ := hlater q hq
        obtain rfl : k = k' := Option.some.inj (hqk.symm.trans hqk')
        rw [hnow' j hj]
        omega

/-! ### Sorts of keys -/

theorem keySort?_eq_string_iff {j : Json α} :
    keySort? j = some .string ↔ ∃ text, j = .str text := by
  cases j <;> simp [keySort?]

theorem keySort?_eq_number_iff {j : Json α} : keySort? j = some .number ↔ j.number?.isSome := by
  cases j <;> simp [keySort?, Json.number?]

theorem keySort?_eq_boolean_iff {j : Json α} : keySort? j = some .boolean ↔ ∃ b, j = .bool b := by
  cases j <;> simp [keySort?]

/-- **Keys are all strings, all numbers or all truth values** if each has a sort, that of the one
before it. -/
theorem sorts_iff :
    ((∀ s ∈ stops, (keySort? s.keyData).isSome) ∧
        stops.IsChain fun s t ↦ keySort? s.keyData = keySort? t.keyData) ↔
      (∀ s ∈ stops, ∃ text, s.keyData = .str text) ∨ (∀ s ∈ stops, s.keyNumber?.isSome) ∨
        ∀ s ∈ stops, ∃ b, s.keyData = .bool b := by
  simp only [← keySort?_eq_string_iff, ← keySort?_eq_boolean_iff]
  show _ ↔ _ ∨ (∀ s ∈ stops, s.keyData.number?.isSome) ∨ _
  simp only [← keySort?_eq_number_iff]
  constructor
  · rintro ⟨hsome, hchain⟩
    rcases stops with - | ⟨s, stops⟩
    · exact .inl (List.forall_mem_nil _)
    · obtain ⟨sort, hsort⟩ := Option.isSome_iff_exists.1 (hsome s List.mem_cons_self)
      have hall : ∀ t ∈ s :: stops, keySort? t.keyData = some sort := by
        have hpairs := List.isChain_iff_pairwise.1 hchain
        exact List.forall_mem_cons.2 ⟨hsort, fun t ht ↦
          ((List.pairwise_cons.1 hpairs).1 t ht).symm.trans hsort⟩
      cases sort with
      | string => exact .inl hall
      | number => exact .inr (.inl hall)
      | boolean => exact .inr (.inr hall)
  · have hone : ∀ sort, (∀ s ∈ stops, keySort? s.keyData = some sort) →
        (∀ s ∈ stops, (keySort? s.keyData).isSome) ∧
          stops.IsChain fun s t ↦ keySort? s.keyData = keySort? t.keyData := by
      intro sort hall
      refine ⟨fun s hs ↦ by rw [hall s hs, Option.isSome_some], List.Pairwise.isChain ?_⟩
      exact List.pairwise_of_forall_mem_list fun s hs t ht ↦ (hall s hs).trans (hall t ht).symm
    rintro (hall | hall | hall)
    · exact hone _ hall
    · exact hone _ hall
    · exact hone _ hall

/-! ### The whole definition -/

/-- **What a definition without problems satisfies.** -/
structure Checked (d : FunctionDefinition α) : Prop where
  /-- The name of the strategy is known. -/
  strategyName : ∀ name, d.strategyName = some name → (Strategy.ofName? name).isSome
  /-- The name of the color space is known. -/
  colorSpaceName : ∀ name, d.colorSpaceName = some name → (ColorSpace.ofName? name).isSome
  /-- Without stops there is the identity or a default. -/
  default : d.stopList = [] → d.namedStrategy? = some .identity ∨ d.default.isSome
  /-- Keys with zoom come with a property. -/
  property : d.isComposite = true → d.property.isSome
  /-- All keys have the form of the first. -/
  forms : ∀ s ∈ d.stopList, s.key.isZoomed = d.isComposite
  /-- Zooms do not descend. -/
  zooms : d.stopList.IsChain Stop.ZoomFollows
  /-- Where keys are numeric, they do not descend within a zoom. -/
  keys : NumericKeys d.namedStrategy? →
    (∀ s ∈ d.stopList, s.keyNumber?.isSome) ∧ d.stopList.IsChain Stop.KeyFollows

/-- **A well-formed definition.** -/
structure WellFormed (d : FunctionDefinition α) : Prop extends Checked d where
  /-- The base is finite and not negative. -/
  base : ∀ base, d.base = some base → Scalar.isFinite base = true ∧ 0.0 ≤ base
  /-- Categorical keys are all strings, all numbers or all truth values. -/
  sorts : d.namedStrategy? = some .categorical →
    (∀ s ∈ d.stopList, ∃ text, s.keyData = .str text) ∨ (∀ s ∈ d.stopList, s.keyNumber?.isSome) ∨
      ∀ s ∈ d.stopList, ∃ b, s.keyData = .bool b

variable {d : FunctionDefinition α}

theorem nameProblems_eq_nil_iff {β : Type} {resolve : String → Option β}
    {problem : String → Problem} {name? : Option String} :
    nameProblems resolve problem name? = [] ↔
      ∀ name, name? = some name → (resolve name).isSome := by
  rcases name? with - | name
  · exact iff_of_true rfl fun name h ↦ absurd h (by simp)
  · rw [nameProblems]
    simp [Option.isSome_iff_ne_none]

theorem emptyProblems_eq_nil_iff :
    d.emptyProblems = [] ↔ d.namedStrategy? = some .identity ∨ d.default.isSome := by
  rw [emptyProblems]
  split
  · rename_i h
    exact iff_of_true rfl h
  · rename_i h
    exact iff_of_false (List.cons_ne_nil _ _) h

theorem propertyProblems_eq_nil_iff :
    d.propertyProblems = [] ↔ (d.isComposite = true → d.property.isSome) := by
  rw [propertyProblems]
  rcases d.property with - | name
  · simp
  · simp

theorem baseProblems_eq_nil_iff {base? : Option α} :
    baseProblems base? = [] ↔
      ∀ base, base? = some base → Scalar.isFinite base = true ∧ 0.0 ≤ base := by
  rcases base? with - | base
  · exact iff_of_true rfl fun base h ↦ absurd h (by simp)
  · rw [baseProblems]
    simp

/-- The problems of a definition as a whole. -/
def wholeProblems (d : FunctionDefinition α) : List Problem :=
  nameProblems Strategy.ofName? .unknownStrategy d.strategyName ++
    nameProblems ColorSpace.ofName? .unknownColorSpace d.colorSpaceName ++
    baseProblems d.base ++
    if d.stopList.isEmpty then d.emptyProblems else d.propertyProblems

/-- The problems of single stops. -/
def singleProblems (d : FunctionDefinition α) : List Problem :=
  stopProblems d.namedStrategy? d.isComposite 0 ⟨none, none, none⟩ d.stopList

/-- **The check looks at the whole first**, and then at the stops. -/
theorem problems_eq (d : FunctionDefinition α) :
    d.problems = d.wholeProblems ++ d.singleProblems := by
  rw [problems, wholeProblems, singleProblems]
  rcases d.stopList with - | ⟨s, stops⟩
  · exact (List.append_nil _).symm
  · exact (List.append_assoc _ _ _).symm

theorem stop?_of_mem_nameProblems {β : Type} {resolve : String → Option β}
    {problem : String → Problem} {name? : Option String}
    (hproblem : ∀ name, (problem name).stop? = none) (h : q ∈ nameProblems resolve problem name?) :
    q.stop? = none := by
  rcases name? with - | name
  · exact absurd h List.not_mem_nil
  · rw [nameProblems, List.mem_ite_nil_left] at h
    rw [List.mem_singleton.1 h.2]
    exact hproblem name

/-- No problem of the whole is about a single stop. -/
theorem stop?_of_mem_wholeProblems (h : q ∈ d.wholeProblems) : q.stop? = none := by
  rw [wholeProblems, List.mem_append, List.mem_append, List.mem_append] at h
  obtain ((hname | hname) | hbase) | hlast := h
  · exact stop?_of_mem_nameProblems (fun _ ↦ rfl) hname
  · exact stop?_of_mem_nameProblems (fun _ ↦ rfl) hname
  · rcases hb : d.base with - | base
    · rw [hb] at hbase
      exact absurd hbase List.not_mem_nil
    · rw [hb, baseProblems, List.mem_ite_nil_left] at hbase
      rw [List.mem_singleton.1 hbase.2]
      rfl
  · split at hlast
    · rw [emptyProblems, List.mem_ite_nil_left] at hlast
      rw [List.mem_singleton.1 hlast.2]
      rfl
    · rw [propertyProblems, List.mem_ite_nil_right] at hlast
      rw [List.mem_singleton.1 hlast.2]
      rfl

theorem wholeProblems_eq_nil_iff :
    d.wholeProblems = [] ↔
      (∀ name, d.strategyName = some name → (Strategy.ofName? name).isSome) ∧
      (∀ name, d.colorSpaceName = some name → (ColorSpace.ofName? name).isSome) ∧
      (∀ base, d.base = some base → Scalar.isFinite base = true ∧ 0.0 ≤ base) ∧
      (d.stopList = [] → d.namedStrategy? = some .identity ∨ d.default.isSome) ∧
      (d.isComposite = true → d.property.isSome) := by
  have hlast : (if d.stopList.isEmpty then d.emptyProblems else d.propertyProblems) = [] ↔
      (d.stopList = [] → d.namedStrategy? = some .identity ∨ d.default.isSome) ∧
        (d.isComposite = true → d.property.isSome) := by
    by_cases hnil : d.stopList = []
    · rw [hnil, if_pos List.isEmpty_nil, emptyProblems_eq_nil_iff,
        isComposite_of_stopList_eq_nil hnil]
      simp
    · rw [if_neg (by rwa [List.isEmpty_iff]), propertyProblems_eq_nil_iff]
      simp [hnil]
  rw [wholeProblems, List.append_eq_nil_iff, List.append_eq_nil_iff, List.append_eq_nil_iff,
    nameProblems_eq_nil_iff, nameProblems_eq_nil_iff, baseProblems_eq_nil_iff, hlast]
  simp only [and_assoc]

theorem isChain_follows_iff {strategy : Option Strategy} {stops : List (Stop α)} :
    stops.IsChain (Stop.Follows strategy) ↔
      stops.IsChain Stop.ZoomFollows ∧ (NumericKeys strategy → stops.IsChain Stop.KeyFollows) ∧
      (strategy = some .categorical →
        stops.IsChain fun s t ↦ keySort? s.keyData = keySort? t.keyData) := by
  constructor
  · intro h
    exact ⟨h.imp fun s t hst ↦ hst.zoom, fun hn ↦ h.imp fun s t hst ↦ hst.key hn,
      fun hc ↦ h.imp fun s t hst ↦ hst.sort hc⟩
  · rintro ⟨hzoom, hkey, hsort⟩
    simp only [List.isChain_iff_getElem] at *
    exact fun i hi ↦ ⟨hzoom i hi, fun hn ↦ hkey hn i hi, fun hc ↦ hsort hc i hi⟩

/-- The trail is empty before the first stop. -/
theorem keeps_nothing {strategy : Option Strategy} :
    (⟨none, none, none⟩ : Trail α).Keeps strategy none :=
  ⟨rfl, fun _ ↦ rfl⟩

/-- **The stops are well formed exactly if none has a problem.** -/
theorem singleProblems_eq_nil_iff :
    d.singleProblems = [] ↔
      (∀ s ∈ d.stopList, s.key.isZoomed = d.isComposite) ∧
      d.stopList.IsChain Stop.ZoomFollows ∧
      (NumericKeys d.namedStrategy? →
        (∀ s ∈ d.stopList, s.keyNumber?.isSome) ∧ d.stopList.IsChain Stop.KeyFollows) ∧
      (d.namedStrategy? = some .categorical →
        (∀ s ∈ d.stopList, (keySort? s.keyData).isSome) ∧
          d.stopList.IsChain fun s t ↦ keySort? s.keyData = keySort? t.keyData) := by
  rw [singleProblems, stopProblems_eq_nil_iff keeps_nothing (fun _ ↦ rfl) (by simp)]
  show _ ∧ d.stopList.IsChain _ ↔ _
  rw [isChain_follows_iff]
  constructor
  · rintro ⟨hsuits, hzoom, hkey, hsort⟩
    exact ⟨fun s hs ↦ (hsuits s hs).form, hzoom,
      fun hn ↦ ⟨fun s hs ↦ (hsuits s hs).number hn, hkey hn⟩,
      fun hc ↦ ⟨fun s hs ↦ (hsuits s hs).sort hc, hsort hc⟩⟩
  · rintro ⟨hform, hzoom, hkey, hsort⟩
    exact ⟨fun s hs ↦ ⟨hform s hs, fun hn ↦ (hkey hn).1 s hs, fun hc ↦ (hsort hc).1 s hs⟩, hzoom,
      fun hn ↦ (hkey hn).2, fun hc ↦ (hsort hc).2⟩

/-- **The check finds no problem exactly in well-formed definitions.** -/
theorem problems_eq_nil_iff : d.problems = [] ↔ d.WellFormed := by
  rw [problems_eq, List.append_eq_nil_iff, wholeProblems_eq_nil_iff, singleProblems_eq_nil_iff]
  constructor
  · rintro ⟨⟨hstrategy, hspace, hbase, hdefault, hproperty⟩, hform, hzoom, hkey, hsort⟩
    exact ⟨⟨hstrategy, hspace, hdefault, hproperty, hform, hzoom, hkey⟩, hbase,
      fun hc ↦ sorts_iff.1 (hsort hc)⟩
  · intro h
    exact ⟨⟨h.strategyName, h.colorSpaceName, h.base, h.default, h.property⟩, h.forms, h.zooms,
      h.keys, fun hc ↦ sorts_iff.2 (h.sorts hc)⟩

/-- **The check accepts exactly the well-formed definitions**, whatever the name of the property.
Otherwise it reports what is wrong with the whole first, and then what is wrong with single stops,
stop by stop, each text beginning with the stop. -/
theorem structuralCheck_eq_nil_iff (d : FunctionDefinition α) (name : String) :
    (d.structuralCheck name = [] ↔ d.WellFormed) ∧
      ∃ whole single : List Problem,
        d.structuralCheck name = (whole ++ single).map (.invalid name) ∧
        (∀ q ∈ whole, q.stop? = none) ∧
        (∀ q ∈ single, ∃ i < d.stopList.length, q.stop? = some i ∧
          ∃ text, q.message = stopText i ++ text) ∧
        (single.filterMap Problem.stop?).Pairwise (· ≤ ·) := by
  refine ⟨by rw [structuralCheck, List.map_eq_nil_iff, problems_eq_nil_iff], d.wholeProblems,
    d.singleProblems, by rw [structuralCheck, problems_eq],
    fun q hq ↦ stop?_of_mem_wholeProblems hq, fun q hq ↦ ?_, stopProblems_inOrder.2⟩
  obtain ⟨i, -, hi, hq⟩ := stopProblems_inOrder.1 q hq
  exact ⟨i, by rwa [Nat.zero_add] at hi, hq, q.message_of_stop? hq⟩

end FunctionDefinition

end MapStyle
