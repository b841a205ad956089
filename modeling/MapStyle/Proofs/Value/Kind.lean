import MapStyle.Value.Kind

/-!
# The common kind of a list

The kind of a list names one kind for all of its elements. `Value.Common` says which, by what the
elements are and not by how they are gone through: the kind that every one of them has, or `value`
if they have no such kind or there are none.

`Value.kind` goes from left to right, remembers one kind and stops at the first element of another.
What it has seen so far is all there is to know of the elements behind it: **as long as they agree
it is the kind of all of them** (`sharedKind_of_forall`), **and one that differs settles the
matter**, whatever comes after it (`sharedKind_of_exists`). So the order of the elements does not
count.

Kinds of nested lists are compared as a whole. A list whose own elements are mixed has a kind like
any other, and two such lists agree if they are equally long.
-/

namespace MapStyle.Value

variable {α : Type} {items others : List (Value α)} {j k : Kind}

/-- **The common kind of the elements of a list.** -/
inductive Common (items : List (Value α)) : Kind → Prop where
  /-- There are elements, and all of them have the kind. -/
  | shared {k : Kind} (hne : items ≠ []) (hall : ∀ v ∈ items, v.kind = k) : Common items k
  /-- There are no elements. -/
  | empty (hnil : items = []) : Common items .value
  /-- Two elements differ in kind. -/
  | mixed {v w : Value α} (hv : v ∈ items) (hw : w ∈ items) (hdiffer : v.kind ≠ w.kind) :
    Common items .value

/-! ### What the elements determine -/

/-- Elements have no two kinds in common. -/
theorem Common.unique (hj : Common items j) (hk : Common items k) : j = k := by
  cases hj with
  | shared hne hall =>
    cases hk with
    | shared _ hall' =>
      obtain ⟨v, hv⟩ := List.exists_mem_of_ne_nil items hne
      exact (hall v hv).symm.trans (hall' v hv)
    | empty hnil => exact absurd hnil hne
    | mixed hv hw hdiffer => exact absurd ((hall _ hv).trans (hall _ hw).symm) hdiffer
  | empty hnil =>
    cases hk with
    | shared hne _ => exact absurd hnil hne
    | empty _ => rfl
    | mixed _ _ _ => rfl
  | mixed hv hw hdiffer =>
    cases hk with
    | shared _ hall => exact absurd ((hall _ hv).trans (hall _ hw).symm) hdiffer
    | empty _ => rfl
    | mixed _ _ _ => rfl

/-- **The order of the elements does not matter** to what they have in common. -/
theorem Common.perm (h : Common items k) (hperm : others.Perm items) : Common others k := by
  cases h with
  | shared hne hall =>
    refine .shared (fun hnil ↦ hne ?_) fun v hv ↦ hall v (hperm.mem_iff.1 hv)
    rw [hnil] at hperm
    exact hperm.nil_eq.symm
  | empty hnil =>
    rw [hnil] at hperm
    exact .empty hperm.eq_nil
  | mixed hv hw hdiffer => exact .mixed (hperm.mem_iff.2 hv) (hperm.mem_iff.2 hw) hdiffer

/-! ### Going through the elements -/

/-- Elements of the kind seen so far leave it as it is. -/
theorem sharedKind_of_forall (hall : ∀ v ∈ items, v.kind = k) :
    sharedKind (some k) items = some k := by
  induction items with
  | nil => rfl
  | cons v vs ih =>
    rw [List.forall_mem_cons] at hall
    rw [sharedKind, if_pos hall.1.symm]
    exact ih hall.2

/-- **One element of another kind decides**, wherever it stands. -/
theorem sharedKind_of_exists (hdiffer : ∃ v ∈ items, v.kind ≠ k) :
    sharedKind (some k) items = some .value := by
  induction items with
  | nil =>
    obtain ⟨v, hv, -⟩ := hdiffer
    exact absurd hv List.not_mem_nil
  | cons v vs ih =>
    rw [sharedKind]
    split
    · rename_i hsame
      obtain ⟨w, hw, hne⟩ := hdiffer
      have hrest : w ∈ vs := (List.mem_cons.1 hw).resolve_left fun heq ↦ hne (heq ▸ hsame.symm)
      exact ih ⟨w, hrest, hne⟩
    · rfl

/-- **Going through the elements finds their common kind.** -/
theorem common_sharedKind (items : List (Value α)) :
    Common items ((sharedKind none items).getD .value) := by
  cases items with
  | nil => exact .empty rfl
  | cons v vs =>
    show Common (v :: vs) ((sharedKind (some v.kind) vs).getD .value)
    by_cases hdiffer : ∃ w ∈ vs, w.kind ≠ v.kind
    · rw [sharedKind_of_exists hdiffer]
      obtain ⟨w, hw, hne⟩ := hdiffer
      exact .mixed (List.mem_cons_of_mem v hw) List.mem_cons_self hne
    · have hall : ∀ w ∈ vs, w.kind = v.kind := fun w hw ↦
        Decidable.not_not.1 fun hne ↦ hdiffer ⟨w, hw, hne⟩
      rw [sharedKind_of_forall hall]
      exact .shared (List.cons_ne_nil v vs) (List.forall_mem_cons.2 ⟨rfl, hall⟩)

/-! ### The kind of a list -/

/-- A list has the kind of lists of its length whose elements have that in common. -/
theorem kind_array_eq_iff {n : Option Nat} :
    (array items).kind = .array k n ↔ Common items k ∧ n = items.length := by
  have hcommon := common_sharedKind items
  rw [kind, Kind.array.injEq]
  constructor
  · rintro ⟨rfl, rfl⟩
    exact ⟨hcommon, rfl⟩
  · rintro ⟨hk, rfl⟩
    exact ⟨hcommon.unique hk, rfl⟩

/-- **The kind of a list is that of its length and of the common kind of its elements**, which is
the only one they have in common. Two lists have one kind exactly if they are equally long and have
one common kind of elements, which for elements that are lists again says the same of those. So a
list that is put into another order keeps its kind. -/
theorem kind_array_common (items : List (Value α)) :
    (∃ k, (array items).kind = .array k items.length ∧ ∀ j, Common items j ↔ j = k) ∧
    (∀ others : List (Value α), (array others).kind = (array items).kind ↔
      others.length = items.length ∧ ∃ k, Common others k ∧ Common items k) ∧
    ∀ others : List (Value α), others.Perm items → (array others).kind = (array items).kind := by
  obtain ⟨k, hk⟩ : ∃ k, Common items k := ⟨_, common_sharedKind items⟩
  have hkind : (array items).kind = .array k items.length := kind_array_eq_iff.2 ⟨hk, rfl⟩
  refine ⟨⟨k, hkind, fun j ↦ ⟨fun hj ↦ hj.unique hk, fun hj ↦ hj ▸ hk⟩⟩, fun others ↦ ?_,
    fun others hperm ↦ ?_⟩
  · rw [hkind, kind_array_eq_iff, Option.some.injEq]
    constructor
    · rintro ⟨hothers, hlength⟩
      exact ⟨hlength.symm, k, hothers, hk⟩
    · rintro ⟨hlength, j, hothers, hj⟩
      exact ⟨hj.unique hk ▸ hothers, hlength.symm⟩
  · rw [hkind, kind_array_eq_iff, hperm.length_eq]
    exact ⟨hk.perm hperm, rfl⟩

/-- A list of two mixed pairs and a pair of numbers. -/
def pairs : List (Value Float) :=
  [array [number 1.0, string "a"], array [null, bool true], array [number 2.0, number 3.0]]

/-- The mixed pairs have one kind, that of the numbers is another, first or last. -/
theorem kind_array_common_pairs :
    pairs.reverse.Perm pairs ∧ (array pairs.reverse).kind = (array pairs).kind ∧
      (array pairs).kind = .array .value (some 3) ∧
      (array (pairs.take 2)).kind = .array (.array .value (some 2)) (some 2) := by
  have hperm : pairs.reverse.Perm pairs := List.reverse_perm pairs
  refine ⟨hperm, (kind_array_common pairs).2.2 _ hperm, by decide, by decide⟩

end MapStyle.Value
