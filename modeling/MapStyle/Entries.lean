/-!
# Ordered entries

Objects, feature properties and JSON objects keep their entries in the order of first insertion.
They are association lists without repeated keys: `insert` overwrites in place, and equality looks
entries up, so it does not depend on the order.
-/

namespace MapStyle

/-- Entries keyed by text, in the order their keys first appeared. -/
abbrev Entries (β : Type) := List (String × β)

namespace Entries

variable {β : Type}

/-- Sets the value of a key: in place if the key is there, at the end otherwise. -/
def insert (key : String) (value : β) : Entries β → Entries β
  | [] => [(key, value)]
  | (k, v) :: es => if k = key then (k, value) :: es else (k, v) :: insert key value es

/-- The value of a key. -/
def get? (es : Entries β) (key : String) : Option β := List.lookup key es

/-- The entries that result from setting each pair in turn. -/
def ofPairs (pairs : List (String × β)) : Entries β :=
  pairs.foldl (fun es (k, v) ↦ insert k v es) []

/-- The keys in order. -/
def keys (es : Entries β) : List String := es.map Prod.fst

/-! ### Looking up what was set -/

@[simp] theorem get?_insert_self (key : String) (value : β) (es : Entries β) :
    get? (insert key value es) key = some value := by
  induction es with
  | nil => simp [insert, get?]
  | cons e es ih =>
    obtain ⟨k, v⟩ := e
    by_cases h : k = key
    · simp [insert, get?, h]
    · have h' : (key == k) = false := by simpa using Ne.symm h
      simpa [insert, get?, h, List.lookup_cons, h'] using ih

theorem get?_insert_of_ne {key other : String} (h : other ≠ key) (value : β) (es : Entries β) :
    get? (insert key value es) other = get? es other := by
  have h' : (other == key) = false := by simpa using h
  induction es with
  | nil => simp [insert, get?, List.lookup_cons, h']
  | cons e es ih =>
    obtain ⟨k, v⟩ := e
    by_cases hk : k = key
    · subst hk
      simp [insert, get?, List.lookup_cons, h']
    · simp only [get?] at ih
      simp [insert, get?, hk, List.lookup_cons, ih]

/-- **Setting a key changes the value of that key alone.** -/
theorem get?_insert (key other : String) (value : β) (es : Entries β) :
    get? (insert key value es) other = if other = key then some value else get? es other := by
  by_cases h : other = key
  · subst h
    simp
  · rw [if_neg h, get?_insert_of_ne h]

end Entries

end MapStyle
