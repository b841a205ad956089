import Mathlib.Data.List.Chain
import MapStyle.Color.Named
import MapStyle.Proofs.Ramp.Placement

/-!
# Names are found

A name is looked up by halving the table, which finds it only where the names are in order. They are
(`pairwise_named`), and so the entries not after a name of the table are the first ones, up to the
name itself (`satisfies_named`). This makes the search a **membership test**
(`bytesOfName?_eq_some_iff`): each of the names has its channels, and no other text has any.
-/

namespace MapStyle.Color

open FloorSearch

/-- Each name is before the next one. -/
theorem isChain_named : named.IsChain fun entry next ↦ entry.1 < next.1 := by decide +kernel

/-- **The table is sorted by name**, without repetitions. -/
theorem pairwise_named : named.Pairwise fun entry later ↦ entry.1 < later.1 := by
  have : IsTrans (String × Bytes) fun entry later ↦ entry.1 < later.1 :=
    ⟨fun _ _ _ ↦ String.lt_trans⟩
  exact List.isChain_iff_pairwise.1 isChain_named

theorem all_isLower_named : (named.all fun entry ↦ entry.1.toList.all Char.isLower) = true := by
  decide +kernel

/-- Names consist of small letters. -/
theorem isLower_of_mem_named {entry : String × Bytes} (h : entry ∈ named) {c : Char}
    (hc : c ∈ entry.1.toList) : c.isLower = true :=
  List.all_eq_true.1 (List.all_eq_true.1 all_isLower_named entry h) c hc

variable {name : String} {b : Bytes}

/-- The entries not after a name of the table are those up to the name. -/
theorem satisfies_named {i : Nat} (h : named[i]? = some (name, b)) (j : Nat) :
    satisfies (fun entry ↦ decide (entry.1 ≤ name)) named.toArray j = decide (j < i + 1) := by
  rw [satisfies, List.getElem?_toArray]
  rcases hj : named[j]? with - | entry
  · have hlength : named.length ≤ j := List.getElem?_eq_none_iff.1 hj
    obtain ⟨hi, -⟩ := List.getElem?_eq_some_iff.1 h
    rw [Option.any_none, eq_comm, decide_eq_false_iff_not]
    omega
  · rw [Option.any_some, decide_eq_decide]
    rcases lt_trichotomy j i with hlt | rfl | hgt
    · have hbefore : entry.1 < name := rel_of_pairwise pairwise_named hlt hj h
      exact iff_of_true (String.not_lt.1 (String.lt_asymm hbefore)) (by omega)
    · obtain rfl := Option.some.inj (hj.symm.trans h)
      exact iff_of_true (String.le_refl name) (by omega)
    · have hafter : name < entry.1 := rel_of_pairwise pairwise_named hgt h hj
      exact iff_of_false (String.not_le.2 hafter) (by omega)

/-- **The names of the table are found, and nothing else is.** -/
theorem bytesOfName?_eq_some_iff : bytesOfName? name = some b ↔ (name, b) ∈ named := by
  constructor
  · intro h
    rw [bytesOfName?, Option.bind_eq_some_iff] at h
    obtain ⟨entry, hentry, h⟩ := h
    rw [List.getElem?_toArray] at hentry
    split at h
    · rename_i hname
      obtain rfl := Option.some.inj h
      rw [← hname]
      exact List.mem_of_getElem? hentry
    · exact absurd h (by simp)
  · intro h
    obtain ⟨i, hi⟩ := List.mem_iff_getElem?.1 h
    obtain ⟨hlt, -⟩ := List.getElem?_eq_some_iff.1 hi
    have hcount : boundary (fun entry ↦ decide (entry.1 ≤ name)) named.toArray = i + 1 :=
      boundary_eq (satisfies_named hi) hlt
    rw [bytesOfName?, hcount, Nat.add_sub_cancel, List.getElem?_toArray, hi, Option.bind_some,
      if_pos rfl]

end MapStyle.Color
