import MapStyle.Proofs.Lookup.Hashed

/-!
# Categorical functions

What a categorical function gives is said of the list of its stops alone, for all inputs
(`InputFunction.evaluate_categorical_last`): the output of the last match, or the fallback. How the
table is searched does not show. In binary64 it can be hashed by bit patterns, and the function
gives the same (`InputFunction.evaluate_categorical_hashed`).
-/

namespace MapStyle

open Scalar (Lawful isNaN)

namespace InputFunction

variable {α : Type} [Scalar α]

theorem evaluate_categorical (categories : Categories α) (rule : OutputRule)
    (fallback : Option (Value α)) (input : Value α) :
    evaluate ⟨.categorical categories rule, fallback⟩ input =
      ((categories.lookup? input).bind rule.keep?).or fallback := rfl

/-- **A categorical function gives the output of the last match**, if it may be handed out, and its
fallback in every other case. The stops whose keys are of another kind than the first one, or are no
categories, have no say in it; and inputs that are no categories have no match. -/
theorem evaluate_categorical_last [Lawful α] (stops : List (Value α × Value α)) (rule : OutputRule)
    (fallback : Option (Value α)) (input : Value α) :
    (∀ output, LastMatch stops input output →
      evaluate ⟨.categorical (.ofStops stops) rule, fallback⟩ input =
        (rule.keep? output).or fallback) ∧
    ((¬∃ output, LastMatch stops input output) →
      evaluate ⟨.categorical (.ofStops stops) rule, fallback⟩ input = fallback) ∧
    (∀ first rest, stops = first :: rest →
      evaluate ⟨.categorical (.ofStops stops) rule, fallback⟩ input =
        evaluate ⟨.categorical (.ofStops (first :: rest.filter (Categories.Counts first))) rule,
          fallback⟩ input) ∧
    ((∀ s, input ≠ .string s) → (∀ b, input ≠ .bool b) →
      (∀ x, isNaN x = false → input ≠ .number x) →
      evaluate ⟨.categorical (.ofStops stops) rule, fallback⟩ input = fallback) := by
  have hnone : (¬∃ output, LastMatch stops input output) →
      evaluate ⟨.categorical (.ofStops stops) rule, fallback⟩ input = fallback := by
    intro h
    have hlookup : (Categories.ofStops stops).lookup? input = none := by
      rw [Option.eq_none_iff_forall_ne_some]
      exact fun output houtput ↦ h ⟨output, Categories.lookup?_eq_some_iff.1 houtput⟩
    rw [evaluate_categorical, hlookup]
    rfl
  refine ⟨fun output h ↦ ?_, hnone, fun first rest hstops ↦ ?_, fun hstring hbool hnumber ↦ ?_⟩
  · rw [evaluate_categorical, Categories.lookup?_eq_some_iff.2 h, Option.bind_some]
  · rw [hstops, evaluate_categorical, evaluate_categorical, Categories.lookup?_filter]
  · refine hnone fun ⟨output, h⟩ ↦ ?_
    obtain ⟨_, _, _, _, hsame, _⟩ := h.last
    cases hsame with
    | string s => exact hstring s rfl
    | bool b => exact hbool b rfl
    | number hxy => exact hnumber _ (Scalar.isNaN_of_le_right ((Scalar.beq_iff _ _).1 hxy).1) rfl

/-- Stops with a repeated key, a key of another kind, and one that is no category. -/
def mixedStops : List (Value Float × Value Float) :=
  [(.number 0.0, .string "first"), (.string "0", .string "text"), (.null, .string "null"),
    (.number (-0.0), .string "last"), (.number 1.0, .string "one")]

/-- Among them, an input of zero matches the negative zero, which comes last; the hashed table has
the two of them under one key. -/
theorem evaluate_categorical_last_zero :
    (HashedCategories.ofStops mixedStops).lookup? (.number 0.0) = some (.string "last") ∧
      evaluate ⟨.categorical (.ofStops mixedStops) .hold, none⟩ (.number 0.0) =
        some (.string "last") := by
  have hlast : LastMatch mixedStops (.number 0.0) (.string "last") := by
    refine ⟨⟨_, rfl, rfl⟩, mixedStops.take 3, .number (-0.0), [(.number 1.0, .string "one")], rfl,
      .number (by decide), ?_⟩
    rw [List.forall_mem_singleton]
    intro h
    cases h with
    | number h => exact absurd h (by decide)
  refine ⟨?_, (evaluate_categorical_last mixedStops .hold none (.number 0.0)).1 _ hlast⟩
  rw [HashedCategories.lookup?_ofStops]
  exact Categories.lookup?_eq_some_iff.2 hlast

/-- **A categorical function can search a hashed table**, and gives what it hands out of the output
found there. -/
theorem evaluate_categorical_hashed (stops : List (Value Float × Value Float)) (rule : OutputRule)
    (fallback : Option (Value Float)) (input : Value Float) :
    evaluate ⟨.categorical (.ofStops stops) rule, fallback⟩ input =
      (((HashedCategories.ofStops stops).lookup? input).bind rule.keep?).or fallback := by
  rw [evaluate_categorical, HashedCategories.lookup?_ofStops]

end InputFunction

end MapStyle
