import MapStyle.Proofs.Scalar.Binary64
import MapStyle.StyleFunction.Lookup

/-!
# Category tables look up the last match

A category table is built stop by stop, each overwriting what its key had. What it answers is said
here of the list of stops alone (`LastMatch`): an input of the kind of the first key has the output
of the **last stop whose key is the same**, and everything else is a miss
(`Categories.lookup?_eq_some_iff`).

One more stop changes the answer for the inputs that are the same as its key and for no others
(`outputOf?_addStop`). That numeric equality is an equivalence of the numbers is all that is needed:
the key in the table may be another one than that of the stop, as one of the zeros may stand for the
other.
-/

namespace MapStyle

open Scalar (Lawful isNaN)

variable {α : Type} [Scalar α]

/-! ### The same category -/

/-- **Two values that are the same category**: one string, one truth value, or numerically equal
numbers. -/
inductive SameCategory : Value α → Value α → Prop where
  /-- Strings by their characters. -/
  | string (s : String) : SameCategory (.string s) (.string s)
  /-- Truth values. -/
  | bool (b : Bool) : SameCategory (.bool b) (.bool b)
  /-- Numbers by numeric equality. -/
  | number {x y : α} (h : (x == y) = true) : SameCategory (.number x) (.number y)

variable {key input output : Value α} {stops : List (Value α × Value α)}

/-- Only values of one kind are the same category. -/
theorem SameCategory.kind_eq (h : SameCategory key input) : key.kind = input.kind := by
  cases h with
  | string => rfl
  | bool => rfl
  | number => rfl

/-- **The last stop that matches an input**, whose kind the first stop decides. -/
structure LastMatch (stops : List (Value α × Value α)) (input output : Value α) : Prop where
  /-- The input is of the kind of the first key. -/
  kind : ∃ first, stops.head? = some first ∧ input.kind = first.1.kind
  /-- The output is that of a stop with the same key, and none after it has the same. -/
  last : ∃ before key after, stops = before ++ (key, output) :: after ∧ SameCategory key input ∧
    ∀ stop ∈ after, ¬SameCategory stop.1 input

/-! ### Keys of a table -/

namespace Category

variable [Lawful α] {a b c : Category α}

theorem same_symm (h : a.same b = true) : b.same a = true := by
  cases a <;> cases b <;> try exact h
  · exact beq_iff_eq.2 (beq_iff_eq.1 h).symm
  · exact Scalar.beq_symm h
  · exact beq_iff_eq.2 (beq_iff_eq.1 h).symm

theorem same_trans (hab : a.same b = true) (hbc : b.same c = true) : a.same c = true := by
  cases a <;> cases b <;> try exact absurd hab Bool.false_ne_true
  all_goals cases c <;> try exact absurd hbc Bool.false_ne_true
  · exact beq_iff_eq.2 ((beq_iff_eq.1 hab).trans (beq_iff_eq.1 hbc))
  · exact Scalar.beq_trans hab hbc
  · exact beq_iff_eq.2 ((beq_iff_eq.1 hab).trans (beq_iff_eq.1 hbc))

/-- Keys that are the same are the same as the same keys. -/
theorem same_congr_left (h : a.same b = true) (c : Category α) : a.same c = b.same c :=
  Bool.eq_iff_iff.2 ⟨same_trans (same_symm h), same_trans h⟩

/-- **Values are the same category exactly if both are keys, and the same one.** -/
theorem sameCategory_iff :
    SameCategory key input ↔ ∃ a b, ofValue? key = some a ∧ ofValue? input = some b ∧
      a.same b = true := by
  constructor
  · intro h
    cases h with
    | string s => exact ⟨.string s, .string s, rfl, rfl, beq_self_eq_true s⟩
    | bool b => exact ⟨.bool b, .bool b, rfl, rfl, beq_self_eq_true b⟩
    | @number x y h =>
      obtain ⟨hxy, hyx⟩ := (Scalar.beq_iff x y).1 h
      refine ⟨.number x, .number y, ?_, ?_, h⟩
      · rw [ofValue?, Scalar.isNaN_of_le_left hxy, if_neg Bool.false_ne_true]
      · rw [ofValue?, Scalar.isNaN_of_le_left hyx, if_neg Bool.false_ne_true]
  · rintro ⟨a, b, ha, hb, h⟩
    have hkey : ∀ {v : Value α} {c : Category α}, ofValue? v = some c →
        v = match c with
          | .string s => .string s
          | .number x => .number x
          | .bool b => .bool b := by
      intro v c hc
      cases v with
      | string s =>
        obtain rfl := Option.some.inj hc
        rfl
      | bool b =>
        obtain rfl := Option.some.inj hc
        rfl
      | number x =>
        rw [ofValue?, Option.ite_none_left_eq_some] at hc
        obtain rfl := Option.some.inj hc.2
        rfl
      | _ => cases hc
    rw [hkey ha, hkey hb]
    cases a <;> cases b <;> try exact absurd h Bool.false_ne_true
    · obtain rfl := beq_iff_eq.1 h
      exact .string _
    · exact .number h
    · obtain rfl := beq_iff_eq.1 h
      exact .bool _

end Category

/-! ### The table, stop by stop -/

namespace Categories

variable [Lawful α] {entries : List (Category α × Value α)}

/-- The output that entries have for a key. -/
def outputOf? (entries : List (Category α × Value α)) (key : Category α) : Option (Value α) :=
  (entries.find? fun e ↦ e.1.same key).map Prod.snd

/-- **Setting a key changes the output of the keys that are the same, and of no others.** -/
theorem outputOf?_insert (key : Category α) (output : Value α)
    (entries : List (Category α × Value α)) (k : Category α) :
    outputOf? (insert key output entries) k =
      if key.same k then some output else outputOf? entries k := by
  induction entries with
  | nil =>
    rw [insert, outputOf?, List.find?_singleton]
    split <;> rfl
  | cons e entries ih =>
    obtain ⟨l, v⟩ := e
    simp only [outputOf?, insert, List.find?_cons] at ih ⊢
    rcases hl : l.same key with - | -
    · rw [if_neg Bool.false_ne_true, List.find?_cons]
      rcases hk : l.same k with - | -
      · exact ih
      · -- the entry before is for another key than the one that is set
        have hkey : key.same k = false := by
          by_contra hsame
          rw [Bool.not_eq_false] at hsame
          rw [Category.same_trans hk (Category.same_symm hsame)] at hl
          exact Bool.false_ne_true hl.symm
        rw [hkey]
        rfl
    · rw [if_pos rfl, List.find?_cons, Category.same_congr_left hl]
      rcases key.same k with - | - <;> rfl

/-- Whether a stop has a key that is the same as a given one. -/
def Matches (k : Category α) (stop : Value α × Value α) : Bool :=
  (Category.ofValue? stop.1).any fun key ↦ key.same k

/-- **One more stop changes the output of its key alone.** -/
theorem outputOf?_addStop (entries : List (Category α × Value α)) (stop : Value α × Value α)
    (k : Category α) :
    outputOf? (addStop entries stop) k =
      if Matches k stop then some stop.2 else outputOf? entries k := by
  rw [addStop, Matches]
  rcases Category.ofValue? stop.1 with - | key
  · rfl
  · exact outputOf?_insert key stop.2 entries k

/-- **All stops**: a key has the output of the last one that matches, or else what it had. -/
theorem outputOf?_foldl (stops : List (Value α × Value α)) (entries : List (Category α × Value α))
    (k : Category α) :
    outputOf? (stops.foldl addStop entries) k =
      ((stops.reverse.find? (Matches k)).map Prod.snd).or (outputOf? entries k) := by
  induction stops generalizing entries with
  | nil => rfl
  | cons stop stops ih =>
    rw [List.foldl_cons, ih, outputOf?_addStop, List.reverse_cons, List.find?_append,
      List.find?_singleton, Option.map_or, Option.or_assoc]
    split <;> rfl

/-- The last element of a list with a property. -/
theorem find?_reverse_eq_some_iff {β : Type} {p : β → Bool} {xs : List β} {x : β} :
    xs.reverse.find? p = some x ↔
      ∃ before after, xs = before ++ x :: after ∧ p x = true ∧ ∀ y ∈ after, p y = false := by
  rw [List.find?_eq_some_iff_append]
  constructor
  · rintro ⟨hx, after, before, hxs, hafter⟩
    refine ⟨before.reverse, after.reverse, ?_, hx, fun y hy ↦ ?_⟩
    · rw [← List.reverse_reverse xs, hxs, List.reverse_append, List.reverse_cons,
        List.append_assoc, List.singleton_append]
    · simpa using hafter y (List.mem_reverse.1 hy)
  · rintro ⟨before, after, rfl, hx, hafter⟩
    refine ⟨hx, after.reverse, before.reverse, ?_, fun y hy ↦ ?_⟩
    · rw [List.reverse_append, List.reverse_cons, List.append_assoc, List.singleton_append]
    · simpa using hafter y (List.mem_reverse.1 hy)

/-- A stop matches a key if its own is the same category as the value the key is of. -/
theorem matches_iff {k : Category α} {stop : Value α × Value α}
    (hk : Category.ofValue? input = some k) :
    Matches k stop = true ↔ SameCategory stop.1 input := by
  rw [Matches, Option.any_eq_true, Category.sameCategory_iff, hk]
  simp

/-- The output of a table for a key is that of the last stop that matches. -/
theorem outputOf?_entries_ofStops (stops : List (Value α × Value α)) (k : Category α) :
    outputOf? (ofStops stops).entries k = (stops.reverse.find? (Matches k)).map Prod.snd :=
  (outputOf?_foldl stops [] k).trans (Option.or_none)

/-- **A table answers exactly the last match.** -/
theorem lookup?_eq_some_iff :
    (ofStops stops).lookup? input = some output ↔ LastMatch stops input output := by
  rw [lookup?, Option.ite_none_right_eq_some]
  constructor
  · rintro ⟨hkind, h⟩
    obtain ⟨k, hk, houtput⟩ := Option.bind_eq_some_iff.1 h
    have houtput : outputOf? (ofStops stops).entries k = some output := houtput
    rw [outputOf?_entries_ofStops] at houtput
    obtain ⟨stop, hfind, rfl⟩ := Option.map_eq_some_iff.1 houtput
    obtain ⟨before, after, rfl, hmatch, hafter⟩ := find?_reverse_eq_some_iff.1 hfind
    refine ⟨?_, before, stop.1, after, rfl, (matches_iff hk).1 hmatch, fun other hother hsame ↦ ?_⟩
    · rcases hhead : (before ++ stop :: after).head? with - | first
      · exact absurd (List.head?_eq_none_iff.1 hhead) (by simp)
      · rw [ofStops, hhead] at hkind
        exact ⟨first, rfl, hkind⟩
    · exact absurd ((matches_iff hk).2 hsame) (by simp [hafter other hother])
  · rintro ⟨⟨first, hhead, hkind⟩, before, key, after, hstops, hsame, hafter⟩
    obtain ⟨-, k, -, hk, -⟩ := Category.sameCategory_iff.1 hsame
    refine ⟨by rw [ofStops, hhead]; exact hkind, Option.bind_eq_some_iff.2 ⟨k, hk, ?_⟩⟩
    show outputOf? (ofStops stops).entries k = some output
    rw [outputOf?_entries_ofStops, find?_reverse_eq_some_iff.2
      ⟨before, after, hstops, (matches_iff hk).2 hsame, fun other hother ↦ ?_⟩]
    · rfl
    · rw [Bool.eq_false_iff]
      exact fun hmatch ↦ hafter other hother ((matches_iff hk).1 hmatch)

/-- Whether a stop after the first one can be what an input matches. -/
def Counts (first stop : Value α × Value α) : Bool :=
  stop.1.kind = first.1.kind ∧ (Category.ofValue? stop.1).isSome

/-- **The stops that can be no match do nothing**: those with a key of another kind than the first
one, and those with a key that is no category. -/
theorem lookup?_filter (first : Value α × Value α) (rest : List (Value α × Value α))
    (input : Value α) :
    (ofStops (first :: rest.filter (Counts first))).lookup? input =
      (ofStops (first :: rest)).lookup? input := by
  rw [lookup?, lookup?]
  show (if input.kind = first.1.kind then _ else none) =
    if input.kind = first.1.kind then _ else none
  split
  · rename_i hkind
    rcases hk : Category.ofValue? input with - | k
    · rfl
    · show outputOf? (ofStops (first :: rest.filter (Counts first))).entries k =
        outputOf? (ofStops (first :: rest)).entries k
      have hcounts : (fun stop ↦ decide (Counts first stop = true ∧ Matches k stop = true)) =
          Matches k := by
        refine funext fun stop ↦ Bool.eq_iff_iff.2 ⟨fun h ↦ (of_decide_eq_true h).2, fun h ↦ ?_⟩
        have hsame := (matches_iff hk).1 h
        obtain ⟨a, -, ha, -, -⟩ := Category.sameCategory_iff.1 hsame
        refine decide_eq_true ⟨decide_eq_true ⟨hsame.kind_eq.trans hkind, ?_⟩, h⟩
        rw [ha, Option.isSome_some]
      rw [outputOf?_entries_ofStops, outputOf?_entries_ofStops, List.reverse_cons,
        List.reverse_cons, List.find?_append, List.find?_append, ← List.filter_reverse,
        List.find?_filter, hcounts]
  · rfl

end Categories

end MapStyle
