import MapStyle.Proofs.Text.Scan
import MapStyle.Text.Numeral

/-!
# What number texts are made of

A number text consists of digits, signs, points and the letters of its exponent or of its word
(`Scalar.ofText?_marks`). None of these is a blank, so trimming leaves numbers alone
(`Marks.tight`); and neither a percent sign nor the unit of an angle can be part of a number, so
that it is clear where a number ends.
-/

namespace MapStyle

namespace Numeral

open Text

/-- **The characters of number texts**, in either case. -/
def IsMark (c : Char) : Prop := c.isDigit = true ∨ c.toLower ∈ "+-.aefinty".toList

/-- A text of marks only. -/
def Marks (cs : List Char) : Prop := ∀ c ∈ cs, IsMark c

variable {c : Char} {cs ds : List Char}

theorem Marks.append (h : Marks cs) (h' : Marks ds) : Marks (cs ++ ds) := fun c hc ↦
  (List.mem_append.1 hc).elim (h c) (h' c)

theorem Marks.cons (hc : IsMark c) (h : Marks cs) : Marks (c :: cs) :=
  List.forall_mem_cons.2 ⟨hc, h⟩

theorem Marks.nil : Marks [] := fun _ hc ↦ absurd hc List.not_mem_nil

instance (c : Char) : Decidable (IsMark c) := inferInstanceAs (Decidable (_ ∨ _))

theorem marks_digits (h : ∀ c ∈ cs, c.isDigit = true) : Marks cs := fun c hc ↦ .inl (h c hc)

/-- The digits at the start of a text, and what follows them. -/
theorem exists_digits (cs : List Char) :
    Marks (cs.takeWhile Char.isDigit) ∧
      cs = cs.takeWhile Char.isDigit ++ cs.dropWhile Char.isDigit :=
  ⟨marks_digits fun _ hc ↦ List.mem_takeWhile_imp hc, List.takeWhile_append_dropWhile.symm⟩

/-! ### What is no mark -/

/-- Blanks are below the digits or above the capital letters. -/
theorem toNat_of_isBlank (h : isBlank c = true) : c.toNat < '0'.toNat ∨ 'Z'.toNat < c.toNat := by
  obtain ⟨⟨lo, hi⟩, hrange, hc⟩ := List.any_eq_true.1 h
  have hbounds : ∀ range ∈ blankRanges, range.2 < '0'.toNat ∨ 'Z'.toNat < range.1 := by decide
  simp only [Bool.and_eq_true, decide_eq_true_eq] at hc
  exact (hbounds _ hrange).imp hc.2.trans_lt (Nat.lt_of_lt_of_le · hc.1)

theorem IsMark.isBlank_eq_false (h : IsMark c) : isBlank c = false := by
  rw [Bool.eq_false_iff]
  intro hblank
  have hout := toNat_of_isBlank hblank
  obtain hdigit | hletter := h
  · have hdigits := Char.isDigit_iff_toNat.1 hdigit
    have hle : '9'.toNat < 'Z'.toNat := by decide
    omega
  · -- a blank is no capital letter, so it is its own lower-case form
    have hlower : c.toLower = c := by
      refine dif_neg ?_
      rintro ⟨hlo, hhi⟩
      have hlo' : 'A'.toNat ≤ c.toNat := hlo
      have hhi' : c.toNat ≤ 'Z'.toNat := hhi
      have hle : '0'.toNat < 'A'.toNat := by decide
      omega
    have hmarks : ("+-.aefinty".toList.all fun c ↦ !isBlank c) = true := by decide
    rw [hlower] at hletter
    exact absurd hblank (by simpa using List.all_eq_true.1 hmarks c hletter)

/-- Marks are not trimmed. -/
theorem Marks.tight (h : Marks cs) : Tight cs := .of_forall fun c hc ↦ (h c hc).isBlank_eq_false

theorem Marks.not_mem (h : Marks cs) (hc : ¬IsMark c) : c ∉ cs := fun hmem ↦ hc (h c hmem)

/-! ### The parts of a number text -/

/-- What `sign` takes off is a mark. -/
theorem exists_sign (cs : List Char) : ∃ before, Marks before ∧ cs = before ++ (sign cs).2 := by
  rw [sign.eq_def]
  split
  · exact ⟨['-'], .cons (.inr (by decide)) .nil, rfl⟩
  · exact ⟨['+'], .cons (.inr (by decide)) .nil, rfl⟩
  · exact ⟨[], .nil, rfl⟩

/-- What `fraction` takes off is marks. -/
theorem exists_fraction (cs : List Char) :
    ∃ before, Marks before ∧ cs = before ++ (fraction cs).2 := by
  rw [fraction.eq_def]
  split
  · rename_i cs
    obtain ⟨hdigits, hcs⟩ := exists_digits cs
    exact ⟨'.' :: cs.takeWhile Char.isDigit, .cons (.inr (by decide)) hdigits,
      congrArg (List.cons '.') hcs⟩
  · exact ⟨[], .nil, rfl⟩

/-- An exponent consists of marks. -/
theorem exponent?_marks {e : Int} (h : exponent? cs = some e) : Marks cs := by
  rw [exponent?.eq_def] at h
  split at h
  · exact .nil
  · rename_i c cs
    split at h
    · rename_i hc
      dsimp only at h
      split at h
      · exact absurd h (by simp)
      · rename_i hdigits
        obtain ⟨before, hbefore, hcs⟩ := exists_sign cs
        have hmark : IsMark c := by
          obtain rfl | rfl := hc
          · exact .inr (by decide)
          · exact .inr (by decide)
        have hall : (sign cs).2 ≠ [] ∧ ∀ d ∈ (sign cs).2, d.isDigit = true := by
          simpa using hdigits
        rw [hcs]
        exact .cons hmark (hbefore.append (marks_digits hall.2))
    · exact absurd h (by simp)

/-- Decimal digits with their point and exponent are marks. -/
theorem decimal?_marks {n : Numeral} (h : decimal? cs = some n) : Marks cs := by
  obtain ⟨hwhole, hcs⟩ := exists_digits cs
  obtain ⟨before, hbefore, hrest⟩ := exists_fraction (cs.dropWhile Char.isDigit)
  rw [decimal?] at h
  dsimp only at h
  split at h
  · exact absurd h (by simp)
  · obtain ⟨e, he, -⟩ := Option.map_eq_some_iff.1 h
    rw [hcs, hrest]
    exact hwhole.append (hbefore.append (exponent?_marks he))

/-- A word consists of marks, whatever its case. -/
theorem marks_of_word {word : String} (h : String.ofList (cs.map Char.toLower) = word)
    (hword : (word.toList.all fun c ↦ decide (c ∈ "+-.aefinty".toList)) = true) : Marks cs := by
  intro c hc
  have hmem : c.toLower ∈ word.toList := by
    rw [← h, String.toList_ofList]
    exact List.mem_map_of_mem hc
  exact .inr (of_decide_eq_true (List.all_eq_true.1 hword _ hmem))

/-- An unsigned number consists of marks, be it a word or digits. -/
theorem unsigned?_marks {n : Numeral} (h : unsigned? cs = some n) : Marks cs := by
  rw [unsigned?] at h
  split at h
  · exact marks_of_word (by assumption) (by decide)
  · exact marks_of_word (by assumption) (by decide)
  · exact marks_of_word (by assumption) (by decide)
  · exact decimal?_marks h

end Numeral

namespace Scalar

open Numeral

variable {α : Type} [Scalar α] {cs : List Char} {x : α}

/-- **A number text consists of marks.** -/
theorem ofText?_marks (h : ofText? cs = some x) : Marks cs := by
  obtain ⟨before, hbefore, hcs⟩ := exists_sign cs
  obtain ⟨n, hn, -⟩ := Option.map_eq_some_iff.1 h
  rw [hcs]
  exact hbefore.append (unsigned?_marks hn)

theorem ofText?_nil : (ofText? [] : Option α) = none := rfl

end Scalar

end MapStyle
