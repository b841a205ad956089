import Mathlib.Data.List.Basic
import Mathlib.Data.List.TakeWhile
import MapStyle.Text.Blank

/-!
# What scanning finds

Scanning takes a text apart from the outside in: an opening or an ending is taken off, blanks are
trimmed, what is left is split at a separator. Each of these is described here by how the parts
**make up the text** again, so that a grammar can be stated by putting texts together and without
the functions that take them apart:

* a prefix or suffix that is taken off is what stood before or after the rest;
* trimming leaves the one part of the text that is surrounded by blanks only and has none at its
  ends (`trim_padded`, `exists_padding`);
* splitting finds the one way to write the text with separators between pieces that hold none
  (`splitOn_eq_iff`).
-/

namespace MapStyle.Text

variable {cs : List Char}

/-! ### Openings and endings -/

theorem after?_eq_some_iff {opening rest : List Char} :
    after? opening cs = some rest ↔ cs = opening ++ rest := by
  rw [after?, List.isPrefixOf?_eq_some_iff_append_eq, eq_comm]

theorem before?_eq_some_iff {ending rest : List Char} :
    before? ending cs = some rest ↔ cs = rest ++ ending := by
  rw [before?, List.isSuffixOf?_eq_some_iff_append_eq, eq_comm]

/-- A text with another first character does not start so. -/
theorem after?_eq_none {opening : List Char} {c : Char} (hopening : opening.head? = some c)
    (h : cs.head? ≠ some c) : after? opening cs = none := by
  rw [Option.eq_none_iff_forall_ne_some]
  intro rest hrest
  rw [after?_eq_some_iff.1 hrest, List.head?_append, hopening] at h
  exact h rfl

/-- A text without a character does not end in it. -/
theorem before?_eq_none {ending : List Char} {c : Char} (hc : c ∈ ending) (h : c ∉ cs) :
    before? ending cs = none := by
  rw [Option.eq_none_iff_forall_ne_some]
  rintro rest hrest
  rw [before?_eq_some_iff.1 hrest] at h
  exact h (List.mem_append_right rest hc)

/-! ### Blanks -/

/-- **A text of blanks**, or of nothing. -/
def Blank (cs : List Char) : Prop := ∀ c ∈ cs, isBlank c = true

theorem Blank.nil : Blank [] := fun _ hc ↦ absurd hc List.not_mem_nil

/-- **A text without blanks at its ends.** -/
structure Tight (cs : List Char) : Prop where
  /-- It does not start with a blank. -/
  head : ∀ c, cs.head? = some c → isBlank c = false
  /-- It does not end with a blank. -/
  last : ∀ c, cs.getLast? = some c → isBlank c = false

/-- A text without any blanks has none at its ends. -/
theorem Tight.of_forall (h : ∀ c ∈ cs, isBlank c = false) : Tight cs :=
  ⟨fun c hc ↦ h c (List.mem_of_head? hc), fun c hc ↦ h c (List.mem_of_getLast? hc)⟩

/-- The ends of a text put together are those of its parts. -/
theorem Tight.append (h : Tight cs) (hne : cs ≠ []) {rest : List Char} (hne' : rest ≠ [])
    (hlast : ∀ c, rest.getLast? = some c → isBlank c = false) : Tight (cs ++ rest) where
  head c hc := by
    rw [List.head?_append_of_ne_nil _ hne] at hc
    exact h.head c hc
  last c hc := by
    rw [List.getLast?_append_of_ne_nil _ hne'] at hc
    exact hlast c hc

/-- Blanks before a text without blanks at its ends are all that is trimmed there. -/
theorem trimStart_append {before : List Char} (hbefore : Blank before)
    (h : ∀ c, cs.head? = some c → isBlank c = false) : trimStart (before ++ cs) = cs := by
  rw [trimStart, List.dropWhile_append_of_pos hbefore]
  rcases cs with - | ⟨c, cs⟩
  · rfl
  · rw [List.dropWhile_cons_of_neg]
    simp [h c rfl]

/-- What is trimmed at the start is the blanks there. -/
theorem exists_of_trimStart (cs : List Char) :
    ∃ before, Blank before ∧ cs = before ++ trimStart cs ∧
      ∀ c, (trimStart cs).head? = some c → isBlank c = false := by
  refine ⟨cs.takeWhile isBlank, fun c hc ↦ List.mem_takeWhile_imp hc,
    List.takeWhile_append_dropWhile.symm, fun c hc ↦ ?_⟩
  have hhead := List.head?_dropWhile_not isBlank cs
  rw [trimStart] at hc
  rw [hc] at hhead
  simpa using hhead

/-- What is found at the start, blanks aside, stands there after blanks. -/
theorem trimStart_eq_cons_iff {c : Char} (hc : isBlank c = false) {rest : List Char} :
    trimStart cs = c :: rest ↔ ∃ blanks, Blank blanks ∧ cs = blanks ++ c :: rest := by
  constructor
  · intro h
    obtain ⟨before, hbefore, hcs, -⟩ := exists_of_trimStart cs
    exact ⟨before, hbefore, by rwa [h] at hcs⟩
  · rintro ⟨blanks, hblanks, rfl⟩
    refine trimStart_append hblanks fun d hd ↦ ?_
    obtain rfl := Option.some.inj hd
    exact hc

/-- What is trimmed at the end is the blanks there. -/
theorem exists_of_trimEnd (cs : List Char) :
    ∃ after, Blank after ∧ cs = trimEnd cs ++ after ∧
      ∀ c, (trimEnd cs).getLast? = some c → isBlank c = false := by
  obtain ⟨before, hbefore, hcs, hhead⟩ := exists_of_trimStart cs.reverse
  refine ⟨before.reverse, fun c hc ↦ hbefore c (List.mem_reverse.1 hc), ?_, fun c hc ↦ hhead c ?_⟩
  · rw [trimEnd, ← trimStart, ← List.reverse_append, ← hcs, List.reverse_reverse]
  · rwa [trimEnd, List.getLast?_reverse] at hc

/-- Blanks after a text without blanks at its end are all that is trimmed there. -/
theorem trimEnd_append {after : List Char} (hafter : Blank after)
    (h : ∀ c, cs.getLast? = some c → isBlank c = false) : trimEnd (cs ++ after) = cs := by
  have hreverse : Blank after.reverse := fun c hc ↦ hafter c (List.mem_reverse.1 hc)
  rw [trimEnd, ← trimStart, List.reverse_append, trimStart_append hreverse (by simpa using h),
    List.reverse_reverse]

/-- **Blanks around a text without blanks at its ends are trimmed**, and nothing else. -/
theorem trim_padded {before after : List Char} (hbefore : Blank before) (hafter : Blank after)
    (h : Tight cs) : trim (before ++ cs ++ after) = cs := by
  rcases cs with - | ⟨c, cs⟩
  · -- nothing but blanks: all of them are trimmed at the start already
    have hblank : Blank (before ++ after) := fun c hc ↦
      (List.mem_append.1 hc).elim (hbefore c) (hafter c)
    have hnil : trimStart (before ++ after ++ []) = [] :=
      trimStart_append hblank fun c hc ↦ absurd hc (by simp)
    rw [List.append_nil] at hnil
    rw [trim, List.append_nil, hnil]
    rfl
  · rw [trim, List.append_assoc, trimStart_append hbefore, trimEnd_append hafter h.last]
    exact h.head

theorem trim_append {after : List Char} (h : Tight cs) (hafter : Blank after) :
    trim (cs ++ after) = cs := trim_padded Blank.nil hafter h

theorem trim_of_tight (h : Tight cs) : trim cs = cs := by
  simpa using trim_append h Blank.nil

/-- **What is trimmed off is blanks**, and what is left has none at its ends. -/
theorem exists_padding (cs : List Char) :
    Tight (trim cs) ∧ ∃ before after, Blank before ∧ Blank after ∧
      cs = before ++ trim cs ++ after := by
  obtain ⟨before, hbefore, hcs, hhead⟩ := exists_of_trimStart cs
  obtain ⟨after, hafter, hrest, hlast⟩ := exists_of_trimEnd (trimStart cs)
  refine ⟨⟨fun c hc ↦ hhead c ?_, hlast⟩, before, after, hbefore, hafter, ?_⟩
  · rw [trim] at hc
    rw [hrest, List.head?_append, hc]
    rfl
  · rw [trim, List.append_assoc, ← hrest, ← hcs]

/-- Nothing is trimmed off the start where there is no blank. -/
theorem exists_of_trim (h : ∀ c, cs.head? = some c → isBlank c = false) :
    ∃ after, Blank after ∧ cs = trim cs ++ after := by
  obtain ⟨after, hafter, hcs, -⟩ := exists_of_trimEnd cs
  have hstart : trimStart cs = cs := trimStart_append Blank.nil h
  exact ⟨after, hafter, by rwa [trim, hstart]⟩

/-! ### Pieces -/

/-- A character that is no separator goes into the first piece. -/
theorem exists_splitOn_cons {separator c : Char} (hc : c ≠ separator) (cs : List Char) :
    ∃ first rest, splitOn separator cs = first :: rest ∧
      splitOn separator (c :: cs) = (c :: first) :: rest := by
  rcases hsplit : splitOn separator cs with - | ⟨first, rest⟩
  · have hlength := length_splitOn separator cs
    rw [hsplit] at hlength
    exact absurd hlength (by simp)
  · exact ⟨first, rest, rfl, by rw [splitOn, if_neg hc, hsplit]⟩

theorem splitOn_cons_self (separator : Char) (cs : List Char) :
    splitOn separator (separator :: cs) = [] :: splitOn separator cs := by
  rw [splitOn, if_pos rfl]

/-- The pieces are those of the library. -/
theorem splitOn_eq (separator : Char) (cs : List Char) :
    splitOn separator cs = cs.splitOn separator := by
  induction cs with
  | nil => rw [List.splitOn_nil, splitOn]
  | cons c cs ih =>
    rw [List.splitOn_cons_eq_if_modifyHead, ← ih]
    by_cases hc : c = separator
    · rw [if_pos (beq_iff_eq.2 hc), hc, splitOn_cons_self]
    · obtain ⟨first, rest, hsplit, hcons⟩ := exists_splitOn_cons hc cs
      rw [if_neg (by simpa using hc), hcons, hsplit]
      rfl

/-- No piece holds the separator. -/
theorem not_mem_of_mem_splitOn {separator : Char} {piece : List Char}
    (h : piece ∈ splitOn separator cs) : separator ∉ piece := by
  induction cs generalizing piece with
  | nil =>
    obtain rfl := List.mem_singleton.1 h
    exact List.not_mem_nil
  | cons c cs ih =>
    by_cases hc : c = separator
    · rw [hc, splitOn_cons_self] at h
      obtain rfl | h := List.mem_cons.1 h
      · exact List.not_mem_nil
      · exact ih h
    · obtain ⟨first, rest, hsplit, hcons⟩ := exists_splitOn_cons hc cs
      rw [hcons] at h
      rw [hsplit] at ih
      obtain rfl | h := List.mem_cons.1 h
      · exact List.not_mem_cons_of_ne_of_not_mem (Ne.symm hc) (ih List.mem_cons_self)
      · exact ih (List.mem_cons_of_mem first h)

/-- **Splitting finds the pieces**: the one way to write a text with separators between pieces that
hold none. -/
theorem splitOn_eq_iff {separator : Char} {pieces : List (List Char)} :
    splitOn separator cs = pieces ↔
      pieces ≠ [] ∧ (∀ piece ∈ pieces, separator ∉ piece) ∧
        cs = [separator].intercalate pieces := by
  constructor
  · rintro rfl
    refine ⟨?_, fun piece ↦ not_mem_of_mem_splitOn, ?_⟩
    · rw [splitOn_eq]
      exact List.splitOn_ne_nil separator cs
    · rw [splitOn_eq, List.intercalate_splitOn]
  · rintro ⟨hne, hpieces, rfl⟩
    rw [splitOn_eq, List.splitOn_intercalate separator hpieces hne]

end MapStyle.Text
