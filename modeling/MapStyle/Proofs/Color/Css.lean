import MapStyle.Proofs.Color.Grammar
import MapStyle.Proofs.Color.Named
import MapStyle.Proofs.Scalar.Binary64

/-!
# Texts that name colors

A text is read form by form, and the first form whose frame it has decides. The frames exclude one
another: digits stand after `#`, an rgb form starts with `r`, an hsl form with `h`, and no name has
a parenthesis. Of the two names of a functional form one goes on where the other has a blank or the
parenthesis. So the order of the forms does not matter, and each can be described for itself
(`ofLower?_hash`, `RgbForm.ofLower?_eq`, `HslForm.ofLower?_eq`, `ofLower?_of_mem_named`).

Together these say that **the colors that texts name are those the grammar gives them**
(`ofLower?_eq_some_iff`). In binary64 the ranges of the components leave no place for values that
are infinite or not a number (`InRange.finite`).
-/

namespace MapStyle.Color

open Text

variable {α : Type} [Scalar α] {cs : List Char} {name : String} {pieces : List (List Char)}

/-! ### Functional forms -/

/-- The steps in which a form is taken apart. -/
theorem arguments?_eq_some_iff_exists {args : List (List Char)} :
    arguments? name cs = some args ↔ ∃ rest inner joined, cs = name.toList ++ rest ∧
      trimStart rest = '(' :: inner ∧ inner = joined ++ [')'] ∧
        (splitOn ',' joined).map trim = args := by
  simp only [arguments?, Option.bind_eq_bind, Option.bind_eq_some_iff, after?_eq_some_iff,
    before?_eq_some_iff, Option.pure_def, Option.some.injEq, List.singleton_append]
  exact ⟨fun ⟨rest, hrest, inner, hinner, joined, hjoined, hargs⟩ ↦
      ⟨rest, inner, joined, hrest, hinner, hjoined, hargs⟩,
    fun ⟨rest, inner, joined, hrest, hinner, hjoined, hargs⟩ ↦
      ⟨rest, hrest, inner, hinner, joined, hjoined, hargs⟩⟩

/-- **The arguments of a form** are its pieces, trimmed. -/
theorem arguments?_eq_some_iff {args : List (List Char)} :
    arguments? name cs = some args ↔ ∃ pieces, Form name cs pieces ∧ pieces.map trim = args := by
  rw [arguments?_eq_some_iff_exists]
  constructor
  · rintro ⟨rest, inner, joined, hrest, hinner, hjoined, hargs⟩
    obtain ⟨blanks, hblanks, hblank⟩ := (trimStart_eq_cons_iff (by decide)).1 hinner
    obtain ⟨hne, hcomma, hpieces⟩ := splitOn_eq_iff.1 (rfl : splitOn ',' joined = _)
    refine ⟨splitOn ',' joined, ⟨hne, hcomma, blanks, hblanks, ?_⟩, hargs⟩
    rw [hrest, hblank, hjoined, ← hpieces, List.append_assoc, List.append_assoc, List.cons_append]
  · rintro ⟨pieces, ⟨hne, hcomma, blanks, hblanks, hcs⟩, hargs⟩
    refine ⟨blanks ++ '(' :: ([','].intercalate pieces ++ [')']),
      [','].intercalate pieces ++ [')'], [','].intercalate pieces, ?_, ?_, rfl, ?_⟩
    · rw [hcs, List.append_assoc, List.append_assoc, List.cons_append]
    · exact (trimStart_eq_cons_iff (by decide)).2 ⟨blanks, hblanks, rfl⟩
    · rwa [splitOn_eq_iff.2 ⟨hne, hcomma, rfl⟩]

/-- A form starts as its name does. -/
theorem Form.head?_eq (h : Form name cs pieces) {c : Char} (hc : name.toList.head? = some c) :
    cs.head? = some c := by
  obtain ⟨blanks, -, rfl⟩ := h.eq_append
  rw [List.append_assoc, List.append_assoc, List.head?_append, hc]
  rfl

theorem Form.paren_mem (h : Form name cs pieces) : '(' ∈ cs := by
  obtain ⟨blanks, -, rfl⟩ := h.eq_append
  simp

section Family

/-! The two names of a family differ by one letter, and the longer one is tried first. -/

variable {long : String} (hlong : long.toList = name.toList ++ ['a'])

include hlong

/-- A form of the shorter name is none of the longer one. -/
theorem Form.arguments?_long_eq_none (h : Form name cs pieces) : arguments? long cs = none := by
  rw [Option.eq_none_iff_forall_ne_some]
  intro args hargs
  obtain ⟨pieces', hform, -⟩ := arguments?_eq_some_iff.1 hargs
  obtain ⟨blanks, hblanks, hcs⟩ := h.eq_append
  obtain ⟨blanks', -, hcs'⟩ := hform.eq_append
  rw [hcs, hlong] at hcs'
  simp only [List.append_assoc] at hcs'
  have hrest := List.append_cancel_left hcs'
  -- Behind the shorter name is a parenthesis or a blank, where the longer one has its last letter.
  obtain - | ⟨c, blanks⟩ := blanks
  · exact absurd (List.cons.inj hrest).1 (by decide)
  · have hc : isBlank c = true := hblanks c List.mem_cons_self
    rw [(List.cons.inj hrest).1] at hc
    exact absurd hc (by decide)

/-- **Either name of a family is found.** -/
theorem orElse_arguments?_eq_some_iff {args : List (List Char)} :
    (arguments? long cs <|> arguments? name cs) = some args ↔
      ∃ n ∈ [name, long], ∃ pieces, Form n cs pieces ∧ pieces.map trim = args := by
  have hnames : (∃ n ∈ [name, long], ∃ pieces, Form n cs pieces ∧ pieces.map trim = args) ↔
      arguments? name cs = some args ∨ arguments? long cs = some args := by
    simp [arguments?_eq_some_iff]
  rw [hnames]
  rcases hfound : arguments? long cs with - | found
  · simp
  · have hshort : arguments? name cs = none := by
      rw [Option.eq_none_iff_forall_ne_some]
      intro args hargs
      obtain ⟨pieces, hform, -⟩ := arguments?_eq_some_iff.1 hargs
      exact absurd (hfound.symm.trans (hform.arguments?_long_eq_none hlong)) (by simp)
    simp [hshort]

theorem orElse_arguments?_eq_none (h : ∀ n ∈ [name, long], ∀ pieces, ¬Form n cs pieces) :
    (arguments? long cs <|> arguments? name cs) = none := by
  rw [Option.eq_none_iff_forall_ne_some]
  intro args hargs
  obtain ⟨n, hn, pieces, hform, -⟩ := (orElse_arguments?_eq_some_iff hlong).1 hargs
  exact h n hn pieces hform

/-- A form of either name starts with the letter of the family. -/
theorem Form.head?_eq_of_mem {n : String} (h : Form n cs pieces) (hn : n ∈ [name, long]) {c : Char}
    (hc : name.toList.head? = some c) : cs.head? = some c := by
  refine h.head?_eq ?_
  obtain rfl | hn := List.mem_cons.1 hn
  · exact hc
  · rw [List.mem_singleton.1 hn, hlong, List.head?_append, hc]
    rfl

/-- A text with another first letter is of neither name. -/
theorem orElse_arguments?_eq_none_of_head? {c : Char} (hc : name.toList.head? = some c)
    (h : cs.head? ≠ some c) : (arguments? long cs <|> arguments? name cs) = none :=
  orElse_arguments?_eq_none hlong fun _ hn _ hform ↦ h (hform.head?_eq_of_mem hlong hn hc)

end Family

theorem toList_rgba : "rgba".toList = "rgb".toList ++ ['a'] := by decide

theorem toList_hsla : "hsla".toList = "hsl".toList ++ ['a'] := by decide

/-! ### Ranges -/

variable {c : Components α}

theorem alphaOk_iff : c.alphaOk = true ↔ ∀ a ∈ c.alpha, 0.0 ≤ a ∧ a ≤ 1.0 := by
  rw [Components.alphaOk]
  rcases c.alpha with - | a
  · simp
  · simp [Scalar.within_iff]

theorem inRange_iff {first other : α} :
    InRange first other c ↔ Scalar.within 0.0 first c.first = true ∧
      Scalar.within 0.0 other c.second = true ∧ Scalar.within 0.0 other c.third = true ∧
        c.alphaOk = true := by
  rw [Scalar.within_iff, Scalar.within_iff, Scalar.within_iff, alphaOk_iff]
  exact ⟨fun h ↦ ⟨h.first, h.second, h.third, h.alpha⟩, fun ⟨h₁, h₂, h₃, h⟩ ↦ ⟨h₁, h₂, h₃, h⟩⟩

theorem rgbFault?_eq_none_iff : c.rgbFault? = none ↔ InRange 255.0 255.0 c := by
  rw [inRange_iff, Components.rgbFault?]
  grind

theorem hslFault?_eq_none_iff : c.hslFault? = none ↔ InRange 360.0 100.0 c := by
  rw [inRange_iff, Components.hslFault?]
  grind

/-! ### Each form -/

/-- **What is found after `#`** is decided there. -/
theorem ofLower?_hash (cs : List Char) :
    (ofLower? ('#' :: cs) : Option (Color α)) = ofHex? cs := by
  have hhash : after? ['#'] ('#' :: cs) = some cs := after?_eq_some_iff.2 rfl
  rw [ofLower?, hhash]

/-- **What is found for an rgb form**: a color, if its components are in range. -/
theorem RgbForm.ofLower?_eq (h : RgbForm cs c) :
    ofLower? cs = if c.rgbFault?.isSome then none else
      some (Straight.premultiply
        ⟨c.first / 255.0, c.second / 255.0, c.third / 255.0, c.alpha.getD 1.0⟩) := by
  obtain ⟨name, hname, pieces, hform, hargs⟩ := h
  have hhead : cs.head? = some 'r' := hform.head?_eq_of_mem toList_rgba hname (by decide)
  have hhash : after? ['#'] cs = none := after?_eq_none rfl (by rw [hhead]; decide)
  have hfound : (arguments? "rgba" cs <|> arguments? "rgb" cs) = some (pieces.map trim) :=
    (orElse_arguments?_eq_some_iff toList_rgba).2 ⟨name, hname, pieces, hform, rfl⟩
  have hcomponents := rgbComponents?_eq_some_iff.2 hargs
  simp only [ofLower?, hhash, hfound, ofRgb?, hcomponents, Option.bind_eq_bind, Option.bind_some]

/-- **What is found for an hsl form**: a color, if its components are in range. -/
theorem HslForm.ofLower?_eq (h : HslForm cs c) :
    ofLower? cs = if c.hslFault?.isSome then none else
      some (Hsl.toStraight c.first (c.second / 100.0) (c.third / 100.0)
        (c.alpha.getD 1.0)).premultiply := by
  obtain ⟨name, hname, pieces, hform, hargs⟩ := h
  have hhead : cs.head? = some 'h' := hform.head?_eq_of_mem toList_hsla hname (by decide)
  have hhash : after? ['#'] cs = none := after?_eq_none rfl (by rw [hhead]; decide)
  have hrgb : (arguments? "rgba" cs <|> arguments? "rgb" cs) = none :=
    orElse_arguments?_eq_none_of_head? (c := 'r') toList_rgba (by decide) (by rw [hhead]; decide)
  have hfound : (arguments? "hsla" cs <|> arguments? "hsl" cs) = some (pieces.map trim) :=
    (orElse_arguments?_eq_some_iff toList_hsla).2 ⟨name, hname, pieces, hform, rfl⟩
  have hcomponents := hslComponents?_eq_some_iff.2 hargs
  simp only [ofLower?, hhash, hrgb, hfound, ofHsl?, hcomponents, Option.bind_eq_bind,
    Option.bind_some]

/-- **What is found for a name** is its color. -/
theorem ofLower?_of_mem_named {b : Bytes} (h : (String.ofList cs, b) ∈ named) :
    (ofLower? cs : Option (Color α)) = some (ofBytes b) := by
  have hlower : ∀ c ∈ cs, c.isLower = true := by
    intro c hc
    refine isLower_of_mem_named h ?_
    rwa [String.toList_ofList]
  have hhash : after? ['#'] cs = none := after?_eq_none rfl fun hhead ↦
    absurd (hlower '#' (List.mem_of_head? hhead)) (by decide)
  have hform : ∀ names : List String, ∀ name ∈ names, ∀ pieces, ¬Form name cs pieces :=
    fun _ _ _ _ hform ↦ absurd (hlower '(' hform.paren_mem) (by decide)
  have hrgb := orElse_arguments?_eq_none toList_rgba (hform _)
  have hhsl := orElse_arguments?_eq_none toList_hsla (hform _)
  simp only [ofLower?, hhash, hrgb, hhsl, bytesOfName?_eq_some_iff.2 h, Option.map_some]

/-! ### All forms -/

/-- **What the grammar denotes is found.** -/
theorem Denotes.ofLower?_eq {straight : Straight α} (h : Denotes cs straight) :
    ofLower? cs = some straight.premultiply := by
  cases h with
  | hex h =>
    rw [ofLower?_hash, h.ofHex?_eq]
    rfl
  | rgb h hrange =>
    rw [h.ofLower?_eq, rgbFault?_eq_none_iff.2 hrange]
    rfl
  | hsl h hrange =>
    rw [h.ofLower?_eq, hslFault?_eq_none_iff.2 hrange]
    rfl
  | name h =>
    rw [ofLower?_of_mem_named h]
    rfl

/-- The arguments of the color of an rgb form. -/
theorem exists_of_ofRgb? {color : Color α} (h : ofRgb? (pieces.map trim) = some color) :
    ∃ c, Arguments (Share 255.0) (Share 255.0) pieces c ∧ InRange 255.0 255.0 c ∧
      Straight.premultiply
        ⟨c.first / 255.0, c.second / 255.0, c.third / 255.0, c.alpha.getD 1.0⟩ = color := by
  obtain ⟨c, hc, h⟩ := Option.bind_eq_some_iff.1 h
  split at h
  · exact absurd h (by simp)
  · rename_i hfault
    have hrange := rgbFault?_eq_none_iff.1 (by simpa using hfault)
    exact ⟨c, rgbComponents?_eq_some_iff.1 hc, hrange, Option.some.inj h⟩

/-- The arguments of the color of an hsl form. -/
theorem exists_of_ofHsl? {color : Color α} (h : ofHsl? (pieces.map trim) = some color) :
    ∃ c, Arguments Hue Percentage pieces c ∧ InRange 360.0 100.0 c ∧
      (Hsl.toStraight c.first (c.second / 100.0) (c.third / 100.0)
        (c.alpha.getD 1.0)).premultiply = color := by
  obtain ⟨c, hc, h⟩ := Option.bind_eq_some_iff.1 h
  split at h
  · exact absurd h (by simp)
  · rename_i hfault
    have hrange := hslFault?_eq_none_iff.1 (by simpa using hfault)
    exact ⟨c, hslComponents?_eq_some_iff.1 hc, hrange, Option.some.inj h⟩

/-- **What is found is denoted by the grammar.** -/
theorem exists_denotes_of_ofLower? {color : Color α} (h : ofLower? cs = some color) :
    ∃ straight, Denotes cs straight ∧ straight.premultiply = color := by
  -- The first form that a text has decides, also where its components are out of range.
  rw [ofLower?] at h
  split at h
  · rename_i digits hhash
    obtain rfl := after?_eq_some_iff.1 hhash
    obtain ⟨b, hb, rfl⟩ := ofHex?_eq_some_iff.1 h
    exact ⟨b.straight, .hex hb, rfl⟩
  · split at h
    · rename_i args hargs
      obtain ⟨name, hname, pieces, hform, rfl⟩ :=
        (orElse_arguments?_eq_some_iff toList_rgba).1 hargs
      obtain ⟨c, hc, hrange, hcolor⟩ := exists_of_ofRgb? h
      exact ⟨_, .rgb ⟨name, hname, pieces, hform, hc⟩ hrange, hcolor⟩
    · split at h
      · rename_i args hargs
        obtain ⟨name, hname, pieces, hform, rfl⟩ :=
          (orElse_arguments?_eq_some_iff toList_hsla).1 hargs
        obtain ⟨c, hc, hrange, hcolor⟩ := exists_of_ofHsl? h
        exact ⟨_, .hsl ⟨name, hname, pieces, hform, hc⟩ hrange, hcolor⟩
      · obtain ⟨b, hb, rfl⟩ := Option.map_eq_some_iff.1 h
        exact ⟨b.straight, .name (bytesOfName?_eq_some_iff.1 hb), rfl⟩

/-- **The colors that are found are those of the grammar.** -/
theorem ofLower?_eq_some_iff {color : Color α} :
    ofLower? cs = some color ↔ ∃ straight, Denotes cs straight ∧ straight.premultiply = color := by
  refine ⟨exists_denotes_of_ofLower?, ?_⟩
  rintro ⟨straight, h, rfl⟩
  exact h.ofLower?_eq

/-! ### Components that are no numbers -/

/-- **Finite components.** -/
structure FiniteComponents (c : Components α) : Prop where
  /-- The first component. -/
  first : Scalar.isFinite c.first = true
  /-- The second component. -/
  second : Scalar.isFinite c.second = true
  /-- The third component. -/
  third : Scalar.isFinite c.third = true
  /-- Alpha, if it is there. -/
  alpha : ∀ a ∈ c.alpha, Scalar.isFinite a = true

/-- What is in range is finite. -/
theorem InRange.finite {first other : Float} {c : Components Float} (h : InRange first other c)
    (hfirst : first.isFinite = true) (hother : other.isFinite = true) : FiniteComponents c := by
  have hzero : (0.0 : Float).isFinite = true := by decide
  have hone : (1.0 : Float).isFinite = true := by decide
  exact ⟨Binary64.isFinite_of_le_of_le hzero hfirst h.first.1 h.first.2,
    Binary64.isFinite_of_le_of_le hzero hother h.second.1 h.second.2,
    Binary64.isFinite_of_le_of_le hzero hother h.third.1 h.third.2,
    fun a ha ↦ Binary64.isFinite_of_le_of_le hzero hone (h.alpha a ha).1 (h.alpha a ha).2⟩

/-- **Components that are infinite or not a number are refused.** -/
theorem ofLower?_eq_none_of_not_finite {c : Components Float} (h : RgbForm cs c ∨ HslForm cs c)
    (hc : ¬FiniteComponents c) : (ofLower? cs : Option (Color Float)) = none := by
  obtain h | h := h
  · have hfault : c.rgbFault? ≠ none := fun hnone ↦
      hc ((rgbFault?_eq_none_iff.1 hnone).finite (by decide) (by decide))
    rw [h.ofLower?_eq, if_pos (Option.ne_none_iff_isSome.1 hfault)]
  · have hfault : c.hslFault? ≠ none := fun hnone ↦
      hc ((hslFault?_eq_none_iff.1 hnone).finite (by decide) (by decide))
    rw [h.ofLower?_eq, if_pos (Option.ne_none_iff_isSome.1 hfault)]

/-! ### The main statement -/

/-- The part of a text that matters, in small letters. -/
def lowered (s : String) : List Char := (trim s.toList).map Char.toLower

/-- **A text names a color exactly if the grammar gives it one**, and that is the color named. No
component may be infinite or not a number; three or four digits are worth as much as each of them
twice; and a name is found exactly if the table has it. -/
theorem ofText?_grammar (s : String) :
    (∀ color : Color Float, ofText? s = some color ↔
      ∃ straight, Denotes (lowered s) straight ∧ straight.premultiply = color) ∧
    (∀ c : Components Float, RgbForm (lowered s) c ∨ HslForm (lowered s) c →
      ¬FiniteComponents c → (ofText? s : Option (Color Float)) = none) ∧
    (∀ digits, digits.length = 3 ∨ digits.length = 4 → lowered s = '#' :: digits →
      ∀ s', lowered s' = '#' :: doubled digits →
        (ofText? s' : Option (Color Float)) = ofText? s) ∧
    ∀ name b, bytesOfName? name = some b ↔ (name, b) ∈ named := by
  have htext : ∀ s, (ofText? s : Option (Color Float)) = ofLower? (lowered s) := fun _ ↦ rfl
  refine ⟨fun color ↦ ofLower?_eq_some_iff, fun c ↦ ofLower?_eq_none_of_not_finite, ?_,
    fun name b ↦ bytesOfName?_eq_some_iff⟩
  intro digits hlength hs s' hs'
  rw [htext, htext, hs, hs', ofLower?_hash, ofLower?_hash, ofHex?_doubled hlength]

/-- A name in capitals, a component that is not a number, and a short form with its long form. -/
theorem ofText?_grammar_samples :
    ofText? " RED " = some (ofBytes ⟨255, 0, 0, 255⟩ : Color Float) ∧
    (ofText? "rgb(nan, 0, 0)" : Option (Color Float)) = none ∧
    (ofText? "#FF00AA" : Option (Color Float)) = ofText? "#F0A" := by
  refine ⟨?_, ?_, ?_⟩
  · have hred : (String.ofList (lowered " RED "), ⟨255, 0, 0, 255⟩) ∈ named := by decide +kernel
    exact ((ofText?_grammar " RED ").1 _).2 ⟨_, .name hred, rfl⟩
  · have hnan : Padded (Share 255.0) "nan".toList (Scalar.nan : Float) :=
      ⟨[], "nan".toList, [], Blank.nil, Blank.nil, rfl, .number rfl⟩
    have hzero : Padded (Share 255.0) " 0".toList (Scalar.ofDecimal 0 0 : Float) :=
      ⟨[' '], ['0'], [], List.forall_mem_singleton.2 (by decide), Blank.nil, rfl, .number rfl⟩
    have hform : Form "rgb" (lowered "rgb(nan, 0, 0)")
        ["nan".toList, " 0".toList, " 0".toList] :=
      ⟨by decide, by decide, [], Blank.nil, by decide⟩
    exact (ofText?_grammar "rgb(nan, 0, 0)").2.1 _
      (.inl ⟨"rgb", by decide, _, hform, .mk hnan hzero hzero .absent⟩)
      fun hfinite ↦ absurd hfinite.first (by decide)
  · exact (ofText?_grammar "#F0A").2.2.1 "f0a".toList (by decide) (by decide) "#FF00AA" (by decide)

end MapStyle.Color
