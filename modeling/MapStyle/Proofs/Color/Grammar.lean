import Mathlib.Data.List.Forall2
import MapStyle.Color.Css
import MapStyle.Proofs.Text.Numeral

/-!
# The grammar of colors

What the texts of CSS colors are, stated by **how they are put together**: digits in pairs, numbers
with a sign or a unit behind them, arguments with blanks around them and commas between them, names.
Nothing here is taken apart. That the library, which does take texts apart, finds just these is the
second half of this module for digits and arguments, and `MapStyle.Proofs.Color.Css` for colors.

A number is whatever `Scalar.ofText?` reads.
-/

namespace MapStyle.Color

open Text Numeral

variable {α : Type} [Scalar α]

/-! ### Digits -/

/-- A hexadecimal digit with its value, in either case. -/
def HexDigit (c : Char) (d : Nat) : Prop :=
  ∃ digits ∈ ["0123456789abcdef".toList, "0123456789ABCDEF".toList], digits[d]? = some c

/-- Two digits for each byte. -/
inductive HexBytes : List Char → List Nat → Prop
  /-- No digits. -/
  | nil : HexBytes [] []
  /-- Two more digits, the first of which counts sixteen times. -/
  | cons {c c' : Char} {d d' : Nat} {cs : List Char} {bytes : List Nat} (h : HexDigit c d)
    (h' : HexDigit c' d') (hrest : HexBytes cs bytes) :
    HexBytes (c :: c' :: cs) ((d * 16 + d') :: bytes)

/-- A text with each character twice. -/
def doubled (cs : List Char) : List Char := cs.flatMap fun c ↦ [c, c]

/-- **The digits of a color**: three or four bytes, or as many digits each of which stands for
itself twice. -/
inductive HexColor : List Char → Bytes → Prop
  /-- Three bytes. -/
  | six {cs : List Char} {r g b : Nat} (h : HexBytes cs [r, g, b]) : HexColor cs ⟨r, g, b, 255⟩
  /-- Four bytes. -/
  | eight {cs : List Char} {r g b a : Nat} (h : HexBytes cs [r, g, b, a]) :
    HexColor cs ⟨r, g, b, a⟩
  /-- The short form. -/
  | short {cs : List Char} {b : Bytes} (hlength : cs.length = 3 ∨ cs.length = 4)
    (h : HexColor (doubled cs) b) : HexColor cs b

/-! ### Arguments -/

/-- **A number with or without a percent sign**, before which there may be blanks; `percent` is what
the sign makes of the number. -/
inductive Quantity (percent : α → α) : List Char → α → Prop
  /-- Just a number. -/
  | number {cs : List Char} {x : α} (h : Scalar.ofText? cs = some x) : Quantity percent cs x
  /-- A number with the sign. -/
  | percent {cs blanks : List Char} {x : α} (h : Scalar.ofText? cs = some x)
    (hblanks : Blank blanks) : Quantity percent (cs ++ blanks ++ ['%']) (percent x)

/-- A number, or a percentage of `whole`. -/
def Share (whole : α) : List Char → α → Prop := Quantity fun x ↦ x / 100.0 * whole

/-- A number of percent, with or without the sign. -/
def Percentage : List Char → α → Prop := Quantity id

/-- **A number with or without `deg`**, right after it. -/
inductive Hue : List Char → α → Prop
  /-- Just a number. -/
  | number {cs : List Char} {x : α} (h : Scalar.ofText? cs = some x) : Hue cs x
  /-- A number with the unit. -/
  | degrees {cs : List Char} {x : α} (h : Scalar.ofText? cs = some x) : Hue (cs ++ "deg".toList) x

/-- What is written, with blanks around it. -/
def Padded (P : List Char → α → Prop) (cs : List Char) (x : α) : Prop :=
  ∃ before core after, Blank before ∧ Blank after ∧ cs = before ++ core ++ after ∧ P core x

/-- An optional alpha, a share of one. -/
inductive Alpha : List (List Char) → Option α → Prop
  /-- There is none. -/
  | absent : Alpha [] none
  /-- There is one. -/
  | present {cs : List Char} {a : α} (h : Padded (Share 1.0) cs a) : Alpha [cs] (some a)

/-- **Three or four arguments**, the first of one kind, two of another, and alpha. -/
inductive Arguments (First Other : List Char → α → Prop) : List (List Char) → Components α → Prop
  /-- The arguments one by one. -/
  | mk {first second third : List Char} {rest : List (List Char)} {x y z : α} {a : Option α}
    (hfirst : Padded First first x) (hsecond : Padded Other second y)
    (hthird : Padded Other third z) (halpha : Alpha rest a) :
    Arguments First Other (first :: second :: third :: rest) ⟨x, y, z, a⟩

/-! ### Forms -/

/-- **A functional form**: a name, blanks, and in parentheses pieces with commas between them. -/
structure Form (name : String) (cs : List Char) (pieces : List (List Char)) : Prop where
  /-- There is a piece, though it may be empty. -/
  ne_nil : pieces ≠ []
  /-- No piece has a comma. -/
  comma_not_mem : ∀ piece ∈ pieces, ',' ∉ piece
  /-- The text is put together from the pieces. -/
  eq_append : ∃ blanks, Blank blanks ∧
    cs = name.toList ++ blanks ++ '(' :: [','].intercalate pieces ++ [')']

/-- **A form for red, green and blue**, each up to `255`. -/
def RgbForm (cs : List Char) (c : Components α) : Prop :=
  ∃ name ∈ ["rgb", "rgba"], ∃ pieces, Form name cs pieces ∧
    Arguments (Share 255.0) (Share 255.0) pieces c

/-- **A form for hue, saturation and lightness.** -/
def HslForm (cs : List Char) (c : Components α) : Prop :=
  ∃ name ∈ ["hsl", "hsla"], ∃ pieces, Form name cs pieces ∧ Arguments Hue Percentage pieces c

/-- **Components in range**: from zero to `first` or to `other`, and to one for alpha. -/
structure InRange (first other : α) (c : Components α) : Prop where
  /-- The first component. -/
  first : 0.0 ≤ c.first ∧ c.first ≤ first
  /-- The second component. -/
  second : 0.0 ≤ c.second ∧ c.second ≤ other
  /-- The third component. -/
  third : 0.0 ≤ c.third ∧ c.third ≤ other
  /-- Alpha, if it is there. -/
  alpha : ∀ a ∈ c.alpha, 0.0 ≤ a ∧ a ≤ 1.0

/-- The straight color of channels in bytes. -/
def Bytes.straight (b : Bytes) : Straight α :=
  ⟨Scalar.ofInt b.red / 255.0, Scalar.ofInt b.green / 255.0, Scalar.ofInt b.blue / 255.0,
    Scalar.ofInt b.alpha / 255.0⟩

/-- **The straight color that a text denotes.** -/
inductive Denotes : List Char → Straight α → Prop
  /-- Digits after `#`. -/
  | hex {cs : List Char} {b : Bytes} (h : HexColor cs b) : Denotes ('#' :: cs) b.straight
  /-- Red, green and blue in range. -/
  | rgb {cs : List Char} {c : Components α} (h : RgbForm cs c) (hrange : InRange 255.0 255.0 c) :
    Denotes cs ⟨c.first / 255.0, c.second / 255.0, c.third / 255.0, c.alpha.getD 1.0⟩
  /-- Hue, saturation and lightness in range. -/
  | hsl {cs : List Char} {c : Components α} (h : HslForm cs c) (hrange : InRange 360.0 100.0 c) :
    Denotes cs
      (Hsl.toStraight c.first (c.second / 100.0) (c.third / 100.0) (c.alpha.getD 1.0))
  /-- A name. -/
  | name {cs : List Char} {b : Bytes} (h : (String.ofList cs, b) ∈ named) :
    Denotes cs b.straight

/-! ### Reading digits -/

instance (c : Char) (d : Nat) : Decidable (HexDigit c d) :=
  inferInstanceAs (Decidable (∃ digits ∈ _, _))

/-- Digits are up to `f`. -/
theorem toNat_of_hexDigit? {c : Char} {d : Nat} (h : hexDigit? c = some d) :
    c.toNat ≤ 'f'.toNat := by
  rw [hexDigit?] at h
  split_ifs at h with hdigit hsmall hcapital
  · exact (Char.isDigit_iff_toNat.1 hdigit).2.trans (by decide)
  · exact hsmall.2
  · exact Nat.le_trans (m := 'F'.toNat) hcapital.2 (by decide)

theorem hexDigit?_eq_some_iff {c : Char} {d : Nat} : hexDigit? c = some d ↔ HexDigit c d := by
  constructor
  · intro h
    -- No digit comes after `f`, which leaves few enough characters to try them all.
    have hall : ∀ n ≤ 'f'.toNat, ∀ d ∈ hexDigit? (Char.ofNat n), HexDigit (Char.ofNat n) d := by
      decide
    have hc := hall c.toNat (toNat_of_hexDigit? h) d
    rw [Char.ofNat_toNat] at hc
    exact hc h
  · rintro ⟨digits, hdigits, h⟩
    have hall : ∀ digits ∈ ["0123456789abcdef".toList, "0123456789ABCDEF".toList],
        digits.length = 16 ∧ ∀ d < 16, (digits[d]?).bind hexDigit? = some d := by decide
    obtain ⟨hlength, hvalue⟩ := hall digits hdigits
    obtain ⟨hd, -⟩ := List.getElem?_eq_some_iff.1 h
    have hc := hvalue d (hlength ▸ hd)
    rwa [h] at hc

theorem mapM_hexDigit?_eq_some_iff {cs : List Char} {digits : List Nat} :
    cs.mapM hexDigit? = some digits ↔ List.Forall₂ HexDigit cs digits := by
  induction cs generalizing digits with
  | nil => simp [eq_comm, List.forall₂_nil_left_iff]
  | cons c cs ih =>
    simp only [List.mapM_cons, Option.bind_eq_bind, Option.bind_eq_some_iff, Option.pure_def,
      Option.some.injEq, hexDigit?_eq_some_iff, ih, List.forall₂_cons_left_iff]
    simp only [eq_comm, exists_and_left]

/-- Doubled characters are read as doubled digits. -/
theorem mapM_doubled {β : Type} (f : Char → Option β) (cs : List Char) :
    (doubled cs).mapM f = (cs.mapM f).map fun ds ↦ ds.flatMap fun d ↦ [d, d] := by
  induction cs with
  | nil => rfl
  | cons c cs ih =>
    have hcons : doubled (c :: cs) = c :: c :: doubled cs := rfl
    rw [hcons, List.mapM_cons, List.mapM_cons, List.mapM_cons, ih]
    cases f c <;> cases cs.mapM f <;> rfl

theorem digit_twice (d : Nat) : d * 16 + d = d * 17 := (Nat.mul_succ d 16).symm

/-- A single digit is worth as much as the digit twice. -/
theorem hexBytes?_doubled {digits : List Nat} (h : digits.length = 3 ∨ digits.length = 4) :
    hexBytes? (digits.flatMap fun d ↦ [d, d]) = hexBytes? digits := by
  obtain h | h := h
  · obtain ⟨r, g, b, rfl⟩ := List.length_eq_three.1 h
    show some (Bytes.mk (r * 16 + r) (g * 16 + g) (b * 16 + b) 255) = _
    rw [digit_twice, digit_twice, digit_twice, hexBytes?]
  · obtain ⟨r, digits, rfl⟩ := List.exists_cons_of_length_eq_add_one h
    obtain ⟨g, b, a, rfl⟩ := List.length_eq_three.1 (Nat.succ.inj h)
    show some (Bytes.mk (r * 16 + r) (g * 16 + g) (b * 16 + b) (a * 16 + a)) = _
    rw [digit_twice, digit_twice, digit_twice, digit_twice, hexBytes?]

/-- **The short form is the long form with its digits doubled.** -/
theorem ofHex?_doubled {cs : List Char} (h : cs.length = 3 ∨ cs.length = 4) :
    (ofHex? (doubled cs) : Option (Color α)) = ofHex? cs := by
  rw [ofHex?, ofHex?, mapM_doubled]
  rcases hdigits : cs.mapM hexDigit? with - | digits
  · rfl
  · rw [(mapM_hexDigit?_eq_some_iff.1 hdigits).length_eq] at h
    simp only [Option.map_some, Option.bind_eq_bind, Option.bind_some, hexBytes?_doubled h]

/-- Digits in one of the four numbers are digits of a color. -/
theorem hexColor_of_forall₂ {cs : List Char} {digits : List Nat} {b : Bytes}
    (hdigits : List.Forall₂ HexDigit cs digits) (h : hexBytes? digits = some b) :
    HexColor cs b := by
  -- The number of digits tells the forms apart; the short ones come first.
  rw [hexBytes?.eq_def] at h
  split at h
  · obtain rfl := Option.some.inj h
    obtain - | ⟨hr, - | ⟨hg, - | ⟨hb, - | -⟩⟩⟩ := hdigits
    simp only [← digit_twice]
    exact .short (.inl rfl) (.six (.cons hr hr (.cons hg hg (.cons hb hb .nil))))
  · obtain rfl := Option.some.inj h
    obtain - | ⟨hr, - | ⟨hg, - | ⟨hb, - | ⟨ha, - | -⟩⟩⟩⟩ := hdigits
    simp only [← digit_twice]
    exact .short (.inr rfl) (.eight (.cons hr hr (.cons hg hg (.cons hb hb (.cons ha ha .nil)))))
  · obtain rfl := Option.some.inj h
    obtain - | ⟨hr, - | ⟨hr', - | ⟨hg, - | ⟨hg', - | ⟨hb, - | ⟨hb', - | -⟩⟩⟩⟩⟩⟩ := hdigits
    exact .six (.cons hr hr' (.cons hg hg' (.cons hb hb' .nil)))
  · obtain rfl := Option.some.inj h
    obtain - | ⟨hr, - | ⟨hr', - | ⟨hg, - | ⟨hg', hdigits⟩⟩⟩⟩ := hdigits
    obtain - | ⟨hb, - | ⟨hb', - | ⟨ha, - | ⟨ha', - | -⟩⟩⟩⟩ := hdigits
    exact .eight (.cons hr hr' (.cons hg hg' (.cons hb hb' (.cons ha ha' .nil))))
  · exact absurd h (by simp)

/-- The digits of a color are read as its bytes. -/
theorem HexColor.ofHex?_eq {cs : List Char} {b : Bytes} (h : HexColor cs b) :
    (ofHex? cs : Option (Color α)) = some (ofBytes b) := by
  induction h with
  | six h =>
    obtain - | ⟨hr, hr', - | ⟨hg, hg', - | ⟨hb, hb', - | -⟩⟩⟩ := h
    have hdigits : List.Forall₂ HexDigit _ _ :=
      .cons hr (.cons hr' (.cons hg (.cons hg' (.cons hb (.cons hb' .nil)))))
    rw [ofHex?, mapM_hexDigit?_eq_some_iff.2 hdigits]
    rfl
  | eight h =>
    obtain - | ⟨hr, hr', - | ⟨hg, hg', - | ⟨hb, hb', - | ⟨ha, ha', - | -⟩⟩⟩⟩ := h
    have hdigits : List.Forall₂ HexDigit _ _ :=
      .cons hr (.cons hr' (.cons hg (.cons hg' (.cons hb (.cons hb' (.cons ha (.cons ha' .nil)))))))
    rw [ofHex?, mapM_hexDigit?_eq_some_iff.2 hdigits]
    rfl
  | short hlength _ ih => rw [← ofHex?_doubled hlength, ih]

/-- **Digits are read as the grammar says.** -/
theorem ofHex?_eq_some_iff {cs : List Char} {c : Color α} :
    ofHex? cs = some c ↔ ∃ b, HexColor cs b ∧ ofBytes b = c := by
  constructor
  · intro h
    obtain ⟨digits, hdigits, h⟩ := Option.bind_eq_some_iff.1 h
    obtain ⟨b, hb, h⟩ := Option.bind_eq_some_iff.1 h
    exact ⟨b, hexColor_of_forall₂ (mapM_hexDigit?_eq_some_iff.1 hdigits) hb, Option.some.inj h⟩
  · rintro ⟨b, hb, rfl⟩
    exact hb.ofHex?_eq

/-! ### Reading arguments -/

/-- **A reader of a kind of argument**: it finds what is written of that kind, once nothing is to be
trimmed. -/
structure Reads (read : List Char → Option α) (Kind : List Char → α → Prop) : Prop where
  /-- Arguments of the kind have no blanks at their ends. -/
  tight : ∀ {cs x}, Kind cs x → Tight cs
  /-- The reader finds what is written. -/
  eq_some_iff : ∀ {cs x}, Tight cs → (read cs = some x ↔ Kind cs x)

omit [Scalar α] in
/-- An argument is trimmed before it is read. -/
theorem Reads.trim_eq_some_iff {read : List Char → Option α} {Kind : List Char → α → Prop}
    (h : Reads read Kind) {cs : List Char} {x : α} :
    read (trim cs) = some x ↔ Padded Kind cs x := by
  constructor
  · intro hread
    obtain ⟨htight, before, after, hbefore, hafter, hcs⟩ := exists_padding cs
    exact ⟨before, trim cs, after, hbefore, hafter, hcs, (h.eq_some_iff htight).1 hread⟩
  · rintro ⟨before, core, after, hbefore, hafter, rfl, hcore⟩
    rw [trim_padded hbefore hafter (h.tight hcore)]
    exact (h.eq_some_iff (h.tight hcore)).2 hcore

section Numbers

variable {cs : List Char} {x : α}

theorem ne_nil_of_ofText? (h : Scalar.ofText? cs = some x) : cs ≠ [] := by
  rintro rfl
  exact absurd h (by simp [Scalar.ofText?_nil])

/-- A number has no percent sign. -/
theorem before?_percent_of_ofText? (h : Scalar.ofText? cs = some x) : before? ['%'] cs = none :=
  before?_eq_none List.mem_cons_self ((Scalar.ofText?_marks h).not_mem (by decide))

/-- A number has no unit. -/
theorem before?_deg_of_ofText? (h : Scalar.ofText? cs = some x) :
    before? "deg".toList cs = none :=
  before?_eq_none (c := 'g') (by decide) ((Scalar.ofText?_marks h).not_mem (by decide))

/-- What follows a number has to end without a blank. -/
theorem tight_append_of_ofText? (h : Scalar.ofText? cs = some x) {rest : List Char}
    (hne : rest ≠ []) (hlast : ∀ c, rest.getLast? = some c → isBlank c = false) :
    Tight (cs ++ rest) :=
  (Scalar.ofText?_marks h).tight.append (ne_nil_of_ofText? h) hne hlast

theorem Quantity.tight {percent : α → α} (h : Quantity percent cs x) : Tight cs := by
  obtain h | ⟨h, -⟩ := h
  · exact (Scalar.ofText?_marks h).tight
  · rw [List.append_assoc]
    refine tight_append_of_ofText? h (by simp) fun c hc ↦ ?_
    rw [List.getLast?_concat] at hc
    obtain rfl := Option.some.inj hc
    decide

theorem Hue.tight (h : Hue cs x) : Tight cs := by
  obtain h | h := h
  · exact (Scalar.ofText?_marks h).tight
  · refine tight_append_of_ofText? h (by decide) fun c hc ↦ ?_
    obtain rfl := Option.some.inj hc
    decide

/-- A percent sign is taken off together with the blanks before it. -/
theorem quantity_iff_of_percent {percent : α → α} (htight : Tight (cs ++ ['%'])) :
    Quantity percent (cs ++ ['%']) x ↔ ∃ y, Scalar.ofText? (trim cs) = some y ∧ percent y = x := by
  constructor
  · -- A number does not end with the sign, so only the form with one is possible.
    generalize htext : cs ++ ['%'] = text
    rintro (h | ⟨h, hblanks⟩)
    · exact absurd (before?_eq_some_iff.2 htext.symm) (by simp [before?_percent_of_ofText? h])
    · rename_i y
      obtain rfl := List.append_cancel_right htext
      exact ⟨y, by rw [trim_append (Scalar.ofText?_marks h).tight hblanks, h], rfl⟩
  · rintro ⟨y, hy, rfl⟩
    have hhead : ∀ c, cs.head? = some c → isBlank c = false := fun c hc ↦
      htight.head c (by rw [List.head?_append, hc]; rfl)
    obtain ⟨after, hafter, hcs⟩ := exists_of_trim hhead
    rw [hcs]
    exact .percent hy hafter

/-- Without a percent sign there is just a number. -/
theorem quantity_iff_of_none {percent : α → α} (h : before? ['%'] cs = none) :
    Quantity percent cs x ↔ Scalar.ofText? cs = some x := by
  refine ⟨?_, .number⟩
  rintro (hnumber | ⟨-, -⟩)
  · exact hnumber
  · exact absurd (h.symm.trans (before?_eq_some_iff.2 rfl)) (by simp)

theorem reads_share (whole : α) : Reads (share? whole) (Share whole) where
  tight := Quantity.tight
  eq_some_iff {cs x} htight := by
    rw [share?, Share]
    split
    · rename_i written hwritten
      obtain rfl := before?_eq_some_iff.1 hwritten
      rw [quantity_iff_of_percent htight, Option.map_eq_some_iff]
    · rename_i hnone
      rw [quantity_iff_of_none hnone]

theorem reads_percentage : Reads (percentage? : List Char → Option α) Percentage where
  tight := Quantity.tight
  eq_some_iff {cs x} htight := by
    rw [percentage?, Percentage]
    rcases hwritten : before? ['%'] cs with - | written
    · rw [quantity_iff_of_none hwritten, Option.getD_none, trim_of_tight htight]
    · obtain rfl := before?_eq_some_iff.1 hwritten
      rw [quantity_iff_of_percent htight, Option.getD_some]
      simp only [id, exists_eq_right]

theorem reads_hue : Reads (hue? : List Char → Option α) Hue where
  tight := Hue.tight
  eq_some_iff {cs x} _ := by
    rw [hue?]
    constructor
    · intro h
      rcases hwritten : before? "deg".toList cs with - | written
      · rw [hwritten] at h
        exact .number h
      · obtain rfl := before?_eq_some_iff.1 hwritten
        rw [hwritten] at h
        exact .degrees h
    · rintro (h | h)
      · rw [before?_deg_of_ofText? h]
        exact h
      · rw [before?_eq_some_iff.2 rfl]
        exact h

end Numbers

/-- Three or four arguments, each read by its reader. -/
def components? (first other : List Char → Option α) :
    List (List Char) → Option (Components α)
  | r :: g :: b :: rest => do
    let a ← lastAlpha? rest
    return ⟨← first r, ← other g, ← other b, a⟩
  | _ => none

theorem rgbComponents?_eq (args : List (List Char)) :
    (rgbComponents? args : Option (Components α)) =
      components? (share? 255.0) (share? 255.0) args := by
  obtain - | ⟨r, - | ⟨g, - | ⟨b, rest⟩⟩⟩ := args <;> rfl

theorem hslComponents?_eq (args : List (List Char)) :
    (hslComponents? args : Option (Components α)) = components? hue? percentage? args := by
  obtain - | ⟨h, - | ⟨s, - | ⟨l, rest⟩⟩⟩ := args <;> rfl

theorem lastAlpha?_eq_some_iff {pieces : List (List Char)} {a : Option α} :
    lastAlpha? (pieces.map trim) = some a ↔ Alpha pieces a := by
  constructor
  · intro h
    obtain - | ⟨piece, - | ⟨next, rest⟩⟩ := pieces
    · obtain rfl := Option.some.inj h
      exact .absent
    · obtain ⟨x, hx, rfl⟩ := Option.map_eq_some_iff.1 h
      exact .present ((reads_share 1.0).trim_eq_some_iff.1 hx)
    · exact absurd h (by simp [lastAlpha?])
  · rintro (- | h)
    · rfl
    · exact Option.map_eq_some_iff.2 ⟨_, (reads_share 1.0).trim_eq_some_iff.2 h, rfl⟩

/-- **Arguments are read as the grammar says.** -/
theorem components?_eq_some_iff {first other : List Char → Option α}
    {First Other : List Char → α → Prop} (hfirst : Reads first First) (hother : Reads other Other)
    {pieces : List (List Char)} {c : Components α} :
    components? first other (pieces.map trim) = some c ↔ Arguments First Other pieces c := by
  constructor
  · intro h
    obtain - | ⟨r, - | ⟨g, - | ⟨b, rest⟩⟩⟩ := pieces
    · exact absurd h (by simp [components?])
    · exact absurd h (by simp [components?])
    · exact absurd h (by simp [components?])
    · obtain ⟨a, ha, h⟩ := Option.bind_eq_some_iff.1 h
      obtain ⟨x, hx, h⟩ := Option.bind_eq_some_iff.1 h
      obtain ⟨y, hy, h⟩ := Option.bind_eq_some_iff.1 h
      obtain ⟨z, hz, h⟩ := Option.bind_eq_some_iff.1 h
      obtain rfl := Option.some.inj h
      exact .mk (hfirst.trim_eq_some_iff.1 hx) (hother.trim_eq_some_iff.1 hy)
        (hother.trim_eq_some_iff.1 hz) (lastAlpha?_eq_some_iff.1 ha)
  · rintro ⟨hx, hy, hz, ha⟩
    simp only [List.map_cons, components?]
    rw [lastAlpha?_eq_some_iff.2 ha, hfirst.trim_eq_some_iff.2 hx,
      hother.trim_eq_some_iff.2 hy, hother.trim_eq_some_iff.2 hz]
    rfl

theorem rgbComponents?_eq_some_iff {pieces : List (List Char)} {c : Components α} :
    rgbComponents? (pieces.map trim) = some c ↔
      Arguments (Share 255.0) (Share 255.0) pieces c := by
  rw [rgbComponents?_eq, components?_eq_some_iff (reads_share _) (reads_share _)]

theorem hslComponents?_eq_some_iff {pieces : List (List Char)} {c : Components α} :
    hslComponents? (pieces.map trim) = some c ↔ Arguments Hue Percentage pieces c := by
  rw [hslComponents?_eq, components?_eq_some_iff reads_hue reads_percentage]

end MapStyle.Color
