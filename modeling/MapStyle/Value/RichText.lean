import MapStyle.Color.Basic

/-!
# Rich text, images and collators

The values of a style that are neither plain data nor colors: text made of sections, references to
images by name, and the options of a text comparison.
-/

namespace MapStyle

/-- **A reference to an image by name**, resolved when it is drawn. -/
structure Image where
  /-- The name of the image. -/
  name : String
  /-- Whether the image is there now. -/
  available : Bool
  deriving DecidableEq, Repr

/-- The reference to a name, not yet known to be available; the empty name refers to nothing. -/
def Image.ofName? (name : String) : Option Image :=
  if name.isEmpty then none else some ⟨name, false⟩

/-- One run of rich text. -/
structure TextSection (α : Type) where
  /-- The characters, empty for a section that shows an image. -/
  text : String
  /-- The image shown in line. -/
  image : Option Image
  /-- The size relative to that of the surrounding text. -/
  scale : Option α
  /-- The names of the fonts to use instead. -/
  fontStack : Option String
  /-- The color to use instead. -/
  textColor : Option (Color α)

/-- **Rich text**: sections in display order. -/
structure Formatted (α : Type) where
  /-- The sections. -/
  sections : List (TextSection α)

namespace Formatted

variable {α : Type}

/-- Plain text as a single section without any style. -/
def ofString (s : String) : Formatted α := ⟨[⟨s, none, none, none, none⟩]⟩

/-- Whether no section carries text or an image. -/
def isEmpty (f : Formatted α) : Bool :=
  f.sections.all fun s ↦ s.text.isEmpty && s.image.isNone

/-- The characters of all sections. -/
def text (f : Formatted α) : String := String.join (f.sections.map TextSection.text)

variable [Scalar α]

instance : BEq (TextSection α) where
  beq s t := s.text == t.text && s.image == t.image && s.scale == t.scale &&
    s.fontStack == t.fontStack && s.textColor == t.textColor

instance : BEq (Formatted α) where
  beq f g := f.sections == g.sections

end Formatted

/-- **Options of a text comparison.** -/
structure Collator where
  /-- Whether letter case matters. -/
  caseSensitive : Bool
  /-- Whether accents matter. -/
  diacriticSensitive : Bool
  /-- The tag of the requested language, if one was. -/
  locale : Option String
  deriving DecidableEq, Repr

end MapStyle
