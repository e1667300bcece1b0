import Stencil.Text.Basic

/-!
# Texts as bytes

Template sources are kept as bytes and read as UTF-8. `ofBytes?` refuses ill-formed input as a
whole, and never drops a byte order mark.
-/

namespace Stencil

/-- The content of a source. -/
abbrev Bytes := List UInt8

namespace Text

/-- The UTF-8 form of a text. -/
def toBytes (t : Text) : Bytes := t.str.toUTF8.data.toList

/-- The text that the bytes spell in UTF-8, if they are well-formed. -/
def ofBytes? (b : Bytes) : Option Text := (String.fromUTF8? ⟨b.toArray⟩).map String.toList

end Text

end Stencil
