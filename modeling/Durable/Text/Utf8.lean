/-!
# Text as UTF-8 bytes

The bytes of a text, and the text of bytes when they are well-formed UTF-8.
-/

namespace Durable.Text

/-- The UTF-8 bytes of a text. -/
def utf8 (text : String) : List UInt8 :=
  text.toByteArray.toList

/-- The text that bytes encode, if they are well-formed UTF-8. -/
def ofUtf8? (bytes : List UInt8) : Option String :=
  String.fromUTF8? ⟨bytes.toArray⟩

end Durable.Text
