import PageContent.Text.Utf8

/-! # Previews

    Bytes as text in a message, cut where the text gets long.
-/

namespace PageContent

namespace Preview

/-- The greatest number of characters that is shown. -/
def limit : Nat := 60

/-- The text of some bytes; if it is too long, its beginning and three dots. -/
def text (bytes : List UInt8) : String :=
  let cs := Utf8.decodeChars bytes
  if limit < cs.length then String.ofList (cs.take limit) ++ "..." else String.ofList cs

end Preview

end PageContent
