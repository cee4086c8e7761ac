import PageContent.Corpus.Basic
import PageContent.Builder

/-! # The built-in corpus

    Fixtures of every category, which any reader of content streams should
    agree with.
-/

namespace PageContent

namespace Corpus

/-- A page with state blocks, text, marked content and an inline image. -/
def realisticPage : String :=
  "% page content\n" ++
  "q\n" ++
  "1 0 0 1 72 72 cm\n" ++
  "/GS0 gs\n" ++
  "0.2 0.4 0.6 rg\n" ++
  "0 0 200 100 re\n" ++
  "f\n" ++
  "Q\n" ++
  "BT\n" ++
  "/F1 12 Tf\n" ++
  "14 TL\n" ++
  "72 712 Td\n" ++
  "(Hello, World!) Tj\n" ++
  "T*\n" ++
  "[(W) 120 (orld)] TJ\n" ++
  "ET\n" ++
  "/Artifact <</Type /Pagination>> BDC\n" ++
  "0 g\n" ++
  "0 0 m 100 0 l S\n" ++
  "EMC\n" ++
  "q\n" ++
  "100 0 0 100 300 300 cm\n" ++
  "/Im1 Do\n" ++
  "Q\n" ++
  "BI /W 2 /H 2 /BPC 1 /CS /G /F /AHx ID\n" ++
  "F0F0>\n" ++
  "EI\n"

/-- A color operator inside some state blocks. -/
def nested (depth : Nat) : List UInt8 :=
  (Builder.empty.addAll
    (List.replicate depth .saveState ++ [.grayFill (Builder.whole 0)] ++
      List.replicate depth .restoreState)).bytes

/-- A stream given as text. -/
def bytes (text : String) : List UInt8 :=
  Utf8.encode text

/-- The fixtures of the built-in corpus. -/
def builtinFixtures : List Fixture :=
  [
    -- minimal
    .new "empty" .minimal "Empty stream" (bytes "") (.valid (some 0)),
    .new "single_stroke" .minimal "One stroked line"
      (bytes "0 0 m 100 100 l S") (.valid (some 3)),
    .new "filled_rectangle" .minimal "Rectangle filled with nonzero winding"
      (bytes "0 0 200 100 re f") (.valid (some 2)),
    .new "gray_fill" .minimal "Lone color operator" (bytes "0.5 g") (.valid (some 1)),
    -- standard
    .new "text_block" .standard "Single line of text"
      (bytes "BT /F1 12 Tf 72 712 Td (Hello) Tj ET") (.valid (some 5)),
    .new "transformed_path" .standard "Path drawn under a saved CTM"
      (bytes "q 1 0 0 1 50 50 cm 0 0 m 100 100 l S Q") (.valid (some 6)),
    .new "image_xobject" .standard "Image placed through Do"
      (bytes "q 100 0 0 100 0 0 cm /Im1 Do Q") (.valid (some 4)),
    .new "named_xobject" .standard "Do with a name operand" (bytes "/Test Do") (.valid (some 1)),
    .new "artifact" .standard "Marked content sequence"
      (bytes "/Artifact BMC 0 g EMC") (.valid (some 3)),
    .new "page_level_text_state" .standard "Text state outside a text object"
      (bytes "/F1 12 Tf 0 Tc") (.valid (some 2)),
    .new "device_colors" .standard "Every device color operator"
      (bytes "0.1 g 0.1 G 1 0 0 rg 0 1 0 RG 0 0 0 1 k 1 1 1 0 K") (.valid (some 6)),
    .new "clipped_path" .standard "Clip followed by no-op painting"
      (bytes "0 0 100 100 re W n") (.valid (some 3)),
    -- complex
    .new "realistic_page" .complex
      "Page mixing state blocks, text, marked content and an inline image"
      (bytes realisticPage) (.valid (some 28)),
    .new "type3_glyph" .complex "Type 3 glyph description with a bounding box"
      (bytes "750 0 0 -14 700 712 d1\n0 0 m 700 0 l 700 700 l h f") (.valid (some 6)),
    .new "nested_state_blocks" .complex "Ten nested graphics state blocks"
      (nested 10) (.valid (some 21)),
    .new "marked_text" .complex "Marked content inside a text object"
      (bytes "BT /Span <</MCID 3>> BDC /F1 9 Tf (x) Tj EMC ET") (.valid (some 6)),
    .new "compatibility_section" .complex "Unknown operator inside BX/EX"
      (bytes "BX /Foo 1 2 zz EX") (.valid none),
    -- edge cases
    .new "comment_only" .edgeCases "Comments are whitespace"
      (bytes "% nothing to see here\n") (.valid (some 0)),
    .new "glyph_width" .edgeCases "d0 as the only operator" (bytes "0 0 d0") (.valid (some 1)),
    .new "leading_dot_numbers" .edgeCases "Reals without an integer part"
      (bytes ".5 -.25 m 1 1 l S") (.valid (some 3)),
    .new "hex_text" .edgeCases "Hex string shown in a text object"
      (bytes "BT <48656C6C6F> Tj ET") (.valid (some 3)),
    .new "kerned_array" .edgeCases "TJ array mixing strings and numbers"
      (bytes "BT [(A) -120 (B)] TJ ET") (.valid (some 3)),
    .new "nested_properties" .edgeCases "Inline dictionary holding a dictionary and an array"
      (bytes "/OC <</Type /OCMD /Nested <</A [1 2 3]>>>> BDC EMC") (.valid (some 2)),
    .new "binary_inline_image" .edgeCases "Inline image with a binary sample"
      (bytes "BI /W 1 /H 1 /BPC 8 /CS /G ID \x00 EI") (.valid (some 3)),
    .new "no_whitespace_delimiters" .edgeCases "Delimiters separate tokens without whitespace"
      (bytes "BT/F1 12 Tf[(a)2(b)]TJ ET") (.valid (some 4)),
    -- malformed
    .new "curve_missing_operands" .malformed "c with three operands"
      (bytes "0 1 2 c") (.invalid .arity (some 0)),
    .new "word_instead_of_number" .malformed "Bare word before Tc"
      (bytes "Abcde Tc") (.invalid .grammar (some 0)),
    .new "word_instead_of_name" .malformed "Bare word before Do"
      (bytes "Scooby Do") (.invalid .grammar (some 0)),
    .new "font_size_as_name" .malformed "Tf with a name where a number belongs"
      (bytes "BT /F1 /Twelve Tf ET") (.invalid .type (some 7)),
    .new "unterminated_string" .malformed "Literal string never closed"
      (bytes "BT (unterminated Tj ET") (.invalid .lexical (some 3)),
    .new "bad_hex_digit" .malformed "Hex string with a non-hex character"
      (bytes "BT <4G> Tj ET") (.invalid .lexical none),
    .new "malformed_number" .malformed "Number with two decimal points"
      (bytes "1.2.3 g") (.invalid .lexical (some 0)),
    .new "unclosed_text" .malformed "BT without ET"
      (bytes "BT /F1 12 Tf") (.invalid .grammar none),
    .new "unclosed_state_block" .malformed "q without Q" (bytes "q 0 g") (.invalid .grammar none),
    .new "stray_restore" .malformed "Q without q" (bytes "Q") (.invalid .grammar (some 0)),
    .new "text_outside_object" .malformed "Tj at page level"
      (bytes "(Hello) Tj") (.invalid .grammar (some 8)),
    .new "paint_without_path" .malformed "S with no path"
      (bytes "S") (.invalid .grammar (some 0)),
    .new "unpainted_path" .malformed "Path never painted"
      (bytes "0 0 m 1 1 l") (.invalid .grammar none),
    .new "dangling_operands" .malformed "Operands with no operator"
      (bytes "0 g 1 2 3") (.invalid .grammar none),
    .new "matrix_in_text" .malformed "cm inside a text object"
      (bytes "BT 1 0 0 1 0 0 cm ET") (.invalid .grammar none),
    .new "late_glyph_width" .malformed "d0 after other operators"
      (bytes "0 g 0 0 d0") (.invalid .grammar none),
    .new "interleaved_sequences" .malformed "Marked content closed after its text object"
      (bytes "BT /A BMC ET EMC") (.invalid .grammar none),
    .new "too_deep" .malformed "Graphics state nesting past the default limit"
      (nested 40) (.invalid .grammar none),
    -- profiles
    .withProfile .strict (.new "strict_compatibility" .profiles
      "Unknown operator rejected by the strict profile"
      (bytes "BX /Foo 1 2 zz EX") (.invalid .grammar none)),
    .withProfile .lenient (.new "lenient_unclosed_state" .profiles
      "Page split across streams leaves q open"
      (bytes "q 1 0 0 1 0 0 cm q 0 g") (.valid (some 4))),
    .withProfile .lenient (.new "lenient_deep_nesting" .profiles
      "Deep nesting accepted by the lenient profile"
      (nested 40) (.valid (some 81)))
  ]

/-- The names of the built-in fixtures. -/
def builtinNames : List String :=
  builtinFixtures.map (·.name)

/-- The built-in corpus. -/
def builtin : Corpus :=
  ⟨builtinFixtures, by decide +kernel⟩

end Corpus

end PageContent
