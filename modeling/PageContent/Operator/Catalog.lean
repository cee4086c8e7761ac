import PageContent.Operator.Arity
import PageContent.Production

/-! # The operator catalog

    Every operator of content streams, with its category, the production it
    belongs to, and the operands it takes. Keywords are case-sensitive, and no
    keyword occurs twice.
-/

namespace PageContent

/-- The categories of operators. -/
inductive Category where
  | generalGraphicsState
  | specialGraphicsState
  | pathConstruction
  | pathPainting
  | clippingPath
  | textObject
  | textState
  | textPositioning
  | textShowing
  | type3Font
  | color
  | shadingPattern
  | inlineImage
  | xObject
  | markedContent
  | compatibility
  deriving DecidableEq, Repr, Inhabited

/-- The name of a category as a tag of the tree notation. -/
def Category.tag : Category → String
  | generalGraphicsState => "GeneralGraphicsState"
  | specialGraphicsState => "SpecialGraphicsState"
  | pathConstruction => "PathConstruction"
  | pathPainting => "PathPainting"
  | clippingPath => "ClippingPath"
  | textObject => "TextObject"
  | textState => "TextState"
  | textPositioning => "TextPositioning"
  | textShowing => "TextShowing"
  | type3Font => "Type3Font"
  | color => "Color"
  | shadingPattern => "ShadingPattern"
  | inlineImage => "InlineImage"
  | xObject => "XObject"
  | markedContent => "MarkedContent"
  | compatibility => "Compatibility"

/-- An operator of the catalog. -/
structure Operator where
  keyword : String
  category : Category
  /-- The production of an operator with its operands. -/
  production : Production
  arity : Arity
  deriving DecidableEq, Repr, Inhabited

namespace Operator

/-- This many numbers. -/
def numbers (n : Nat) : List OperandType :=
  List.replicate n .number

/-- All operators, by category. -/
def catalog : List Operator :=
  [
    -- general graphics state
    ⟨"w", .generalGraphicsState, .lineWidth, .fixed [.number]⟩,
    ⟨"J", .generalGraphicsState, .lineCap, .fixed [.integer]⟩,
    ⟨"j", .generalGraphicsState, .lineJoin, .fixed [.integer]⟩,
    ⟨"M", .generalGraphicsState, .miterLimit, .fixed [.number]⟩,
    ⟨"d", .generalGraphicsState, .dashPattern, .fixed [.numberArray, .number]⟩,
    ⟨"ri", .generalGraphicsState, .renderingIntent, .fixed [.name]⟩,
    ⟨"i", .generalGraphicsState, .flatness, .fixed [.number]⟩,
    ⟨"gs", .generalGraphicsState, .extGState, .fixed [.name]⟩,
    -- special graphics state
    ⟨"q", .specialGraphicsState, .saveState, .fixed []⟩,
    ⟨"Q", .specialGraphicsState, .restoreState, .fixed []⟩,
    ⟨"cm", .specialGraphicsState, .concatMatrix, .fixed (numbers 6)⟩,
    -- path construction
    ⟨"m", .pathConstruction, .moveTo, .fixed (numbers 2)⟩,
    ⟨"l", .pathConstruction, .lineTo, .fixed (numbers 2)⟩,
    ⟨"c", .pathConstruction, .curveTo, .fixed (numbers 6)⟩,
    ⟨"v", .pathConstruction, .curveTo2, .fixed (numbers 4)⟩,
    ⟨"y", .pathConstruction, .curveTo3, .fixed (numbers 4)⟩,
    ⟨"h", .pathConstruction, .closePath, .fixed []⟩,
    ⟨"re", .pathConstruction, .rectangle, .fixed (numbers 4)⟩,
    -- path painting
    ⟨"S", .pathPainting, .pathPainting, .fixed []⟩,
    ⟨"s", .pathPainting, .pathPainting, .fixed []⟩,
    ⟨"f", .pathPainting, .pathPainting, .fixed []⟩,
    ⟨"F", .pathPainting, .pathPainting, .fixed []⟩,
    ⟨"f*", .pathPainting, .pathPainting, .fixed []⟩,
    ⟨"B", .pathPainting, .pathPainting, .fixed []⟩,
    ⟨"B*", .pathPainting, .pathPainting, .fixed []⟩,
    ⟨"b", .pathPainting, .pathPainting, .fixed []⟩,
    ⟨"b*", .pathPainting, .pathPainting, .fixed []⟩,
    ⟨"n", .pathPainting, .endPath, .fixed []⟩,
    -- clipping paths
    ⟨"W", .clippingPath, .clipping, .fixed []⟩,
    ⟨"W*", .clippingPath, .clipping, .fixed []⟩,
    -- text objects
    ⟨"BT", .textObject, .beginText, .fixed []⟩,
    ⟨"ET", .textObject, .endText, .fixed []⟩,
    -- text state
    ⟨"Tc", .textState, .characterSpace, .fixed [.number]⟩,
    ⟨"Tw", .textState, .wordSpace, .fixed [.number]⟩,
    ⟨"Tz", .textState, .horizontalScale, .fixed [.number]⟩,
    ⟨"TL", .textState, .leading, .fixed [.number]⟩,
    ⟨"Tf", .textState, .textFont, .fixed [.name, .number]⟩,
    ⟨"Tr", .textState, .textRender, .fixed [.integer]⟩,
    ⟨"Ts", .textState, .textRise, .fixed [.number]⟩,
    -- text positioning
    ⟨"Td", .textPositioning, .moveText, .fixed (numbers 2)⟩,
    ⟨"TD", .textPositioning, .moveTextLeading, .fixed (numbers 2)⟩,
    ⟨"Tm", .textPositioning, .textMatrix, .fixed (numbers 6)⟩,
    ⟨"T*", .textPositioning, .nextLine, .fixed []⟩,
    -- text showing
    ⟨"Tj", .textShowing, .showText, .fixed [.string]⟩,
    ⟨"TJ", .textShowing, .showTextArray, .fixed [.textArray]⟩,
    ⟨"'", .textShowing, .nextLineShowText, .fixed [.string]⟩,
    ⟨"\"", .textShowing, .nextLineShowTextSpaced, .fixed [.number, .number, .string]⟩,
    -- type 3 fonts
    ⟨"d0", .type3Font, .glyphWidth, .fixed (numbers 2)⟩,
    ⟨"d1", .type3Font, .glyphWidthBoundingBox, .fixed (numbers 6)⟩,
    -- color
    ⟨"CS", .color, .colorSpace, .fixed [.name]⟩,
    ⟨"cs", .color, .colorSpace, .fixed [.name]⟩,
    ⟨"SC", .color, .color, .range 1 4 .number⟩,
    ⟨"sc", .color, .color, .range 1 4 .number⟩,
    ⟨"SCN", .color, .colorN, .patternColor⟩,
    ⟨"scn", .color, .colorN, .patternColor⟩,
    ⟨"G", .color, .gray, .fixed [.number]⟩,
    ⟨"g", .color, .gray, .fixed [.number]⟩,
    ⟨"RG", .color, .rgb, .fixed (numbers 3)⟩,
    ⟨"rg", .color, .rgb, .fixed (numbers 3)⟩,
    ⟨"K", .color, .cmyk, .fixed (numbers 4)⟩,
    ⟨"k", .color, .cmyk, .fixed (numbers 4)⟩,
    -- shading patterns
    ⟨"sh", .shadingPattern, .shading, .fixed [.name]⟩,
    -- inline images
    ⟨"BI", .inlineImage, .beginInlineImage, .fixed []⟩,
    ⟨"ID", .inlineImage, .inlineImageData, .keyValuePairs⟩,
    ⟨"EI", .inlineImage, .endInlineImage, .inlineData⟩,
    -- external objects
    ⟨"Do", .xObject, .dObject, .fixed [.name]⟩,
    -- marked content
    ⟨"MP", .markedContent, .markedContentPoint, .fixed [.name]⟩,
    ⟨"DP", .markedContent, .markedContentPoint, .fixed [.name, .nameOrDictionary]⟩,
    ⟨"BMC", .markedContent, .beginMarkedContent, .fixed [.name]⟩,
    ⟨"BDC", .markedContent, .beginMarkedContent, .fixed [.name, .nameOrDictionary]⟩,
    ⟨"EMC", .markedContent, .endMarkedContent, .fixed []⟩,
    -- compatibility
    ⟨"BX", .compatibility, .beginCompatibility, .fixed []⟩,
    ⟨"EX", .compatibility, .endCompatibility, .fixed []⟩
  ]

/-- The keywords, in the order of the catalog. -/
def keywords : List String :=
  catalog.map (·.keyword)

/-- The operator of a keyword. -/
def lookup? (keyword : String) : Option Operator :=
  catalog.find? fun op => op.keyword = keyword

/-- The operators of a production. -/
def ofProduction (p : Production) : List Operator :=
  catalog.filter fun op => op.production = p

/-- Alternatives in a message: commas, and `or` before the last. -/
def alternatives : List String → String
  | [] => ""
  | [a] => a
  | [a, b] => a ++ " or " ++ b
  | a :: rest => a ++ ", " ++ alternatives rest

/-- The keywords of a production in a message, quoted; the name of the rule if
    it has none. -/
def expected (p : Production) : String :=
  match ofProduction p with
  | [] => p.name
  | ops => alternatives (ops.map fun op => "'" ++ op.keyword ++ "'")

/-! ## Laws -/

/-- No keyword occurs twice. -/
theorem nodup_keywords : keywords.Nodup := by
  decide +kernel

/-- A look-up finds an operator with the keyword that was asked for. -/
theorem keyword_of_lookup? {keyword : String} {op : Operator} (h : lookup? keyword = some op) :
    op.keyword = keyword := by
  simpa using List.find?_some h

/-- A look-up finds operators of the catalog only. -/
theorem mem_catalog_of_lookup? {keyword : String} {op : Operator} (h : lookup? keyword = some op) :
    op ∈ catalog :=
  List.mem_of_find?_eq_some h

end Operator

end PageContent
