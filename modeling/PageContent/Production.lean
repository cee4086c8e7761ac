/-! # Productions

    The grammar rules of content streams. Each node of a parse tree belongs to
    one of them.

    * **Groups** consist of parts: the whole stream, paths, text objects, state
      blocks, marked content, compatibility sections and inline images.
    * **Single operators**: every other production is one operator with its
      operands.
    * **Levels**: the two kinds of place at which an operator may stand.
-/

namespace PageContent

/-- The grammar rules. -/
inductive Production where
  -- Productions with parts
  | content | pathObject | pathConstruction | textObject | graphicsStateBlock | markedContent
  | compatibility | inlineImage
  -- Path construction
  | moveTo | lineTo | curveTo | curveTo2 | curveTo3 | closePath | rectangle
  -- Path painting and clipping
  | pathPainting | endPath | clipping
  -- Text
  | beginText | endText | characterSpace | wordSpace | horizontalScale | leading | textFont
  | textRender | textRise | moveText | moveTextLeading | textMatrix | nextLine | showText
  | showTextArray | nextLineShowText | nextLineShowTextSpaced
  -- Graphics state
  | saveState | restoreState | concatMatrix | lineWidth | lineCap | lineJoin | miterLimit
  | dashPattern | renderingIntent | flatness | extGState
  -- Color
  | colorSpace | color | colorN | gray | rgb | cmyk
  -- Everything else
  | shading | dObject | glyphWidth | glyphWidthBoundingBox | beginInlineImage | inlineImageData
  | endInlineImage | markedContentPoint | beginMarkedContent | endMarkedContent
  | beginCompatibility | endCompatibility
  /-- An operator outside the catalog, tolerated in a compatibility section. -/
  | unknownOperator
  deriving DecidableEq, Repr, Inhabited

namespace Production

/-- The name of the rule. -/
def name : Production → String
  | .content => "content"
  | .pathObject => "pathObject"
  | .pathConstruction => "pathConstruction"
  | .textObject => "textObject"
  | .graphicsStateBlock => "graphicsStateBlock"
  | .markedContent => "markedContent"
  | .compatibility => "compatibility"
  | .inlineImage => "inlineImage"
  | .moveTo => "moveTo"
  | .lineTo => "lineTo"
  | .curveTo => "curveTo"
  | .curveTo2 => "curveTo2"
  | .curveTo3 => "curveTo3"
  | .closePath => "closePath"
  | .rectangle => "rectangle"
  | .pathPainting => "pathPainting"
  | .endPath => "endPath"
  | .clipping => "clipping"
  | .beginText => "beginText"
  | .endText => "endText"
  | .characterSpace => "characterSpace"
  | .wordSpace => "wordSpace"
  | .horizontalScale => "horizontalScale"
  | .leading => "leading"
  | .textFont => "textFont"
  | .textRender => "textRender"
  | .textRise => "textRise"
  | .moveText => "moveText"
  | .moveTextLeading => "moveTextLeading"
  | .textMatrix => "textMatrix"
  | .nextLine => "nextLine"
  | .showText => "showText"
  | .showTextArray => "showTextArray"
  | .nextLineShowText => "nextLineShowText"
  | .nextLineShowTextSpaced => "nextLineShowTextSpaced"
  | .saveState => "saveState"
  | .restoreState => "restoreState"
  | .concatMatrix => "concatMatrix"
  | .lineWidth => "lineWidth"
  | .lineCap => "lineCap"
  | .lineJoin => "lineJoin"
  | .miterLimit => "miterLimit"
  | .dashPattern => "dashPattern"
  | .renderingIntent => "renderingIntent"
  | .flatness => "flatness"
  | .extGState => "extGState"
  | .colorSpace => "colorSpace"
  | .color => "color"
  | .colorN => "colorN"
  | .gray => "gray"
  | .rgb => "rgb"
  | .cmyk => "cmyk"
  | .shading => "shading"
  | .dObject => "dobject"
  | .glyphWidth => "glyphWidth"
  | .glyphWidthBoundingBox => "glyphWidthBoundingBox"
  | .beginInlineImage => "beginInlineImage"
  | .inlineImageData => "inlineImageData"
  | .endInlineImage => "endInlineImage"
  | .markedContentPoint => "markedContentPoint"
  | .beginMarkedContent => "beginMarkedContent"
  | .endMarkedContent => "endMarkedContent"
  | .beginCompatibility => "beginCompatibility"
  | .endCompatibility => "endCompatibility"
  | .unknownOperator => "unknownOperator"

/-- The name of the rule as a tag of the tree notation: capitalised, with a
    capital `O` in `DObject`. -/
def tag (p : Production) : String :=
  if p = .dObject then "DObject" else p.name.capitalize

/-- All productions, groups first. -/
def all : List Production :=
  [.content, .pathObject, .pathConstruction, .textObject, .graphicsStateBlock, .markedContent,
    .compatibility, .inlineImage, .moveTo, .lineTo, .curveTo, .curveTo2, .curveTo3, .closePath,
    .rectangle, .pathPainting, .endPath, .clipping, .beginText, .endText, .characterSpace,
    .wordSpace, .horizontalScale, .leading, .textFont, .textRender, .textRise, .moveText,
    .moveTextLeading, .textMatrix, .nextLine, .showText, .showTextArray, .nextLineShowText,
    .nextLineShowTextSpaced, .saveState, .restoreState, .concatMatrix, .lineWidth, .lineCap,
    .lineJoin, .miterLimit, .dashPattern, .renderingIntent, .flatness, .extGState, .colorSpace,
    .color, .colorN, .gray, .rgb, .cmyk, .shading, .dObject, .glyphWidth, .glyphWidthBoundingBox,
    .beginInlineImage, .inlineImageData, .endInlineImage, .markedContentPoint,
    .beginMarkedContent, .endMarkedContent, .beginCompatibility, .endCompatibility,
    .unknownOperator]

/-- The production of a rule name. -/
def ofName? (name : String) : Option Production :=
  all.find? fun p => p.name = name

/-- Whether the production consists of parts. -/
def isGroup : Production → Bool
  | .content | .pathObject | .pathConstruction | .textObject => true
  | .graphicsStateBlock | .markedContent | .compatibility | .inlineImage => true
  | _ => false

/-- No production is missing from the list. -/
theorem mem_all (p : Production) : p ∈ all := by
  cases p <;> decide

end Production

/-! ## Levels -/

/-- Where an operator stands: inside a text object, or anywhere else. -/
inductive Level where
  | page
  | text
  deriving DecidableEq, Repr, Inhabited

end PageContent
