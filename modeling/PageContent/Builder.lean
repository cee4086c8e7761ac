import PageContent.Text.Utf8
import PageContent.Decimal.Text

/-! # Writing content streams

    A builder appends operators to a content stream, one line for each.

    * **Commands** are the things that can be asked of a builder. A command is
      a list of instructions, most often of one.
    * **Instructions** are operators with their arguments.
    * **Numbers** that are whole and below `10 ^ 15` are written as integers,
      all others with the fewest digits that read back.
    * **Texts** become strings in parentheses; parentheses and backslashes are
      escaped, and nothing else is.
-/

namespace PageContent

/-- An argument of an operator. -/
inductive Argument where
  | number (value : Binary64)
  | numbers (values : List Binary64)
  | name (text : String)
  | literal (text : String)
  /-- An argument that is written already. -/
  | raw (text : String)
  deriving DecidableEq, Repr

namespace Argument

/-- The text of a number. A zero is written without its sign. -/
def numberText (x : Binary64) : String :=
  match x.units? with
  | some u =>
    if u % Magnitude.one = 0 ∧ u / Magnitude.one < 10 ^ 15 then
      let digits := Nat.toDigits 10 (u / Magnitude.one)
      String.ofList (if u = 0 then digits else x.sign ++ digits)
    else x.text
  | none => x.text

/-- One character of a text in parentheses. -/
def escapeChar (c : Char) : List Char :=
  if c = '(' ∨ c = ')' ∨ c = '\\' then ['\\', c] else [c]

/-- A text in parentheses. -/
def literalText (text : String) : String :=
  String.ofList (['('] ++ text.toList.flatMap escapeChar ++ [')'])

def text : Argument → String
  | number x => numberText x
  | numbers xs => "[" ++ String.intercalate " " (xs.map numberText) ++ "]"
  | name n => "/" ++ n
  | literal s => literalText s
  | raw s => s

end Argument

/-- An operator with its arguments. -/
structure Instruction where
  arguments : List Argument
  keyword : String
  deriving DecidableEq, Repr

/-- A line of a content stream. -/
def Instruction.text (i : Instruction) : String :=
  String.join (i.arguments.map fun a => a.text ++ " ") ++ i.keyword ++ "\n"

/-- What can be asked of a builder. -/
inductive Command where
  | saveState
  | restoreState
  | transform (a b c d e f : Binary64)
  | lineWidth (width : Binary64)
  | dash (pattern : List Binary64) (phase : Binary64)
  | extGState (name : String)
  | moveTo (x y : Binary64)
  | lineTo (x y : Binary64)
  | curveTo (x₁ y₁ x₂ y₂ x₃ y₃ : Binary64)
  | rectangle (x y width height : Binary64)
  | closePath
  | stroke
  | fill
  | clip
  | endPath
  | grayFill (gray : Binary64)
  | rgbFill (r g b : Binary64)
  | rgbStroke (r g b : Binary64)
  | beginText
  | endText
  | font (name : String) (size : Binary64)
  | moveText (x y : Binary64)
  | showText (text : String)
  /-- A text object with a single line. -/
  | textLine (font : String) (size x y : Binary64) (text : String)
  | beginMarkedContent (tag : String)
  | endMarkedContent
  | drawXObject (name : String)
  | comment (text : String)
  /-- Some text as it is, which does not count as operators. -/
  | raw (text : String)
  /-- Any operator, with arguments that are written already. -/
  | op (operands : List String) (keyword : String)
  deriving DecidableEq, Repr

namespace Command

/-- The instructions of a command. -/
def instructions : Command → List Instruction
  | saveState => [⟨[], "q"⟩]
  | restoreState => [⟨[], "Q"⟩]
  | transform a b c d e f => [⟨[a, b, c, d, e, f].map .number, "cm"⟩]
  | lineWidth w => [⟨[.number w], "w"⟩]
  | dash pattern phase => [⟨[.numbers pattern, .number phase], "d"⟩]
  | extGState n => [⟨[.name n], "gs"⟩]
  | moveTo x y => [⟨[x, y].map .number, "m"⟩]
  | lineTo x y => [⟨[x, y].map .number, "l"⟩]
  | curveTo x₁ y₁ x₂ y₂ x₃ y₃ => [⟨[x₁, y₁, x₂, y₂, x₃, y₃].map .number, "c"⟩]
  | rectangle x y w h => [⟨[x, y, w, h].map .number, "re"⟩]
  | closePath => [⟨[], "h"⟩]
  | stroke => [⟨[], "S"⟩]
  | fill => [⟨[], "f"⟩]
  | clip => [⟨[], "W"⟩]
  | endPath => [⟨[], "n"⟩]
  | grayFill g => [⟨[.number g], "g"⟩]
  | rgbFill r g b => [⟨[r, g, b].map .number, "rg"⟩]
  | rgbStroke r g b => [⟨[r, g, b].map .number, "RG"⟩]
  | beginText => [⟨[], "BT"⟩]
  | endText => [⟨[], "ET"⟩]
  | font n size => [⟨[.name n, .number size], "Tf"⟩]
  | moveText x y => [⟨[x, y].map .number, "Td"⟩]
  | showText s => [⟨[.literal s], "Tj"⟩]
  | textLine n size x y s =>
    [⟨[], "BT"⟩, ⟨[.name n, .number size], "Tf"⟩, ⟨[x, y].map .number, "Td"⟩,
      ⟨[.literal s], "Tj"⟩, ⟨[], "ET"⟩]
  | beginMarkedContent tag => [⟨[.name tag], "BMC"⟩]
  | endMarkedContent => [⟨[], "EMC"⟩]
  | drawXObject n => [⟨[.name n], "Do"⟩]
  | comment _ => []
  | raw _ => []
  | op operands keyword => [⟨operands.map .raw, keyword⟩]

/-- The text of a command. -/
def text : Command → String
  | comment s => "% " ++ s ++ "\n"
  | raw s => s
  | c => String.join (c.instructions.map (·.text))

end Command

/-- A content stream that is being written. -/
structure Builder where
  text : String
  /-- The number of operators so far. -/
  operatorCount : Nat
  deriving DecidableEq, Repr, Inhabited

namespace Builder

def empty : Builder :=
  ⟨"", 0⟩

/-- Carry out a command. -/
def add (b : Builder) (c : Command) : Builder :=
  ⟨b.text ++ c.text, b.operatorCount + c.instructions.length⟩

/-- Carry out some commands, in order. -/
def addAll (b : Builder) (cs : List Command) : Builder :=
  cs.foldl add b

/-- The bytes of the stream. -/
def bytes (b : Builder) : List UInt8 :=
  Utf8.encode b.text

/-! ## Laws -/

/-- Commands one after the other are commands all at once. -/
theorem addAll_append (b : Builder) (cs ds : List Command) :
    b.addAll (cs ++ ds) = (b.addAll cs).addAll ds :=
  List.foldl_append

/-- Each command puts its own text at the end. -/
theorem text_addAll (b : Builder) (cs : List Command) :
    (b.addAll cs).text = b.text ++ String.join (cs.map (·.text)) := by
  induction cs generalizing b with
  | nil => simp [addAll]
  | cons c cs ih =>
    show ((b.add c).addAll cs).text = _
    rw [ih, List.map_cons, String.join_cons]
    simp only [add, String.append_assoc]

/-- The count is the number of instructions. -/
theorem operatorCount_addAll (b : Builder) (cs : List Command) :
    (b.addAll cs).operatorCount
      = b.operatorCount + (cs.flatMap (·.instructions)).length := by
  induction cs generalizing b with
  | nil => simp [addAll]
  | cons c cs ih =>
    show ((b.add c).addAll cs).operatorCount = _
    rw [ih]
    simp only [add, List.flatMap_cons, List.length_append]
    omega

/-! ## Sample pages -/

/-- A whole number as an argument. -/
def whole (n : Int) : Binary64 :=
  Binary64.ofInt n

/-- Tenths as an argument. -/
def tenths (n : Nat) : Binary64 :=
  Binary64.ofDecimal false ⟨n, -1⟩

/-- The commands of one stroked path in a state block of its own. -/
def pathCommands (i : Nat) : List Command :=
  let x : Int := (i % 500 : Nat)
  [.saveState, .lineWidth (tenths 5), .rgbStroke (tenths 1) (tenths 2) (tenths 3),
    .moveTo (whole x) (whole 0), .lineTo (whole x) (whole 100),
    .curveTo (whole x) (whole 110) (whole (x + 10)) (whole 120) (whole (x + 20)) (whole 120),
    .stroke, .restoreState]

/-- A page of stroked paths. -/
def pageWithPaths (paths : Nat) : Builder :=
  empty.addAll ((List.range paths).flatMap pathCommands)

/-- The commands of one line of text. -/
def lineCommands (i : Nat) : List Command :=
  [.moveText (whole 0) (whole (-12)), .showText s!"Line {i} of generated (text)"]

/-- A page of text lines in a single text object. -/
def pageWithText (lines : Nat) : Builder :=
  empty.addAll
    ([.beginText, .font "F1" (whole 10)] ++ (List.range lines).flatMap lineCommands ++ [.endText])

end Builder

end PageContent
