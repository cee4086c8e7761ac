import PageContent.Tree.Basic
import PageContent.Json.Write

/-! # Trees as JSON

    A parse tree as a JSON document. Every variant is an object with its tag as
    the only key, fields are in the order of their declaration, and bytes are
    arrays of numbers.

    Finite reals have a point or an exponent, so that they read as reals;
    infinities have no notation and are `null`.
-/

namespace PageContent

/-- Bytes as an array of numbers. -/
def Json.bytes (bytes : List UInt8) : Json :=
  .array (bytes.map fun b => nat b.toNat)

/-- An object with one member. -/
def Json.tagged (tag : String) (value : Json) : Json :=
  record [(tag, value)]

/-- A real as a number: the shortest decimal that reads back, of two equally
    near ones the even one. The positional notation takes at most 16 digits in
    front of the point and at most four zeros right after it. -/
def Binary64.json (x : Binary64) : Json :=
  match x.shortest? .even with
  | some d =>
    .number (x.sign ++
      (if -5 < d.magnitude ∧ d.magnitude ≤ 16 then d.charsWithPoint else d.scientificChars))
  | none => .null

def Span.json (s : Span) : Json :=
  .record [("start", .nat s.start), ("end", .nat s.stop)]

namespace Operand

mutual

def json : Operand → Json
  | integer i => .tagged "Integer" (.number (Decimal.wholeChars i.toInt))
  | real x => .tagged "Real" x.json
  | boolean b => .tagged "Boolean" (.bool b)
  | null => .text "Null"
  | name n => .tagged "Name" (.text n)
  | string form bytes =>
    .tagged "String" (.record [("bytes", .bytes bytes), ("hex", .bool (form == .hex))])
  | array items => .tagged "Array" (.array (jsonItems items))
  | dictionary entries => .tagged "Dictionary" (.array (jsonEntries entries))
  | inlineData bytes => .tagged "InlineData" (.bytes bytes)

def jsonItems : List Operand → List Json
  | [] => []
  | x :: rest => x.json :: jsonItems rest

def jsonEntries : List (String × Operand) → List Json
  | [] => []
  | (key, x) :: rest => .array [.text key, x.json] :: jsonEntries rest

end

end Operand

/-- The fields of an invocation. -/
def Invocation.json (call : Invocation) : Json :=
  .record [
    ("production", .text call.production.tag),
    ("operator", .text call.keyword),
    ("category", (call.category.map fun c => Json.text c.tag).getD .null),
    ("operands", .array (Operand.jsonItems call.operands)),
    ("span", call.span.json)]

namespace Node

mutual

/-- The fields of a node. -/
def fields : Node → Json
  | invocation call => call.json
  | group p cs s =>
    .record [
      ("production", .text p.tag),
      ("children", .array (variants cs)),
      ("span", s.json)]

/-- Nodes with the tags of their variants. -/
def variants : List Node → List Json
  | [] => []
  | c :: cs =>
    .tagged (if c.isGroup then "Group" else "Invocation") c.fields :: variants cs

end

end Node

/-- A content stream is the object of its root. -/
def ContentStream.json (s : ContentStream) : Json :=
  .tagged "root" s.root.fields

end PageContent
