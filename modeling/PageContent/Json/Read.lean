import PageContent.Json.Basic

/-! # Reading JSON documents

    In two stages, each a function on a list.

    * **Marks**: brackets, commas, colons and scalars. Numbers and strings are
      checked for their spelling; blanks are left out.
    * **Assembly**: one step per mark, with the open arrays and objects in a
      stack of holes that wait for a value.
    * **Whole documents**: nothing but blanks may follow.
-/

namespace PageContent

namespace Json

/-! ## Marks -/

/-- What a document is made of. -/
inductive Mark where
  | arrayOpen
  | arrayClose
  | objectOpen
  | objectClose
  | comma
  | colon
  | null
  | bool (value : Bool)
  | number (literal : List Char)
  | string (literal : List Char)
  deriving DecidableEq, Repr

/-- The blanks of JSON: space, tab, line feed and carriage return. -/
def isBlank (c : Char) : Bool :=
  c == ' ' || c == '\t' || c == '\n' || c == '\r'

/-- The number of characters of an escape after its backslash. -/
def escapeWidth? : List Char → Option Nat
  | [] => none
  | e :: more =>
    if e = 'u' then (hexUnit? more).map fun _ => 5
    else (shortEscape? e).map fun _ => 1

/-- The number of characters in front of the closing quote of a string. Controls
    must be escaped. -/
def stringLength? : List Char → Option Nat
  | [] => none
  | c :: rest =>
    if c = '"' then some 0
    else if c = '\\' then
      match escapeWidth? rest with
      | some width => (stringLength? (rest.drop width)).map (· + (width + 1))
      | none => none
    else if c.toNat < 0x20 then none
    else (stringLength? rest).map (· + 1)
termination_by cs => cs.length

/-- The digits in front. -/
def digits (cs : List Char) : List Char :=
  cs.takeWhile Char.isDigit

/-- The length of the whole part of a number: a zero, or digits that do not
    start with one. -/
def wholeLength? : List Char → Option Nat
  | [] => none
  | c :: rest =>
    if c = '0' then some 1
    else if c.isDigit then some (digits (c :: rest)).length
    else none

/-- The length of the fraction of a number, which may be missing. -/
def fractionLength? : List Char → Option Nat
  | '.' :: rest => if digits rest = [] then none else some ((digits rest).length + 1)
  | _ => some 0

/-- The length of the sign of an exponent, which may be missing. -/
def signLength : List Char → Nat
  | '+' :: _ => 1
  | '-' :: _ => 1
  | _ => 0

/-- The length of the exponent of a number, which may be missing. -/
def exponentLength? : List Char → Option Nat
  | [] => some 0
  | c :: rest =>
    if c = 'e' ∨ c = 'E' then
      let sign := signLength rest
      let ds := digits (rest.drop sign)
      if ds = [] then none else some (ds.length + sign + 1)
    else some 0

/-- The length of a number. -/
def numberLength? (cs : List Char) : Option Nat := do
  let sign := if cs.head? = some '-' then 1 else 0
  let cs := cs.drop sign
  let whole ← wholeLength? cs
  let cs := cs.drop whole
  let fraction ← fractionLength? cs
  let exponent ← exponentLength? (cs.drop fraction)
  return sign + whole + fraction + exponent

/-- The mark of one character. -/
def punctuation? (c : Char) : Option Mark :=
  if c = '[' then some .arrayOpen
  else if c = ']' then some .arrayClose
  else if c = Char.ofNat 0x7B then some .objectOpen
  else if c = Char.ofNat 0x7D then some .objectClose
  else if c = ',' then some .comma
  else if c = ':' then some .colon
  else none

/-- The mark that starts with `c`, and the number of characters after `c` that
    belong to it. -/
def mark? (c : Char) (rest : List Char) : Option (Mark × Nat) :=
  match punctuation? c with
  | some m => some (m, 0)
  | none =>
    if c = '"' then
      (stringLength? rest).map fun n => (.string (rest.take n), n + 1)
    else if c = '-' ∨ c.isDigit then
      (numberLength? (c :: rest)).map fun n => (.number ((c :: rest).take n), n - 1)
    else if (c :: rest).take 4 = "null".toList then some (.null, 3)
    else if (c :: rest).take 4 = "true".toList then some (.bool true, 3)
    else if (c :: rest).take 5 = "false".toList then some (.bool false, 4)
    else none

/-- The marks of a text. -/
def marks? : List Char → Option (List Mark)
  | [] => some []
  | c :: rest =>
    if isBlank c then marks? rest
    else
      match mark? c rest with
      | some (m, taken) => (marks? (rest.drop taken)).map (m :: ·)
      | none => none
termination_by cs => cs.length

/-! ## Assembly -/

/-- A place in an open array or object that waits for a value. What came before
    is in reverse. -/
inductive Hole where
  | item (before : List Json)
  | member (before : List (List Char × Json)) (key : List Char)
  deriving Repr

/-- A document between two marks. Holes have the innermost first. -/
inductive Draft where
  /-- A value must come. -/
  | value (holes : List Hole)
  /-- After the bracket of an array: an item or its end. -/
  | arrayStart (holes : List Hole)
  /-- After an item: a comma or the end of the array. -/
  | afterItem (items : List Json) (holes : List Hole)
  /-- After the brace of an object: a key or its end. -/
  | objectStart (holes : List Hole)
  /-- After a comma in an object: a key. -/
  | nextKey (members : List (List Char × Json)) (holes : List Hole)
  /-- After a key. -/
  | colon (members : List (List Char × Json)) (key : List Char) (holes : List Hole)
  /-- After a member: a comma or the end of the object. -/
  | afterMember (members : List (List Char × Json)) (holes : List Hole)
  | complete (document : Json)
  deriving Repr

namespace Draft

/-- Put a value into the innermost hole. -/
def fill (x : Json) : List Hole → Draft
  | [] => .complete x
  | .item before :: holes => .afterItem (x :: before) holes
  | .member before key :: holes => .afterMember ((key, x) :: before) holes

/-- A mark where a value must come. -/
def begin? (holes : List Hole) : Mark → Option Draft
  | .null => some (fill .null holes)
  | .bool b => some (fill (.bool b) holes)
  | .number literal => some (fill (.number literal) holes)
  | .string literal => some (fill (.string literal) holes)
  | .arrayOpen => some (.arrayStart holes)
  | .objectOpen => some (.objectStart holes)
  | _ => none

/-- The draft after a mark. -/
def step? : Draft → Mark → Option Draft
  | .value holes, m => begin? holes m
  | .arrayStart holes, .arrayClose => some (fill (.array []) holes)
  | .arrayStart holes, m => begin? (.item [] :: holes) m
  | .afterItem items holes, .comma => some (.value (.item items :: holes))
  | .afterItem items holes, .arrayClose => some (fill (.array items.reverse) holes)
  | .objectStart holes, .objectClose => some (fill (.object []) holes)
  | .objectStart holes, .string key => some (.colon [] key holes)
  | .nextKey members holes, .string key => some (.colon members key holes)
  | .colon members key holes, .colon => some (.value (.member members key :: holes))
  | .afterMember members holes, .comma => some (.nextKey members holes)
  | .afterMember members holes, .objectClose => some (fill (.object members.reverse) holes)
  | _, _ => none

/-- The document that the marks complete. -/
def run? : Draft → List Mark → Option Json
  | .complete x, [] => some x
  | _, [] => none
  | d, m :: rest =>
    match d.step? m with
    | some d' => run? d' rest
    | none => none

end Draft

/-- The document of a text. -/
def read? (text : String) : Option Json :=
  match marks? text.toList with
  | some ms => (Draft.value []).run? ms
  | none => none

end Json

end PageContent
