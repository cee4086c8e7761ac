/-! # JSON documents

    Documents keep numbers and strings as they are spelt.

    * **Spelling**: the literal of a number, and the characters between the
      quotes of a string with its escapes. Not every string that can be spelt
      is a text: an escape may name half of a surrogate pair.
    * **Texts**: `quote` spells a text, and `unquote?` finds the text that a
      spelling stands for.
    * **Objects** keep their members in order, repeated keys included.
-/

namespace PageContent

/-- A JSON document. -/
inductive Json where
  | null
  | bool (value : Bool)
  | number (literal : List Char)
  /-- The characters between the quotes, which are also those of a key. -/
  | string (literal : List Char)
  | array (items : List Json)
  | object (members : List (List Char × Json))
  deriving Repr, Inhabited

namespace Json

/-! ## Texts -/

/-- A hexadecimal digit of either case. -/
def hexValue? (c : Char) : Option Nat :=
  if '0' ≤ c ∧ c ≤ '9' then some (c.toNat - '0'.toNat)
  else if 'a' ≤ c ∧ c ≤ 'f' then some (c.toNat - 'a'.toNat + 10)
  else if 'A' ≤ c ∧ c ≤ 'F' then some (c.toNat - 'A'.toNat + 10)
  else none

/-- The lower-case hexadecimal digit of a value below 16. -/
def hexDigit (n : Nat) : Char :=
  Char.ofNat (if n < 10 then 0x30 + n else 0x61 + (n - 10))

/-- A character as it is spelt in a string: quotes, backslashes and controls
    are escaped, all others stand for themselves. -/
def quoteChar (c : Char) : List Char :=
  if c = '"' then ['\\', '"']
  else if c = '\\' then ['\\', '\\']
  else if c.toNat = 0x08 then ['\\', 'b']
  else if c.toNat = 0x0C then ['\\', 'f']
  else if c = '\n' then ['\\', 'n']
  else if c = '\r' then ['\\', 'r']
  else if c = '\t' then ['\\', 't']
  else if c.toNat < 0x20 then
    ['\\', 'u', '0', '0', hexDigit (c.toNat / 16), hexDigit (c.toNat % 16)]
  else [c]

/-- A text as it is spelt in a string. -/
def quote (text : String) : List Char :=
  text.toList.flatMap quoteChar

/-- The character of an escape of one letter. -/
def shortEscape? (c : Char) : Option Char :=
  if c = '"' ∨ c = '\\' ∨ c = '/' then some c
  else if c = 'b' then some (Char.ofNat 0x08)
  else if c = 'f' then some (Char.ofNat 0x0C)
  else if c = 'n' then some '\n'
  else if c = 'r' then some '\r'
  else if c = 't' then some '\t'
  else none

/-- The number that four hexadecimal digits at the front spell. -/
def hexUnit? : List Char → Option Nat
  | a :: b :: c :: d :: _ =>
    match hexValue? a, hexValue? b, hexValue? c, hexValue? d with
    | some a, some b, some c, some d => some (((a * 16 + b) * 16 + c) * 16 + d)
    | _, _, _, _ => none
  | _ => none

/-- Whether a UTF-16 unit is the first half of a surrogate pair. -/
def isHighSurrogate (n : Nat) : Bool :=
  0xD800 ≤ n && n ≤ 0xDBFF

/-- Whether a UTF-16 unit is the second half of a surrogate pair. -/
def isLowSurrogate (n : Nat) : Bool :=
  0xDC00 ≤ n && n ≤ 0xDFFF

/-- The character of a numbered escape, after its `u`, and the number of
    characters that it takes. Two escapes that form a surrogate pair are one
    character; half a pair is none. -/
def numberedEscape? (cs : List Char) : Option (Char × Nat) :=
  match hexUnit? cs with
  | none => none
  | some n =>
    if isHighSurrogate n then
      match cs.drop 4 with
      | '\\' :: 'u' :: more =>
        match hexUnit? more with
        | some m =>
          if isLowSurrogate m then
            some (Char.ofNat (0x10000 + (n - 0xD800) * 0x400 + (m - 0xDC00)), 10)
          else none
        | none => none
      | _ => none
    else if isLowSurrogate n then none
    else some (Char.ofNat n, 4)

/-- The characters of the text that is spelt like this. -/
def unquoteChars? : List Char → Option (List Char)
  | [] => some []
  | c :: rest =>
    if c = '\\' then
      match rest with
      | [] => none
      | e :: more =>
        if e = 'u' then
          match numberedEscape? more with
          | some (x, taken) => (unquoteChars? (more.drop taken)).map (x :: ·)
          | none => none
        else
          match shortEscape? e with
          | some x => (unquoteChars? more).map (x :: ·)
          | none => none
    else (unquoteChars? rest).map (c :: ·)
termination_by cs => cs.length

/-- The text that is spelt like this. -/
def unquote? (literal : List Char) : Option String :=
  (unquoteChars? literal).map String.ofList

/-! ## Values -/

/-- A text as a document. -/
def text (s : String) : Json :=
  .string (quote s)

/-- A whole number as a document. -/
def nat (n : Nat) : Json :=
  .number (Nat.toDigits 10 n)

/-- A number, or `null` where there is none. -/
def natOrNull : Option Nat → Json
  | some n => nat n
  | none => null

/-- An object with these members. -/
def record (members : List (String × Json)) : Json :=
  .object (members.map fun (key, value) => (quote key, value))

/-- The text of a string. -/
def text? : Json → Option String
  | .string literal => unquote? literal
  | _ => none

/-- The value of a number that is spelt with digits only. -/
def nat? : Json → Option Nat
  | .number literal =>
    if literal.all Char.isDigit then some (Nat.ofDigitChars 10 literal 0) else none
  | _ => none

/-- The items of an array. -/
def items? : Json → Option (List Json)
  | .array items => some items
  | _ => none

/-- The members of an object, if all its keys are texts. -/
def members? : Json → Option (List (String × Json))
  | .object members => members.mapM fun (key, value) => (unquote? key).map (·, value)
  | _ => none

end Json

end PageContent
