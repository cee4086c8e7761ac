import PageContent.Json.Basic

/-! # Writing JSON documents

    * **Compact**: no blanks at all.
    * **Indented**: one item or member per line, two more spaces on each level,
      and a space after the colon. Empty arrays and objects stay on one line.
-/

namespace PageContent

namespace Json

/-- A string or key with its quotes. -/
def quoted (literal : List Char) : List Char :=
  ['"'] ++ literal ++ ['"']

/-- The characters that open and close objects. -/
def openBrace : Char := Char.ofNat 0x7B

def closeBrace : Char := Char.ofNat 0x7D

/-- The notation of a document without parts. -/
def scalarChars : Json → List Char
  | .null => "null".toList
  | .bool true => "true".toList
  | .bool false => "false".toList
  | .number literal => literal
  | .string literal => quoted literal
  | .array _ => []
  | .object _ => []

/-! ## Compact notation -/

mutual

/-- The compact notation. -/
def compact : Json → List Char
  | .array items => ['['] ++ compactItems items ++ [']']
  | .object members => [openBrace] ++ compactMembers members ++ [closeBrace]
  | scalar => scalar.scalarChars

def compactItems : List Json → List Char
  | [] => []
  | [x] => x.compact
  | x :: rest => x.compact ++ [','] ++ compactItems rest

def compactMembers : List (List Char × Json) → List Char
  | [] => []
  | [(key, x)] => quoted key ++ [':'] ++ x.compact
  | (key, x) :: rest => quoted key ++ [':'] ++ x.compact ++ [','] ++ compactMembers rest

end

/-! ## Indented notation -/

/-- A new line on some level. -/
def newLine (level : Nat) : List Char :=
  '\n' :: List.replicate (2 * level) ' '

mutual

/-- The indented notation of a document that stands on some level. -/
def indented (level : Nat) : Json → List Char
  | .array [] => ['[', ']']
  | .array (x :: rest) =>
    ['['] ++ indentedItems (level + 1) (x :: rest) ++ newLine level ++ [']']
  | .object [] => [openBrace, closeBrace]
  | .object (m :: rest) =>
    [openBrace] ++ indentedMembers (level + 1) (m :: rest) ++ newLine level ++ [closeBrace]
  | scalar => scalar.scalarChars

def indentedItems (level : Nat) : List Json → List Char
  | [] => []
  | [x] => newLine level ++ x.indented level
  | x :: rest => newLine level ++ x.indented level ++ [','] ++ indentedItems level rest

def indentedMembers (level : Nat) : List (List Char × Json) → List Char
  | [] => []
  | [(key, x)] => newLine level ++ quoted key ++ [':', ' '] ++ x.indented level
  | (key, x) :: rest =>
    newLine level ++ quoted key ++ [':', ' '] ++ x.indented level ++ [','] ++
      indentedMembers level rest

end

/-- The indented notation of a whole document. -/
def pretty (x : Json) : String :=
  String.ofList (x.indented 0)

/-- The compact notation as a string. -/
def compactText (x : Json) : String :=
  String.ofList x.compact

end Json

end PageContent
